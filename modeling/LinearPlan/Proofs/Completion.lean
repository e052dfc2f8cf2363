import LinearPlan.Optimizer.Run
import LinearPlan.Proofs.CallSequences
import LinearPlan.Proofs.Roots

/-!
# Passes come to an end

On a valid graph whose shapes are settled a pass with the rules of this library does not fail. It
returns one node for each root, and leaves a valid graph. This needs that variables have types of
their own: a variable whose type has a negative code can make a product that is sized one way before
its factors are reordered and another way afterwards.
-/
namespace LinearPlan

namespace Optimizer
open LinearPlan.Graph

/-- A pass over a valid graph with settled shapes succeeds, and leaves a valid graph. -/
theorem optimize_completes {rules : List Rule} {g : Graph} {roots : List NodeId}
    (hrules : ∀ r ∈ rules, Standard r) (hc : g.check = .ok ()) (hs : g.Refreshed)
    (hd : g.Declared) (hroots : ∀ r ∈ roots, ∃ n, g.get? r = some n ∧ n.retired = false)
    (validate : Bool) :
    ∃ newRoots, (optimize rules validate g roots).result = .ok newRoots ∧
      newRoots.length = roots.length ∧
      (optimize rules validate g roots).pass.graph.check = .ok () := by
  have hstart : Steady (fun _ => True) (.start g) :=
    ⟨sound_of_check hc hs hd, fun _ _ => trivial, fun _ _ _ _ _ _ => trivial, ⟨nofun, nofun, nofun⟩,
      nofun⟩
  have hknown : ∀ r ∈ roots, True ∧ Known (Pass.start g).graph r := fun r hr => by
    obtain ⟨n, hn, hlive⟩ := hroots r hr
    exact ⟨trivial, known_of_plan (plan_eq_some hn hlive)⟩
  obtain ⟨p, hrun, hmoves⟩ := PassM.run_ok hrules hstart rfl hknown
  have hsound := (hstart.moves hmoves).sound
  have hcheck : p.graph.check = .ok () := check_eq_ok_iff.2 ⟨hsound.toLinked, hsound.acyclic⟩
  have hopt : optimize rules validate g roots = ⟨.ok (roots.map p.latest), p⟩ := by
    unfold optimize
    rw [hrun]
    simp only [hcheck]
    split <;> rfl
  rw [hopt]
  exact ⟨_, rfl, List.length_map .., hcheck⟩

/-- A variable whose type has a negative code, as a factor beside a scalar. -/
def untypedFactor : Graph :=
  (Graph.empty "g").afterCalls [.data "O" (.ofCode (-5)) 0 0 0, .scalar "s", .mult 0 1, .mult 2 0,
    .literal (.ofInt 1), .leftIndexing ⟨true, true⟩ 3 1 4 4 4 4, .matrix "M" 5 5 (-1), .mult 6 6,
    .mult 7 6, .binary .plus 5 8]

/-- Without types of their own for variables a pass can fail on a valid graph. -/
theorem optimize_untyped_fails : untypedFactor.check = .ok () ∧ untypedFactor.Refreshed ∧
    (∃ n, untypedFactor.get? 9 = some n ∧ n.retired = false) ∧ ∀ newRoots,
      (optimize [Factoring.rule] false untypedFactor [9]).result ≠ .ok newRoots := by
  have hsettled : ∀ x ∈ untypedFactor.ids, untypedFactor.isSettledAt x = true := by decide +kernel
  have hlive : (untypedFactor.get? 9).map Node.retired = some false := by decide +kernel
  have hfail : (optimize [Factoring.rule] false untypedFactor [9]).result.isOk = false := by
    decide +kernel
  refine ⟨by decide +kernel, refreshed_of_settled hsettled, Option.map_eq_some_iff.1 hlive, ?_⟩
  intro newRoots hok
  rw [hok] at hfail
  cases hfail

def writesAndPower : Graph :=
  (Graph.empty "g").afterCalls [.matrix "A" 3 4 (-1), .mult 0 0, .mult 1 0, .literal (.ofInt 2),
    .literal (.ofInt 1), .leftIndexing ⟨true, true⟩ 2 4 3 3 4 4,
    .leftIndexing ⟨true, true⟩ 5 4 3 3 3 3, .write "B" 6]

theorem optimize_completes_writesAndPower : writesAndPower.check = .ok () ∧
    writesAndPower.Refreshed ∧ writesAndPower.Declared ∧
    ∃ newRoots, (optimize [Slicing.rule [.row], Factoring.rule] true writesAndPower [7]).result =
      .ok newRoots ∧ newRoots.length = 1 ∧
      (optimize [Slicing.rule [.row], Factoring.rule] true writesAndPower [7]).pass.graph.check =
        .ok () := by
  have hcheck : writesAndPower.check = .ok () := by decide +kernel
  have hsettled : writesAndPower.Refreshed := refreshed_of_settled (by decide +kernel)
  have hdeclared : writesAndPower.Declared := declared_of_ids (by decide +kernel)
  have hlive : (writesAndPower.get? 7).map Node.retired = some false := by decide +kernel
  refine ⟨hcheck, hsettled, hdeclared, optimize_completes ?_ hcheck hsettled hdeclared ?_ true⟩
  · intro r hr
    rcases List.mem_pair.1 hr with rfl | rfl
    · exact .inr ⟨_, rfl⟩
    · exact .inl rfl
  · intro r hr
    rw [List.mem_singleton.1 hr]
    exact Option.map_eq_some_iff.1 hlive

end Optimizer
end LinearPlan
