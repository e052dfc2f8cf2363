import LinearPlan.Proofs.Edits

/-!
# Postconditions

A program over a state ends with a result or with a fault. `Ends` says what holds in either case, and
is proved along the program. With no fault allowed it says that the program succeeds, and with any
fault allowed it speaks about successful runs only.
-/
namespace LinearPlan

variable {ε σ α β : Type} {E E' : ε → σ → Prop} {P Q : α → σ → Prop} {R : β → σ → Prop}
  {x : EStateM ε σ α} {f : α → EStateM ε σ β} {s s' : σ} {a : α} {e : ε}

/-- A program ends with a result in `Q`, or with a fault in `E`. -/
def Ends (x : EStateM ε σ α) (s : σ) (E : ε → σ → Prop) (Q : α → σ → Prop) : Prop :=
  match x s with
  | .ok a s' => Q a s'
  | .error e s' => E e s'

def failure? (x : EStateM ε σ α) (s : σ) : Option σ :=
  match x s with
  | .ok _ _ => none
  | .error _ s' => some s'

theorem error_of_failure? (h : failure? x s = some s') : ∃ e, x s = .error e s' := by
  unfold failure? at h
  split at h
  · cases h
  · rename_i e s₁ hx
    cases h
    exact ⟨e, hx⟩

def success? (x : EStateM ε σ α) (s : σ) : Option (α × σ) :=
  match x s with
  | .ok a s' => some (a, s')
  | .error _ _ => none

theorem ok_of_success? (h : success? x s = some (a, s')) : x s = .ok a s' := by
  unfold success? at h
  split at h
  · rename_i hx
    cases h
    exact hx
  · cases h

theorem ends_ok (h : x s = .ok a s') : Ends x s E Q ↔ Q a s' := by
  rw [Ends, h]

theorem ends_error (h : x s = .error e s') : Ends x s E Q ↔ E e s' := by
  rw [Ends, h]

theorem ends_any : Ends x s (fun _ _ => True) fun _ _ => True := by
  unfold Ends
  split <;> trivial

theorem ends_pure : Ends (pure a) s E Q ↔ Q a s := Iff.rfl

theorem ends_bind_ok (h : x s = .ok a s') : Ends (x >>= f) s E R ↔ Ends (f a) s' E R := by
  have hrun : (x >>= f) s = f a s' := by
    show EStateM.bind x f s = _
    rw [EStateM.bind, h]
  rw [Ends, Ends, hrun]

namespace Ends

theorem imp (h : Ends x s E P) (hE : ∀ e s', E e s' → E' e s') (hQ : ∀ a s', P a s' → Q a s') :
    Ends x s E' Q := by
  cases hx : x s with
  | ok a s' => exact (ends_ok hx).2 (hQ a s' ((ends_ok hx).1 h))
  | error e s' => exact (ends_error hx).2 (hE e s' ((ends_error hx).1 h))

theorem mono (h : Ends x s E P) (hQ : ∀ a s', P a s' → Q a s') : Ends x s E Q :=
  h.imp (fun _ _ he => he) hQ

theorem bind (hx : Ends x s E P) (hf : ∀ a s', P a s' → Ends (f a) s' E R) :
    Ends (x >>= f) s E R := by
  cases h : x s with
  | ok a s' => exact (ends_bind_ok h).2 (hf a s' ((ends_ok h).1 hx))
  | error e s' =>
    have hrun : (x >>= f) s = .error e s' := by
      show EStateM.bind x f s = _
      rw [EStateM.bind, h]
    exact (ends_error hrun).2 ((ends_error h).1 hx)

theorem map {h : α → β} (hx : Ends x s E fun a s' => R (h a) s') : Ends (h <$> x) s E R := by
  rw [map_eq_pure_bind]
  exact hx.bind fun _ _ hq => hq

theorem discard {R : PUnit → σ → Prop} (hx : Ends x s E fun _ s' => R ⟨⟩ s') :
    Ends (discard x) s E R :=
  hx.map

theorem exists_ok (h : Ends x s (fun _ _ => False) Q) : ∃ a s', x s = .ok a s' ∧ Q a s' := by
  cases hx : x s with
  | ok a s' => exact ⟨a, s', rfl, (ends_ok hx).1 h⟩
  | error e s' => exact ((ends_error hx).1 h).elim

theorem exists_ok_of_apart (h : Ends x s E P) (h' : Ends x s E' Q)
    (hE : ∀ e s', E e s' → ¬ E' e s') : ∃ a s', x s = .ok a s' ∧ P a s' := by
  cases hx : x s with
  | ok a s' => exact ⟨a, s', rfl, (ends_ok hx).1 h⟩
  | error e s' => exact absurd ((ends_error hx).1 h') (hE e s' ((ends_error hx).1 h))

theorem and (h : Ends x s E P) (h' : Ends x s E Q) : Ends x s E fun a s' => P a s' ∧ Q a s' := by
  cases hx : x s with
  | ok a s' => exact (ends_ok hx).2 ⟨(ends_ok hx).1 h, (ends_ok hx).1 h'⟩
  | error e s' => exact (ends_error hx).2 ((ends_error hx).1 h)

theorem and_any (h : Ends x s E P) (h' : Ends x s (fun _ _ => True) Q) :
    Ends x s E fun a s' => P a s' ∧ Q a s' := by
  cases hx : x s with
  | ok a s' => exact (ends_ok hx).2 ⟨(ends_ok hx).1 h, (ends_ok hx).1 h'⟩
  | error e s' => exact (ends_error hx).2 ((ends_error hx).1 h)

end Ends

theorem ends_forM {f : α → EStateM ε σ PUnit} {I : σ → Prop} {l : List α} (hs : I s)
    (hf : ∀ a ∈ l, ∀ s, I s → Ends (f a) s E fun _ s' => I s') :
    Ends (l.forM f) s E fun _ s' => I s' := by
  induction l generalizing s with
  | nil => exact hs
  | cons a rest ih =>
    exact (hf a List.mem_cons_self s hs).bind fun _ s' hs' =>
      ih hs' fun b hb => hf b (List.mem_cons_of_mem a hb)

theorem ends_mapM {f : α → EStateM ε σ β} {I : σ → Prop} {l : List α} (hs : I s)
    (hf : ∀ a ∈ l, ∀ s, I s → Ends (f a) s E fun b s' => I s' ∧ R b s' ∧ ∀ b, R b s → R b s') :
    Ends (l.mapM f) s E fun bs s' => I s' ∧ (∀ b ∈ bs, R b s') ∧ ∀ b, R b s → R b s' := by
  induction l generalizing s with
  | nil => exact ⟨hs, nofun, fun _ hb => hb⟩
  | cons a rest ih =>
    rw [List.mapM_cons]
    refine (hf a List.mem_cons_self s hs).bind fun b s₁ hb => ?_
    obtain ⟨hs₁, hb₁, hkeep₁⟩ := hb
    refine (ih hs₁ fun c hc => hf c (List.mem_cons_of_mem a hc)).bind fun bs s₂ hbs => ?_
    obtain ⟨hs₂, hall, hkeep₂⟩ := hbs
    refine ⟨hs₂, fun c hc => ?_, fun c hc => hkeep₂ c (hkeep₁ c hc)⟩
    rcases List.mem_cons.1 hc with rfl | hc
    · exact hkeep₂ c hb₁
    · exact hall c hc

namespace Edit
variable {g : Graph} {F F' : Fault → Graph → Prop} {Q : α → Graph → Prop}

theorem ends_read {f : Graph → Except Fault α} (hok : ∀ a, f g = .ok a → Q a g)
    (herror : ∀ fault, f g = .error fault → F fault g) : Ends (read f) g F Q := by
  unfold Ends read
  cases h : f g with
  | ok a => exact hok a h
  | error fault => exact herror fault h

theorem ends_undoing {e : Edit α} {undo : Edit Unit} (he : Ends e g F Q)
    (hundo : ∀ fault g', F fault g' → Ends undo g' F' fun _ g'' => F' fault g'') :
    Ends (undoing e undo) g F' Q := by
  unfold Ends undoing
  cases h : e g with
  | ok a g' => exact (ends_ok h).1 he
  | error fault g' =>
    have hun := hundo fault g' ((ends_error h).1 he)
    unfold Ends at hun
    cases hu : undo g' with
    | ok u g'' => simpa [hu] using hun
    | error fault' g'' => simpa [hu] using hun

end Edit
end LinearPlan
