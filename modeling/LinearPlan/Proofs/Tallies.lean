import LinearPlan.Tally
import Mathlib.Data.List.Induction
import Mathlib.Data.List.Nodup
import Mathlib.Data.List.Perm.Basic
import Mathlib.Tactic.Common

/-!
# What a tally holds

The counts and the order of a tally are two lists that an entry changes together. They stay in step:
the order has the keys of the counts, each of them once, and no count is zero. So all that a tally
answers can be read off the list of entries it was made from. A count is the count in this list, the
keys are the list without its repetitions, and a key is repeated if it is in the list twice.
-/
namespace LinearPlan

variable {κ : Type} [DecidableEq κ]

theorem eraseDups_concat (l : List κ) (x : κ) :
    (l ++ [x]).eraseDups = if x ∈ l then l.eraseDups else l.eraseDups ++ [x] := by
  rw [List.eraseDups_append]
  by_cases h : x ∈ l <;> simp [List.removeAll, List.eraseDups_cons, h]

theorem nodup_concat_new {l : List κ} (h : l.Nodup) (x : κ) :
    (if x ∈ l then l else l ++ [x]).Nodup := by
  split
  · exact h
  · rename_i hx
    apply List.Nodup.append h (List.nodup_singleton x)
    simpa using hx

theorem nodup_eraseDups (l : List κ) : l.eraseDups.Nodup := by
  induction l using List.reverseRecOn with
  | nil => simp
  | append_singleton l x ih =>
    have hnew := nodup_concat_new ih x
    simp only [List.mem_eraseDups] at hnew
    rwa [eraseDups_concat]

namespace Tally
variable {t : Tally κ} {key : κ} {n : Nat}

structure WellFormed (t : Tally κ) : Prop where
  order_nodup : t.order.Nodup
  perm : (t.counts.map Prod.fst).Perm t.order
  pos : ∀ e ∈ t.counts, 1 ≤ e.2

theorem contains_iff : t.contains key = true ↔ key ∈ t.counts.map Prod.fst := by
  unfold contains
  rw [List.lookup_isSome_iff, List.mem_map]
  simp only [beq_iff_eq, @eq_comm κ key]

theorem counts_insert_keys (t : Tally κ) (key : κ) :
    (t.insert key).counts.map Prod.fst = key :: (t.counts.map Prod.fst).filter (· != key) := by
  simp [insert, List.filter_map, Function.comp_def]

omit [DecidableEq κ] in
theorem wellFormed_empty : (empty : Tally κ).WellFormed where
  order_nodup := List.nodup_nil
  perm := .nil
  pos := by simp [empty]

namespace WellFormed

omit [DecidableEq κ] in
theorem nodup (h : t.WellFormed) : t.keys.Nodup := h.order_nodup

theorem mem_order (h : t.WellFormed) : key ∈ t.order ↔ t.contains key = true :=
  h.perm.mem_iff.symm.trans contains_iff.symm

theorem order_insert (h : t.WellFormed) (key : κ) :
    (t.insert key).order = if key ∈ t.order then t.order else t.order ++ [key] := by
  simp only [Tally.insert, h.mem_order]

theorem insert (h : t.WellFormed) (key : κ) : (t.insert key).WellFormed where
  order_nodup := by
    rw [h.order_insert]
    exact nodup_concat_new h.order_nodup key
  perm := by
    rw [h.order_insert, counts_insert_keys]
    split
    · -- A known key moves to the front of the counts and keeps its place in the order.
      rename_i hkey
      have hfront := (List.perm_cons_erase hkey).symm
      rw [h.order_nodup.erase_eq_filter] at hfront
      exact ((h.perm.filter _).cons key).trans hfront
    · rename_i hkey
      have hnone : (t.counts.map Prod.fst).filter (· != key) = t.counts.map Prod.fst := by
        rw [List.filter_eq_self]
        intro x hx
        rw [bne_iff_ne]
        rintro rfl
        exact hkey (h.perm.mem_iff.1 hx)
      rw [hnone]
      exact (h.perm.cons key).trans (List.perm_append_singleton key t.order).symm
  pos := by
    simp only [Tally.insert, List.forall_mem_cons]
    refine ⟨Nat.le_add_left 1 _, fun e he => h.pos e (List.mem_of_mem_filter he)⟩

theorem insertAll (h : t.WellFormed) (keys : List κ) : (t.insertAll keys).WellFormed := by
  induction keys generalizing t with
  | nil => exact h
  | cons key keys ih => exact ih (h.insert key)

theorem count_of_mem (h : t.WellFormed) (hmem : (key, n) ∈ t.counts) : t.count key = n := by
  have hnodup := h.perm.nodup_iff.2 h.order_nodup
  unfold count
  generalize t.counts = counts at hmem hnodup
  induction counts with
  | nil => cases hmem
  | cons e rest ih =>
    rw [List.map_cons, List.nodup_cons] at hnodup
    rcases List.mem_cons.1 hmem with rfl | hmem
    · rw [List.lookup_cons_self]
      rfl
    · have hne : key ≠ e.1 := fun he => hnodup.1 (he ▸ List.mem_map_of_mem hmem)
      rw [List.lookup_cons, beq_false_of_ne hne]
      exact ih hmem hnodup.2

theorem mem_keys (h : t.WellFormed) (key : κ) : key ∈ t.keys ↔ 0 < t.count key := by
  constructor
  · intro hkey
    obtain ⟨e, he, rfl⟩ := List.mem_map.1 (h.perm.mem_iff.2 hkey)
    have hcount : t.count e.1 = e.2 := h.count_of_mem he
    rw [hcount]
    exact h.pos e he
  · intro hpos
    rw [keys, h.mem_order, contains]
    unfold count at hpos
    cases hlookup : t.counts.lookup key with
    | none => simp [hlookup] at hpos
    | some n => rfl

theorem hasRepeated_iff (h : t.WellFormed) : t.hasRepeated = true ↔ ∃ key, 1 < t.count key := by
  unfold hasRepeated
  simp only [List.any_eq_true, decide_eq_true_eq]
  constructor
  · rintro ⟨⟨key, n⟩, hmem, hn⟩
    exact ⟨key, by rw [h.count_of_mem hmem]; exact hn⟩
  · rintro ⟨key, hkey⟩
    obtain ⟨e, he, rfl⟩ := List.mem_map.1 (h.perm.mem_iff.2 ((h.mem_keys key).2 (by omega)))
    have hcount : t.count e.1 = e.2 := h.count_of_mem he
    exact ⟨e, he, hcount ▸ hkey⟩

end WellFormed

theorem count_insertAll (t : Tally κ) (keys : List κ) (x : κ) :
    (t.insertAll keys).count x = t.count x + keys.count x := by
  induction keys generalizing t with
  | nil => rfl
  | cons key keys ih =>
    have hstep : (t.insertAll (key :: keys)).count x = ((t.insert key).insertAll keys).count x := rfl
    rw [hstep, ih, count_insert, List.count_cons]
    simp only [beq_iff_eq, @eq_comm κ x]
    omega

theorem wellFormed_ofList (keys : List κ) : (ofList keys).WellFormed :=
  wellFormed_empty.insertAll keys

theorem count_ofList (keys : List κ) (x : κ) : (ofList keys).count x = keys.count x := by
  rw [ofList, count_insertAll]
  simp [empty, count]

theorem keys_ofList (l : List κ) : (ofList l).keys = l.eraseDups := by
  induction l using List.reverseRecOn with
  | nil => rfl
  | append_singleton l x ih =>
    have hstep : ofList (l ++ [x]) = (ofList l).insert x := List.foldl_concat ..
    unfold keys at ih ⊢
    rw [hstep, (wellFormed_ofList l).order_insert, ih, eraseDups_concat]
    simp only [List.mem_eraseDups]

/-- A tally holds the entries of a list. -/
structure Represents (t : Tally κ) (l : List κ) : Prop extends WellFormed t where
  count : ∀ x, t.count x = l.count x
  keys : t.keys = l.eraseDups
  hasRepeated : t.hasRepeated = true ↔ ∃ x, 2 ≤ l.count x

/-- Whatever lists of keys are entered, one after the other, a new tally comes to hold all of them. -/
theorem represents_insertions (lists : List (List κ)) :
    (lists.foldl insertAll empty).Represents lists.flatten := by
  have hflat : lists.foldl insertAll empty = ofList lists.flatten := List.foldl_flatten.symm
  have hwf := wellFormed_ofList lists.flatten
  rw [hflat]
  refine ⟨hwf, count_ofList _, keys_ofList _, ?_⟩
  rw [hwf.hasRepeated_iff]
  simp only [count_ofList]
  rfl

end Tally
end LinearPlan
