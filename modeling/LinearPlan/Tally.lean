/-!
# Tallies

A tally counts how often each key was entered, and remembers the order in which the keys first
came. The counts are a map with one entry for each key, the last one entered first; the order of the
keys is kept beside it.
-/
namespace LinearPlan

structure Tally (κ : Type) where
  counts : List (κ × Nat)
  order : List κ
deriving DecidableEq, Repr

namespace Tally
variable {κ : Type} [DecidableEq κ]

def empty : Tally κ := ⟨[], []⟩

def count (t : Tally κ) (key : κ) : Nat := (t.counts.lookup key).getD 0

def contains (t : Tally κ) (key : κ) : Bool := (t.counts.lookup key).isSome

/-- One more of a key. A new key goes to the end of the order. -/
def insert (t : Tally κ) (key : κ) : Tally κ where
  counts := (key, t.count key + 1) :: t.counts.filter fun e => e.1 != key
  order := if t.contains key then t.order else t.order ++ [key]

def insertAll (t : Tally κ) (keys : List κ) : Tally κ := keys.foldl insert t

def ofList (keys : List κ) : Tally κ := insertAll empty keys

/-- The keys, in the order of their first entry. -/
def keys (t : Tally κ) : List κ := t.order

def size (t : Tally κ) : Nat := t.order.length

def hasRepeated (t : Tally κ) : Bool := t.counts.any fun e => decide (1 < e.2)

theorem lookup_filter_ne {key x : κ} (h : x ≠ key) (counts : List (κ × Nat)) :
    (counts.filter fun e => e.1 != key).lookup x = counts.lookup x := by
  induction counts with
  | nil => rfl
  | cons e rest ih =>
    obtain ⟨k, n⟩ := e
    by_cases hk : k = key
    · rw [List.filter_cons_of_neg (by simp [hk]), List.lookup_cons, beq_false_of_ne (hk ▸ h)]
      exact ih
    · rw [List.filter_cons_of_pos (by simp [hk]), List.lookup_cons, List.lookup_cons, ih]

theorem lookup_insert (t : Tally κ) (key x : κ) :
    (t.insert key).counts.lookup x =
      if x = key then some (t.count key + 1) else t.counts.lookup x := by
  by_cases h : x = key
  · rw [if_pos h, h]
    exact List.lookup_cons_self
  · rw [if_neg h, insert, List.lookup_cons, beq_false_of_ne h]
    exact lookup_filter_ne h t.counts

theorem count_insert (t : Tally κ) (key x : κ) :
    (t.insert key).count x = t.count x + if x = key then 1 else 0 := by
  unfold count
  rw [lookup_insert]
  by_cases h : x = key
  · rw [if_pos h, if_pos h, h]
    rfl
  · rw [if_neg h, if_neg h]
    rfl

end Tally
end LinearPlan
