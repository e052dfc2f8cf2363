import LinearPlan.Chain.Kind
import LinearPlan.Matrix.Basic

/-!
# The chain kernel

A chain is computed in one sweep over the rows of `X`: each row is multiplied with `v`, the result
is scaled or shifted by the row's third operand, and that multiple of the row is added to an
accumulator. The rows are cut into blocks, one per worker, whose accumulators are added in order.
-/
namespace LinearPlan.Chain

inductive Fault where
  | invalidKind (kind : Kind)
  | missing (kind : Kind)
  | emptyMatrix (kind : Kind) (rows cols : Nat)
  | vectorSize (kind : Kind) (want rows cols : Nat)
  | missingThird (kind : Kind)
  | thirdSize (kind : Kind) (want rows cols : Nat)
  | excessThird (kind : Kind)
deriving DecidableEq, Repr

def Fault.message : Fault → String
  | .invalidKind kind => s!"mmchain: invalid chain type {kind.name}"
  | .missing kind => s!"mmchain {kind.name}: X and v must be given"
  | .emptyMatrix kind rows cols => s!"mmchain {kind.name}: X is empty ({rows}x{cols})"
  | .vectorSize kind want rows cols =>
    s!"mmchain {kind.name}: v must be a {want}x1 column vector, got {rows}x{cols}"
  | .missingThird kind => s!"mmchain {kind.name}: requires a third operand"
  | .thirdSize kind want rows cols =>
    s!"mmchain {kind.name}: third operand must be a {want}x1 column vector, got {rows}x{cols}"
  | .excessThird kind => s!"mmchain {kind.name}: takes no third operand"

/-- How many workers are used: as many as requested, or one per processor. -/
def workers (processors : Nat) (requested : Int) : Nat :=
  if requested ≤ 0 then processors else requested.toNat

def numBlocks (rows workers : Nat) : Nat := max 1 (min workers rows)

def blockSize (rows workers : Nat) : Nat :=
  (rows + numBlocks rows workers - 1) / numBlocks rows workers

/-- First row and end of each block, in order. The last blocks may be empty. -/
def blocks (rows workers : Nat) : List (Nat × Nat) :=
  (List.range (numBlocks rows workers)).map fun b =>
    let start := b * blockSize rows workers
    (start, min (start + blockSize rows workers) rows)

variable {α : Type} [Element α]

def dot (xs ys : List α) : α :=
  (xs.zip ys).foldl (fun sum p => Element.add sum (Element.mul p.1 p.2)) Element.zero

def addTo (acc xs : List α) : List α := List.zipWith Element.add acc xs

def scale (kind : Kind) (product third : α) : α :=
  match kind with
  | .XtwXv => Element.mul product third
  | .XtXvy => Element.sub product third
  | _ => product

/-- One row added to the accumulator. A row with scale zero is left out. -/
def accumulate (kind : Kind) (v : List α) (acc : List α) (row : List α × α) : List α :=
  let s := scale kind (dot row.1 v) row.2
  if Element.isZero s then acc else addTo acc (row.1.map (Element.mul s))

def sweep (kind : Kind) (cols : Nat) (v : List α) (rows : List (List α × α))
    (ranges : List (Nat × Nat)) : List α :=
  let start := List.replicate cols Element.zero
  let partials := ranges.map fun r =>
    ((rows.drop r.1).take (r.2 - r.1)).foldl (accumulate kind v) start
  partials.foldl addTo start

def columnOf (xs : List α) : Matrix α := Matrix.ofFn xs.length 1 fun i _ => xs.get i

def rowsOf (m : Matrix α) : List (List α) := m.entries.toList.map Vector.toList

def thirds (kind : Kind) (rows : Nat) : Option (Matrix α) → Except Fault (List α)
  | some w =>
    if kind.hasThird then
      if h : w.rows = rows ∧ w.cols = 1 then .ok (w.column ⟨0, h.2 ▸ Nat.one_pos⟩)
      else .error (.thirdSize kind rows w.rows w.cols)
    else .error (.excessThird kind)
  | none =>
    if kind.hasThird then .error (.missingThird kind)
    else .ok (List.replicate rows Element.zero)

def execute (processors : Nat) (kind : Kind) (threads : Int) (x v w : Option (Matrix α)) :
    Except Fault (Matrix α) :=
  if !kind.isValid then .error (.invalidKind kind)
  else match x, v with
    | some x, some v =>
      if x.rows = 0 ∨ x.cols = 0 then .error (.emptyMatrix kind x.rows x.cols)
      else if h : v.rows = x.cols ∧ v.cols = 1 then
        match thirds kind x.rows w with
        | .error fault => .error fault
        | .ok third =>
          .ok (columnOf (sweep kind x.cols (v.column ⟨0, by omega⟩) ((rowsOf x).zip third)
            (blocks x.rows (workers processors threads))))
      else .error (.vectorSize kind x.cols v.rows v.cols)
    | _, _ => .error (.missing kind)

end LinearPlan.Chain
