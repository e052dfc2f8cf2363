import LinearPlan.Value

/-!
# Texts of matrices

A matrix is written row by row. Entries are flush right in their column, columns stand two blanks
apart, and brackets run down both sides. The empty matrix has the empty text.
-/
namespace LinearPlan.Matrix
variable {α : Type}

def brackets (rows i : Nat) : String × String :=
  if rows = 1 then ("[", "]")
  else if i = 0 then ("⎡", "⎤")
  else if i + 1 = rows then ("⎣", "⎦")
  else ("⎢", "⎥")

def flushRight (width : Nat) (s : String) : String :=
  String.ofList (List.replicate (width - s.length) ' ') ++ s

def text [Element α] (m : Matrix α) : String :=
  let cells : List (List String) := m.entries.toList.map fun row => row.toList.map Element.text
  let widths := cells.foldl (fun ws row => List.zipWith max ws (row.map String.length))
    (List.replicate m.cols 0)
  "\n".intercalate <| cells.zipIdx.map fun (row, i) =>
    let (opening, closing) := brackets m.rows i
    opening ++ "  ".intercalate (List.zipWith flushRight widths row) ++ closing

end LinearPlan.Matrix

namespace LinearPlan.Value

def text {α : Type} [Element α] : Value α → String
  | .scalar a => Element.text a
  | .matrix m => m.text

end LinearPlan.Value
