/-!
# Boxed tables

A table is drawn with single lines: a header, a separator, and one line per row. Every cell has a
blank on both sides, and a column is as wide as its widest cell, header included. Headers are
centred, with the odd blank on the right; the cells of a column are flush left or flush right.
-/
namespace LinearPlan.Text

inductive Align where
  | left
  | right
deriving DecidableEq, Repr

structure Column where
  header : String
  align : Align
deriving DecidableEq, Repr

def blanksOf (n : Nat) : String := String.ofList (List.replicate n ' ')

def Align.fill (align : Align) (width : Nat) (cell : String) : String :=
  match align with
  | .left => cell ++ blanksOf (width - cell.length)
  | .right => blanksOf (width - cell.length) ++ cell

def centred (width : Nat) (cell : String) : String :=
  let free := width - cell.length
  blanksOf (free / 2) ++ cell ++ blanksOf (free - free / 2)

def columnWidths (columns : List Column) (rows : List (List String)) : List Nat :=
  rows.foldl (fun widths row => List.zipWith max widths (row.map String.length))
    (columns.map fun c => c.header.length)

def ruleLine (first middle last : String) (widths : List Nat) : String :=
  first ++ middle.intercalate (widths.map fun w => String.ofList (List.replicate (w + 2) '─'))
    ++ last

def cellLine (cells : List String) : String :=
  "│" ++ "│".intercalate (cells.map fun c => " " ++ c ++ " ") ++ "│"

def boxed (columns : List Column) (rows : List (List String)) : String :=
  let widths := columnWidths columns rows
  let header := cellLine (List.zipWith centred widths (columns.map Column.header))
  let body := rows.map fun row =>
    cellLine (List.zipWith (fun (cw : Column × Nat) cell => cw.1.align.fill cw.2 cell)
      (columns.zip widths) row)
  "\n".intercalate ([ruleLine "┌" "┬" "┐" widths, header, ruleLine "├" "┼" "┤" widths] ++ body ++
    [ruleLine "└" "┴" "┘" widths])

end LinearPlan.Text
