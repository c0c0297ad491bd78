import Liveness.Schedule.State
import Liveness.Text.Blank

/-! # Schedules as tables

A table with a row per place: the Op, the places of the Ops around it, whether it is
linked to the next one, its Allocs and the liveness. Columns are as wide as their
longest cell in bytes, and cells are filled up by characters.
-/

namespace Liveness.Schedule

variable {W : Type}

def headers : List String := ["Index", "Name", "Ins", "LinkTo", "Outs", "Allocs", "Liveness"]

def listText (ns : List Nat) : String := "[" ++ ", ".intercalate (ns.map toString) ++ "]"

def row [Weight W] (s : Schedule W) (i : Nat) : List String :=
  let a := s.opAt i
  let op := s.graph.op a
  [toString i, op.name, listText (s.placesBefore a), if op.hasFwdLink then "+" else " ",
    listText (s.placesAfter a), listText (s.allocsAt i),
    (s.liveness[i]?.map Weight.text).getD ""]

def widths (rows : List (List String)) : List Nat :=
  headers.zipIdx.map fun p =>
    (rows.map fun cells => (cells.getD p.2 "").utf8ByteSize).foldl max p.1.utf8ByteSize

def padded (cell : String) (width : Nat) : List Char :=
  cell.toList ++ List.replicate (width - cell.length) ' '

/-- Cells side by side, without the white space at the end. -/
def line (widths : List Nat) (cells : List String) : List Char :=
  let parts := (cells.zip widths).map fun p => padded p.1 p.2
  Text.trimEnd ([' ', ' '].intercalate parts) ++ ['\n']

def table [Weight W] (s : Schedule W) : String :=
  let rows := (List.range s.ops.size).map s.row
  let widths := widths rows
  let dashes := widths.map fun w => String.ofList (List.replicate w '-')
  String.ofList ((headers :: dashes :: rows).flatMap (line widths))

end Liveness.Schedule
