namespace AsyncErasure

/-- What statements put on a page. -/
inductive Piece where
  /-- A line of its own, four columns in for each level of depth. -/
  | line (depth : Nat) (text : String)
  /-- A remark at the end of the line before; on an empty page it is a line. -/
  | remark (depth : Nat) (text : String)
  /-- An empty line. -/
  | gap

namespace Piece

def margin (depth : Nat) : String := "".pushn ' ' (4 * depth)

/-- A new line of a page; the first one needs no line end before it. -/
def newLine (page : String) (depth : Nat) (text : String) : String :=
  (if page.isEmpty then page else page ++ "\n") ++ margin depth ++ text

def write (page : String) : Piece → String
  | line depth text => newLine page depth text
  | remark depth text => if page.isEmpty then newLine page depth text else page ++ "  " ++ text
  | gap => page ++ "\n"

def assemble (pieces : List Piece) : String := pieces.foldl write ""

end Piece

end AsyncErasure
