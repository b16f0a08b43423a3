import AsyncErasure.Tree.Block

/-!
Blank lines. A tree keeps no white space, so a marker is put between two statements of a block
wherever lines of the text lie between them.
-/

namespace AsyncErasure

namespace Spacing

/-- The line below a line of a text. -/
abbrev below (line : Nat) : Nat := line + 1

/-- The line below a line that has its number in 32 bits: the numbers start over behind the last. -/
def belowInWord (line : Nat) : Nat := (line + 1) % 4294967296

section

variable (next : Nat → Nat)

/-- Whether some line lies between two statements. -/
def apart (a b : Stmt) : Bool := next a.span.endLine < b.span.line

/-- The marker that goes between two statements: on the line below the first one. -/
def marker (a : Stmt) : Stmt := .blankAt (next a.span.endLine)

def separate : List Stmt → List Stmt
  | a :: b :: rest =>
    if apart next a b then a :: marker next a :: separate (b :: rest) else a :: separate (b :: rest)
  | short => short

/-- The lines that the markers of a block stand on. -/
def markerLines : List Stmt → List Nat
  | a :: b :: rest =>
    if apart next a b then next a.span.endLine :: markerLines (b :: rest)
    else markerLines (b :: rest)
  | _ => []

end

end Spacing

namespace Module

/-- Puts the markers where the given numbers of lines tell statements apart. -/
def separateBy (next : Nat → Nat) (m : Module) : Module := m.mapBlocks (Spacing.separate next)

def separate (m : Module) : Module := m.separateBy Spacing.below

/-- The lines of all markers that a module gets, those of inner blocks first. -/
def markerLines (m : Module) : List Nat :=
  m.blocksInsideOut.flatMap (Spacing.markerLines Spacing.below)

end Module

end AsyncErasure
