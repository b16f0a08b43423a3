namespace AsyncErasure

/-- A point of a text: lines count from one, columns from zero and in characters. -/
structure Place where
  line : Nat
  col : Nat
deriving DecidableEq, Repr

namespace Place

def origin : Place := ⟨1, 0⟩

def lineStart (p : Place) : Place := ⟨p.line, 0⟩

def nextLine (p : Place) : Place := ⟨p.line + 1, 0⟩

def shift (p : Place) (n : Nat) : Place := ⟨p.line, p.col + n⟩

def after (p : Place) (c : Char) : Place := if c = '\n' then p.nextLine else p.shift 1

def through (p : Place) (cs : List Char) : Place := cs.foldl after p

end Place

structure Span where
  start : Place
  stop : Place
deriving DecidableEq, Repr

namespace Span

/-- From the start of one span to the end of another. -/
def cover (a b : Span) : Span := ⟨a.start, b.stop⟩

def point (p : Place) : Span := ⟨p, p⟩

def line (s : Span) : Nat := s.start.line

def endLine (s : Span) : Nat := s.stop.line

end Span

end AsyncErasure
