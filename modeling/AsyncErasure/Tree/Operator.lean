import AsyncErasure.Token.Symbol
import AsyncErasure.Token.Keyword
import AsyncErasure.Tree.Level

namespace AsyncErasure

inductive BoolOp where
  | and
  | or
deriving DecidableEq, Repr

namespace BoolOp

def keyword : BoolOp → Keyword
  | and => .and_
  | or => .or_

def text (op : BoolOp) : String := op.keyword.text

def level : BoolOp → Level
  | and => .conjunction
  | or => .disjunction

end BoolOp

inductive BinOp where
  | add
  | sub
  | mul
  | matMul
  | div
  | mod
  | pow
  | shiftLeft
  | shiftRight
  | bitOr
  | bitXor
  | bitAnd
  | floorDiv
deriving DecidableEq, Repr

namespace BinOp

def all : List BinOp :=
  [add, sub, mul, matMul, div, mod, pow, shiftLeft, shiftRight, bitOr, bitXor, bitAnd, floorDiv]

theorem mem_all (op : BinOp) : op ∈ all := by cases op <;> simp [all]

def symbol : BinOp → Symbol
  | add => .plus
  | sub => .minus
  | mul => .star
  | matMul => .atSign
  | div => .slash
  | mod => .percent
  | pow => .doubleStar
  | shiftLeft => .shiftLeft
  | shiftRight => .shiftRight
  | bitOr => .bar
  | bitXor => .caret
  | bitAnd => .amp
  | floorDiv => .doubleSlash

/-- The symbol that computes and assigns. -/
def assignSymbol : BinOp → Symbol
  | add => .plusAssign
  | sub => .minusAssign
  | mul => .starAssign
  | matMul => .atAssign
  | div => .slashAssign
  | mod => .percentAssign
  | pow => .powAssign
  | shiftLeft => .shiftLeftAssign
  | shiftRight => .shiftRightAssign
  | bitOr => .barAssign
  | bitXor => .caretAssign
  | bitAnd => .ampAssign
  | floorDiv => .floorDivAssign

theorem assignSymbol_chars (op : BinOp) : op.assignSymbol.chars = op.symbol.chars ++ ['='] := by
  cases op <;> rfl

def text (op : BinOp) : String := op.symbol.text

def ofSymbol? (s : Symbol) : Option BinOp := all.find? fun op => op.symbol = s

def ofAssignSymbol? (s : Symbol) : Option BinOp := all.find? fun op => op.assignSymbol = s

def ofText? (text : String) : Option BinOp := all.find? fun op => op.text == text

/-- Reads an operator off the spelling of its assignment. -/
def ofAssignText? (text : String) : Option BinOp := all.find? fun op => op.text ++ "=" == text

/-- How strongly the text of an operation binds. -/
def level : BinOp → Level
  | bitOr => .bitOr
  | bitXor => .bitXor
  | bitAnd => .bitAnd
  | shiftLeft | shiftRight => .shift
  | add | sub => .sum
  | mul | matMul | div | mod | floorDiv => .product
  | pow => .power

end BinOp

inductive UnaryOp where
  | invert
  | not
  | plus
  | minus
deriving DecidableEq, Repr

namespace UnaryOp

/-- The operator as it stands before its operand. -/
def text : UnaryOp → String
  | invert => "~"
  | not => "not "
  | plus => "+"
  | minus => "-"

def level : UnaryOp → Level
  | not => .negation
  | invert | plus | minus => .signed

/-- The operators that bind like a sign. -/
def ofSymbol? : Symbol → Option UnaryOp
  | .plus => some plus
  | .minus => some minus
  | .tilde => some invert
  | _ => none

end UnaryOp

inductive CmpOp where
  | eq
  | notEq
  | less
  | lessEq
  | greater
  | greaterEq
  | is
  | isNot
  | isIn
  | notIn
deriving DecidableEq, Repr

namespace CmpOp

def text : CmpOp → String
  | eq => "=="
  | notEq => "!="
  | less => "<"
  | lessEq => "<="
  | greater => ">"
  | greaterEq => ">="
  | is => "is"
  | isNot => "is not"
  | isIn => "in"
  | notIn => "not in"

def ofSymbol? : Symbol → Option CmpOp
  | .equal => some eq
  | .notEqual => some notEq
  | .less => some less
  | .lessEq => some lessEq
  | .greater => some greater
  | .greaterEq => some greaterEq
  | _ => none

end CmpOp

end AsyncErasure
