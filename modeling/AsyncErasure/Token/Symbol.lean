namespace AsyncErasure

inductive Bracket where
  | round
  | square
  | curly
deriving DecidableEq, Repr

namespace Bracket

def opening : Bracket → Char
  | round => '('
  | square => '['
  | curly => '\x7b'

def closing : Bracket → Char
  | round => ')'
  | square => ']'
  | curly => '\x7d'

end Bracket

/-- Operators and delimiters. -/
inductive Symbol where
  | powAssign
  | floorDivAssign
  | shiftRightAssign
  | shiftLeftAssign
  | ellipsis
  | doubleStar
  | doubleSlash
  | shiftLeft
  | shiftRight
  | lessEq
  | greaterEq
  | equal
  | notEqual
  | arrow
  | walrus
  | plusAssign
  | minusAssign
  | starAssign
  | slashAssign
  | percentAssign
  | ampAssign
  | barAssign
  | caretAssign
  | atAssign
  | plus
  | minus
  | star
  | slash
  | percent
  | atSign
  | amp
  | bar
  | caret
  | tilde
  | less
  | greater
  | opening (b : Bracket)
  | closing (b : Bracket)
  | comma
  | colon
  | semicolon
  | dot
  | assign
deriving DecidableEq, Repr

namespace Symbol

def chars : Symbol → List Char
  | powAssign => ['*', '*', '=']
  | floorDivAssign => ['/', '/', '=']
  | shiftRightAssign => ['>', '>', '=']
  | shiftLeftAssign => ['<', '<', '=']
  | ellipsis => ['.', '.', '.']
  | doubleStar => ['*', '*']
  | doubleSlash => ['/', '/']
  | shiftLeft => ['<', '<']
  | shiftRight => ['>', '>']
  | lessEq => ['<', '=']
  | greaterEq => ['>', '=']
  | equal => ['=', '=']
  | notEqual => ['!', '=']
  | arrow => ['-', '>']
  | walrus => [':', '=']
  | plusAssign => ['+', '=']
  | minusAssign => ['-', '=']
  | starAssign => ['*', '=']
  | slashAssign => ['/', '=']
  | percentAssign => ['%', '=']
  | ampAssign => ['&', '=']
  | barAssign => ['|', '=']
  | caretAssign => ['^', '=']
  | atAssign => ['@', '=']
  | plus => ['+']
  | minus => ['-']
  | star => ['*']
  | slash => ['/']
  | percent => ['%']
  | atSign => ['@']
  | amp => ['&']
  | bar => ['|']
  | caret => ['^']
  | tilde => ['~']
  | less => ['<']
  | greater => ['>']
  | opening b => [b.opening]
  | closing b => [b.closing]
  | comma => [',']
  | colon => [':']
  | semicolon => [';']
  | dot => ['.']
  | assign => ['=']

def text (s : Symbol) : String := String.ofList s.chars

/-- All symbols, longer spellings before shorter ones. -/
def all : List Symbol :=
  [powAssign, floorDivAssign, shiftRightAssign, shiftLeftAssign, ellipsis,
   doubleStar, doubleSlash, shiftLeft, shiftRight, lessEq, greaterEq, equal, notEqual, arrow,
   walrus, plusAssign, minusAssign, starAssign, slashAssign, percentAssign, ampAssign, barAssign,
   caretAssign, atAssign,
   plus, minus, star, slash, percent, atSign, amp, bar, caret, tilde, less, greater,
   opening .round, closing .round, opening .square, closing .square, opening .curly,
   closing .curly, comma, colon, semicolon, dot, assign]

theorem mem_all (s : Symbol) : s ∈ all := by
  cases s with
  | opening b => cases b <;> decide
  | closing b => cases b <;> decide
  | _ => decide

theorem chars_ne_nil (s : Symbol) : s.chars ≠ [] := by
  cases s <;> simp [chars]

/-- The longest symbol that the text begins with. -/
def munch (cs : List Char) : Option Symbol := all.find? fun s => s.chars.isPrefixOf cs

end Symbol

end AsyncErasure
