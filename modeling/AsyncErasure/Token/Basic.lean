import AsyncErasure.Span
import AsyncErasure.Token.Symbol
import AsyncErasure.Token.Keyword

namespace AsyncErasure

inductive Lexeme where
  | name (id : String)
  | keyword (word : Keyword)
  | number (text : String)
  | string (text : String)
  | symbol (symbol : Symbol)
  /-- The end of a logical line; only the end of the input leaves it unwritten. -/
  | newline (written : Bool)
  | indent
  | dedent
  /-- A comment from its hash sign on; an inline one follows code on its line. -/
  | comment (text : String) (inline : Bool)
  | endMarker
deriving DecidableEq, Repr

namespace Lexeme

instance : Coe Symbol Lexeme := ⟨symbol⟩

instance : Coe Keyword Lexeme := ⟨keyword⟩

def ofWord (word : String) : Lexeme :=
  match Keyword.ofText? word with
  | some k => keyword k
  | none => name word

def text : Lexeme → String
  | name id => id
  | keyword word => word.text
  | number text => text
  | string text => text
  | symbol s => s.text
  | newline written => if written then "\n" else ""
  | indent => ""
  | dedent => ""
  | comment text _ => text
  | endMarker => ""

/-- The lexemes that lay out lines and blocks. -/
def isLayout : Lexeme → Bool
  | newline _ | indent | dedent | endMarker => true
  | _ => false

def isComment : Lexeme → Bool
  | comment _ _ => true
  | _ => false

def isWord : Lexeme → Bool
  | name _ | keyword _ => true
  | _ => false

end Lexeme

structure Token where
  lexeme : Lexeme
  span : Span
deriving DecidableEq, Repr

namespace Token

def text (t : Token) : String := t.lexeme.text

end Token

end AsyncErasure
