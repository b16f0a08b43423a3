import AsyncErasure.Token.Basic
import AsyncErasure.Token.Error

namespace AsyncErasure.Grammar

inductive Fault where
  | lexical (fault : Token.Fault)
  | invalid
  | unexpectedIndent
  | expectedBlock
  | expected (lexeme : Lexeme)
  | expectedName
  | expectedModule
  | expectedDefinition
  | expectedHandler
deriving DecidableEq, Repr

def Fault.message : Fault → String
  | lexical fault => fault.message
  | invalid => "invalid syntax"
  | unexpectedIndent => "unexpected indent"
  | expectedBlock => "expected an indented block"
  | expected lexeme => "expected '" ++ lexeme.text ++ "'"
  | expectedName => "expected name"
  | expectedModule => "expected module name"
  | expectedDefinition => "expected function or class definition"
  | expectedHandler => "expected 'except' or 'finally' block"

structure Error where
  place : Place
  fault : Fault
deriving DecidableEq, Repr

namespace Error

def ofToken (e : Token.Error) : Error := ⟨e.place, .lexical e.fault⟩

/-- The error as it is reported of a file. -/
def report (file : String) (e : Error) : String :=
  file ++ ":" ++ toString e.place.line ++ ":" ++ toString e.place.col ++ ": " ++ e.fault.message

end Error

end AsyncErasure.Grammar
