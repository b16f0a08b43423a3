import AsyncErasure.Span
import AsyncErasure.Token.Symbol

namespace AsyncErasure.Token

/-- What can be wrong with a text before its grammar is looked at. -/
inductive Fault where
  | unterminatedString
  | unterminatedTripleString
  | inconsistentDedent
  | mismatchedBracket (expected found : Bracket)
  | unmatchedBracket (found : Bracket)
  | unclosedBracket (opened : Bracket)
  | badContinuation
  | invalidCharacter (c : Char)
deriving DecidableEq, Repr

def Fault.message : Fault → String
  | unterminatedString => "unterminated string literal"
  | unterminatedTripleString => "unterminated triple-quoted string literal"
  | inconsistentDedent => "unindent does not match any outer indentation level"
  | mismatchedBracket expected found =>
    "closing '" ++ found.closing.toString ++ "' does not match opening '" ++
      expected.closing.toString ++ "'"
  | unmatchedBracket found => "unmatched '" ++ found.closing.toString ++ "'"
  | unclosedBracket opened => "'" ++ opened.opening.toString ++ "' was never closed"
  | badContinuation => "unexpected character after line continuation character"
  | invalidCharacter c => "invalid character '" ++ c.toString ++ "'"

structure Error where
  place : Place
  fault : Fault
deriving DecidableEq, Repr

def Error.message (e : Error) : String :=
  toString e.place.line ++ ":" ++ toString e.place.col ++ ": " ++ e.fault.message

end AsyncErasure.Token
