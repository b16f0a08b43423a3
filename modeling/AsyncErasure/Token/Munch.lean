import AsyncErasure.Text.Identifier
import AsyncErasure.Text.Literal
import AsyncErasure.Token.Basic
import AsyncErasure.Token.Error

/-!
The extent of one lexeme. A lexeme that starts with `c` and goes on into `cs` is measured by how
many characters of `cs` belong to it, so every lexeme has at least one character.
-/

namespace AsyncErasure.Token

open Text
open Literal (isQuote)

def runLength (p : Char → Bool) (cs : List Char) : Nat := (cs.takeWhile p).length

/-- Length of what ends a literal in single quotes, the closing quote included. A backslash
protects the character after it; a bare line end leaves the literal open. -/
def shortTail (quote : Char) : List Char → Option Nat
  | [] => none
  | '\\' :: _ :: cs => (shortTail quote cs).map (· + 2)
  | c :: cs =>
    if c = '\n' then none
    else if c = quote then some 1
    else (shortTail quote cs).map (· + 1)

/-- Length of what ends a literal in triple quotes, the three closing quotes included. -/
def longTail (quote : Char) : List Char → Option Nat
  | [] => none
  | '\\' :: _ :: cs => (longTail quote cs).map (· + 2)
  | c :: cs =>
    if c = quote ∧ cs.take 2 = [quote, quote] then some 3
    else (longTail quote cs).map (· + 1)

/-- Length of a string literal after its first quote. -/
def literalTail (quote : Char) (cs : List Char) : Except Fault Nat :=
  if cs.take 2 = [quote, quote] then
    match longTail quote (cs.drop 2) with
    | some n => .ok (n + 2)
    | none => .error .unterminatedTripleString
  else
    match shortTail quote cs with
    | some n => .ok n
    | none => .error .unterminatedString

/-- The letters that may stand before a quote: raw, unicode, bytes and format markers. -/
def isStringMark (word : List Char) : Bool :=
  [['r'], ['u'], ['b'], ['f'], ['b', 'r'], ['r', 'b'], ['f', 'r'], ['r', 'f']].contains
    (word.map Char.toLower)

def isDigitPart (c : Char) : Bool := c.isDigit || c == '_'

def isHexPart (c : Char) : Bool :=
  c.isDigit || ('a' ≤ c && c ≤ 'f') || ('A' ≤ c && c ≤ 'F') || c == '_'

def isRadixMark (c : Char) : Bool := ['x', 'X', 'o', 'O', 'b', 'B'].contains c

def startsWithDigit (cs : List Char) : Bool := cs.head?.any Char.isDigit

def fractionLength : List Char → Nat
  | '.' :: cs => runLength isDigitPart cs + 1
  | _ => 0

/-- An exponent needs a digit after its optional sign. -/
def exponentLength : List Char → Nat
  | e :: cs =>
    if e = 'e' ∨ e = 'E' then
      match cs with
      | s :: ds =>
        if s = '+' ∨ s = '-' then
          if startsWithDigit ds then runLength isDigitPart ds + 2 else 0
        else if s.isDigit then runLength isDigitPart cs + 1
        else 0
      | [] => 0
    else 0
  | [] => 0

def imaginaryLength (cs : List Char) : Nat :=
  if cs.head?.any (fun c => c == 'j' || c == 'J') then 1 else 0

def decimalLength (cs : List Char) : Nat :=
  let whole := runLength isDigitPart cs
  let fraction := fractionLength (cs.drop whole)
  let exponent := exponentLength (cs.drop (whole + fraction))
  let mantissa := whole + fraction + exponent
  mantissa + imaginaryLength (cs.drop mantissa)

/-- Length of the number literal that the text begins with. -/
def numberLength (cs : List Char) : Nat :=
  if cs.head? = some '0' ∧ (cs.drop 1).head?.any isRadixMark then
    runLength isHexPart (cs.drop 2) + 2
  else
    decimalLength cs

/-- The lexeme at `c :: cs` and how far it goes into `cs`. -/
def munch (c : Char) (cs : List Char) : Except Fault (Lexeme × Nat) :=
  let spelled (n : Nat) : String := String.ofList (c :: cs.take n)
  if isQuote c then do
    let n ← literalTail c cs
    return (.string (spelled n), n)
  else if c.isDigit || (c == '.' && startsWithDigit cs) then
    let n := numberLength (c :: cs) - 1
    return (.number (spelled n), n)
  else if isNameStart c then
    let n := runLength isNameChar cs
    match cs.drop n with
    | quote :: rest =>
      if isQuote quote && isStringMark (c :: cs.take n) then do
        let m ← literalTail quote rest
        return (.string (spelled (n + 1 + m)), n + 1 + m)
      else return (.ofWord (spelled n), n)
    | [] => return (.ofWord (spelled n), n)
  else
    match Symbol.munch (c :: cs) with
    | some s => return (.symbol s, s.chars.length - 1)
    | none => throw (.invalidCharacter c)

end AsyncErasure.Token
