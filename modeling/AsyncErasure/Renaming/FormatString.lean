import AsyncErasure.Text.Identifier
import AsyncErasure.Text.Literal
import AsyncErasure.Text.Run

/-!
Identifiers in format strings. Between braces stands code, whose words are renamed; everything else
is kept. Doubled braces and named escapes are text, and a literal inside a field is kept, or
renamed in turn if it is a format string.
-/

namespace AsyncErasure.FormatString

open Text Literal

/-- How far a quoted text goes after its first quote, up to the end if it is never closed. -/
def shortLength (quote : Char) : List Char → Nat
  | [] => 0
  | '\\' :: _ :: cs => shortLength quote cs + 2
  | c :: cs => if c = quote then 1 else shortLength quote cs + 1

def longLength (quote : Char) : List Char → Nat
  | [] => 0
  | '\\' :: _ :: cs => longLength quote cs + 2
  | c :: cs => if c = quote ∧ cs.take 2 = [quote, quote] then 3 else longLength quote cs + 1

/-- The length of the quoted text that begins with the given quote. -/
def quotedLength (quote : Char) (cs : List Char) : Nat :=
  if cs.take 2 = [quote, quote] then longLength quote (cs.drop 2) + 3
  else shortLength quote cs + 1

/-- A word that marks the literal behind it. -/
def isMarkWord (word : List Char) : Bool :=
  word.length ≤ 2 && word.all fun c => ['r', 'R', 'b', 'B', 'u', 'U', 'f', 'F'].contains c

def leftBrace : Char := '\x7b'

def rightBrace : Char := '\x7d'

mutual

/-- The text outside fields. In a raw string a backslash is an ordinary character. -/
def renameText (rename : List Char → List Char) (raw : Bool) (cs : List Char) : List Char :=
  match cs with
  | [] => []
  | c :: cs =>
    if (c = leftBrace ∨ c = rightBrace) ∧ cs.head? = some c then
      c :: c :: renameText rename raw (cs.drop 1)
    else if c = leftBrace then c :: renameField rename raw 1 none cs
    else if c = '\\' ∧ !raw ∧ cs.head? = some 'N' then
      c :: cs.takeWhile (· ≠ rightBrace) ++
        match h : cs.dropWhile (· ≠ rightBrace) with
        | [] => []
        | close :: rest =>
          have := length_lt_of_dropWhile h
          close :: renameText rename raw rest
    else c :: renameText rename raw cs
termination_by cs.length
decreasing_by all_goals grind

/-- The text inside `depth` open fields, or inside a quoted text of such a field. -/
def renameField (rename : List Char → List Char) (raw : Bool) (depth : Nat) (quote : Option Char)
    (cs : List Char) : List Char :=
  match cs with
  | [] => []
  | c :: cs =>
    if quote.isSome then
      c :: renameField rename raw depth (if quote = some c then none else quote) cs
    else if isQuote c then c :: renameField rename raw depth (some c) cs
    else if c = leftBrace then c :: renameField rename raw (depth + 1) none cs
    else if c = rightBrace then
      c :: if depth ≤ 1 then renameText rename raw cs
        else renameField rename raw (depth - 1) none cs
    else if isNameChar c then
      let word := c :: cs.takeWhile isNameChar
      have := length_dropWhile_le isNameChar cs
      if isNameStart c then
        match h : cs.dropWhile isNameChar with
        | [] => rename word
        | q :: rest =>
          have := length_lt_of_dropWhile h
          if isQuote q && isMarkWord word then
            let n := quotedLength q rest
            let literal := (q :: rest).take n
            word ++ (if word.any isFormatMark then renameText rename (word.any isRawMark) literal
              else literal) ++ renameField rename raw depth none ((q :: rest).drop n)
          else rename word ++ renameField rename raw depth none (q :: rest)
      -- What begins with a digit is no identifier, and neither is any end of it.
      else word ++ renameField rename raw depth none (cs.dropWhile isNameChar)
    else c :: renameField rename raw depth none cs
termination_by cs.length
decreasing_by all_goals grind

end

/-- Renames the identifiers in the fields of a format string. -/
def renameFields (rename : String → String) (literal : String) : String :=
  let (marks, quoted) := split literal.toList
  let renameWord (word : List Char) : List Char := (rename (String.ofList word)).toList
  String.ofList (marks ++ renameText renameWord (marks.any isRawMark) quoted)

end AsyncErasure.FormatString
