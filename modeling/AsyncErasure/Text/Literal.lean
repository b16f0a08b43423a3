/-!
The text of a string literal: marks such as `r` or `f`, then quotes around the contents.
-/

namespace AsyncErasure.Literal

def isQuote (c : Char) : Bool := c == '"' || c == '\''

/-- The marks of a literal and its quoted rest. A text without quotes has no marks. -/
def split (cs : List Char) : List Char × List Char :=
  if cs.any isQuote then (cs.takeWhile (!isQuote ·), cs.dropWhile (!isQuote ·)) else ([], cs)

theorem split_append (cs : List Char) : (split cs).1 ++ (split cs).2 = cs := by
  unfold split
  split
  · exact List.takeWhile_append_dropWhile
  · rfl

def isFormatMark (c : Char) : Bool := c == 'f' || c == 'F'

def isBytesMark (c : Char) : Bool := c == 'b' || c == 'B'

def isRawMark (c : Char) : Bool := c == 'r' || c == 'R'

def isFormat (cs : List Char) : Bool := (split cs).1.any isFormatMark

/-- A literal of plain text: neither bytes nor a format string. -/
def isPlain (cs : List Char) : Bool :=
  !(split cs).1.any fun c => isFormatMark c || isBytesMark c

/-- Replaces a pattern wherever it occurs, from left to right, after `skip` characters. -/
def replaceFrom (pattern replacement : List Char) : (skip : Nat) → List Char → List Char
  | _, [] => []
  | skip + 1, _ :: cs => replaceFrom pattern replacement skip cs
  | 0, c :: cs =>
    if pattern.isPrefixOf (c :: cs) then
      replacement ++ replaceFrom pattern replacement (pattern.length - 1) cs
    else c :: replaceFrom pattern replacement 0 cs

/-- Replaces every occurrence of a pattern; an empty one occurs around every character. -/
def replaceAll (pattern replacement cs : List Char) : List Char :=
  if pattern.isEmpty then replacement ++ cs.flatMap (· :: replacement)
  else replaceFrom pattern replacement 0 cs

/-- Replaces a pattern in the quoted part of a literal. -/
def replaceText (pattern replacement cs : List Char) : List Char :=
  (split cs).1 ++ replaceAll pattern replacement (split cs).2

def splitText (literal : String) : String × String :=
  (String.ofList (split literal.toList).1, String.ofList (split literal.toList).2)

def replaceIn (pattern replacement literal : String) : String :=
  String.ofList (replaceText pattern.toList replacement.toList literal.toList)

end AsyncErasure.Literal
