import AsyncErasure.Json

namespace AsyncErasure

namespace Json

def hexDigit (n : Nat) : Char := (Nat.toDigits 16 n).headD '0'

/-- Quotes, backslashes and control characters are escaped, all else stands for itself. -/
def escapeChar (c : Char) : String :=
  if c = '"' then "\\\""
  else if c = '\\' then "\\\\"
  else if c = '\x08' then "\\b"
  else if c = '\x0c' then "\\f"
  else if c = '\n' then "\\n"
  else if c = '\r' then "\\r"
  else if c = '\t' then "\\t"
  else if c.toNat < 0x20 then
    "\\u00" ++ String.ofList [hexDigit (c.toNat / 16), hexDigit (c.toNat % 16)]
  else c.toString

def quote (s : String) : String := "\"" ++ String.join (s.toList.map escapeChar) ++ "\""

def openBrace : String := "\x7b"

def closeBrace : String := "\x7d"

mutual

/-- The document on one line. -/
def compact : Json → String
  | null => "null"
  | bool value => if value then "true" else "false"
  | num value => toString value
  | str value => quote value
  | arr items => "[" ++ ",".intercalate (compactItems items) ++ "]"
  | obj fields => openBrace ++ ",".intercalate (compactFields fields) ++ closeBrace

def compactItems : List Json → List String
  | [] => []
  | item :: items => item.compact :: compactItems items

def compactFields : List (String × Json) → List String
  | [] => []
  | (key, value) :: fields => (quote key ++ ":" ++ value.compact) :: compactFields fields

end

/-- A bracketed list, one item to a line, two columns further in than its brackets. -/
def spread (depth : Nat) (first last : String) (items : List String) : String :=
  if items.isEmpty then first ++ last
  else
    let margin (n : Nat) : String := "\n" ++ "".pushn ' ' (2 * n)
    first ++ margin (depth + 1) ++ ("," ++ margin (depth + 1)).intercalate items ++
      margin depth ++ last

mutual

/-- The document over several lines, seen from the given depth. -/
def prettyAt (depth : Nat) : Json → String
  | arr items => spread depth "[" "]" (prettyItems (depth + 1) items)
  | obj fields => spread depth openBrace closeBrace (prettyFields (depth + 1) fields)
  | null => "null"
  | bool value => if value then "true" else "false"
  | num value => toString value
  | str value => quote value

def prettyItems (depth : Nat) : List Json → List String
  | [] => []
  | item :: items => item.prettyAt depth :: prettyItems depth items

def prettyFields (depth : Nat) : List (String × Json) → List String
  | [] => []
  | (key, value) :: fields =>
    (quote key ++ ": " ++ value.prettyAt depth) :: prettyFields depth fields

end

def pretty (j : Json) : String := j.prettyAt 0

end Json

end AsyncErasure
