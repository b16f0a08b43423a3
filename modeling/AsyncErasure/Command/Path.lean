namespace AsyncErasure.Command

/-- A path, an argument or a setting as the system has it: bytes, which need not be a text. -/
abbrev Path := List UInt8

namespace Path

def ofText (s : String) : Path := s.toUTF8.data.toList

def text? (p : Path) : Option String := String.fromUTF8? ⟨p.toArray⟩

def slash : UInt8 := 0x2f

/-- What is between the slashes. -/
def parts (p : Path) : List Path := p.splitOn slash

def ofParts (parts : List Path) : Path := [slash].intercalate parts

def isHere (part : Path) : Bool := part == [] || part == [0x2e]

def isUp (part : Path) : Bool := part == [0x2e, 0x2e]

/-- A character that has begun: its bits so far, how many bytes are to come, and between what the
next of them lies. -/
structure Begun where
  bits : Nat
  owed : Nat
  low : UInt8
  high : UInt8

/-- The bounds of the second byte leave out codes that are too long, surrogates, and what is beyond
the last character. -/
def begin? (b : UInt8) : Option Begun :=
  if b ≤ 0x7f then some ⟨b.toNat, 0, 0x80, 0xbf⟩
  else if 0xc2 ≤ b ∧ b ≤ 0xdf then some ⟨b.toNat % 32, 1, 0x80, 0xbf⟩
  else if 0xe0 ≤ b ∧ b ≤ 0xef then
    some ⟨b.toNat % 16, 2, if b = 0xe0 then 0xa0 else 0x80, if b = 0xed then 0x9f else 0xbf⟩
  else if 0xf0 ≤ b ∧ b ≤ 0xf4 then
    some ⟨b.toNat % 8, 3, if b = 0xf0 then 0x90 else 0x80, if b = 0xf4 then 0x8f else 0xbf⟩
  else none

def replacement : Char := '\ufffd'

/-- The characters that a byte completes, and the one that it begins or goes on with. -/
def read (begun : Option Begun) (b : UInt8) : List Char × Option Begun :=
  match begun with
  | some ⟨bits, owed, low, high⟩ =>
    if low ≤ b ∧ b ≤ high then
      let bits := bits * 64 + b.toNat % 64
      if owed ≤ 1 then ([Char.ofNat bits], none) else ([], some ⟨bits, owed - 1, 0x80, 0xbf⟩)
    else
      let (cs, next) := first b
      (replacement :: cs, next)
  | none => first b
where
  first (b : UInt8) : List Char × Option Begun :=
    match begin? b with
    | none => ([replacement], none)
    | some begun => if begun.owed = 0 then ([Char.ofNat begun.bits], none) else ([], some begun)

def readAll (begun : Option Begun) : List UInt8 → List Char
  | [] => if begun.isSome then [replacement] else []
  | b :: bs => (read begun b).1 ++ readAll (read begun b).2 bs

/-- The path as a text. What breaks off before it is a character gives way to a mark. -/
def display (p : Path) : String := String.ofList (readAll none p)

example : display [0x61, 0xc3, 0xa9, 0xe2, 0x82, 0x62, 0xff, 0xf0, 0x9f] =
    "aé\ufffdb\ufffd\ufffd" := by
  decide +kernel

end Path

end AsyncErasure.Command
