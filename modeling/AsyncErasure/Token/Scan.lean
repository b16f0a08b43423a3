import AsyncErasure.Text.Run
import AsyncErasure.Token.Munch

/-!
The tokens of a text. A text is a sequence of physical lines; a line of code runs on to the first
line end outside brackets. Indentation becomes `indent` and `dedent` tokens, and a comment written
inside brackets moves in front of the line of code that holds it.
-/

namespace AsyncErasure.Token

open Text

/-- A carriage return before a line feed is dropped, any other one is kept. -/
def unifyLineEnds : List Char → List Char
  | '\r' :: '\n' :: cs => '\n' :: unifyLineEnds cs
  | c :: cs => c :: unifyLineEnds cs
  | [] => []

def isMargin (c : Char) : Bool := c == ' ' || c == '\t' || c == '\x0c'

/-- A tab goes on to the next multiple of eight, a form feed starts over. -/
def widen (width : Nat) (c : Char) : Nat :=
  if c = ' ' then width + 1
  else if c = '\t' then (width / 8 + 1) * 8
  else 0

/-- The width of the margin that the text begins with. -/
def marginWidth (cs : List Char) : Nat := (cs.takeWhile isMargin).foldl widen 0

def restOfLine (cs : List Char) : List Char := cs.takeWhile (· ≠ '\n')

def afterLine (cs : List Char) : List Char := cs.dropWhile (· ≠ '\n')

theorem length_afterLine_le (cs : List Char) : (afterLine cs).length ≤ cs.length :=
  length_dropWhile_le _ cs

/-- The width that a look ahead comes to in a margin, from the width of what it has seen of it. -/
def widthAhead (width : Nat) : List Char → Nat
  | [] => width
  | c :: cs =>
    if c = ' ' then widthAhead (width + 1) cs
    else if c = '\t' then widthAhead ((width / 8 + 1) * 8) cs
    else if c = '\x0c' then widthAhead 0 cs
    else width

theorem widthAhead_eq (width : Nat) (cs : List Char) :
    widthAhead width cs = (cs.takeWhile isMargin).foldl widen width := by
  induction cs generalizing width with
  | nil => rfl
  | cons c cs ih =>
    rw [widthAhead, List.takeWhile_cons, isMargin]
    split
    · simp_all [widen]
    · split
      · simp_all [widen]
      · split <;> simp_all [widen]

/-- A look ahead measures margins as the reading of lines does. -/
theorem widthAhead_zero (cs : List Char) : widthAhead 0 cs = marginWidth cs := widthAhead_eq 0 cs

/-- The margin of the first line that holds code, zero if there is none. -/
def nextCodeWidth (cs : List Char) : Nat :=
  match h : cs.dropWhile isMargin with
  | [] => 0
  | c :: rest =>
    have := length_lt_of_dropWhile h
    have := length_afterLine_le rest
    if c = '\n' then nextCodeWidth rest
    else if c = '#' then nextCodeWidth ((afterLine rest).drop 1)
    else widthAhead 0 cs
termination_by cs.length
decreasing_by all_goals grind

/-- An open bracket and where it was opened. -/
abbrev Opened := Bracket × Place

/-- The brackets open after a lexeme, innermost first. -/
def nest (place : Place) (opened : List Opened) : Lexeme → Except Error (List Opened)
  | .symbol (.opening b) => .ok ((b, place) :: opened)
  | .symbol (.closing b) =>
    match opened with
    | [] => .error ⟨place, .unmatchedBracket b⟩
    | (o, _) :: outer =>
      if o = b then .ok outer else .error ⟨place, .mismatchedBracket o b⟩
  | _ => .ok opened

/-- A line of code: the comments moved out of its brackets, its tokens up to the line end, and
what follows it. -/
structure CodeLine where
  hoisted : List Token
  tokens : List Token
  place : Place
  rest : List Char

namespace CodeLine

def cons (t : Token) (l : CodeLine) : CodeLine := { l with tokens := t :: l.tokens }

def hoist (t : Token) (l : CodeLine) : CodeLine := { l with hoisted := t :: l.hoisted }

end CodeLine

/-- Reads on in the line of code that began at `home`. -/
def codeLine (home : Place) (opened : List Opened) (place : Place) (cs : List Char) :
    Except Error CodeLine :=
  match cs with
  | [] =>
    match opened.getLast? with
    | some (b, p) => .error ⟨p, .unclosedBracket b⟩
    | none => .ok ⟨[], [⟨.newline false, .point place⟩], place, []⟩
  | c :: cs =>
    if isMargin c then codeLine home opened (place.shift 1) cs
    else if c = '#' then do
      let text := String.ofList (c :: restOfLine cs)
      let stop := place.shift ((restOfLine cs).length + 1)
      let line ← codeLine home opened stop (afterLine cs)
      -- Inside brackets a comment cannot stay among the tokens of an expression.
      if opened.isEmpty then return line.cons ⟨.comment text true, ⟨place, stop⟩⟩
      else return line.hoist ⟨.comment text false, .point home⟩
    else if c = '\\' then
      match cs with
      | '\n' :: cs => codeLine home opened place.nextLine cs
      | _ => .error ⟨place, .badContinuation⟩
    else if c = '\n' then
      if opened.isEmpty then .ok ⟨[], [⟨.newline true, .point place⟩], place.nextLine, cs⟩
      else codeLine home opened place.nextLine cs
    else
      match munch c cs with
      | .error fault => .error ⟨place, fault⟩
      | .ok (lexeme, n) => do
        let inside ← nest place opened lexeme
        let stop := place.through (c :: cs.take n)
        let line ← codeLine home inside stop (cs.drop n)
        return line.cons ⟨lexeme, ⟨place, stop⟩⟩
termination_by cs.length
decreasing_by
  all_goals simp only [List.length_cons, List.length_drop]
  all_goals have := length_afterLine_le cs
  all_goals omega

theorem bind_eq_ok {x : Except Error α} {f : α → Except Error β} {b : β} (h : x >>= f = .ok b) :
    ∃ a, x = .ok a ∧ f a = .ok b := by
  cases x with
  | error e => cases h
  | ok a => exact ⟨a, rfl, h⟩

/-- A line of code takes at least one character, if there is any. -/
theorem codeLine_rest {home place : Place} {opened : List Opened} {cs : List Char}
    {line : CodeLine} (h : codeLine home opened place cs = .ok line) :
    line.rest.length ≤ cs.length - 1 := by
  fun_induction codeLine home opened place cs generalizing line with
  | case1 => cases h
  | case2 => cases h; exact Nat.le_refl _
  | case3 opened place c cs _ ih =>
    have := ih h
    simp only [List.length_cons]
    omega
  | case4 opened place cs =>
    rename_i ih
    obtain ⟨l, hl, hr⟩ := bind_eq_ok h
    have := ih hl
    have := length_afterLine_le cs
    have hrest : line.rest = l.rest := by split at hr <;> cases hr <;> rfl
    simp only [hrest, List.length_cons]
    omega
  | case5 opened place cs =>
    rename_i ih
    have := ih h
    simp only [List.length_cons]
    omega
  | case6 => cases h
  | case7 => cases h; simp
  | case8 opened place cs =>
    rename_i ih
    have := ih h
    simp only [List.length_cons]
    omega
  | case9 => cases h
  | case10 opened place c cs =>
    rename_i ih
    obtain ⟨inside, _, hr⟩ := bind_eq_ok h
    obtain ⟨l, hl, hr⟩ := bind_eq_ok hr
    have := ih inside hl
    cases hr
    simp only [List.length_drop] at this
    simp only [CodeLine.cons, List.length_cons]
    omega

/-- The indentation left after a line of the given width, with the tokens that close the blocks
it leaves. Widths stand innermost first. -/
def dedent (place : Place) (width : Nat) (indents : List Nat) : List Token × List Nat :=
  ((indents.takeWhile (width < ·)).map fun _ => ⟨.dedent, ⟨place.lineStart, place⟩⟩,
   indents.dropWhile (width < ·))

/-- The tokens that a line of code of the given width starts with, and the indentation inside. -/
def layout (place : Place) (width : Nat) (indents : List Nat) :
    Except Error (List Token × List Nat) :=
  if indents.headD 0 < width then
    .ok ([⟨.indent, ⟨place.lineStart, place⟩⟩], width :: indents)
  else
    let (closed, kept) := dedent place width indents
    if kept.headD 0 = width then .ok (closed, kept)
    else .error ⟨⟨place.line, width⟩, .inconsistentDedent⟩

/-- The tokens from a line start on. A comment of its own closes the blocks that both the comment
and the next line of code stand left of. -/
def lines (indents : List Nat) (place : Place) (cs : List Char) : Except Error (List Token) :=
  let width := marginWidth cs
  let place := place.shift (runLength isMargin cs)
  match h : cs.dropWhile isMargin with
  | [] =>
    .ok ((dedent place 0 indents).1 ++ [⟨.endMarker, ⟨place.lineStart, place⟩⟩])
  | c :: rest =>
    have := length_lt_of_dropWhile h
    have := length_afterLine_le rest
    if c = '\n' then lines indents place.nextLine rest
    else if c = '#' then do
      -- A comment may stand left of its block as long as the code goes on inside.
      let (closed, kept) :=
        dedent place (max width (nextCodeWidth ((afterLine rest).drop 1))) indents
      let stop := place.shift ((restOfLine rest).length + 1)
      let comment : Token :=
        ⟨.comment (String.ofList (c :: restOfLine rest)) false, ⟨⟨place.line, width⟩, stop⟩⟩
      let later ← lines kept stop (afterLine rest)
      return closed ++ comment :: later
    else do
      let (start, inside) ← layout place width indents
      match hl : codeLine place [] place (c :: rest) with
      | .error e => throw e
      | .ok line =>
        have := codeLine_rest hl
        let later ← lines inside line.place line.rest
        return start ++ line.hoisted ++ line.tokens ++ later
termination_by cs.length
decreasing_by all_goals grind

/-- The tokens of a text, the last of them an end marker. -/
def scan (source : String) : Except Error (List Token) :=
  lines [] .origin (unifyLineEnds source.toList)

end AsyncErasure.Token
