import AsyncErasure.Grammar.Error
import AsyncErasure.Tree.Stmt

/-!
A cursor over tokens and the rules that move it. A cursor always has a next token: it never goes
past the last one. The loops of the grammar are the four combinators below; each is bounded by the
number of tokens left, which every round of a loop lowers.
-/

namespace AsyncErasure.Grammar

structure Cursor where
  next : Token
  later : List Token
  /-- The end of the last token passed that is not layout. -/
  reached : Place

namespace Cursor

/-- A cursor before the first token; without tokens it stands at an end marker. -/
def ofTokens : List Token → Cursor
  | [] => ⟨⟨.endMarker, .point .origin⟩, [], .origin⟩
  | t :: ts => ⟨t, ts, .origin⟩

def size (c : Cursor) : Nat := c.later.length + 1

/-- The token after the next one. -/
def second (c : Cursor) : Token := c.later.headD c.next

def advance (c : Cursor) : Cursor :=
  let reached := if c.next.lexeme.isLayout then c.reached else c.next.span.stop
  match c.later with
  | [] => { c with reached }
  | t :: ts => ⟨t, ts, reached⟩

end Cursor

/-- A rule reads something at a cursor and moves it, or says what is wrong there. -/
abbrev Rule := StateT Cursor (Except Error)

namespace Rule

def fail (fault : Fault) : Rule α := fun c =>
  .error ⟨c.next.span.start,
    if fault = .invalid ∧ c.next.lexeme = .indent then .unexpectedIndent else fault⟩

def peek : Rule Lexeme := return (← get).next.lexeme

def peekSecond : Rule Lexeme := return (← get).second.lexeme

def advance : Rule Unit := modify Cursor.advance

def sees (lexeme : Lexeme) : Rule Bool := return (← peek) == lexeme

/-- Passes the lexeme if it comes next, and tells whether it did. -/
def accept (lexeme : Lexeme) : Rule Bool := do
  if ← sees lexeme then
    advance
    return true
  else return false

def expect (lexeme : Lexeme) : Rule Unit := do
  if ← sees lexeme then advance else fail (.expected lexeme)

def name : Rule String := do
  match ← peek with
  | .name id =>
    advance
    return id
  | _ => fail .expectedName

def place : Rule Place := return (← get).next.span.start

/-- From a place to the end of what has been read. -/
def spanFrom (start : Place) : Rule Span := return ⟨start, (← get).reached⟩

/-- What follows the lexeme, if it comes next. -/
def after (lexeme : Lexeme) (p : Rule α) : Rule (Option α) := do
  if ← accept lexeme then return some (← p) else return none

/-- Tries one rule, and on an error starts over with another. -/
def orElse (p q : Rule α) : Rule α := fun c =>
  match p c with
  | .ok r => .ok r
  | .error _ => q c

/-- Repeats a rule until it gives nothing, at most `n` times. -/
def takeItems (p : Rule (Option α)) : Nat → Rule (List α)
  | 0 => return []
  | n + 1 => do
    match ← p with
    | none => return []
    | some a => return a :: (← takeItems p n)

def many (p : Rule (Option α)) : Rule (List α) := fun c => takeItems p c.size c

/-- Grows a value until it grows no more, at most `n` times. -/
def growTimes (p : α → Rule (Option α)) : Nat → α → Rule α
  | 0, a => return a
  | n + 1, a => do
    match ← p a with
    | none => return a
    | some b => growTimes p n b

def grow (p : α → Rule (Option α)) (a : α) : Rule α := fun c => growTimes p c.size a c

/-- Items divided by commas up to a closing lexeme, which may follow a comma. -/
def listUpTo (closed : Lexeme → Bool) (item : Rule α) : Rule (List α) := fun c =>
  go c.size c
where
  go : Nat → Rule (List α)
    | 0 => return []
    | n + 1 => do
      if closed (← peek) then return []
      let a ← item
      if ← accept Symbol.comma then return a :: (← go n) else return [a]

/-- The items after a first one, each behind a comma; a closing lexeme may follow the last comma. -/
def listTail (closed : Lexeme → Bool) (item : Rule α) : Rule (List α) :=
  many do
    if ← accept Symbol.comma then
      if closed (← peek) then return none else return some (← item)
    else return none

end Rule

end AsyncErasure.Grammar
