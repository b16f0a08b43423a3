import AsyncErasure.Proofs.Token.Extent
import Mathlib.Algebra.GroupWithZero.Nat

namespace AsyncErasure

inductive Fragment where
  | blank
  | lexeme (l : Lexeme)

namespace Fragment

def chars : Fragment → List Char
  | blank => [' ']
  | lexeme l => l.text.toList

def lexeme? : Fragment → Option Lexeme
  | blank => none
  | lexeme l => some l

def word (k : Keyword) : Fragment := lexeme (.keyword k)

def sign (s : Symbol) : Fragment := lexeme (.symbol s)

def name (id : String) : Fragment := lexeme (.name id)

def spell (fs : List Fragment) : List Char := fs.flatMap chars

def lexemes (fs : List Fragment) : List Lexeme := fs.filterMap lexeme?

/-- Every lexeme is read as such in front of the fragments after it and the rest. -/
def Legible : List Fragment → List Char → Prop
  | [], _ => True
  | blank :: fs, rest => Legible fs rest
  | lexeme l :: fs, rest => l.Stands (spell fs ++ rest) ∧ Legible fs rest

variable {a b fs : List Fragment} {rest : List Char}

@[simp] theorem spell_nil : spell [] = [] := rfl

@[simp] theorem spell_cons (f : Fragment) : spell (f :: fs) = f.chars ++ spell fs := rfl

@[simp] theorem spell_append : spell (a ++ b) = spell a ++ spell b := List.flatMap_append

@[simp] theorem lexemes_nil : lexemes [] = [] := rfl

@[simp] theorem lexemes_blank : lexemes (blank :: fs) = lexemes fs := rfl

@[simp] theorem lexemes_lexeme (l : Lexeme) : lexemes (lexeme l :: fs) = l :: lexemes fs := rfl

@[simp] theorem lexemes_word (k : Keyword) : lexemes (word k :: fs) = .keyword k :: lexemes fs :=
  rfl

@[simp] theorem lexemes_sign (s : Symbol) : lexemes (sign s :: fs) = .symbol s :: lexemes fs := rfl

@[simp] theorem lexemes_name (id : String) : lexemes (name id :: fs) = .name id :: lexemes fs := rfl

@[simp] theorem lexemes_append : lexemes (a ++ b) = lexemes a ++ lexemes b :=
  List.filterMap_append ..

@[simp] theorem legible_nil : Legible [] rest := trivial

@[simp] theorem legible_blank : Legible (blank :: fs) rest ↔ Legible fs rest := Iff.rfl

@[simp] theorem legible_lexeme (l : Lexeme) :
    Legible (lexeme l :: fs) rest ↔ l.Stands (spell fs ++ rest) ∧ Legible fs rest := Iff.rfl

@[simp] theorem legible_append :
    Legible (a ++ b) rest ↔ Legible a (spell b ++ rest) ∧ Legible b rest := by
  induction a with
  | nil => simp
  | cons f a ih =>
    cases f with
    | blank => simpa using ih
    | lexeme l => simp [ih, and_assoc]

theorem spell_intercalate (sep : List Fragment) (xs : List (List Fragment)) :
    spell (sep.intercalate xs) = (spell sep).intercalate (xs.map spell) := by
  induction xs with
  | nil => rfl
  | cons x xs ih => cases xs <;> simp_all [List.intercalate, List.intersperse]

theorem lexemes_intercalate (sep : List Fragment) (xs : List (List Fragment)) :
    lexemes (sep.intercalate xs) = (lexemes sep).intercalate (xs.map lexemes) := by
  induction xs with
  | nil => rfl
  | cons x xs ih => cases xs <;> simp_all [List.intercalate, List.intersperse]

end Fragment

open Fragment

namespace Lexeme

def height (l : Lexeme) : Nat := l.text.toList.count '\n'

/-- The end of a line, written or not. -/
def settled : Lexeme → Lexeme
  | newline _ => newline true
  | l => l

/-- Only the end of a line is settled to another lexeme. -/
theorem eq_of_settled {l m : Lexeme} (h : l.settled = m) (hm : ∀ written, m ≠ .newline written) :
    l = m := by
  cases l with
  | newline written => exact absurd h.symm (hm true)
  | _ => exact h

theorem isNewline_of_settled {l : Lexeme} (h : l.settled = .newline true) :
    ∃ written, l = .newline written := by
  cases l with
  | newline written => exact ⟨written, rfl⟩
  | _ => cases h

def nesting : List Bracket → Lexeme → Option (List Bracket)
  | opened, symbol (.opening b) => some (b :: opened)
  | [], symbol (.closing _) => none
  | o :: outer, symbol (.closing b) => if o = b then some outer else none
  | opened, _ => some opened

def isFlat : Lexeme → Bool
  | symbol (.opening _) | symbol (.closing _) => false
  | _ => true

theorem nesting_of_isFlat {l : Lexeme} (h : l.isFlat) (opened : List Bracket) :
    l.nesting opened = some opened := by
  unfold nesting
  split <;> simp_all [isFlat]

theorem nesting_closing (b : Bracket) (outer : List Bracket) :
    nesting (b :: outer) (.symbol (.closing b)) = some outer := if_pos rfl

def isCode (l : Lexeme) : Bool := !l.isLayout && !l.isComment

theorem isCode_of_munch {c : Char} {cs : List Char} {l : Lexeme} {n : Nat}
    (h : Token.munch c cs = .ok (l, n)) : l.isCode := by
  have hword (word : String) : (ofWord word).isCode := by
    unfold ofWord
    split <;> rfl
  by_cases hq : Literal.isQuote c = true
  · simp only [Token.munch, hq, if_true] at h
    cases hl : Token.literalTail c cs <;> rw [hl] at h <;> cases h
    rfl
  rw [Bool.not_eq_true] at hq
  by_cases hd : (c.isDigit || (c == '.' && Token.startsWithDigit cs)) = true
  · simp only [Token.munch, hq, hd, Bool.false_eq_true, if_true, if_false] at h
    cases h
    rfl
  rw [Bool.not_eq_true] at hd
  by_cases hn : Text.isNameStart c = true
  · simp only [Token.munch, hq, hd, hn, Bool.false_eq_true, if_true, if_false] at h
    split at h
    · rename_i quote tail _
      split at h
      · cases hl : Token.literalTail quote tail <;> rw [hl] at h <;> cases h
        rfl
      · cases h
        exact hword _
    · cases h
      exact hword _
  rw [Bool.not_eq_true] at hn
  obtain ⟨s, rfl⟩ := munch_symbol hq hd hn h
  rfl

theorem isLayout_of_isCode {l : Lexeme} (h : l.isCode) : l.isLayout = false := by
  unfold isCode at h
  rw [Bool.and_eq_true, Bool.not_eq_true'] at h
  exact h.1

theorem isLayout_of_munch {c : Char} {cs : List Char} {l : Lexeme} {n : Nat}
    (h : Token.munch c cs = .ok (l, n)) : l.isLayout = false :=
    isLayout_of_isCode (isCode_of_munch h)

end Lexeme

theorem Place.line_through (p : Place) (cs : List Char) :
    (p.through cs).line = p.line + cs.count '\n' := by
  induction cs generalizing p with
  | nil => rfl
  | cons c cs ih =>
    rw [Place.through, List.foldl_cons, ← Place.through, ih, List.count_cons, Place.after]
    split <;> simp_all [Place.nextLine, Place.shift]
    omega

namespace Token

/-- What can be told of a token from the lines of a text. Layout stands on no line. -/
structure Mark where
  lexeme : Lexeme
  line : Nat
  endLine : Nat
deriving DecidableEq

def mark (t : Token) : Mark :=
  if t.lexeme.isLayout then ⟨t.lexeme.settled, 0, 0⟩ else ⟨t.lexeme, t.span.line, t.span.endLine⟩

/-- The mark of a token tells its lexeme, up to whether a line end is written. -/
theorem lexeme_mark (t : Token) : t.mark.lexeme = t.lexeme.settled := by
  unfold mark
  split
  · rfl
  · rename_i hlayout
    cases hl : t.lexeme <;> first | rfl | simp [hl, Lexeme.isLayout] at hlayout

def Mark.layout (l : Lexeme) : Mark := ⟨l, 0, 0⟩

def trace (line : Nat) : List Lexeme → List Mark
  | [] => []
  | l :: ls => ⟨l, line, line + l.height⟩ :: trace (line + l.height) ls

def height (ls : List Lexeme) : Nat := (ls.map Lexeme.height).sum

def balance (opened : List Bracket) (ls : List Lexeme) : Option (List Bracket) :=
  ls.foldlM Lexeme.nesting opened

theorem balance_cons (opened : List Bracket) (l : Lexeme) (ls : List Lexeme) :
    balance opened (l :: ls) = (l.nesting opened).bind (balance · ls) := rfl

theorem balance_append (opened : List Bracket) (a b : List Lexeme) :
    balance opened (a ++ b) = (balance opened a).bind (balance · b) := List.foldlM_append

def Balanced (ls : List Lexeme) : Prop := ∀ opened, balance opened ls = some opened

@[simp] theorem height_nil : height [] = 0 := rfl

@[simp] theorem height_cons (l : Lexeme) (ls : List Lexeme) :
    height (l :: ls) = l.height + height ls := rfl

@[simp] theorem height_append (a b : List Lexeme) : height (a ++ b) = height a + height b := by
  simp [height]

theorem balanced_nil : Balanced [] := fun _ => rfl

theorem Balanced.append {a b : List Lexeme} (ha : Balanced a) (hb : Balanced b) :
    Balanced (a ++ b) := by
  intro opened
  rw [balance_append, ha]
  exact hb opened

theorem Balanced.enclose {ls : List Lexeme} (h : Balanced ls) (b : Bracket) :
    Balanced (.symbol (.opening b) :: ls ++ [Lexeme.symbol (.closing b)]) := by
  intro opened
  rw [List.cons_append, balance_cons, Lexeme.nesting, Option.bind_some, balance_append, h]
  exact congrArg (·.bind some) (Lexeme.nesting_closing b opened)

theorem exists_nest {opened : List Opened} {l : Lexeme} {bs : List Bracket}
    (h : l.nesting (opened.map Prod.fst) = some bs) (place : Place) :
    ∃ inside, nest place opened l = .ok inside ∧ inside.map Prod.fst = bs := by
  unfold nest
  split
  · rw [Lexeme.nesting] at h
    exact ⟨_, rfl, by simpa using h⟩
  · cases opened with
    | nil => simp [Lexeme.nesting] at h
    | cons o outer =>
      obtain ⟨o, p⟩ := o
      simp only [List.map_cons, Lexeme.nesting] at h
      split at h
      · rename_i ho
        simp only [ho, if_true]
        exact ⟨outer, rfl, by simpa using h⟩
      · cases h
  · refine ⟨opened, rfl, ?_⟩
    unfold Lexeme.nesting at h
    split at h <;> simp_all

namespace CodeLine

def prepend (tokens : List Token) (l : CodeLine) : CodeLine :=
  { l with tokens := tokens ++ l.tokens }

end CodeLine

theorem codeLine_blank (home : Place) (opened : List Opened) (place : Place) (cs : List Char) :
    codeLine home opened place (' ' :: cs) = codeLine home opened (place.shift 1) cs := by
  rw [codeLine.eq_def]
  simp [isMargin]

theorem codeLine_lexeme (home : Place) {opened inside : List Opened} {place : Place} {l : Lexeme}
    {rest : List Char} (hl : l.Stands rest) (hn : nest place opened l = .ok inside) :
    codeLine home opened place (l.text.toList ++ rest) =
      (codeLine home inside (place.through l.text.toList) rest).map
        (.cons ⟨l, ⟨place, place.through l.text.toList⟩⟩) := by
  obtain ⟨c, cs, ht, hm⟩ := hl
  obtain ⟨hmargin, hhash, hback, hline⟩ := munch_head hm
  rw [ht, List.cons_append, codeLine.eq_def]
  simp only [hmargin, hhash, hback, hline, hm, hn, if_false, Bool.false_eq_true, List.take_left,
    List.drop_left, bind, Except.bind]
  cases codeLine home inside (place.through (c :: cs)) rest <;> rfl

/-- Legible fragments are read as their lexemes, wherever a line of code stands. -/
theorem codeLine_spell {fs : List Fragment} {rest : List Char} (hl : Legible fs rest)
    (home : Place) (opened : List Opened) {bs : List Bracket} (place : Place)
    (hb : balance (opened.map Prod.fst) (lexemes fs) = some bs) :
    ∃ (tokens : List Token) (inside : List Opened) (stop : Place),
      inside.map Prod.fst = bs ∧ tokens.map mark = trace place.line (lexemes fs) ∧
      stop.line = place.line + height (lexemes fs) ∧
      codeLine home opened place (spell fs ++ rest) =
        (codeLine home inside stop rest).map (.prepend tokens) := by
  induction fs generalizing opened place with
  | nil =>
    refine ⟨[], opened, place, by simpa [balance] using hb, rfl, rfl, ?_⟩
    cases h : codeLine home opened place rest <;> simp [h, CodeLine.prepend, Except.map]
  | cons f fs ih =>
    cases f with
    | blank =>
      obtain ⟨tokens, inside, stop, hi, ht, hs, hc⟩ := ih hl _ (place.shift 1) hb
      refine ⟨tokens, inside, stop, hi, ht, hs, ?_⟩
      rw [spell_cons, chars, List.cons_append, List.nil_append, List.cons_append,
        codeLine_blank, hc]
    | lexeme l =>
      rw [legible_lexeme] at hl
      rw [lexemes_lexeme, balance, List.foldlM_cons] at hb
      obtain ⟨bs', hn, hb⟩ := Option.bind_eq_some_iff.1 hb
      obtain ⟨between, hnest, hbetween⟩ := exists_nest hn place
      rw [← hbetween] at hb
      obtain ⟨tokens, inside, stop, hi, ht, hs, hc⟩ :=
        ih hl.2 _ (place.through l.text.toList) hb
      have hline := place.line_through l.text.toList
      refine ⟨⟨l, ⟨place, place.through l.text.toList⟩⟩ :: tokens, inside, stop, hi, ?_, ?_, ?_⟩
      · obtain ⟨c, cs, -, hm⟩ := hl.1
        have hlay := Lexeme.isLayout_of_munch hm
        rw [List.map_cons, ht, hline]
        simp [mark, hlay, trace, Span.line, Span.endLine, hline, Lexeme.height]
      · rw [hs, hline, lexemes_lexeme, height_cons, Lexeme.height]
        omega
      · rw [spell_cons, chars, List.append_assoc, codeLine_lexeme home hl.1 hnest, hc]
        cases codeLine home inside stop rest <;> rfl

end Token

end AsyncErasure
