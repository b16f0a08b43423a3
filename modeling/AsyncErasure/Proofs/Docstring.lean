import AsyncErasure.Grammar.Module
import AsyncErasure.Proofs.Token.Extent
import AsyncErasure.Renaming
import AsyncErasure.Render.Statement
import Mathlib.Data.List.Forall2
import Mathlib.Data.List.TakeWhile

namespace AsyncErasure

open Literal (isQuote replaceFrom)
open Token (shortTail longTail literalTail)

namespace Literal

def isInert (marker : List Char) : Bool := marker.all fun c => c != '\\' && !isQuote c

/-- In what follows the opening quotes, no marker stands right behind an open backslash nor, in
triple quotes, right behind a quote of that kind. -/
def standsClear (marker : List Char) (quote : Char) (triple : Bool) : List Char → Bool
  | [] => true
  | '\\' :: c :: cs => !marker.isPrefixOf (c :: cs) && standsClear marker quote triple cs
  | c :: cs => !(triple && c == quote && marker.isPrefixOf cs) && standsClear marker quote triple cs

def isTriple (quote : Char) (rest : List Char) : Bool := rest.take 2 = [quote, quote]

/-- The marker can be taken out of the literal without harm. -/
def isClear (marker text : List Char) : Bool :=
  match (split text).2 with
  | [] => true
  | quote :: rest =>
    if isTriple quote rest then standsClear marker quote true (rest.drop 2)
    else standsClear marker quote false rest

def opening (text : List Char) : List Char :=
  match (split text).2 with
  | [] => []
  | quote :: rest => if isTriple quote rest then [quote, quote, quote] else [quote]

variable {marker : List Char} {quote : Char} {triple : Bool} {cs rest : List Char}

theorem replaceFrom_drop (replacement : List Char) (n : Nat) (cs : List Char) :
    replaceFrom marker replacement n cs = replaceFrom marker replacement 0 (cs.drop n) := by
  induction cs generalizing n with
  | nil => cases n <;> rfl
  | cons c cs ih =>
    cases n with
    | zero => rfl
    | succ n =>
      rw [replaceFrom, List.drop_succ_cons]
      exact ih n

theorem replaceFrom_marker (hne : marker ≠ []) (rest : List Char) :
    replaceFrom marker [] 0 (marker ++ rest) = replaceFrom marker [] 0 rest := by
  rcases List.exists_cons_of_ne_nil hne with ⟨c, ds, rfl⟩
  have hpre : (c :: ds).isPrefixOf (c :: (ds ++ rest)) := by
    rw [List.isPrefixOf_iff_prefix]
    exact ⟨rest, rfl⟩
  rw [List.cons_append, replaceFrom, if_pos hpre, List.nil_append, replaceFrom_drop]
  simp

theorem replaceFrom_cons {c : Char} (h : ¬marker <+: c :: cs) :
    replaceFrom marker [] 0 (c :: cs) = c :: replaceFrom marker [] 0 cs := by
  rw [replaceFrom, if_neg]
  rwa [List.isPrefixOf_iff_prefix]

theorem not_prefix_of_isInert (hi : isInert marker) (hne : marker ≠ []) {c : Char}
    (hc : c = '\\' ∨ isQuote c) (cs : List Char) : ¬marker <+: c :: cs := by
  rcases List.exists_cons_of_ne_nil hne with ⟨d, ds, rfl⟩
  rw [List.cons_prefix_cons]
  rintro ⟨rfl, -⟩
  simp only [isInert, List.all_cons, Bool.and_eq_true, bne_iff_ne, Bool.not_eq_true'] at hi
  rcases hc with hc | hc
  · exact hi.1.1 hc
  · simp [hi.1.2] at hc

/-- A text is nothing, a lone backslash, or a text behind a marker, an escape or a character. -/
theorem markerInduction {motive : List Char → Prop} (hne : marker ≠ []) (nil : motive [])
    (lone : motive ['\\']) (marked : ∀ rest, motive rest → motive (marker ++ rest))
    (escape : ∀ c rest, motive rest → motive ('\\' :: c :: rest))
    (char : ∀ c rest, ¬marker <+: c :: rest → c ≠ '\\' → motive rest → motive (c :: rest))
    (cs : List Char) : motive cs := by
  have hpos : 0 < marker.length := List.length_pos_iff.2 hne
  induction hl : cs.length using Nat.strong_induction_on generalizing cs with
  | _ n ih =>
    subst hl
    by_cases hpre : marker <+: cs
    · rcases hpre with ⟨rest, rfl⟩
      exact marked rest (ih _ (by rw [List.length_append]; omega) rest rfl)
    · match cs with
      | [] => exact nil
      | c :: rest =>
        by_cases hc : c = '\\'
        · subst hc
          cases rest with
          | nil => exact lone
          | cons d rest =>
            exact escape d rest (ih _ (by simp only [List.length_cons]; omega) rest rfl)
        · exact char c rest hpre hc (ih _ (by simp) rest rfl)

theorem standsClear_cons {c : Char} (hc : c ≠ '\\') :
    standsClear marker quote triple (c :: cs) =
      (!(triple && c == quote && marker.isPrefixOf cs) && standsClear marker quote triple cs) := by
  rw [standsClear]
  rintro d ds rfl
  contradiction

theorem standsClear_escape {c : Char} (h : standsClear marker quote triple ('\\' :: c :: cs)) :
    ¬marker <+: c :: cs ∧ standsClear marker quote triple cs := by
  rw [standsClear, Bool.and_eq_true, Bool.not_eq_true', ← Bool.not_eq_true,
    List.isPrefixOf_iff_prefix] at h
  exact h

theorem standsClear_quote (hq : quote ≠ '\\') (h : standsClear marker quote true (quote :: cs)) :
    ¬marker <+: cs ∧ standsClear marker quote true cs := by
  rw [standsClear_cons hq] at h
  simpa [← List.isPrefixOf_iff_prefix] using h

theorem standsClear_tail {c : Char} (hc : c ≠ '\\')
    (h : standsClear marker quote triple (c :: cs)) : standsClear marker quote triple cs := by
  rw [standsClear_cons hc, Bool.and_eq_true] at h
  exact h.2

theorem standsClear_of_append (hcs : isInert cs)
    (h : standsClear marker quote triple (cs ++ rest)) :
    standsClear marker quote triple rest := by
  induction cs with
  | nil => exact h
  | cons c cs ih =>
    simp only [isInert, List.all_cons, Bool.and_eq_true, bne_iff_ne] at hcs
    exact ih hcs.2 (standsClear_tail hcs.1.1 h)

/-- Two quotes that follow a quote were next to it before the marker was taken out. -/
theorem take_of_replaceFrom (hq : quote ≠ '\\')
    (hc : standsClear marker quote true (quote :: rest))
    (h : (replaceFrom marker [] 0 rest).take 2 = [quote, quote]) :
    rest.take 2 = [quote, quote] := by
  rcases standsClear_quote hq hc with ⟨hfirst, hc⟩
  rcases rest with _ | ⟨d, rest⟩
  · simp [replaceFrom] at h
  rw [replaceFrom_cons hfirst, List.take_succ_cons, List.cons.injEq] at h
  rcases h with ⟨rfl, h⟩
  rcases standsClear_quote hq hc with ⟨hsecond, -⟩
  rcases rest with _ | ⟨e, rest⟩
  · simp [replaceFrom] at h
  rw [replaceFrom_cons hsecond] at h
  simpa using h

end Literal

namespace Token

open Literal

variable {marker : List Char} {quote : Char} {cs rest : List Char} {n : Nat}

theorem shortTail_of_isInert (hq : isQuote quote) (hcs : isInert cs)
    (h : shortTail quote (cs ++ rest) = some n) :
    ∃ m, shortTail quote rest = some m ∧ n = cs.length + m := by
  induction cs generalizing n with
  | nil => exact ⟨n, h, by simp⟩
  | cons c cs ih =>
    simp only [isInert, List.all_cons, Bool.and_eq_true, bne_iff_ne, Bool.not_eq_true'] at hcs
    have hne : c ≠ quote := by
      rintro rfl
      simp [hq] at hcs
    rw [List.cons_append, shortTail_cons hcs.1.1, if_neg hne] at h
    split at h
    · cases h
    · rcases Option.map_eq_some_iff.1 h with ⟨k, hk, rfl⟩
      rcases ih hcs.2 hk with ⟨m, hm, rfl⟩
      exact ⟨m, hm, by simp; omega⟩

theorem longTail_of_isInert (hq : isQuote quote) (hcs : isInert cs)
    (h : longTail quote (cs ++ rest) = some n) :
    ∃ m, longTail quote rest = some m ∧ n = cs.length + m := by
  induction cs generalizing n with
  | nil => exact ⟨n, h, by simp⟩
  | cons c cs ih =>
    simp only [isInert, List.all_cons, Bool.and_eq_true, bne_iff_ne, Bool.not_eq_true'] at hcs
    have hne : c ≠ quote := by
      rintro rfl
      simp [hq] at hcs
    rw [List.cons_append, longTail_cons hcs.1.1, if_neg fun hc => hne hc.1] at h
    rcases Option.map_eq_some_iff.1 h with ⟨k, hk, rfl⟩
    rcases ih hcs.2 hk with ⟨m, hm, rfl⟩
    exact ⟨m, hm, by simp; omega⟩

theorem eq_of_map_add {o : Option Nat} {k : Nat} (h : o.map (· + k) = some (n + k)) :
    o = some n := by
  rcases Option.map_eq_some_iff.1 h with ⟨m, rfl, hm⟩
  congr 1
  omega

/-- What ends a literal in single quotes still ends it, and no sooner. -/
theorem shortTail_replaceFrom (hq : isQuote quote) (hi : isInert marker) (hne : marker ≠ [])
    (hc : standsClear marker quote false cs) (h : shortTail quote cs = some cs.length) :
    shortTail quote (replaceFrom marker [] 0 cs) = some (replaceFrom marker [] 0 cs).length := by
  induction cs using markerInduction hne with
  | nil => cases h
  | lone => simp [shortTail, (ne_backslash_of_isQuote hq).symm] at h
  | marked rest ih =>
    rw [replaceFrom_marker hne]
    apply ih (standsClear_of_append hi hc)
    rcases shortTail_of_isInert hq hi h with ⟨m, hm, hl⟩
    rw [List.length_append] at hl
    rw [hm, Nat.add_left_cancel hl]
  | escape c rest ih =>
    rcases standsClear_escape hc with ⟨hpre, hc⟩
    rw [shortTail] at h
    rw [replaceFrom_cons (not_prefix_of_isInert hi hne (.inl rfl) _), replaceFrom_cons hpre,
      shortTail, ih hc (eq_of_map_add h)]
    rfl
  | char c rest hpre hb ih =>
    rw [shortTail_cons hb] at h
    rw [replaceFrom_cons hpre, shortTail_cons hb]
    by_cases hn : c = '\n'
    · rw [if_pos hn] at h
      cases h
    rw [if_neg hn] at h ⊢
    by_cases hquote : c = quote
    · rw [if_pos hquote] at h ⊢
      have hnil : rest = [] := by simpa using h.symm
      rw [hnil]
      rfl
    · rw [if_neg hquote] at h ⊢
      rw [ih (standsClear_tail hb hc) (eq_of_map_add h)]
      rfl

/-- What ends a literal in triple quotes still ends it, and no sooner. -/
theorem longTail_replaceFrom (hq : isQuote quote) (hi : isInert marker) (hne : marker ≠ [])
    (hc : standsClear marker quote true cs) (h : longTail quote cs = some cs.length) :
    longTail quote (replaceFrom marker [] 0 cs) = some (replaceFrom marker [] 0 cs).length := by
  induction cs using markerInduction hne with
  | nil => cases h
  | lone => simp [longTail] at h
  | marked rest ih =>
    rw [replaceFrom_marker hne]
    apply ih (standsClear_of_append hi hc)
    rcases longTail_of_isInert hq hi h with ⟨m, hm, hl⟩
    rw [List.length_append] at hl
    rw [hm, Nat.add_left_cancel hl]
  | escape c rest ih =>
    rcases standsClear_escape hc with ⟨hpre, hc⟩
    rw [longTail] at h
    rw [replaceFrom_cons (not_prefix_of_isInert hi hne (.inl rfl) _), replaceFrom_cons hpre,
      longTail, ih hc (eq_of_map_add h)]
    rfl
  | char c rest hpre hb ih =>
    rw [longTail_cons hb] at h
    rw [replaceFrom_cons hpre, longTail_cons hb]
    by_cases hclose : c = quote ∧ rest.take 2 = [quote, quote]
    · rw [if_pos hclose] at h
      have hl : rest.length = 2 := by simpa using h.symm
      have hrest : rest = [quote, quote] := by
        rw [← hclose.2, List.take_of_length_le (Nat.le_of_eq hl)]
      -- The closing quotes hold no marker.
      have hkeep : replaceFrom marker [] 0 rest = rest := by
        rw [hrest, replaceFrom_cons (not_prefix_of_isInert hi hne (.inr hq) _),
          replaceFrom_cons (not_prefix_of_isInert hi hne (.inr hq) _), replaceFrom]
      rw [hkeep, if_pos hclose, List.length_cons, hl]
    · have hopen : ¬(c = quote ∧ (replaceFrom marker [] 0 rest).take 2 = [quote, quote]) := by
        rintro ⟨rfl, htake⟩
        exact hclose ⟨rfl, take_of_replaceFrom hb hc htake⟩
      rw [if_neg hclose] at h
      rw [if_neg hopen, ih (standsClear_tail hb hc) (eq_of_map_add h)]
      rfl

theorem literalTail_replaceFrom (hq : isQuote quote) (hi : isInert marker) (hne : marker ≠ [])
    (hc : if isTriple quote cs then standsClear marker quote true (cs.drop 2)
      else standsClear marker quote false cs)
    (h : literalTail quote cs = .ok cs.length) :
    literalTail quote (replaceFrom marker [] 0 cs) = .ok (replaceFrom marker [] 0 cs).length ∧
      isTriple quote (replaceFrom marker [] 0 cs) = isTriple quote cs := by
  have hkeep (ds : List Char) :
      replaceFrom marker [] 0 (quote :: ds) = quote :: replaceFrom marker [] 0 ds :=
    replaceFrom_cons (not_prefix_of_isInert hi hne (.inr hq) ds)
  by_cases ht : cs.take 2 = [quote, quote]
  · obtain ⟨body, rfl⟩ : ∃ body, cs = quote :: quote :: body :=
      ⟨cs.drop 2, by rw [← List.take_append_drop 2 cs, ht]; rfl⟩
    rw [if_pos (by simp [isTriple])] at hc
    have hbody : longTail quote body = some body.length := by
      rw [literalTail, if_pos ht] at h
      split at h
      · rename_i n hn
        simp only [Except.ok.injEq, List.length_cons] at h
        rw [← Nat.add_right_cancel h]
        exact hn
      · cases h
    rw [hkeep, hkeep]
    refine ⟨?_, by simp [isTriple]⟩
    rw [literalTail, if_pos (by simp)]
    have htail : longTail quote (replaceFrom marker [] 0 body) =
        some (replaceFrom marker [] 0 body).length :=
      longTail_replaceFrom hq hi hne hc hbody
    simp only [List.drop_succ_cons, List.drop_zero, htail]
    rfl
  · rw [if_neg (by simpa [isTriple] using ht)] at hc
    have hcs : shortTail quote cs = some cs.length := by
      rw [literalTail, if_neg ht] at h
      split at h
      · rename_i n hn
        cases h
        exact hn
      · cases h
    have htail := shortTail_replaceFrom hq hi hne hc hcs
    -- A literal of one quote that began with two more would end at once.
    have hopen : ¬(replaceFrom marker [] 0 cs).take 2 = [quote, quote] := by
      intro htake
      rw [← List.take_append_drop 2 (replaceFrom marker [] 0 cs), htake, List.cons_append,
        shortTail_cons (ne_backslash_of_isQuote hq)] at htail
      split at htail
      · cases htail
      · simp at htail
    refine ⟨?_, by simp [isTriple, hopen, ht]⟩
    rw [literalTail, if_neg hopen, htail]

end Token

/-- Marks without quotes end where a quote comes. -/
theorem Literal.split_of_unquoted {marks : List Char} (h : ∀ c ∈ marks, isQuote c = false)
    {quote : Char} (hq : isQuote quote) (rest : List Char) :
    split (marks ++ quote :: rest) = (marks, quote :: rest) := by
  have hany : (marks ++ quote :: rest).any isQuote := by simp [hq]
  have htake : ∀ c ∈ marks, (!isQuote c) = true := fun c hc => by simp [h c hc]
  rw [split, if_pos hany, List.takeWhile_append_of_pos htake, List.dropWhile_append_of_pos htake]
  simp [hq]

namespace Lexeme

open Literal Token

def areMarks : List Char → Bool
  | [] => true
  | c :: cs =>
    Text.isNameStart c && !c.isDigit && cs.all Text.isNameChar && isStringMark (c :: cs)

theorem isNameChar_of_isQuote {quote : Char} (hq : isQuote quote) :
    Text.isNameChar quote = false := by
  simp only [isQuote, Bool.or_eq_true, beq_iff_eq] at hq
  rcases hq with rfl | rfl <;> decide

theorem isQuote_eq_false {marks : List Char} (h : areMarks marks) :
    ∀ c ∈ marks, isQuote c = false := by
  intro d hd
  rw [← Bool.not_eq_true]
  intro hq
  have hname := isNameChar_of_isQuote hq
  cases marks with
  | nil => cases hd
  | cons c cs =>
    simp only [areMarks, Bool.and_eq_true, List.all_eq_true] at h
    rcases List.mem_cons.1 hd with rfl | hd
    · rw [Text.isNameChar_of_isNameStart h.1.1.1] at hname
      cases hname
    · rw [h.1.2 d hd] at hname
      cases hname

theorem split_literal {marks : List Char} (h : areMarks marks) {quote : Char} (hq : isQuote quote)
    (rest : List Char) : Literal.split (marks ++ quote :: rest) = (marks, quote :: rest) :=
  split_of_unquoted (isQuote_eq_false h) hq rest

theorem munch_literal {c : Char} {cs : List Char} (h : areMarks (c :: cs)) {quote : Char}
    (hq : isQuote quote) {rest : List Char} {n : Nat} (hn : literalTail quote rest = .ok n) :
    munch c (cs ++ quote :: rest) =
      .ok (.string (String.ofList (c :: (cs ++ quote :: rest).take (cs.length + 1 + n))),
        cs.length + 1 + n) := by
  have hc := isQuote_eq_false h c (List.mem_cons_self ..)
  simp only [areMarks, Bool.and_eq_true, Bool.not_eq_true'] at h
  rcases h with ⟨⟨⟨hstart, hdigit⟩, hall⟩, hmark⟩
  have hdot : (c == '.') = false := by
    rw [beq_eq_false_iff_ne]
    rintro rfl
    revert hstart
    decide
  have hrun : runLength Text.isNameChar (cs ++ quote :: rest) = cs.length := by
    rw [runLength_append]
    · exact congrArg List.length (List.takeWhile_eq_self_iff.2 (List.all_eq_true.1 hall))
    · intro d hd
      cases hd
      exact isNameChar_of_isQuote hq
  simp only [munch, hc, hdigit, hdot, hstart, hrun, List.drop_left, List.take_left, hq, hmark, hn]
  rfl

theorem eq_marks_of_munch {c : Char} {cs : List Char} {text : String}
    (hm : munch c cs = .ok (.string text, cs.length)) :
    ∃ marks quote rest, c :: cs = marks ++ quote :: rest ∧ areMarks marks ∧ isQuote quote ∧
      literalTail quote rest = .ok rest.length := by
  by_cases hq : isQuote c = true
  · refine ⟨[], c, cs, rfl, rfl, hq, ?_⟩
    simp only [munch, hq, if_true] at hm
    cases ht : literalTail c cs <;> rw [ht] at hm <;> cases hm
    rfl
  rw [Bool.not_eq_true] at hq
  by_cases hd : (c.isDigit || (c == '.' && startsWithDigit cs)) = true
  · simp only [munch, hq, hd, Bool.false_eq_true, if_true, if_false] at hm
    cases hm
  rw [Bool.not_eq_true] at hd
  by_cases hn : Text.isNameStart c = true
  · -- A word is the marks of a literal only where a quote comes right behind it.
    have hword (word : String) : ofWord word ≠ .string text := by
      unfold ofWord
      split <;> simp
    simp only [munch, hq, hd, hn, Bool.false_eq_true, if_true, if_false] at hm
    split at hm
    · rename_i quote rest hdrop
      split at hm
      · rename_i hmark
        rw [Bool.and_eq_true] at hmark
        cases ht : literalTail quote rest <;> rw [ht] at hm
        · cases hm
        · rename_i n
          have hrun := runLength_le Text.isNameChar cs
          have hrest := congrArg List.length hdrop
          rw [List.length_drop, List.length_cons] at hrest
          injection hm with hm
          injection hm with _ hl
          refine ⟨c :: cs.take (runLength Text.isNameChar cs), quote, rest, ?_, ?_, hmark.1, ?_⟩
          · rw [← hdrop, List.cons_append, List.take_append_drop]
          · rw [Bool.or_eq_false_iff] at hd
            have htake : (cs.take (runLength Text.isNameChar cs)).all Text.isNameChar := by
              rw [runLength, List.prefix_iff_eq_take.1 (List.takeWhile_prefix _) |>.symm]
              exact List.all_takeWhile
            simp only [areMarks, hn, hd.1, htake, hmark.2]
            rfl
          · rw [ht, show n = rest.length by omega]
      · injection hm with hm
        injection hm with hw
        exact absurd hw (hword _)
    · injection hm with hm
      injection hm with hw
      exact absurd hw (hword _)
  rw [Bool.not_eq_true] at hn
  -- What is no quote, number or word is a symbol.
  rcases munch_symbol hq hd hn hm with ⟨s, hs⟩
  cases hs

/-- A text is one string literal if quoted contents that end with it follow its marks. -/
theorem isWhole_string {text : String} :
    (string text).isWhole ↔ ∃ marks quote rest, text.toList = marks ++ quote :: rest ∧
      areMarks marks ∧ isQuote quote ∧ literalTail quote rest = .ok rest.length := by
  constructor
  · intro h
    rcases stands_nil_of_isWhole h with ⟨c, cs, ht, hm⟩
    rcases eq_marks_of_munch hm with ⟨marks, quote, rest, heq, hrest⟩
    exact ⟨marks, quote, rest, ht.trans heq, hrest⟩
  · rintro ⟨marks, quote, rest, ht, hmarks, hq, hrest⟩
    have htext : text = String.ofList (marks ++ quote :: rest) := by rw [← ht, String.ofList_toList]
    unfold isWhole
    rw [show (string text).text = text from rfl, ht]
    cases marks with
    | nil => simp [munch, hq, hrest, htext, bind, Except.bind, pure, Except.pure]
    | cons c cs =>
      have hlen : cs.length + 1 + rest.length = (cs ++ quote :: rest).length := by
        simp
        omega
      simp only [List.cons_append, munch_literal hmarks hq hrest, hlen, List.take_length, htext]
      simp

end Lexeme

namespace Literal

/-- The second text is one literal, with the marks and the opening quotes of the first. -/
def KeepsFrame (text text' : String) : Prop :=
  (Lexeme.string text').isWhole ∧ (split text'.toList).1 = (split text.toList).1 ∧
    opening text'.toList = opening text.toList

theorem KeepsFrame.refl {text : String} (hw : (Lexeme.string text).isWhole) :
    KeepsFrame text text :=
  ⟨hw, rfl, rfl⟩

theorem replaceAll_eq_replaceFrom {marker : List Char} (hne : marker ≠ []) (cs : List Char) :
    replaceAll marker [] cs = replaceFrom marker [] 0 cs := by
  rw [replaceAll, if_neg (by simpa using hne)]

theorem replaceIn_empty (text : String) : replaceIn "" "" text = text := by
  simp [replaceIn, replaceText, replaceAll, split_append]

/-- A literal with its marker out of harm's way survives its removal. -/
theorem keepsFrame_replaceIn {marker text : String} (hi : isInert marker.toList)
    (hw : (Lexeme.string text).isWhole) (hc : isClear marker.toList text.toList) :
    KeepsFrame text (replaceIn marker "" text) := by
  by_cases hne : marker.toList = []
  · have hmarker : marker = "" := by rw [← String.ofList_toList (s := marker), hne]
    rw [hmarker, replaceIn_empty]
    exact .refl hw
  rcases Lexeme.isWhole_string.1 hw with ⟨marks, quote, rest, ht, hmarks, hq, hrest⟩
  have hsplit := Lexeme.split_literal hmarks hq
  simp only [isClear, ht, hsplit] at hc
  rcases Token.literalTail_replaceFrom hq hi hne (by split <;> simp_all) hrest with
    ⟨htail, htriple⟩
  have htrimmed : (replaceIn marker "" text).toList =
      marks ++ quote :: replaceFrom marker.toList [] 0 rest := by
    rw [replaceIn, String.toList_ofList, replaceText, ht, hsplit,
      show "".toList = [] from rfl, replaceAll_eq_replaceFrom hne,
      replaceFrom_cons (not_prefix_of_isInert hi hne (.inr hq) rest)]
  refine ⟨Lexeme.isWhole_string.2 ⟨_, _, _, htrimmed, hmarks, hq, htail⟩, ?_, ?_⟩
  · rw [htrimmed, ht, hsplit, hsplit]
  · simp only [opening, htrimmed, ht, hsplit, htriple]

/-- A backslash stands before the marker, or a quote of the kind that closes the literal. -/
example : isClear "Async".toList "'a\\Async'".toList = false ∧
    isClear "Async".toList "\"\"\"a\"Async\"\"\"".toList = false := by
  decide

end Literal

namespace Module

/-- The parts of the literal that a module begins with. -/
def docstring? (m : Module) : Option (List String) :=
  match m.body.find? Stmt.isCode with
  | some (.expr _ (.str _ parts)) => some parts
  | _ => none

theorem find?_onFirstCode {f : Stmt → Stmt} (hf : ∀ s, (f s).isCode = s.isCode)
    (body : List Stmt) :
    (Convention.onFirstCode f body).find? Stmt.isCode = (body.find? Stmt.isCode).map f := by
  induction body with
  | nil => rfl
  | cons s ss ih =>
    rw [Convention.onFirstCode]
    split
    · rename_i hs
      rw [List.find?_cons_of_pos (by rwa [hf]), List.find?_cons_of_pos hs]
      rfl
    · rename_i hs
      rw [List.find?_cons_of_neg hs, List.find?_cons_of_neg hs]
      exact ih

theorem isCode_trimDocstring (c : Convention) (s : Stmt) :
    (c.trimDocstring s).isCode = s.isCode := by
  unfold Convention.trimDocstring
  split
  · split <;> rfl
  · rfl

theorem docstring?_trimDocstring (c : Convention) {m : Module} {parts : List String}
    (h : m.docstring? = some parts) :
    (m.trimDocstring c).docstring? =
      some (if parts.all fun part => Literal.isPlain part.toList then
        parts.map (Literal.replaceIn c.docstringMarker "") else parts) := by
  unfold docstring? at h
  split at h
  · rename_i s t ps hfind
    cases h
    have htrim : c.trimDocstring (.expr s (.str t parts)) =
        .expr s (.str t (if parts.all fun part => Literal.isPlain part.toList then
          parts.map (Literal.replaceIn c.docstringMarker "") else parts)) := by
      rw [Convention.trimDocstring]
      split <;> rfl
    unfold docstring?
    rw [trimDocstring, find?_onFirstCode (isCode_trimDocstring c), hfind, Option.map_some, htrim]
  · cases h

/-- Trimming a docstring whose markers stand clear keeps each of its parts one literal. -/
theorem trimDocstring_keepsFrame (c : Convention) (hi : Literal.isInert c.docstringMarker.toList)
    {m : Module} {parts : List String} (hd : m.docstring? = some parts)
    (hw : ∀ part ∈ parts, (Lexeme.string part).isWhole)
    (hc : (∀ part ∈ parts, Literal.isPlain part.toList) →
      ∀ part ∈ parts, Literal.isClear c.docstringMarker.toList part.toList) :
    ∃ parts', (m.trimDocstring c).docstring? = some parts' ∧
      List.Forall₂ Literal.KeepsFrame parts parts' := by
  refine ⟨_, docstring?_trimDocstring c hd, ?_⟩
  split
  · rename_i hplain
    rw [List.all_eq_true] at hplain
    rw [List.forall₂_map_right_iff, List.forall₂_same]
    intro part hpart
    exact Literal.keepsFrame_replaceIn hi (hw part hpart) (hc hplain part hpart)
  · rw [List.forall₂_same]
    intro part hpart
    exact .refl (hw part hpart)

/-- Two parts that name the marker after a word and after an escaped backslash. -/
theorem trimDocstring_keepsFrame_client :
    ∃ parts', (Module.trimDocstring .standard ⟨[.expr (.point ⟨1, 0⟩) (.str (.point ⟨1, 0⟩)
        ["r'''An AsyncClient'''", "' of\\\\AsyncServers'"])]⟩).docstring? = some parts' ∧
      List.Forall₂ Literal.KeepsFrame ["r'''An AsyncClient'''", "' of\\\\AsyncServers'"] parts' :=
  trimDocstring_keepsFrame .standard (by decide) rfl (by decide +kernel) fun _ => by decide +kernel

/-- Behind a backslash the marker leaves the closing quote protected, and the literal open. -/
theorem trimDocstring_opens_literal :
    ∃ m, Module.parse "'\\Async'\n" = .ok m ∧ m.docstring? = some ["'\\Async'"] ∧
      (m.trimDocstring .standard).docstring? = some ["'\\'"] ∧
      (Lexeme.string "'\\'").isWhole = false ∧
      (Module.parse (m.rename .standard).render).isOk = false := by
  have h : (match Module.parse "'\\Async'\n" with
      | .ok m => m.docstring? == some ["'\\Async'"] &&
        !(Module.parse (m.rename .standard).render).isOk
      | .error _ => false) = true := by
    decide +kernel
  split at h
  case h_1 m hm =>
    simp only [Bool.and_eq_true, beq_iff_eq, Bool.not_eq_true'] at h
    refine ⟨m, hm, h.1, ?_, by decide, h.2⟩
    rw [docstring?_trimDocstring _ h.1]
    decide
  case h_2 => cases h

end Module

end AsyncErasure
