import AsyncErasure.Token.Scan
import Mathlib.Order.Basic

namespace AsyncErasure

open Text
open Literal (isQuote)

namespace Lexeme

/-- The text of the lexeme alone is that lexeme. -/
def isWhole (l : Lexeme) : Bool :=
  match l.text.toList with
  | [] => false
  | c :: cs =>
    match Token.munch c cs with
    | .ok (found, n) => found = l && n = cs.length
    | .error _ => false

/-- In front of `rest`, the text of the lexeme is read as that lexeme. -/
def Stands (l : Lexeme) (rest : List Char) : Prop :=
  ∃ c cs, l.text.toList = c :: cs ∧ Token.munch c (cs ++ rest) = .ok (l, cs.length)

theorem stands_nil_of_isWhole {l : Lexeme} (h : l.isWhole) :
    ∃ c cs, l.text.toList = c :: cs ∧ Token.munch c cs = .ok (l, cs.length) := by
  unfold isWhole at h
  split at h
  · cases h
  · rename_i c cs hl
    split at h
    · rename_i found n hm
      simp only [Bool.and_eq_true, decide_eq_true_eq] at h
      exact ⟨c, cs, hl, by rw [hm, h.1, h.2]⟩
    · cases h

end Lexeme

namespace Token

theorem runLength_append (p : Char → Bool) (cs rest : List Char)
    (h : ∀ c ∈ rest.head?, p c = false) : runLength p (cs ++ rest) = runLength p cs := by
  induction cs with
  | nil => cases rest <;> simp_all [runLength]
  | cons c cs ih =>
    simp only [runLength, List.cons_append, List.takeWhile_cons] at ih ⊢
    split <;> simp_all

theorem runLength_le (p : Char → Bool) (cs : List Char) : runLength p cs ≤ cs.length :=
  (List.takeWhile_sublist p).length_le

theorem runLength_eq_length (p : Char → Bool) {cs : List Char} (h : runLength p cs = cs.length) :
    ∀ c ∈ cs, p c := by
  have ht := (List.takeWhile_prefix p (l := cs)).eq_of_length h
  intro c hc
  rw [← ht] at hc
  exact List.all_eq_true.1 List.all_takeWhile c hc

section Literal

variable {quote : Char} {cs : List Char} {n : Nat}

theorem ne_backslash_of_isQuote (h : isQuote quote) : quote ≠ '\\' := by
  rintro rfl
  revert h
  decide

theorem shortTail_cons {c : Char} (h : c ≠ '\\') :
    shortTail quote (c :: cs) =
      if c = '\n' then none else if c = quote then some 1
      else (shortTail quote cs).map (· + 1) := by
  rw [shortTail]
  rintro d ds rfl
  contradiction

theorem longTail_cons {c : Char} (h : c ≠ '\\') :
    longTail quote (c :: cs) =
      if c = quote ∧ cs.take 2 = [quote, quote] then some 3
      else (longTail quote cs).map (· + 1) := by
  rw [longTail]
  rintro d ds rfl
  contradiction

theorem shortTail_append (hq : isQuote quote) (h : shortTail quote cs = some n)
    (rest : List Char) : shortTail quote (cs ++ rest) = some n := by
  fun_induction shortTail quote cs generalizing n with
  | case1 => cases h
  | case2 c cs ih =>
    obtain ⟨m, hm, rfl⟩ := Option.map_eq_some_iff.1 h
    simp [shortTail, ih hm]
  | case3 => cases h
  | case4 cs hn hb =>
    cases h
    rw [List.cons_append, shortTail_cons (ne_backslash_of_isQuote hq), if_neg hb, if_pos rfl]
  | case5 c cs hb hn hc ih =>
    obtain ⟨m, hm, rfl⟩ := Option.map_eq_some_iff.1 h
    have hne : c ≠ '\\' := by
      cases cs with
      | nil => cases hm
      | cons e es => exact fun h => hb e es h rfl
    rw [List.cons_append, shortTail_cons hne, if_neg hn, if_neg hc, ih hm]
    rfl

theorem length_of_longTail (h : longTail quote cs = some n) : 3 ≤ cs.length := by
  fun_induction longTail quote cs generalizing n with
  | case1 => cases h
  | case2 c cs ih =>
    obtain ⟨m, hm, rfl⟩ := Option.map_eq_some_iff.1 h
    have := ih hm
    simp only [List.length_cons]
    omega
  | case3 c cs hn hc =>
    have := congrArg List.length hc.2
    simp only [List.length_take, List.length_cons, List.length_nil] at this ⊢
    omega
  | case4 c cs hn hc ih =>
    obtain ⟨m, hm, rfl⟩ := Option.map_eq_some_iff.1 h
    have := ih hm
    simp only [List.length_cons]
    omega

theorem longTail_append (hq : isQuote quote) (h : longTail quote cs = some n)
    (rest : List Char) : longTail quote (cs ++ rest) = some n := by
  fun_induction longTail quote cs generalizing n with
  | case1 => cases h
  | case2 c cs ih =>
    obtain ⟨m, hm, rfl⟩ := Option.map_eq_some_iff.1 h
    simp [longTail, ih hm]
  | case3 c cs hn hc =>
    cases h
    obtain ⟨rfl, ht⟩ := hc
    have hl : 2 ≤ cs.length := by
      have := congrArg List.length ht
      simp only [List.length_take, List.length_cons, List.length_nil] at this
      omega
    rw [List.cons_append, longTail_cons (ne_backslash_of_isQuote hq), if_pos]
    exact ⟨rfl, by rw [List.take_append_of_le_length hl, ht]⟩
  | case4 c cs hn hc ih =>
    obtain ⟨m, hm, rfl⟩ := Option.map_eq_some_iff.1 h
    have hl := length_of_longTail hm
    have hne : c ≠ '\\' := by
      cases cs with
      | nil => cases hm
      | cons e es => exact fun h => hn e es h rfl
    rw [List.cons_append, longTail_cons hne, if_neg, ih hm]
    · rfl
    · rwa [List.take_append_of_le_length (by omega)]

/-- The quotes of an empty literal must not meet a third one. -/
theorem literalTail_append (hq : isQuote quote) (h : literalTail quote cs = .ok n)
    {rest : List Char} (hr : ∀ c ∈ rest.head?, isQuote c = false) :
    literalTail quote (cs ++ rest) = .ok n := by
  unfold literalTail at h ⊢
  split at h
  · rename_i ht
    have hl : 2 ≤ cs.length := by
      have := congrArg List.length ht
      simp only [List.length_take, List.length_cons, List.length_nil] at this
      omega
    split at h
    · rename_i m hm
      rw [if_pos (by rw [List.take_append_of_le_length hl, ht]), List.drop_append_of_le_length hl,
        longTail_append hq hm]
      exact h
    · cases h
  · rename_i ht
    split at h
    · rename_i m hm
      rw [if_neg, shortTail_append hq hm]
      · exact h
      · match cs, rest with
        | [], _ => cases hm
        | [c], [] => simp
        | [c], d :: _ =>
          have hd : isQuote d = false := hr d rfl
          intro he
          simp only [List.cons_append, List.nil_append, List.take_succ_cons, List.cons.injEq] at he
          rw [he.2.1, hq] at hd
          cases hd
        | c :: d :: ds, _ => simpa using ht
    · cases h

end Literal

section Number

theorem isNameChar_of_isDigit {c : Char} (h : c.isDigit) : isNameChar c := by
  have ha : isAscii c := by
    simp only [Char.isDigit, Bool.and_eq_true, decide_eq_true_eq] at h
    have := UInt32.le_iff_toNat_le.1 h.2
    simp only [isAscii, Char.toNat, decide_eq_true_eq]
    exact Nat.lt_of_le_of_lt this (by decide)
  simp [isNameChar, isNumeric, ha, h]

theorem isNameChar_of_isHexPart {c : Char} (h : isHexPart c) : isNameChar c := by
  simp only [isHexPart, Bool.or_eq_true, Bool.and_eq_true, decide_eq_true_eq, beq_iff_eq] at h
  obtain ((h | h) | h) | h := h
  · exact isNameChar_of_isDigit h
  · have hl := UInt32.le_iff_toNat_le.1 h.1
    have hu := UInt32.le_iff_toNat_le.1 h.2
    have ha : isAscii c := by
      simp only [isAscii, Char.toNat, decide_eq_true_eq]
      exact Nat.lt_of_le_of_lt hu (by decide)
    have : c.isAlpha :=
      Bool.or_eq_true_iff.2 (.inr (Bool.and_eq_true_iff.2
        ⟨decide_eq_true h.1, decide_eq_true (Char.le_trans h.2 (by decide))⟩))
    simp [isNameChar, isAlphabetic, ha, this]
  · have hu := UInt32.le_iff_toNat_le.1 h.2
    have ha : isAscii c := by
      simp only [isAscii, Char.toNat, decide_eq_true_eq]
      exact Nat.lt_of_le_of_lt hu (by decide)
    have : c.isAlpha :=
      Bool.or_eq_true_iff.2 (.inl (decide_eq_true
        (show 'A' ≤ c ∧ c ≤ 'Z' from ⟨h.1, Char.le_trans h.2 (by decide)⟩)))
    simp [isNameChar, isAlphabetic, ha, this]
  · simp [isNameChar, h]

theorem isHexPart_of_isDigitPart {c : Char} (h : isDigitPart c) : isHexPart c := by
  simp only [isDigitPart, isHexPart, Bool.or_eq_true] at h ⊢
  exact h.imp_left fun hdigit => .inl (.inl hdigit)

def endsNumber (c : Char) : Bool := !isNameChar c && c != '+' && c != '-'

variable {c : Char}

theorem isHexPart_eq_false (h : endsNumber c) : isHexPart c = false := by
  cases hx : isHexPart c
  · rfl
  · simp [endsNumber, isNameChar_of_isHexPart hx] at h

theorem isDigitPart_eq_false (h : endsNumber c) : isDigitPart c = false := by
  cases hx : isDigitPart c
  · rfl
  · rw [← isHexPart_eq_false h, isHexPart_of_isDigitPart hx]

theorem isDigit_eq_false (h : endsNumber c) : c.isDigit = false := by
  have := isDigitPart_eq_false h
  simp_all [isDigitPart]

theorem ne_of_endsNumber (h : endsNumber c) {d : Char} (hd : endsNumber d = false) : c ≠ d := by
  rintro rfl
  simp [h] at hd

theorem isRadixMark_eq_false (h : endsNumber c) : isRadixMark c = false := by
  have hx := ne_of_endsNumber h (d := 'x') (by decide)
  have hX := ne_of_endsNumber h (d := 'X') (by decide)
  have ho := ne_of_endsNumber h (d := 'o') (by decide)
  have hO := ne_of_endsNumber h (d := 'O') (by decide)
  have hb := ne_of_endsNumber h (d := 'b') (by decide)
  have hB := ne_of_endsNumber h (d := 'B') (by decide)
  simp [isRadixMark, hx, hX, ho, hO, hb, hB]

theorem fractionLength_append {cs rest : List Char} (hr : ∀ c ∈ rest.head?, endsNumber c)
    (hd : cs = [] → ∀ c ∈ rest.head?, c ≠ '.') :
    fractionLength (cs ++ rest) = fractionLength cs := by
  match cs with
  | [] =>
    cases rest with
    | nil => rfl
    | cons c rest =>
      have := hd rfl c rfl
      simp [fractionLength, this]
  | c :: cs =>
    by_cases hc : c = '.'
    · subst hc
      simp only [List.cons_append, fractionLength]
      rw [runLength_append _ _ _ fun c hc => isDigitPart_eq_false (hr c hc)]
    · simp [fractionLength, hc]

theorem exponentLength_append {cs rest : List Char} (hr : ∀ c ∈ rest.head?, endsNumber c) :
    exponentLength (cs ++ rest) = exponentLength cs := by
  have hrun (ds : List Char) : runLength isDigitPart (ds ++ rest) = runLength isDigitPart ds :=
    runLength_append _ _ _ fun c hc => isDigitPart_eq_false (hr c hc)
  have hdigit (ds : List Char) : startsWithDigit (ds ++ rest) = startsWithDigit ds := by
    cases ds with
    | nil => cases rest <;> simp_all [startsWithDigit, isDigit_eq_false]
    | cons d ds => rfl
  match cs with
  | [] =>
    cases rest with
    | nil => rfl
    | cons c rest =>
      have he := ne_of_endsNumber (hr c rfl) (d := 'e') (by decide)
      have hE := ne_of_endsNumber (hr c rfl) (d := 'E') (by decide)
      simp [exponentLength, he, hE]
  | [e] =>
    cases rest with
    | nil => rfl
    | cons c rest =>
      have hp := ne_of_endsNumber (hr c rfl) (d := '+') (by decide)
      have hm := ne_of_endsNumber (hr c rfl) (d := '-') (by decide)
      simp [exponentLength, hp, hm, isDigit_eq_false (hr c rfl)]
  | e :: s :: ds =>
    simp only [List.cons_append, exponentLength, hdigit, hrun]
    rw [← List.cons_append, hrun]

theorem imaginaryLength_append {cs rest : List Char} (hr : ∀ c ∈ rest.head?, endsNumber c) :
    imaginaryLength (cs ++ rest) = imaginaryLength cs := by
  cases cs with
  | nil =>
    cases rest with
    | nil => rfl
    | cons c rest =>
      have hj := ne_of_endsNumber (hr c rfl) (d := 'j') (by decide)
      have hJ := ne_of_endsNumber (hr c rfl) (d := 'J') (by decide)
      simp [imaginaryLength, hj, hJ]
  | cons c cs => rfl

/-- A number made of digits alone, which a point would go on with. -/
def isPlainNumber (text : List Char) : Bool := text.all fun c => c.isDigit || c == '_'

theorem fractionLength_le (cs : List Char) : fractionLength cs ≤ cs.length := by
  unfold fractionLength
  split
  · have := runLength_le isDigitPart
    simp only [List.length_cons]
    exact Nat.succ_le_succ (this _)
  · omega

theorem exponentLength_le (cs : List Char) : exponentLength cs ≤ cs.length := by
  match cs with
  | [] => exact Nat.le_refl _
  | [e] => simp [exponentLength]
  | e :: s :: ds =>
    have hds := runLength_le isDigitPart ds
    have hs := runLength_le isDigitPart (s :: ds)
    simp only [exponentLength, List.length_cons] at hs ⊢
    split
    · split
      · split <;> omega
      · split <;> omega
    · omega

theorem imaginaryLength_le (cs : List Char) : imaginaryLength cs ≤ cs.length := by
  unfold imaginaryLength
  cases cs <;> simp
  split <;> omega

theorem decimalLength_append {cs rest : List Char} (hr : ∀ c ∈ rest.head?, endsNumber c)
    (hd : runLength isDigitPart cs = cs.length → ∀ c ∈ rest.head?, c ≠ '.') :
    decimalLength (cs ++ rest) = decimalLength cs := by
  have hw := runLength_le isDigitPart cs
  have hf := fractionLength_le (cs.drop (runLength isDigitPart cs))
  have he := exponentLength_le (cs.drop (runLength isDigitPart cs +
    fractionLength (cs.drop (runLength isDigitPart cs))))
  simp only [List.length_drop] at hf he
  have hrun : runLength isDigitPart (cs ++ rest) = runLength isDigitPart cs :=
    runLength_append _ _ _ fun c hc => isDigitPart_eq_false (hr c hc)
  simp only [decimalLength]
  rw [hrun, List.drop_append_of_le_length hw, fractionLength_append hr,
    List.drop_append_of_le_length,
    exponentLength_append hr, List.drop_append_of_le_length, imaginaryLength_append hr]
  · omega
  · omega
  · intro hn
    have := congrArg List.length hn
    simp only [List.length_drop, List.length_nil] at this
    exact hd (by omega)

theorem decimalLength_le (cs : List Char) : decimalLength cs ≤ cs.length := by
  have hw := runLength_le isDigitPart cs
  have hf := fractionLength_le (cs.drop (runLength isDigitPart cs))
  have he := exponentLength_le (cs.drop (runLength isDigitPart cs +
    fractionLength (cs.drop (runLength isDigitPart cs))))
  have hi := imaginaryLength_le (cs.drop (runLength isDigitPart cs +
    fractionLength (cs.drop (runLength isDigitPart cs)) +
    exponentLength (cs.drop (runLength isDigitPart cs +
      fractionLength (cs.drop (runLength isDigitPart cs))))))
  simp only [List.length_drop] at hf he hi
  simp only [decimalLength]
  omega

theorem numberLength_le (cs : List Char) : numberLength cs ≤ cs.length := by
  unfold numberLength
  split
  · rename_i h
    match cs with
    | [] | [_] => simp at h
    | c :: d :: ds =>
      have := runLength_le isHexPart ds
      simp only [List.drop_succ_cons, List.drop_zero, List.length_cons]
      omega
  · exact decimalLength_le cs

theorem numberLength_append {cs rest : List Char} (hcs : cs ≠ [])
    (hr : ∀ c ∈ rest.head?, endsNumber c)
    (hd : isPlainNumber cs → ∀ c ∈ rest.head?, c ≠ '.') :
    numberLength (cs ++ rest) = numberLength cs := by
  obtain ⟨c, ds, rfl⟩ := List.exists_cons_of_ne_nil hcs
  have hmark : ((ds ++ rest).head?.any isRadixMark) = ds.head?.any isRadixMark := by
    cases ds with
    | nil => cases rest <;> simp_all [isRadixMark_eq_false]
    | cons d ds => rfl
  simp only [numberLength, List.cons_append, List.head?_cons, List.drop_succ_cons, List.drop_zero,
    hmark]
  split
  · rename_i h
    cases ds with
    | nil => simp at h
    | cons d ds =>
      simp only [List.cons_append, List.drop_succ_cons, List.drop_zero]
      rw [runLength_append _ _ _ fun c hc => isHexPart_eq_false (hr c hc)]
  · rw [← List.cons_append]
    refine decimalLength_append hr fun hrun => hd ?_
    exact List.all_eq_true.2 (runLength_eq_length _ hrun)

end Number

end Token

namespace Symbol

def goesOn (s : Symbol) (d : Char) : Bool := all.any fun t => (s.chars ++ [d]).isPrefixOf t.chars

theorem pairwise_all : all.Pairwise fun s t => ¬s.chars <+: t.chars := by
  decide +kernel

theorem munch_append (s : Symbol) {rest : List Char} (h : ∀ d ∈ rest.head?, s.goesOn d = false) :
    munch (s.chars ++ rest) = some s := by
  obtain ⟨before, behind, hall⟩ := List.append_of_mem (mem_all s)
  rw [munch, List.find?_eq_some_iff_append]
  refine ⟨by simp, before, behind, hall, ?_⟩
  intro t ht
  have hts : ¬t.chars <+: s.chars := by
    have hp := pairwise_all
    rw [hall, List.pairwise_append] at hp
    exact hp.2.2 t ht s (List.mem_cons_self ..)
  -- A longer symbol would have to go on with the rest.
  simp only [Bool.not_eq_true', ← Bool.not_eq_true, List.isPrefixOf_iff_prefix]
  intro hpre
  obtain hlt | hle := Nat.lt_or_ge s.chars.length t.chars.length
  · obtain ⟨x, hx⟩ := List.prefix_of_prefix_length_le (List.prefix_append s.chars rest) hpre
      (Nat.le_of_lt hlt)
    rw [← hx, List.prefix_append_right_inj] at hpre
    cases x with
    | nil => exact hts ⟨[], by rw [← hx]; simp⟩
    | cons d ds =>
      have hd := h d (by obtain ⟨u, rfl⟩ := hpre; rfl)
      rw [goesOn, List.any_eq_false] at hd
      apply hd t (mem_all t)
      rw [List.isPrefixOf_iff_prefix, ← hx]
      exact ⟨ds, by simp⟩
  · exact hts (List.prefix_of_prefix_length_le hpre (List.prefix_append ..) hle)

/-- Symbols are no quotes, numbers or names. -/
theorem head_chars (s : Symbol) :
    ∃ c cs, s.chars = c :: cs ∧ isQuote c = false ∧ c.isDigit = false ∧ isNameStart c = false ∧
      (c = '.' → s = .dot ∧ cs = [] ∨ Token.startsWithDigit cs = false ∧ cs ≠ []) := by
  cases s with
  | opening b => cases b <;> exact ⟨_, _, rfl, by decide⟩
  | closing b => cases b <;> exact ⟨_, _, rfl, by decide⟩
  | dot => exact ⟨_, _, rfl, rfl, rfl, rfl, fun _ => .inl ⟨rfl, rfl⟩⟩
  | _ => exact ⟨_, _, rfl, by decide⟩

end Symbol

namespace Lexeme

open Token (munch endsNumber isPlainNumber startsWithDigit literalTail runLength)

def ends (l : Lexeme) (d : Char) : Bool :=
  match l with
  | symbol s => !s.goesOn d && !(s = .dot && d.isDigit)
  | number text => endsNumber d && !(isPlainNumber text.toList && d = '.')
  | _ => !isNameChar d && !isQuote d

theorem stands_symbol (s : Symbol) {rest : List Char} (h : ∀ d ∈ rest.head?, (symbol s).ends d) :
    (symbol s).Stands rest := by
  obtain ⟨c, cs, hc, hq, hd, hn, hdot⟩ := s.head_chars
  refine ⟨c, cs, by simp [text, Symbol.text, hc], ?_⟩
  have hs : Symbol.munch (c :: (cs ++ rest)) = some s := by
    rw [← List.cons_append, ← hc]
    apply s.munch_append
    intro d hd
    have := h d hd
    simp_all [ends]
  have hnum : (c == '.' && startsWithDigit (cs ++ rest)) = false := by
    by_cases hcd : c = '.'
    · obtain ⟨rfl, rfl⟩ | ⟨hcs, hne⟩ := hdot hcd
      · cases rest with
        | nil => simp [startsWithDigit]
        | cons d rest =>
          have := h d rfl
          simp_all [ends, startsWithDigit]
      · cases cs with
        | nil => contradiction
        | cons e es => simpa [startsWithDigit] using fun _ => hcs
    · simp [hcd]
  simp only [munch, hq, hd, hn, hnum, hs, hc, Bool.false_or, List.length_cons]
  rfl

variable {c : Char} {cs rest : List Char} {l : Lexeme}

theorem munch_append_quote (hq : isQuote c) (h : munch c cs = .ok (l, cs.length))
    (hr : ∀ d ∈ rest.head?, l.ends d) : munch c (cs ++ rest) = .ok (l, cs.length) := by
  simp only [munch, hq, if_true] at h ⊢
  cases hl : literalTail c cs with
  | error e => rw [hl] at h; cases h
  | ok n =>
    rw [hl] at h
    injection h with h
    injection h with h hn
    subst hn h
    have hr' : ∀ d ∈ rest.head?, isQuote d = false := fun d hd => by
      have := hr d hd
      simp_all [ends]
    simp only [Token.literalTail_append hq hl hr', bind, Except.bind, List.take_left,
      List.take_length]
    rfl

theorem munch_append_number (hq : isQuote c = false)
    (hd : (c.isDigit || (c == '.' && startsWithDigit cs)) = true)
    (h : munch c cs = .ok (l, cs.length)) (hr : ∀ d ∈ rest.head?, l.ends d) :
    munch c (cs ++ rest) = .ok (l, cs.length) := by
  have hd' : (c.isDigit || (c == '.' && startsWithDigit (cs ++ rest))) = true := by
    cases cs <;> simp_all [startsWithDigit]
  simp only [munch, hq, hd, hd', Bool.false_eq_true, if_true, if_false] at h ⊢
  injection h with h
  injection h with h hn
  subst h
  rw [hn, List.take_length] at hr
  rw [← List.cons_append, Token.numberLength_append, hn, List.take_left, List.take_length]
  · rfl
  · simp
  · intro d hmem
    have := hr d hmem
    simp_all [ends]
  · intro hp d hmem
    have := hr d hmem
    simp_all [ends]

theorem munch_append_word (hq : isQuote c = false)
    (hd : (c.isDigit || (c == '.' && startsWithDigit cs)) = false) (hn : isNameStart c)
    (h : munch c cs = .ok (l, cs.length))
    (hr : ∀ d ∈ rest.head?, isNameChar d = false ∧ isQuote d = false) :
    munch c (cs ++ rest) = .ok (l, cs.length) := by
  have hdot : (c == '.') = false := by
    cases hc : c == '.'
    · rfl
    · rw [beq_iff_eq] at hc
      subst hc
      revert hn
      decide
  have hd' : (c.isDigit || (c == '.' && startsWithDigit (cs ++ rest))) = false := by
    rw [hdot] at hd ⊢
    simpa using hd
  have hlen := Token.runLength_le isNameChar cs
  simp only [munch, hq, hd, hd', hn, Bool.false_eq_true, if_true, if_false] at h ⊢
  rw [Token.runLength_append _ _ _ fun d hmem => (hr d hmem).1,
    List.drop_append_of_le_length hlen, List.take_append_of_le_length hlen]
  split at h
  · -- The word is followed by a quote of the text itself, so it may mark a literal.
    rename_i quote tail hdrop
    rw [hdrop]
    have hlt : runLength isNameChar cs < cs.length := by
      have := congrArg List.length hdrop
      simp only [List.length_drop, List.length_cons] at this
      omega
    split at h
    · rename_i hm
      simp only [List.cons_append, hm, if_true]
      simp only [Bool.and_eq_true] at hm
      cases hl : literalTail quote tail with
      | error e => rw [hl] at h; cases h
      | ok n =>
        rw [hl] at h
        rw [Token.literalTail_append hm.1 hl fun d hmem => (hr d hmem).2]
        injection h with h
        injection h with h hn
        rw [hn, List.take_length] at h
        simp only [bind, Except.bind, hn, List.take_left, ← h]
        rfl
    · injection h with h
      injection h with h hn
      omega
  · -- The word is all of the text, and what is appended starts with no quote.
    rename_i hdrop
    rw [hdrop, List.nil_append]
    cases rest with
    | nil => exact h
    | cons d rest => simpa [(hr d rfl).2] using h

theorem ends_ofWord (word : String) (d : Char) :
    (ofWord word).ends d = (!isNameChar d && !isQuote d) := by
  unfold ofWord
  split <;> rfl

theorem ends_of_munch_word {n : Nat} (hq : isQuote c = false)
    (hd : (c.isDigit || (c == '.' && startsWithDigit cs)) = false) (hn : isNameStart c)
    (h : munch c cs = .ok (l, n)) (d : Char) : l.ends d = (!isNameChar d && !isQuote d) := by
  simp only [munch, hq, hd, hn, Bool.false_eq_true, if_true, if_false] at h
  split at h
  · rename_i quote tail hdrop
    split at h
    · cases hl : literalTail quote tail with
      | error e => rw [hl] at h; cases h
      | ok m => rw [hl] at h; cases h; rfl
    · cases h
      exact ends_ofWord ..
  · cases h
    exact ends_ofWord ..

theorem munch_symbol (hq : isQuote c = false)
    (hd : (c.isDigit || (c == '.' && startsWithDigit cs)) = false) (hn : isNameStart c = false)
    {n : Nat} (h : munch c cs = .ok (l, n)) : ∃ s, l = symbol s := by
  simp only [munch, hq, hd, hn, Bool.false_eq_true, if_false] at h
  split at h
  · cases h
    exact ⟨_, rfl⟩
  · cases h

/-- A whole lexeme stays whole in front of a character that ends it. -/
theorem stands_of_isWhole (hw : l.isWhole) (hr : ∀ d ∈ rest.head?, l.ends d) : l.Stands rest := by
  obtain ⟨c, cs, ht, hm⟩ := stands_nil_of_isWhole hw
  by_cases hq : isQuote c = true
  · exact ⟨c, cs, ht, munch_append_quote hq hm hr⟩
  rw [Bool.not_eq_true] at hq
  by_cases hd : (c.isDigit || (c == '.' && startsWithDigit cs)) = true
  · exact ⟨c, cs, ht, munch_append_number hq hd hm hr⟩
  rw [Bool.not_eq_true] at hd
  by_cases hn : isNameStart c = true
  · refine ⟨c, cs, ht, munch_append_word hq hd hn hm fun d hmem => ?_⟩
    have := hr d hmem
    rw [ends_of_munch_word hq hd hn hm] at this
    simpa using this
  rw [Bool.not_eq_true] at hn
  obtain ⟨s, rfl⟩ := munch_symbol hq hd hn hm
  exact stands_symbol s hr

def isBreak (d : Char) : Bool :=
  [' ', '\n', ',', ':', '(', ')', '[', ']', '\x7d'].contains d

theorem goesOn_of_isBreak (s : Symbol) {d : Char} (h : isBreak d) : s.goesOn d = false := by
  have hall : (Symbol.all.all fun s => [' ', '\n', ',', ':', '(', ')', '[', ']', '\x7d'].all
      fun d => !s.goesOn d) = true := by
    decide +kernel
  have hs := List.all_eq_true.1 (List.all_eq_true.1 hall s s.mem_all) d (List.contains_iff_mem.1 h)
  simpa using hs

theorem ends_of_isBreak (l : Lexeme) {d : Char} (h : isBreak d) : l.ends d := by
  have hd : isNameChar d = false ∧ isQuote d = false ∧ endsNumber d ∧ d ≠ '.' ∧
      d.isDigit = false := by
    simp only [isBreak, List.contains_iff_mem, List.mem_cons, List.not_mem_nil, or_false] at h
    obtain rfl | rfl | rfl | rfl | rfl | rfl | rfl | rfl | rfl := h <;> decide
  cases l with
  | symbol s => simp [ends, goesOn_of_isBreak s h, hd]
  | number text => simp [ends, hd]
  | _ => simp [ends, hd]

/-- Every keyword is the whole of its text. -/
theorem isWhole_keyword (k : Keyword) : (keyword k).isWhole := by
  have hall : ∀ k ∈ Keyword.all, (keyword k).isWhole := by decide +kernel
  exact hall k k.mem_all

theorem isWhole_symbol (s : Symbol) : (symbol s).isWhole := by
  have hall : ∀ s ∈ Symbol.all, (symbol s).isWhole := by decide +kernel
  exact hall s s.mem_all

end Lexeme

/-- A name or a number ends before a carriage return. -/
theorem Token.munch_le_of_return {c : Char} {a b : List Char} {l : Lexeme} {n : Nat}
    (h : Token.munch c (a ++ '\r' :: b) = .ok (l, n)) (hl : ∀ text, l ≠ .string text)
    (hs : ∀ s, l ≠ .symbol s) : n ≤ a.length := by
  by_cases hq : isQuote c = true
  · simp only [munch, hq, if_true] at h
    cases ht : literalTail c (a ++ '\r' :: b) <;> rw [ht] at h <;> cases h
    exact absurd rfl (hl _)
  rw [Bool.not_eq_true] at hq
  by_cases hd : (c.isDigit || (c == '.' && startsWithDigit (a ++ '\r' :: b))) = true
  · simp only [munch, hq, hd, Bool.false_eq_true, if_true, if_false] at h
    cases h
    rw [← List.cons_append, numberLength_append (by simp) (by simp [endsNumber]; decide) (by simp)]
    have := numberLength_le (c :: a)
    simp only [List.length_cons] at this
    omega
  rw [Bool.not_eq_true] at hd
  by_cases hn : isNameStart c = true
  · have hrun : runLength isNameChar (a ++ '\r' :: b) ≤ a.length := by
      rw [runLength_append _ _ _ (by simp; decide)]
      exact runLength_le _ _
    simp only [munch, hq, hd, hn, Bool.false_eq_true, if_true, if_false] at h
    split at h
    · rename_i quote tail _
      split at h
      · cases ht : literalTail quote tail <;> rw [ht] at h <;> cases h
        exact absurd rfl (hl _)
      · cases h
        exact hrun
    · cases h
      exact hrun
  rw [Bool.not_eq_true] at hn
  obtain ⟨s, rfl⟩ := Lexeme.munch_symbol hq hd hn h
  exact absurd rfl (hs s)

/-- Only string literals hold carriage returns. -/
theorem Lexeme.return_notMem {l : Lexeme} (hw : l.isWhole) (hl : ∀ text, l ≠ .string text) :
    '\r' ∉ l.text.toList := by
  cases l with
  | keyword k => cases k <;> decide
  | symbol s => cases s with
    | opening b => cases b <;> decide
    | closing b => cases b <;> decide
    | _ => decide
  | string text => exact absurd rfl (hl text)
  | _ =>
    obtain ⟨c, cs, ht, hm⟩ := Lexeme.stands_nil_of_isWhole hw
    rw [ht]
    intro hmem
    obtain rfl | hmem := List.mem_cons.1 hmem
    · cases hm
    · obtain ⟨a, b, rfl⟩ := List.append_of_mem hmem
      have := Token.munch_le_of_return hm hl (by simp)
      simp only [List.length_append, List.length_cons] at this
      omega

theorem Token.munch_head {c : Char} {cs : List Char} {r : Lexeme × Nat}
    (h : Token.munch c cs = .ok r) :
    Token.isMargin c = false ∧ c ≠ '#' ∧ c ≠ '\\' ∧ c ≠ '\n' := by
  have hbad : ∀ d ∈ [' ', '\t', '\x0c', '#', '\\', '\n'], ∀ ds, Token.munch d ds ≠ .ok r := by
    intro d hd ds hok
    simp only [List.mem_cons, List.not_mem_nil, or_false] at hd
    obtain rfl | rfl | rfl | rfl | rfl | rfl := hd <;> cases hok
  have hc : c ∉ [' ', '\t', '\x0c', '#', '\\', '\n'] := fun hc => hbad c hc cs h
  simp_all [Token.isMargin]

end AsyncErasure
