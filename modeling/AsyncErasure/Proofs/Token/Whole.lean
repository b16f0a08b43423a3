import AsyncErasure.Proofs.Token.Order
import AsyncErasure.Proofs.Token.Origin
import AsyncErasure.Proofs.Token.Stream
import AsyncErasure.Proofs.Token.Tiling

namespace AsyncErasure

open Text
open Literal (isQuote)

namespace Token

variable {c quote : Char} {cs : List Char} {n m : Nat}

theorem runLength_take {p : Char → Bool} (h : runLength p cs ≤ m) :
    runLength p (cs.take m) = runLength p cs := by
  induction cs generalizing m with
  | nil => simp
  | cons d ds ih =>
    unfold runLength at h ih ⊢
    rw [List.takeWhile_cons] at h ⊢
    cases hd : p d with
    | false => cases m <;> simp [hd]
    | true =>
      simp only [hd, if_true, List.length_cons] at h
      obtain ⟨m, rfl⟩ : ∃ k, m = k + 1 := ⟨m - 1, by omega⟩
      simp [hd, ih (Nat.le_of_succ_le_succ h)]

/-- A literal ends at its closing quote, whatever comes behind it. -/
theorem shortTail_take (hq : isQuote quote) (h : shortTail quote cs = some n) (hm : n ≤ m) :
    n ≤ cs.length ∧ shortTail quote (cs.take m) = some n := by
  fun_induction shortTail quote cs generalizing n m with
  | case1 => cases h
  | case2 c cs ih =>
    obtain ⟨k, hk, rfl⟩ := Option.map_eq_some_iff.1 h
    obtain ⟨m, rfl⟩ := Nat.exists_eq_add_of_le' (Nat.le_of_add_left_le hm)
    obtain ⟨hle, htake⟩ := ih hk (Nat.le_of_add_le_add_right hm)
    exact ⟨Nat.add_le_add_right hle 2, by simp [shortTail, htake]⟩
  | case3 => cases h
  | case4 cs hn hb =>
    cases h
    obtain ⟨m, rfl⟩ := Nat.exists_eq_add_of_le' hm
    refine ⟨Nat.le_add_left .., ?_⟩
    rw [List.take_succ_cons, shortTail_cons (ne_backslash_of_isQuote hq), if_neg hb, if_pos rfl]
  | case5 c cs hb hn hc ih =>
    obtain ⟨k, hk, rfl⟩ := Option.map_eq_some_iff.1 h
    obtain ⟨m, rfl⟩ := Nat.exists_eq_add_of_le' (Nat.le_of_add_left_le hm)
    obtain ⟨hle, htake⟩ := ih hk (Nat.le_of_add_le_add_right hm)
    have hne : c ≠ '\\' := by
      cases cs with
      | nil => cases hk
      | cons e es => exact fun h => hb e es h rfl
    refine ⟨Nat.succ_le_succ hle, ?_⟩
    rw [List.take_succ_cons, shortTail_cons hne, if_neg hn, if_neg hc, htake]
    rfl

theorem longTail_take (hq : isQuote quote) (h : longTail quote cs = some n) (hm : n ≤ m) :
    n ≤ cs.length ∧ longTail quote (cs.take m) = some n := by
  fun_induction longTail quote cs generalizing n m with
  | case1 => cases h
  | case2 c cs ih =>
    obtain ⟨k, hk, rfl⟩ := Option.map_eq_some_iff.1 h
    obtain ⟨m, rfl⟩ := Nat.exists_eq_add_of_le' (Nat.le_of_add_left_le hm)
    obtain ⟨hle, htake⟩ := ih hk (Nat.le_of_add_le_add_right hm)
    exact ⟨Nat.add_le_add_right hle 2, by simp [longTail, htake]⟩
  | case3 c cs hn hc =>
    cases h
    obtain ⟨rfl, htwo⟩ := hc
    obtain ⟨m, rfl⟩ := Nat.exists_eq_add_of_le' hm
    have hlength := congrArg List.length htwo
    simp only [List.length_take, List.length_cons, List.length_nil] at hlength
    refine ⟨by simp only [List.length_cons]; omega, ?_⟩
    rw [List.take_succ_cons, longTail_cons (ne_backslash_of_isQuote hq), List.take_take,
      Nat.min_eq_left (Nat.le_add_left ..), htwo, if_pos ⟨rfl, rfl⟩]
  | case4 c cs hn hc ih =>
    obtain ⟨k, hk, rfl⟩ := Option.map_eq_some_iff.1 h
    obtain ⟨m, rfl⟩ := Nat.exists_eq_add_of_le' (Nat.le_of_add_left_le hm)
    obtain ⟨hle, htake⟩ := ih hk (Nat.le_of_add_le_add_right hm)
    have hthree := length_of_longTail htake
    rw [List.length_take] at hthree
    have hne : c ≠ '\\' := by
      cases cs with
      | nil => cases hk
      | cons e es => exact fun h => hn e es h rfl
    refine ⟨Nat.succ_le_succ hle, ?_⟩
    rw [List.take_succ_cons, longTail_cons hne, List.take_take, Nat.min_eq_left (by omega),
      if_neg hc, htake]
    rfl

theorem literalTail_take (hq : isQuote quote) (h : literalTail quote cs = .ok n) (hm : n ≤ m) :
    n ≤ cs.length ∧ literalTail quote (cs.take m) = .ok n := by
  unfold literalTail at h ⊢
  split at h
  · rename_i htwo
    split at h
    · rename_i k hk
      cases h
      obtain ⟨hle, htake⟩ := longTail_take hq hk (Nat.le_sub_of_add_le hm)
      have hlength := congrArg List.length htwo
      simp only [List.length_take, List.length_cons, List.length_nil,
        List.length_drop] at hlength hle
      refine ⟨by omega, ?_⟩
      rw [List.take_take, Nat.min_eq_left (by omega), if_pos htwo, List.drop_take, htake]
    · cases h
  · rename_i htwo
    split at h
    · rename_i k hk
      cases h
      obtain ⟨hle, htake⟩ := shortTail_take hq hk hm
      refine ⟨hle, ?_⟩
      rw [if_neg, htake]
      intro htwo'
      have hlength := congrArg List.length htwo'
      simp only [List.length_take, List.length_cons, List.length_nil] at hlength
      rw [List.take_take, Nat.min_eq_left (by omega)] at htwo'
      exact htwo htwo'
    · cases h

theorem startsWithDigit_take_succ (m : Nat) (cs : List Char) :
    startsWithDigit (cs.take (m + 1)) = startsWithDigit cs := by
  cases cs <;> rfl

theorem one_le_runLength (h : startsWithDigit cs) : 1 ≤ runLength isDigitPart cs := by
  cases cs with
  | nil => cases h
  | cons d ds =>
    have hd : isDigitPart d := by
      rw [isDigitPart, show d.isDigit = true from h]
      rfl
    simp [runLength, hd]

theorem fractionLength_take (h : fractionLength cs ≤ m) :
    fractionLength (cs.take m) = fractionLength cs := by
  cases cs with
  | nil => simp
  | cons d ds =>
    cases m with
    | zero => exact (Nat.le_zero.1 h).symm
    | succ m =>
      by_cases hd : d = '.'
      · subst hd
        rw [fractionLength] at h
        rw [List.take_succ_cons, fractionLength, fractionLength,
          runLength_take (Nat.le_of_succ_le_succ h)]
      · simp [fractionLength, hd]

theorem exponentLength_take (h : exponentLength cs ≤ m) :
    exponentLength (cs.take m) = exponentLength cs := by
  match cs, m with
  | [], _ => simp
  | cs, 0 => exact (Nat.le_zero.1 h).symm
  | [e], m + 1 => simp
  | e :: s :: ds, m + 1 =>
    simp only [exponentLength] at h
    rw [List.take_succ_cons]
    by_cases he : e = 'e' ∨ e = 'E'
    · rw [if_pos he] at h
      by_cases hs : s = '+' ∨ s = '-'
      · rw [if_pos hs] at h
        by_cases hd : startsWithDigit ds
        · rw [if_pos hd] at h
          have hone := one_le_runLength hd
          obtain ⟨m, rfl⟩ : ∃ k, m = k + 2 := ⟨m - 2, by omega⟩
          rw [List.take_succ_cons]
          simp only [exponentLength, if_pos he, if_pos hs, if_pos hd, startsWithDigit_take_succ]
          rw [runLength_take (by omega)]
        · have hnone (m : Nat) : ¬startsWithDigit (ds.take m) := mt startsWithDigit_take hd
          cases m <;> simp [exponentLength, he, hs, hd, hnone]
      · rw [if_neg hs] at h
        by_cases hd : s.isDigit
        · rw [if_pos hd] at h
          have hone : 1 ≤ runLength isDigitPart (s :: ds) := one_le_runLength hd
          obtain ⟨m, rfl⟩ : ∃ k, m = k + 1 := ⟨m - 1, by omega⟩
          rw [List.take_succ_cons]
          simp only [exponentLength, if_pos he, if_neg hs, if_pos hd]
          rw [← List.take_succ_cons, runLength_take (by omega)]
        · cases m <;> simp [exponentLength, he, hs, hd]
    · cases m <;> simp [exponentLength, he]

theorem imaginaryLength_take (h : imaginaryLength cs ≤ m) :
    imaginaryLength (cs.take m) = imaginaryLength cs := by
  cases m with
  | zero => exact (Nat.le_zero.1 h).symm
  | succ m => cases cs <;> rfl

theorem decimalLength_take (h : decimalLength cs ≤ m) :
    decimalLength (cs.take m) = decimalLength cs := by
  obtain ⟨whole, hwhole⟩ : ∃ k, runLength isDigitPart cs = k := ⟨_, rfl⟩
  obtain ⟨fraction, hfraction⟩ : ∃ k, fractionLength (cs.drop whole) = k := ⟨_, rfl⟩
  obtain ⟨exponent, hexponent⟩ : ∃ k, exponentLength (cs.drop (whole + fraction)) = k := ⟨_, rfl⟩
  obtain ⟨imaginary, himaginary⟩ :
      ∃ k, imaginaryLength (cs.drop (whole + fraction + exponent)) = k := ⟨_, rfl⟩
  simp only [decimalLength, hwhole, hfraction, hexponent, himaginary, List.drop_take] at h ⊢
  rw [runLength_take (by omega), hwhole, fractionLength_take (by omega), hfraction,
    exponentLength_take (by omega), hexponent, imaginaryLength_take (by omega), himaginary]

/-- A number goes as far as its digits, whatever comes behind it. -/
theorem numberLength_take (h : numberLength cs ≤ m) :
    numberLength (cs.take m) = numberLength cs := by
  unfold numberLength at h ⊢
  split at h
  · rename_i hradix
    match cs with
    | [] | [_] => simp at hradix
    | c :: d :: ds =>
      obtain ⟨m, rfl⟩ := Nat.exists_eq_add_of_le' (Nat.le_of_add_left_le h)
      simp only [List.head?_cons, List.drop_succ_cons, List.drop_zero,
        List.take_succ_cons] at h hradix ⊢
      rw [if_pos hradix, if_pos hradix, runLength_take (Nat.le_of_add_le_add_right h)]
  · rename_i hradix
    rw [decimalLength_take h, if_neg hradix, if_neg]
    rintro ⟨hzero, hmark⟩
    rw [List.head?_take] at hzero
    rw [List.drop_take, List.head?_take] at hmark
    split at hzero
    · cases hzero
    · split at hmark
      · cases hmark
      · exact hradix ⟨hzero, hmark⟩

/-- A number has its first character and, if that is a point, the digit behind it. -/
theorem exists_numberLength (h : (c.isDigit || (c == '.' && startsWithDigit cs)) = true) :
    ∃ n, numberLength (c :: cs) = n + 1 ∧
      ∀ m, n ≤ m → (c.isDigit || (c == '.' && startsWithDigit (cs.take m))) = true := by
  by_cases hd : c.isDigit = true
  · have hrun : 1 ≤ runLength isDigitPart (c :: cs) := one_le_runLength hd
    have hpos : 1 ≤ numberLength (c :: cs) := by
      unfold numberLength
      split
      · omega
      · simp only [decimalLength]
        omega
    exact ⟨numberLength (c :: cs) - 1, by omega, fun _ _ => by simp [hd]⟩
  · simp only [hd, Bool.false_or, Bool.and_eq_true, beq_iff_eq] at h
    obtain ⟨rfl, hcs⟩ := h
    have hrun := one_le_runLength hcs
    have hfraction : runLength isDigitPart cs + 1 ≤ numberLength ('.' :: cs) := by
      have hwhole : runLength isDigitPart ('.' :: cs) = 0 := rfl
      rw [numberLength, if_neg (by simp)]
      simp only [decimalLength, hwhole, List.drop_zero, fractionLength]
      omega
    refine ⟨numberLength ('.' :: cs) - 1, by omega, fun m hm => ?_⟩
    obtain ⟨m, rfl⟩ := Nat.exists_eq_add_of_le' (show 1 ≤ m by omega)
    rw [startsWithDigit_take_succ, hcs]
    rfl

end Token

theorem Symbol.munch_take {s : Symbol} {cs : List Char} (h : munch cs = some s) :
    s.chars.length ≤ cs.length ∧ ∀ m, s.chars.length ≤ m → munch (cs.take m) = some s := by
  obtain ⟨hs, before, behind, hall, hbefore⟩ := List.find?_eq_some_iff_append.1 h
  rw [List.isPrefixOf_iff_prefix] at hs
  refine ⟨hs.length_le, fun m hm => ?_⟩
  refine List.find?_eq_some_iff_append.2 ⟨?_, before, behind, hall, fun t ht => ?_⟩
  · exact List.isPrefixOf_iff_prefix.2 (List.prefix_take_iff.2 ⟨hs, hm⟩)
  · have hnot := hbefore t ht
    simp only [Bool.not_eq_true', ← Bool.not_eq_true, List.isPrefixOf_iff_prefix] at hnot ⊢
    exact fun hpre => hnot (hpre.trans (List.take_prefix m cs))

namespace Token

variable {l : Lexeme}

theorem munch_take_quote (hq : isQuote c) (h : munch c cs = .ok (l, n)) (hm : n ≤ m) :
    n ≤ cs.length ∧ munch c (cs.take m) = .ok (l, n) := by
  simp only [munch, hq, if_true] at h ⊢
  cases ht : literalTail c cs <;> rw [ht] at h <;> cases h
  obtain ⟨hle, htake⟩ := literalTail_take hq ht hm
  refine ⟨hle, ?_⟩
  simp only [htake, bind, Except.bind, List.take_take, Nat.min_eq_left hm]
  rfl

theorem munch_take_number (hq : isQuote c = false)
    (hd : (c.isDigit || (c == '.' && startsWithDigit cs)) = true) (h : munch c cs = .ok (l, n))
    (hm : n ≤ m) : n ≤ cs.length ∧ munch c (cs.take m) = .ok (l, n) := by
  simp only [munch, hq, hd, Bool.false_eq_true, if_true, if_false] at h ⊢
  cases h
  obtain ⟨n, hn, hd'⟩ := exists_numberLength hd
  have hle := numberLength_le (c :: cs)
  rw [hn, Nat.add_sub_cancel] at hm
  have htake : numberLength ((c :: cs).take (m + 1)) = numberLength (c :: cs) :=
    numberLength_take (by omega)
  rw [hn, List.take_succ_cons] at htake
  rw [hn, List.length_cons] at hle
  simp only [hn, Nat.add_sub_cancel, hd' m hm, if_true, htake, List.take_take, Nat.min_eq_left hm]
  exact ⟨Nat.le_of_succ_le_succ hle, rfl⟩

theorem munch_take_word (hq : isQuote c = false)
    (hd : ∀ m, (c.isDigit || (c == '.' && startsWithDigit (cs.take m))) = false)
    (hn : isNameStart c) (h : munch c cs = .ok (l, n)) (hm : n ≤ m) :
    n ≤ cs.length ∧ munch c (cs.take m) = .ok (l, n) := by
  obtain ⟨k, hk⟩ : ∃ k, runLength isNameChar cs = k := ⟨_, rfl⟩
  have hle := runLength_le isNameChar cs
  have hrun (hkm : k ≤ m) : runLength isNameChar (cs.take m) = k := by
    rw [runLength_take (hk.trans_le hkm), hk]
  have hd' := hd cs.length
  rw [List.take_length] at hd'
  simp only [munch, hq, hd, hd', hn, hk, Bool.false_eq_true, if_true, if_false] at h hle ⊢
  split at h
  · rename_i quote tail hdrop
    have hlength := congrArg List.length hdrop
    rw [List.length_drop, List.length_cons] at hlength
    split at h
    · rename_i hmark
      cases ht : literalTail quote tail with
      | error e =>
        rw [ht] at h
        cases h
      | ok j =>
        rw [ht] at h
        cases h
        obtain ⟨m, rfl⟩ := Nat.exists_eq_add_of_le (show k + 1 ≤ m by omega)
        obtain ⟨hjle, htake⟩ :=
          literalTail_take (m := m) (Bool.and_eq_true_iff.1 hmark).1 ht (by omega)
        refine ⟨by omega, ?_⟩
        rw [hrun (by omega), List.drop_take, hdrop, show k + 1 + m - k = m + 1 by omega,
          List.take_succ_cons]
        simp only [List.take_take, Nat.min_eq_left (show k ≤ k + 1 + m by omega), hmark, if_true,
          htake, bind, Except.bind, Nat.min_eq_left hm]
        rfl
    · rename_i hmark
      cases h
      refine ⟨hle, ?_⟩
      rw [hrun hm, List.drop_take, hdrop, List.take_take, Nat.min_eq_left hm]
      cases m - n with
      | zero => rfl
      | succ j =>
        rw [List.take_succ_cons]
        exact if_neg hmark
  · rename_i hdrop
    cases h
    rw [hrun hm, List.drop_take, hdrop, List.take_nil, List.take_take, Nat.min_eq_left hm]
    exact ⟨hle, rfl⟩

theorem munch_take_symbol (hq : isQuote c = false)
    (hd : ∀ m, (c.isDigit || (c == '.' && startsWithDigit (cs.take m))) = false)
    (hn : isNameStart c = false) (h : munch c cs = .ok (l, n)) (hm : n ≤ m) :
    n ≤ cs.length ∧ munch c (cs.take m) = .ok (l, n) := by
  have hd' := hd cs.length
  rw [List.take_length] at hd'
  simp only [munch, hq, hd, hd', hn, Bool.false_eq_true, if_false] at h ⊢
  split at h
  · rename_i s hs
    cases h
    obtain ⟨hle, htake⟩ := Symbol.munch_take hs
    have := htake (m + 1) (by omega)
    rw [List.take_succ_cons] at this
    rw [List.length_cons] at hle
    exact ⟨by omega, by rw [this]; rfl⟩
  · cases h

/-- A lexeme is read as such from its characters on, however many more there are. -/
theorem munch_take (h : munch c cs = .ok (l, n)) (hm : n ≤ m) :
    n ≤ cs.length ∧ munch c (cs.take m) = .ok (l, n) := by
  by_cases hq : isQuote c = true
  · exact munch_take_quote hq h hm
  rw [Bool.not_eq_true] at hq
  by_cases hd : (c.isDigit || (c == '.' && startsWithDigit cs)) = true
  · exact munch_take_number hq hd h hm
  rw [Bool.not_eq_true] at hd
  have hnone (m : Nat) : (c.isDigit || (c == '.' && startsWithDigit (cs.take m))) = false := by
    simp only [Bool.or_eq_false_iff, Bool.and_eq_false_iff, ← Bool.not_eq_true (startsWithDigit _)]
      at hd ⊢
    exact ⟨hd.1, hd.2.imp_right (mt startsWithDigit_take)⟩
  by_cases hn : isNameStart c = true
  · exact munch_take_word hq hnone hn h hm
  rw [Bool.not_eq_true] at hn
  exact munch_take_symbol hq hnone hn h hm

/-- What is read as one lexeme is the whole of its text. -/
theorem isWhole_of_munch (h : munch c cs = .ok (l, n)) : l.isWhole := by
  obtain ⟨hle, htake⟩ := munch_take h (Nat.le_refl n)
  unfold Lexeme.isWhole
  rw [text_of_munch h]
  simp [htake, Nat.min_eq_left hle]

end Token

open Fragment Token

namespace Lexeme

variable {l : Lexeme} {ls : List Lexeme}

theorem isCode_of_isWhole (h : l.isWhole) : l.isCode := by
  obtain ⟨c, cs, -, hm⟩ := stands_nil_of_isWhole h
  exact isCode_of_munch hm

def spaced (ls : List Lexeme) : List Fragment := [blank].intercalate (ls.map fun l => [lexeme l])

theorem spaced_cons_cons (l m : Lexeme) (ls : List Lexeme) :
    spaced (l :: m :: ls) = lexeme l :: blank :: spaced (m :: ls) := by
  rw [spaced, List.map_cons, List.map_cons, List.intercalate_cons_cons]
  rfl

theorem lexemes_spaced (ls : List Lexeme) : lexemes (spaced ls) = ls := by
  induction ls with
  | nil => rfl
  | cons l ls ih =>
    cases ls with
    | nil => rfl
    | cons m ls => rw [spaced_cons_cons, lexemes_lexeme, lexemes_blank, ih]

theorem spell_spaced (ls : List Lexeme) :
    spell (spaced ls) = (" ".intercalate (ls.map text)).toList := by
  rw [spaced, spell_intercalate, String.toList_intercalate, List.map_map, List.map_map]
  congr 1
  refine List.map_congr_left fun l _ => ?_
  simp [chars]

theorem legible_spaced (hw : ∀ l ∈ ls, l.isWhole) : Legible (spaced ls) ['\n'] := by
  induction ls with
  | nil => exact trivial
  | cons l ls ih =>
    rw [List.forall_mem_cons] at hw
    have hbreak {rest : List Char} (hr : ∀ d ∈ rest.head?, isBreak d) : l.Stands rest :=
      stands_of_isWhole hw.1 fun d hd => ends_of_isBreak l (hr d hd)
    cases ls with
    | nil => exact ⟨hbreak (by simp; decide), trivial⟩
    | cons m ls =>
      rw [spaced_cons_cons]
      exact ⟨hbreak (by simp [chars]; decide), ih hw.2⟩

end Lexeme

namespace Token

variable {l : Lexeme} {ls : List Lexeme}

theorem lexemes_of_marks {tokens : List Token} {line : Nat} (hc : ∀ l ∈ ls, l.isCode)
    (h : tokens.map mark = trace line ls) : tokens.map lexeme = ls := by
  induction ls generalizing tokens line with
  | nil => simpa [trace] using h
  | cons l ls ih =>
    rw [List.forall_mem_cons] at hc
    obtain ⟨t, later, rfl, hmark, hlater⟩ := List.map_eq_cons_iff.1 h
    have hl : t.lexeme.settled = l := by rw [← lexeme_mark, hmark]
    have hsettled := Lexeme.eq_of_settled hl fun written hwritten => by
      rw [hwritten] at hc
      cases hc.1
    rw [List.map_cons, hsettled, ih hc.2 hlater]

/-- A text of lexemes begins with the first of them. -/
theorem head_of_spaced (hne : ls ≠ []) (hw : ∀ l ∈ ls, l.isWhole) :
    ∃ c cs, spell (Lexeme.spaced ls) = c :: cs ∧ isMargin c = false ∧ c ≠ '#' ∧ c ≠ '\n' := by
  obtain ⟨l, ls, rfl⟩ := List.exists_cons_of_ne_nil hne
  obtain ⟨c, cs, htext, hm⟩ := Lexeme.stands_nil_of_isWhole (hw l List.mem_cons_self)
  obtain ⟨hmargin, hhash, -, hline⟩ := munch_head hm
  cases ls with
  | nil => exact ⟨c, cs, by simp [Lexeme.spaced, chars, htext], hmargin, hhash, hline⟩
  | cons m ls =>
    exact ⟨c, cs ++ spell (blank :: Lexeme.spaced (m :: ls)),
      by rw [Lexeme.spaced_cons_cons, spell_cons, chars, htext, List.cons_append],
      hmargin, hhash, hline⟩

theorem return_notMem_spaced (hr : ∀ l ∈ ls, '\r' ∉ l.text.toList) :
    '\r' ∉ spell (Lexeme.spaced ls) := by
  induction ls with
  | nil => exact List.not_mem_nil
  | cons l ls ih =>
    rw [List.forall_mem_cons] at hr
    cases ls with
    | nil => simpa [Lexeme.spaced, chars] using hr.1
    | cons m ls =>
      rw [Lexeme.spaced_cons_cons]
      simpa [chars] using ⟨hr.1, ih hr.2⟩

/-- Whole lexemes in a line of their own, with spaces between them, are read as they are. -/
theorem scan_spaced (hne : ls ≠ []) (hw : ∀ l ∈ ls, l.isWhole) (hr : ∀ l ∈ ls, '\r' ∉ l.text.toList)
    (hb : balance [] ls = some []) :
    ∃ tokens, scan (" ".intercalate (ls.map Lexeme.text) ++ "\n") = .ok tokens ∧
      tokens.map lexeme = ls ++ [Lexeme.newline true, .endMarker] := by
  have htext : (" ".intercalate (ls.map Lexeme.text) ++ "\n").toList =
      spell (Lexeme.spaced ls) ++ ['\n'] := by
    rw [String.toList_append, Lexeme.spell_spaced]
    rfl
  have hunified : '\r' ∉ spell (Lexeme.spaced ls) ++ ['\n'] := by
    simpa using return_notMem_spaced hr
  obtain ⟨c, cs, hcs, hmargin, hhash, hline⟩ := head_of_spaced hne hw
  obtain ⟨home, hhome⟩ :
      ∃ home, home = Place.origin.shift (runLength isMargin (c :: cs ++ ['\n'])) :=
    ⟨_, rfl⟩
  obtain ⟨tokens, inside, stop, hinside, hmarks, -, hcode⟩ :=
    codeLine_spell (Lexeme.legible_spaced hw) home [] home
      (by rw [Lexeme.lexemes_spaced]; exact hb)
  obtain rfl := List.map_eq_nil_iff.1 hinside
  rw [Lexeme.lexemes_spaced] at hmarks
  have hend : codeLine home [] stop ['\n'] =
      .ok ⟨[], [⟨.newline true, .point stop⟩], stop.nextLine, []⟩ := by
    rw [codeLine.eq_def]
    rfl
  rw [hend, hcs] at hcode
  have hlayout : layout home 0 [] = .ok ([], []) := rfl
  have hread := lines_code 0 hmargin hline hhash hhome hlayout hcode
  refine ⟨tokens ++ [⟨.newline true, .point stop⟩, ⟨.endMarker, .point stop.nextLine⟩], ?_, ?_⟩
  · rw [scan, htext, unifyLineEnds_eq_self hunified, hcs]
    refine hread.trans ?_
    rw [CodeLine.prepend, lines_nil, List.nil_append, List.nil_append, Except.map,
      List.append_assoc]
    rfl
  · rw [List.map_append, lexemes_of_marks (fun l hl => Lexeme.isCode_of_isWhole (hw l hl)) hmarks]
    rfl

variable {home place : Place} {opened : List Opened} {indents : List Nat} {line : CodeLine}
  {tokens : List Token}

theorem LineReads.isWhole (h : LineReads home opened place cs line) :
    ∀ t ∈ line.hoisted ++ line.tokens, t.lexeme.isCode → t.lexeme.isWhole := by
  induction h with
  | eof | ends => exact List.forall_mem_singleton.2 nofun
  | margin _ _ ih | join _ ih | wrap _ _ ih => exact ih
  | remark _ _ _ ih =>
    simp only [List.forall_mem_append] at ih ⊢
    exact ⟨ih.1, List.forall_mem_cons.2 ⟨nofun, ih.2⟩⟩
  | hoist _ _ _ _ ih =>
    simp only [List.forall_mem_append] at ih ⊢
    exact ⟨List.forall_mem_cons.2 ⟨nofun, ih.1⟩, ih.2⟩
  | lexeme hm _ _ ih =>
    simp only [List.forall_mem_append] at ih ⊢
    exact ⟨ih.1, List.forall_mem_cons.2 ⟨fun _ => isWhole_of_munch hm, ih.2⟩⟩

/-- The code of a page is made of whole lexemes. -/
theorem PageReads.isWhole (h : PageReads indents place cs tokens) :
    ∀ t ∈ tokens, t.lexeme.isCode → t.lexeme.isWhole := by
  have hlayout {start : List Token} (hs : ∀ t ∈ start, t.lexeme.isLayout) :
      ∀ t ∈ start, t.lexeme.isCode → t.lexeme.isWhole :=
    fun t ht hc => absurd (hs t ht) (by simp [Lexeme.isLayout_of_isCode hc])
  induction h with
  | eof =>
    refine List.forall_mem_append.2 ⟨hlayout dedent_isLayout, ?_⟩
    exact hlayout (List.forall_mem_singleton.2 rfl)
  | gap _ _ ih => exact ih
  | comment _ _ _ _ _ ih =>
    exact List.forall_mem_append.2 ⟨hlayout dedent_isLayout, List.forall_mem_cons.2 ⟨nofun, ih⟩⟩
  | code _ hl here _ ih =>
    rw [List.append_assoc _ _ (CodeLine.tokens _), List.forall_mem_append, List.forall_mem_append]
    exact ⟨⟨hlayout (layout_isLayout hl), here.isWhole⟩, ih⟩

/-- The code of a page has no character but those of its text. -/
theorem PageReads.mem_of_mem_text (h : PageReads indents place cs tokens) :
    ∀ t ∈ tokens, t.lexeme.isCode → ∀ d ∈ t.lexeme.text.toList, d ∈ cs := by
  intro t ht hc d hd
  obtain ⟨tiles, hcovers⟩ := exists_covers_of_pageReads h
  have hcode : t ∈ Tile.codes tiles := by
    rw [hcovers.codes_eq]
    exact List.mem_filter.2 ⟨ht, hc⟩
  obtain ⟨tile, htile, hsome⟩ := List.mem_filterMap.1 hcode
  rw [← hcovers.spells, List.append_nil]
  refine List.mem_flatMap.2 ⟨tile, htile, ?_⟩
  cases tile with
  | code u =>
    obtain rfl := Option.some.inj hsome
    exact hd
  | _ => cases hsome

/-- Between two line ends, as many brackets are closed as are opened. -/
theorem Run.balance_lines {p q : Position} (h : Run p ls q) (hq : q.opened = []) :
    ∃ first later, ls.splitOnP Lexeme.isNewline = first :: later ∧
      balance p.opened first = some [] ∧ ∀ line ∈ later, balance [] line = some [] := by
  induction h with
  | nil => exact ⟨[], [], rfl, by rw [hq]; rfl, nofun⟩
  | @cons p q r l ls hstep _ ih =>
    obtain ⟨first, later, hsplit, hfirst, hlater⟩ := ih hq
    rw [List.splitOnP_cons_eq_if_modifyHead, hsplit]
    cases hl : l.isNewline with
    | true =>
      cases hstep with
      | newline => exact ⟨[], _, rfl, rfl, List.forall_mem_cons.2 ⟨hfirst, hlater⟩⟩
      | code hc => simp [Lexeme.isNewline_of_isCode hc] at hl
      | _ => cases hl
    | false =>
      refine ⟨l :: first, later, rfl, ?_, hlater⟩
      rw [balance_cons, hstep.nesting_eq, Option.bind_some, hfirst]

/-- Only code opens and closes brackets. -/
theorem balance_filter_isCode (bs : List Bracket) :
    balance bs (ls.filter Lexeme.isCode) = balance bs ls := by
  induction ls generalizing bs with
  | nil => rfl
  | cons l ls ih =>
    cases hl : l.isCode with
    | true =>
      rw [List.filter_cons_of_pos hl, balance_cons, balance_cons]
      congr 1
      exact funext ih
    | false =>
      have hflat : l.isFlat := by cases l <;> first | rfl | cases hl
      rw [List.filter_cons_of_neg (by simp [hl]), ih, balance_cons, Lexeme.nesting_of_isFlat hflat,
        Option.bind_some]

/-- The lexemes between the line ends of a page. -/
def logicalLines (tokens : List Token) : List (List Lexeme) :=
  (tokens.map lexeme).splitOnP Lexeme.isNewline

/-- The texts of lexemes on a line of their own, a space between any two of them. -/
def rejoin (ls : List Lexeme) : String := " ".intercalate (ls.map Lexeme.text) ++ "\n"

theorem subset_of_mem_splitOnP {α : Type} {p : α → Bool} {xs line : List α}
    (h : line ∈ xs.splitOnP p) : line ⊆ xs := by
  induction xs generalizing line with
  | nil => simpa using h
  | cons x xs ih =>
    rw [List.splitOnP_cons_eq_if_modifyHead] at h
    cases hs : xs.splitOnP p with
    | nil => exact (List.splitOnP_ne_nil p xs hs).elim
    | cons first later =>
      rw [hs] at h ih
      have hfirst := ih List.mem_cons_self
      split at h
      · obtain rfl | h := List.mem_cons.1 h
        · exact List.nil_subset _
        · exact List.subset_cons_of_subset x (ih h)
      · obtain rfl | h := List.mem_cons.1 h
        · exact List.cons_subset_cons x hfirst
        · exact List.subset_cons_of_subset x (ih (List.mem_cons_of_mem _ h))

/-- The code of any line of a page stands for itself: on a line of its own, with nothing but spaces
between the lexemes, it is read as the same lexemes. -/
theorem scan_rejoin {source : String} (hr : '\r' ∉ source.toList) (h : scan source = .ok tokens) :
    ∀ line ∈ logicalLines tokens, line.filter Lexeme.isCode ≠ [] →
      ∃ again, scan (rejoin (line.filter Lexeme.isCode)) = .ok again ∧
        again.map lexeme = line.filter Lexeme.isCode ++ [Lexeme.newline true, .endMarker] := by
  intro line hline hne
  have hreads := pageReads_of_lines h
  rw [unifyLineEnds_eq_self hr] at hreads
  have hcode : ∀ l ∈ line.filter Lexeme.isCode, ∃ t ∈ tokens, t.lexeme = l ∧ l.isCode := by
    intro l hl
    obtain ⟨hmem, hc⟩ := List.mem_filter.1 hl
    obtain ⟨t, ht, hlexeme⟩ := List.mem_map.1 (subset_of_mem_splitOnP hline hmem)
    exact ⟨t, ht, hlexeme, hc⟩
  refine scan_spaced hne ?_ ?_ ?_
  · intro l hl
    obtain ⟨t, ht, rfl, hc⟩ := hcode l hl
    exact hreads.isWhole t ht hc
  · intro l hl
    obtain ⟨t, ht, rfl, hc⟩ := hcode l hl
    exact fun hd => hr (hreads.mem_of_mem_text t ht hc _ hd)
  · obtain ⟨first, later, hsplit, hfirst, hlater⟩ :=
      (run_of_pageReads hreads (by simp)).balance_lines rfl
    rw [logicalLines, hsplit] at hline
    rw [balance_filter_isCode]
    obtain rfl | hline := List.mem_cons.1 hline
    · exact hfirst
    · exact hlater line hline

def crowded : String := "if a:\n  f(1.e5j.real,.5  # b\n  ,0x1F)**=rb'''c\n'd'''-2"

theorem scan_rejoin_crowded : ∃ tokens, scan crowded = .ok tokens ∧
    ∃ line ∈ logicalLines tokens, rejoin (line.filter Lexeme.isCode) =
        "f ( 1.e5j . real , .5 , 0x1F ) **= rb'''c\n'd''' - 2\n" ∧
      ∃ again, scan (rejoin (line.filter Lexeme.isCode)) = .ok again ∧
        again.map lexeme = line.filter Lexeme.isCode ++ [Lexeme.newline true, .endMarker] := by
  have hscan : (scan crowded).toOption.any fun tokens =>
      (logicalLines tokens).any fun line => rejoin (line.filter Lexeme.isCode) =
        "f ( 1.e5j . real , .5 , 0x1F ) **= rb'''c\n'd''' - 2\n" := by
    decide +kernel
  obtain ⟨tokens, h, htokens⟩ := scan_of_any hscan
  obtain ⟨line, hline, hjoined⟩ := List.any_eq_true.1 htokens
  refine ⟨tokens, h, line, hline, of_decide_eq_true hjoined, ?_⟩
  refine scan_rejoin (by decide +kernel) h line hline fun hnil => ?_
  rw [hnil] at hjoined
  exact absurd (of_decide_eq_true hjoined) (by decide)

end Token

end AsyncErasure
