import AsyncErasure.Proofs.Token.Whole

namespace AsyncErasure

open Text
open Literal (isQuote)

/-- No symbol reaches over a line end. -/
theorem Symbol.munch_append_line {s : Symbol} {cs : List Char} (h : munch cs = some s)
    (rest : List Char) : munch (cs ++ '\n' :: rest) = some s := by
  obtain ⟨hs, before, behind, hall, hbefore⟩ := List.find?_eq_some_iff_append.1 h
  rw [List.isPrefixOf_iff_prefix] at hs
  refine List.find?_eq_some_iff_append.2 ⟨?_, before, behind, hall, fun t ht => ?_⟩
  · exact List.isPrefixOf_iff_prefix.2 (hs.trans (List.prefix_append ..))
  · have hnot := hbefore t ht
    simp only [Bool.not_eq_true', ← Bool.not_eq_true, List.isPrefixOf_iff_prefix] at hnot ⊢
    intro hpre
    have hline : '\n' ∉ t.chars := by
      have hall : ∀ t ∈ all, '\n' ∉ t.chars := by decide +kernel
      exact hall t t.mem_all
    obtain hlt | hle := Nat.lt_or_ge cs.length t.chars.length
    · obtain ⟨behind, heq⟩ := List.prefix_of_prefix_length_le (List.prefix_append ..) hpre hlt.le
      rw [← heq, List.prefix_append_right_inj] at hpre
      cases behind with
      | nil => simp [← heq] at hlt
      | cons d ds =>
        obtain rfl : d = '\n' := by
          obtain ⟨_, hd⟩ := hpre
          exact (List.cons.inj hd).1
        exact hline (heq ▸ by simp)
    · exact hnot (List.prefix_of_prefix_length_le hpre (List.prefix_append ..) hle)

namespace Token

variable {c : Char} {cs : List Char} {l : Lexeme} {n : Nat}

theorem startsWithDigit_append_line (cs rest : List Char) :
    startsWithDigit (cs ++ '\n' :: rest) = startsWithDigit cs := by
  cases cs <;> rfl

theorem literalTail_append_line {quote : Char} (hq : isQuote quote)
    (h : literalTail quote cs = .ok n)
    (rest : List Char) : literalTail quote (cs ++ '\n' :: rest) = .ok n :=
  literalTail_append hq h (by simp; decide)

/-- A word that marks no literal ends in front of the line end, and a literal behind its mark is
closed before it. -/
theorem munch_append_line_word (hq : isQuote c = false)
    (hd : (c.isDigit || (c == '.' && startsWithDigit cs)) = false) (hn : isNameStart c)
    (h : munch c cs = .ok (l, n)) (rest : List Char) :
    munch c (cs ++ '\n' :: rest) = .ok (l, n) := by
  have hle := (munch_take h (Nat.le_refl n)).1
  have hdigit := startsWithDigit_append_line cs rest
  have hrun : runLength isNameChar (cs ++ '\n' :: rest) = runLength isNameChar cs :=
    runLength_append _ _ _ (by simp; decide)
  have hlength := runLength_le isNameChar cs
  simp only [munch, hq, hdigit, hd, hn, hrun, Bool.false_eq_true, if_true, if_false] at h ⊢
  rw [List.drop_append_of_le_length hlength, List.take_append_of_le_length hlength]
  split at h
  · rename_i quote tail hdrop
    rw [hdrop, List.cons_append]
    dsimp only
    split at h
    · rename_i hmark
      rw [if_pos hmark]
      cases ht : literalTail quote tail with
      | error e =>
        rw [ht] at h
        cases h
      | ok m =>
        rw [ht] at h
        cases h
        rw [literalTail_append_line (Bool.and_eq_true_iff.1 hmark).1 ht]
        simp only [bind, Except.bind, List.take_append_of_le_length hle]
        rfl
    · rename_i hmark
      rw [if_neg hmark]
      exact h
  · rename_i hdrop
    rw [hdrop]
    exact h

/-- What is read at the end of a text is also read in front of a line end. -/
theorem munch_append_line (h : munch c cs = .ok (l, n)) (rest : List Char) :
    munch c (cs ++ '\n' :: rest) = .ok (l, n) := by
  have hle := (munch_take h (Nat.le_refl n)).1
  by_cases hq : isQuote c = true
  · simp only [munch, hq, if_true] at h ⊢
    cases ht : literalTail c cs <;> rw [ht] at h <;> cases h
    simp only [literalTail_append_line hq ht, bind, Except.bind, List.take_append_of_le_length hle]
    rfl
  rw [Bool.not_eq_true] at hq
  have hdigit := startsWithDigit_append_line cs rest
  by_cases hd : (c.isDigit || (c == '.' && startsWithDigit cs)) = true
  · have hnumber : numberLength (c :: (cs ++ '\n' :: rest)) = numberLength (c :: cs) := by
      rw [← List.cons_append]
      exact numberLength_append (by simp) (by simp [endsNumber]; decide) (by simp)
    simp only [munch, hq, hdigit, hd, hnumber, Bool.false_eq_true, if_true, if_false] at h ⊢
    cases h
    rw [List.take_append_of_le_length hle]
    rfl
  rw [Bool.not_eq_true] at hd
  by_cases hn : isNameStart c = true
  · exact munch_append_line_word hq hd hn h rest
  rw [Bool.not_eq_true] at hn
  simp only [munch, hq, hdigit, hd, hn, Bool.false_eq_true, if_false] at h ⊢
  split at h
  · rename_i s hs
    cases h
    rw [← List.cons_append, Symbol.munch_append_line hs]
    rfl
  · cases h

/-- A lexeme does not depend on what stands behind the end of its line. -/
theorem munch_append_line_congr {a b d : List Char} (h : munch c (a ++ '\n' :: b) = .ok (l, n))
    (hn : n ≤ a.length) : munch c (a ++ '\n' :: d) = .ok (l, n) := by
  have htake := (munch_take h hn).2
  rw [List.take_left] at htake
  exact munch_append_line htake d

variable {home place : Place} {opened : List Opened} {line : CodeLine}

/-- What a line of code is read as, step by step, is what it is read as. -/
theorem LineReads.codeLine_eq (h : LineReads home opened place cs line) :
    codeLine home opened place cs = .ok line := by
  induction h with
  | eof | ends =>
    rw [codeLine.eq_def]
    rfl
  | margin hc _ ih =>
    rw [codeLine.eq_def]
    dsimp only
    rwa [if_pos hc]
  | join _ ih =>
    rw [codeLine.eq_def]
    exact ih
  | wrap hopen _ ih =>
    rw [codeLine.eq_def]
    dsimp only
    rwa [if_neg (by decide), if_neg (by decide), if_neg (by decide), if_pos rfl,
      if_neg (by simpa using hopen)]
  | remark hbody hend _ ih =>
    rw [codeLine.eq_def]
    dsimp only
    rw [if_neg (by decide), if_pos rfl, restOfLine_append hbody hend,
      afterLine_append hbody hend, ih]
    rfl
  | hoist hopen hbody hend _ ih =>
    rw [codeLine.eq_def]
    dsimp only
    rw [if_neg (by decide), if_pos rfl, restOfLine_append hbody hend,
      afterLine_append hbody hend, ih]
    simp only [bind, Except.bind, List.isEmpty_iff, if_neg hopen]
    rfl
  | lexeme hm hn _ ih =>
    obtain ⟨hmargin, hhash, hjoin, hline⟩ := munch_head hm
    rw [codeLine.eq_def]
    dsimp only
    rw [if_neg (by simp [hmargin]), if_neg hhash, if_neg hjoin, if_neg hline, hm]
    simp only [hn, ih, bind, Except.bind]
    rfl

theorem atLineEnd_congr {a b d : List Char} (h : AtLineEnd (a ++ '\n' :: b)) :
    AtLineEnd (a ++ '\n' :: d) := by
  cases a with
  | nil => simp [AtLineEnd]
  | cons => exact h

/-- A line of code is read up to its line end, whatever comes behind it. -/
theorem LineReads.congr (h : LineReads home opened place cs line) :
    line.rest = [] ∨ ∃ here, cs = here ++ '\n' :: line.rest ∧
      ∀ rest, LineReads home opened place (here ++ '\n' :: rest) { line with rest } := by
  induction h with
  | eof => exact .inl rfl
  | ends => exact .inr ⟨[], rfl, fun _ => .ends⟩
  | @margin _ _ c _ _ hc _ ih =>
    refine ih.imp_right ?_
    rintro ⟨here, rfl, hreads⟩
    exact ⟨c :: here, rfl, fun rest => .margin hc (hreads rest)⟩
  | join _ ih =>
    refine ih.imp_right ?_
    rintro ⟨here, rfl, hreads⟩
    exact ⟨'\\' :: '\n' :: here, rfl, fun rest => .join (hreads rest)⟩
  | wrap hopen _ ih =>
    refine ih.imp_right ?_
    rintro ⟨here, rfl, hreads⟩
    exact ⟨'\n' :: here, rfl, fun rest => .wrap hopen (hreads rest)⟩
  | @remark _ body _ _ hbody hend _ ih =>
    refine ih.imp_right ?_
    rintro ⟨here, rfl, hreads⟩
    refine ⟨'#' :: (body ++ here), by simp [CodeLine.cons], fun rest => ?_⟩
    have hremark := LineReads.remark hbody (atLineEnd_congr hend) (hreads rest)
    rwa [← List.append_assoc, ← List.cons_append] at hremark
  | @hoist _ _ body _ _ hopen hbody hend _ ih =>
    refine ih.imp_right ?_
    rintro ⟨here, rfl, hreads⟩
    refine ⟨'#' :: (body ++ here), by simp [CodeLine.hoist], fun rest => ?_⟩
    have hhoist := LineReads.hoist hopen hbody (atLineEnd_congr hend) (hreads rest)
    rwa [← List.append_assoc, ← List.cons_append] at hhoist
  | @lexeme _ _ _ c cs line l n hm hn _ ih =>
    refine ih.imp_right ?_
    rintro ⟨here, hcs, hreads⟩
    -- The lexeme ends before the line does, so it is found again whatever the line is followed by.
    have hlength : (cs.take n).length = n :=
      List.length_take_of_le (munch_take hm (Nat.le_refl n)).1
    have hsplit : cs = cs.take n ++ here ++ '\n' :: line.rest := by
      rw [List.append_assoc, ← hcs, List.take_append_drop]
    refine ⟨c :: (cs.take n ++ here), congrArg _ hsplit, fun rest => ?_⟩
    have hm' : munch c (cs.take n ++ here ++ '\n' :: rest) = .ok (l, n) := by
      rw [hsplit] at hm
      exact munch_append_line_congr hm (by rw [List.length_append]; omega)
    have htake : (cs.take n ++ here ++ '\n' :: rest).take n = cs.take n := by
      rw [List.append_assoc, List.take_left' hlength]
    have hdrop : (cs.take n ++ here ++ '\n' :: rest).drop n = here ++ '\n' :: rest := by
      rw [List.append_assoc, List.drop_left' hlength]
    have hread := LineReads.lexeme hm' hn (by rw [htake, hdrop]; exact hreads rest)
    rwa [htake] at hread

end Token

end AsyncErasure
