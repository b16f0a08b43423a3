import AsyncErasure.Proofs.Token.Reading
import AsyncErasure.Proofs.WellFormed

namespace AsyncErasure

open Text
open Literal (isQuote)

namespace Lexeme

structure IsInner (l : Lexeme) : Prop where
  ne_end : l ≠ .endMarker
  named : ∀ id, l = .name id → isIdentifier id

theorem isInner_ofWord {word : String} (h : ofWord word = .name word → isIdentifier word) :
    (ofWord word).IsInner := by
  unfold ofWord at h ⊢
  split
  · exact ⟨by simp, nofun⟩
  · rename_i hnone
    rw [hnone] at h
    exact ⟨by simp, fun id hid => Lexeme.name.inj hid ▸ h rfl⟩

end Lexeme

namespace Token

/-- A word that is no keyword is an identifier. -/
theorem isIdentifier_of_word {c : Char} {cs : List Char} (hq : isQuote c = false)
    (hd : (c.isDigit || (c == '.' && startsWithDigit cs)) = false) (hc : isNameStart c)
    (hcs : ∀ d ∈ cs, isNameChar d)
    (hw : Lexeme.ofWord (String.ofList (c :: cs)) = .name (String.ofList (c :: cs))) :
    isIdentifier (String.ofList (c :: cs)) := by
  have hrun : runLength isNameChar cs = cs.length := by
    rw [runLength, List.takeWhile_eq_self_iff.2 hcs]
  have hmunch : munch c cs = .ok (.name (String.ofList (c :: cs)), cs.length) := by
    unfold munch
    simp only [hq, hd, hc, hrun, List.drop_length, List.take_length, Bool.false_eq_true, if_false,
      if_true, hw]
    rfl
  simp [isIdentifier, Lexeme.isWhole, Lexeme.text, hmunch]

theorem startsWithDigit_take {n : Nat} {cs : List Char} (h : startsWithDigit (cs.take n)) :
    startsWithDigit cs := by
  cases cs with
  | nil => simp at h; exact h
  | cons d ds =>
    cases n with
    | zero => cases h
    | succ n => exact h

/-- What a word is read as: characters of names as far as they go, the first of which starts it. -/
structure IsWord (c : Char) (cs : List Char) (n : Nat) : Prop where
  not_quote : isQuote c = false
  not_number : (c.isDigit || (c == '.' && startsWithDigit cs)) = false
  starts : isNameStart c
  length_eq : n = runLength isNameChar cs

/-- A lexeme is a literal, a symbol or a word. -/
theorem munch_cases {c : Char} {cs : List Char} {l : Lexeme} {n : Nat}
    (h : munch c cs = .ok (l, n)) :
    (∃ text, l = .string text) ∨ (∃ text, l = .number text) ∨ (∃ s, l = .symbol s) ∨
      IsWord c cs n ∧ l = Lexeme.ofWord (String.ofList (c :: cs.take n)) := by
  by_cases hq : isQuote c = true
  · simp only [munch, hq, if_true] at h
    cases ht : literalTail c cs <;> rw [ht] at h <;> cases h
    exact .inl ⟨_, rfl⟩
  rw [Bool.not_eq_true] at hq
  by_cases hd : (c.isDigit || (c == '.' && startsWithDigit cs)) = true
  · simp only [munch, hq, hd, Bool.false_eq_true, if_true, if_false] at h
    cases h
    exact .inr (.inl ⟨_, rfl⟩)
  rw [Bool.not_eq_true] at hd
  by_cases hc : isNameStart c = true
  · simp only [munch, hq, hd, hc, Bool.false_eq_true, if_true, if_false] at h
    split at h
    · rename_i quote tail _
      split at h
      · cases ht : literalTail quote tail <;> rw [ht] at h <;> cases h
        exact .inl ⟨_, rfl⟩
      · cases h
        exact .inr (.inr (.inr ⟨⟨hq, hd, hc, rfl⟩, rfl⟩))
    · cases h
      exact .inr (.inr (.inr ⟨⟨hq, hd, hc, rfl⟩, rfl⟩))
  rw [Bool.not_eq_true] at hc
  exact .inr (.inr (.inl (Lexeme.munch_symbol hq hd hc h)))

theorem IsWord.nameChars {c : Char} {cs : List Char} {n : Nat} (h : IsWord c cs n) :
    ∀ d ∈ cs.take n, isNameChar d := by
  rw [h.length_eq, runLength, ← List.prefix_iff_eq_take.1 (List.takeWhile_prefix isNameChar)]
  exact fun d hd => List.mem_takeWhile_imp hd

theorem munch_isInner {c : Char} {cs : List Char} {l : Lexeme} {n : Nat}
    (h : munch c cs = .ok (l, n)) : l.IsInner := by
  obtain ⟨text, rfl⟩ | ⟨text, rfl⟩ | ⟨s, rfl⟩ | ⟨hw, rfl⟩ := munch_cases h
  · exact ⟨by simp, nofun⟩
  · exact ⟨by simp, nofun⟩
  · exact ⟨by simp, nofun⟩
  · refine Lexeme.isInner_ofWord (isIdentifier_of_word hw.not_quote ?_ hw.starts hw.nameChars)
    have hd := hw.not_number
    simp only [Bool.or_eq_false_iff, Bool.and_eq_false_iff] at hd ⊢
    refine ⟨hd.1, hd.2.imp_right fun hs => ?_⟩
    rw [Bool.eq_false_iff] at hs ⊢
    exact fun ht => hs (startsWithDigit_take ht)

theorem isInner_newline (written : Bool) : (Lexeme.newline written).IsInner := ⟨by simp, nofun⟩

theorem isInner_comment (text : String) (inline : Bool) : (Lexeme.comment text inline).IsInner :=
  ⟨by simp, nofun⟩

/-- The tokens of a line of code stand in front of the end marker. -/
theorem LineReads.isInner {home place : Place} {opened : List Opened} {cs : List Char}
    {line : CodeLine} (h : LineReads home opened place cs line) :
    (∀ t ∈ line.hoisted, t.lexeme.IsInner) ∧ ∀ t ∈ line.tokens, t.lexeme.IsInner := by
  induction h with
  | eof | ends => simp [isInner_newline]
  | margin _ _ ih | join _ ih | wrap _ _ ih => exact ih
  | remark _ _ _ ih => exact ⟨ih.1, List.forall_mem_cons.2 ⟨isInner_comment _ _, ih.2⟩⟩
  | hoist _ _ _ _ ih => exact ⟨List.forall_mem_cons.2 ⟨isInner_comment _ _, ih.1⟩, ih.2⟩
  | lexeme hm _ _ ih => exact ⟨ih.1, List.forall_mem_cons.2 ⟨munch_isInner hm, ih.2⟩⟩

theorem dedent_isInner {place : Place} {width : Nat} {indents : List Nat} :
    ∀ t ∈ (dedent place width indents).1, t.lexeme.IsInner := by
  intro t ht
  obtain ⟨_, -, rfl⟩ := List.mem_map.1 ht
  exact ⟨by simp, nofun⟩

theorem layout_isInner {place : Place} {width : Nat} {indents inside : List Nat}
    {start : List Token}
    (h : layout place width indents = .ok (start, inside)) : ∀ t ∈ start, t.lexeme.IsInner := by
  unfold layout at h
  split at h
  · cases h
    simpa using (⟨by simp, nofun⟩ : Lexeme.indent.IsInner)
  · dsimp only at h
    split at h
    · cases h
      exact dedent_isInner
    · cases h

def Closed (tokens : List Token) : Prop :=
  ∃ (inner : List Token) (stop : Token), tokens = inner ++ [stop] ∧ stop.lexeme = .endMarker ∧
    ∀ t ∈ inner, t.lexeme.IsInner

theorem Closed.rest {front tokens : List Token} (h : Closed (front ++ tokens)) (hne : tokens ≠ []) :
    Closed tokens := by
  induction front with
  | nil => exact h
  | cons t front ih =>
    obtain ⟨inner, stop, htokens, hstop, hinner⟩ := h
    cases inner with
    | nil => exact absurd (List.append_eq_nil_iff.1 (List.cons.inj htokens).2).2 hne
    | cons u inner =>
      exact ih ⟨inner, stop, (List.cons.inj htokens).2, hstop, (List.forall_mem_cons.1 hinner).2⟩

theorem Closed.append {front tokens : List Token} (hf : ∀ t ∈ front, t.lexeme.IsInner)
    (h : Closed tokens) : Closed (front ++ tokens) := by
  obtain ⟨inner, stop, rfl, hstop, hinner⟩ := h
  exact ⟨front ++ inner, stop, (List.append_assoc ..).symm, hstop,
    List.forall_mem_append.2 ⟨hf, hinner⟩⟩

theorem PageReads.closed {indents : List Nat} {place : Place} {cs : List Char} {tokens : List Token}
    (h : PageReads indents place cs tokens) : Closed tokens := by
  induction h with
  | eof => exact .append dedent_isInner ⟨[], _, rfl, rfl, nofun⟩
  | gap _ _ ih => exact ih
  | comment _ _ _ _ _ ih =>
    refine .append dedent_isInner ?_
    exact Closed.append (List.forall_mem_singleton.2 (isInner_comment _ _)) ih
  | code _ hl here _ ih =>
    obtain ⟨hhoisted, htokens⟩ := here.isInner
    refine .append ?_ ih
    simp only [List.forall_mem_append]
    exact ⟨⟨layout_isInner hl, hhoisted⟩, htokens⟩

/-- Identifiers are made of the characters of names. -/
theorem isNameChar_of_isIdentifier {id : String} (h : isIdentifier id) :
    ∀ d ∈ id.toList, isNameChar d := by
  obtain ⟨c, cs, htext, hmunch⟩ := Lexeme.stands_nil_of_isWhole h
  obtain ⟨text, hl⟩ | ⟨text, hl⟩ | ⟨s, hl⟩ | ⟨hw, -⟩ := munch_cases hmunch
  · cases hl
  · cases hl
  · cases hl
  · have hcs := hw.nameChars
    rw [List.take_length] at hcs
    rw [show id.toList = c :: cs from htext]
    exact List.forall_mem_cons.2 ⟨isNameChar_of_isNameStart hw.starts, hcs⟩

/-- Identifiers joined by dots come apart at the dots. -/
theorem splitOn_intercalate {ids : List String} (hne : ids ≠ []) (h : ∀ id ∈ ids, isIdentifier id) :
    (".".intercalate ids).toList.splitOn '.' = ids.map String.toList := by
  have hdots : ∀ cs ∈ ids.map String.toList, '.' ∉ cs := by
    intro cs hcs hdot
    obtain ⟨id, hid, rfl⟩ := List.mem_map.1 hcs
    exact absurd (isNameChar_of_isIdentifier (h id hid) '.' hdot) (by decide)
  rw [String.toList_intercalate, show ".".toList = ['.'] from rfl,
    List.splitOn_intercalate '.' hdots (by simpa using hne)]

/-- Identifiers joined by dots are a path. -/
theorem isPath_intercalate {ids : List String} (hne : ids ≠ []) (h : ∀ id ∈ ids, isIdentifier id) :
    isPath (".".intercalate ids) := by
  rw [isPath, splitOn_intercalate hne h]
  simpa using h

theorem scan_closed {source : String} {tokens : List Token} (h : scan source = .ok tokens) :
    Closed tokens := (pageReads_of_lines h).closed

end Token

end AsyncErasure
