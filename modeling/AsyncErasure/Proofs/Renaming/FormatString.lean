import AsyncErasure.Proofs.Docstring
import AsyncErasure.Renaming
import Mathlib.Data.List.TakeWhile

namespace AsyncErasure.FormatString

open Text Literal Lexeme

def IsWord (word : List Char) : Prop :=
  word.head?.any isNameStart ∧ ∀ c ∈ word, isNameChar c

instance (word : List Char) : Decidable (IsWord word) :=
  decidable_of_iff (word.head?.any isNameStart && word.all isNameChar) (by simp [IsWord])

theorem IsWord.exists_cons {word : List Char} (h : IsWord word) :
    ∃ c cs, word = c :: cs ∧ isNameStart c := by
  cases word with
  | nil => cases h.1
  | cons c cs => exact ⟨c, cs, rfl, h.1⟩

structure NamesWords (f : List Char → List Char) : Prop where
  isWord : ∀ word, IsWord word → IsWord (f word)
  unmarked : ∀ word, isMarkWord word = false → isMarkWord (f word) = false

/-- What is done to words leads from words to words, is done once and for all, and makes no mark. -/
structure IsRenaming (rename : List Char → List Char) : Prop where
  isWord : ∀ word, IsWord word → IsWord (rename word)
  twice : ∀ word, rename (rename word) = rename word
  unmarked : ∀ word, isMarkWord word = false → isMarkWord (rename word) = false

inductive Rewords : List Char → List Char → Prop
  | nil : Rewords [] []
  | char (c : Char) {cs ds : List Char} : Rewords cs ds → Rewords (c :: cs) (c :: ds)
  | word {word word' cs ds : List Char} : word ≠ [] → word' ≠ [] → (∀ c ∈ word, isNameChar c) →
    (∀ c ∈ word', isNameChar c) → Rewords cs ds → Rewords (word ++ cs) (word' ++ ds)

variable {rename : List Char → List Char} {raw escaped : Bool} {depth n : Nat} {quote c q : Char}
  {word cs ds rest rest' close before before' : List Char}

namespace Rewords

theorem refl (cs : List Char) : Rewords cs cs := by
  induction cs with
  | nil => exact .nil
  | cons c cs ih => exact .char c ih

theorem symm (h : Rewords cs ds) : Rewords ds cs := by
  induction h with
  | nil => exact .nil
  | char c _ ih => exact .char c ih
  | word hne hne' hw hw' _ ih => exact .word hne' hne hw' hw ih

theorem append (h : Rewords cs ds) (h' : Rewords rest rest') :
    Rewords (cs ++ rest) (ds ++ rest') := by
  induction h with
  | nil => exact h'
  | char c _ ih => exact .char c ih
  | word hne hne' hw hw' _ ih =>
    rw [List.append_assoc, List.append_assoc]
    exact .word hne hne' hw hw' ih

theorem eq_nil (h : Rewords [] ds) : ds = [] := by
  generalize hcs : ([] : List Char) = cs at h
  cases h with
  | nil => rfl
  | char => cases hcs
  | word hne => simp [hne] at hcs

/-- A character that no word holds stays. -/
theorem of_cons (hc : isNameChar c = false) (h : Rewords (c :: cs) ds) :
    ∃ ds', ds = c :: ds' ∧ Rewords cs ds' := by
  generalize hall : c :: cs = all at h
  cases h with
  | nil => cases hall
  | char b h =>
    rw [List.cons.injEq] at hall
    exact ⟨_, by rw [hall.1], by rwa [hall.2]⟩
  | @word u v xs ys hne hne' hw hw' h =>
    rcases List.exists_cons_of_ne_nil hne with ⟨a, u, rfl⟩
    rw [List.cons_append, List.cons.injEq] at hall
    rw [hall.1, hw a List.mem_cons_self] at hc
    cases hc

/-- Characters that no word holds stay. -/
theorem of_append (hclose : ∀ c ∈ close, isNameChar c = false) (h : Rewords (close ++ cs) ds) :
    ∃ ds', ds = close ++ ds' ∧ Rewords cs ds' := by
  induction close generalizing ds with
  | nil => exact ⟨ds, rfl, h⟩
  | cons c close ih =>
    rw [List.forall_mem_cons] at hclose
    obtain ⟨ds', rfl, htail⟩ := of_cons hclose.1 h
    obtain ⟨ds'', rfl, hrest⟩ := ih hclose.2 htail
    exact ⟨ds'', rfl, hrest⟩

theorem prefix_iff (hclose : ∀ c ∈ close, isNameChar c = false) (h : Rewords cs ds) :
    close <+: cs ↔ close <+: ds := by
  constructor
  · rintro ⟨rest, rfl⟩
    obtain ⟨ds', rfl, -⟩ := of_append hclose h
    exact List.prefix_append ..
  · rintro ⟨rest, rfl⟩
    obtain ⟨cs', rfl, -⟩ := of_append hclose h.symm
    exact List.prefix_append ..

theorem head?_iff (hc : isNameChar c = false) (h : Rewords cs ds) :
    cs.head? = some c ↔ ds.head? = some c := by
  have hone : ∀ b ∈ [c], isNameChar b = false := fun b hb => by rwa [List.mem_singleton.1 hb]
  rw [List.head?_eq_some_iff, List.head?_eq_some_iff]
  simpa [List.IsPrefix, eq_comm] using prefix_iff hone h

end Rewords

section Length

/-- How far a text goes up to the given characters, or up to its end. Behind a backslash a
character stands for itself. -/
def closingLength (close : List Char) (escaped : Bool) : List Char → Nat
  | [] => 0
  | c :: cs =>
    if escaped then closingLength close false cs + 1
    else if c = '\\' then closingLength close true cs + 1
    else if close <+: c :: cs then close.length
    else closingLength close false cs + 1

theorem shortLength_eq (hq : q ≠ '\\') (cs : List Char) :
    shortLength q cs = closingLength [q] false cs := by
  fun_induction shortLength q cs with
  | case1 => rfl
  | case2 c cs ih => simp [closingLength, ih]
  | case3 cs _ => simp [closingLength, hq]
  | case4 c cs hcs hc ih =>
    by_cases hback : c = '\\'
    · subst hback
      cases cs with
      | nil => simp [closingLength, shortLength]
      | cons b cs => exact (hcs b cs rfl rfl).elim
    · simp [closingLength, hback, Ne.symm hc, ih]

theorem triple_prefix_iff : [q, q, q] <+: c :: cs ↔ c = q ∧ cs.take 2 = [q, q] := by
  rw [List.cons_prefix_cons, List.prefix_iff_eq_take, eq_comm, eq_comm (a := [q, q])]
  rfl

theorem longLength_eq (hq : q ≠ '\\') (cs : List Char) :
    longLength q cs = closingLength [q, q, q] false cs := by
  fun_induction longLength q cs with
  | case1 => rfl
  | case2 c cs ih => simp [closingLength, ih]
  | case3 c cs _ hc =>
    have hback : c ≠ '\\' := hc.1 ▸ hq
    rw [closingLength, if_neg Bool.false_ne_true, if_neg hback, if_pos (triple_prefix_iff.2 hc)]
    rfl
  | case4 c cs hcs hc ih =>
    by_cases hback : c = '\\'
    · subst hback
      cases cs with
      | nil => simp [closingLength, longLength]
      | cons b cs => exact (hcs b cs rfl rfl).elim
    · rw [closingLength, if_neg Bool.false_ne_true, if_neg hback,
        if_neg (mt triple_prefix_iff.1 hc), ih]

theorem closingLength_eq_zero (hne : close ≠ []) (h : closingLength close escaped cs = 0) :
    cs = [] := by
  cases cs with
  | nil => rfl
  | cons c cs =>
    have hpos := List.length_pos_iff.2 hne
    rw [closingLength] at h
    split_ifs at h
    omega

theorem closingLength_le (close : List Char) (escaped : Bool) (cs : List Char) :
    closingLength close escaped cs ≤ cs.length := by
  induction cs generalizing escaped with
  | nil => exact Nat.le_refl 0
  | cons c cs ih =>
    have hfalse := ih false
    have htrue := ih true
    rw [closingLength, List.length_cons]
    split_ifs with hesc hback hbegins
    · omega
    · omega
    · exact hbegins.length_le
    · omega

/-- A word is passed as a whole, also behind a backslash. -/
theorem closingLength_word (hclose : ∀ c ∈ close, isNameChar c = false) (hne : close ≠ [])
    (hword : word ≠ []) (hw : ∀ c ∈ word, isNameChar c) :
    closingLength close escaped (word ++ cs) = word.length + closingLength close false cs := by
  induction word generalizing escaped with
  | nil => exact absurd rfl hword
  | cons c word ih =>
    rw [List.forall_mem_cons] at hw
    have hrest : closingLength close false (word ++ cs) =
        word.length + closingLength close false cs := by
      cases word with
      | nil => simp
      | cons => exact ih (by simp) hw.2
    have hback : c ≠ '\\' := by
      rintro rfl
      exact absurd hw.1 (by decide +kernel)
    have hbegins : ¬close <+: c :: (word ++ cs) := by
      rcases List.exists_cons_of_ne_nil hne with ⟨b, close, rfl⟩
      intro h
      rw [List.cons_prefix_cons] at h
      rw [h.1] at hclose
      simp [hw.1] at hclose
    rw [List.cons_append, closingLength, if_neg hback, if_neg hbegins, hrest, ite_self,
      List.length_cons]
    omega

/-- A text that ends where it is closed does so with other words in it. -/
theorem closingLength_rewords (hclose : ∀ c ∈ close, isNameChar c = false) (hne : close ≠ [])
    (h : Rewords before before') (hrest : Rewords rest rest')
    (hlen : closingLength close escaped (before ++ rest) = before.length) :
    closingLength close escaped (before' ++ rest') = before'.length := by
  induction h generalizing escaped with
  | nil =>
    have hnil : rest = [] := closingLength_eq_zero hne hlen
    subst hnil
    rw [hrest.eq_nil]
    rfl
  | @char c cs ds h ih =>
    have hsame := Rewords.prefix_iff hclose ((Rewords.char c h).append hrest)
    simp only [List.cons_append, List.length_cons] at hsame hlen ⊢
    rw [closingLength] at hlen ⊢
    simp only [← hsame]
    split_ifs at hlen ⊢ with hesc hback hbegins
    · rw [ih (by omega)]
    · rw [ih (by omega)]
    · -- the text ends with what closes it, which no word is part of
      have heq : close = c :: cs :=
        (List.prefix_of_prefix_length_le hbegins (List.prefix_append (c :: cs) rest)
          (by simp [hlen])).eq_of_length (by simp [hlen])
      have hchar : Rewords (close ++ []) (c :: ds) := by
        rw [List.append_nil, heq]
        exact .char c h
      obtain ⟨ds', hds, hnil⟩ := Rewords.of_append hclose hchar
      rw [hnil.eq_nil, List.append_nil] at hds
      rw [← hds, List.length_cons]
    · rw [ih (by omega)]
  | word hw hw' hchars hchars' _ ih =>
    rw [List.append_assoc, closingLength_word hclose hne hw hchars, List.length_append] at hlen
    rw [List.append_assoc, closingLength_word hclose hne hw' hchars', List.length_append,
      ih (by omega)]

theorem ne_backslash_of_isQuote (hq : isQuote q) : q ≠ '\\' := by
  rintro rfl
  simp [isQuote] at hq

/-- A text behind a quote is a quoted text and what comes after it. -/
theorem exists_quoted (hq : isQuote q) (cs : List Char) :
    ∃ before rest, cs = before ++ rest ∧ quotedLength q (before ++ rest) = before.length + 1 := by
  obtain ⟨n, hn, hle⟩ : ∃ n, quotedLength q cs = n + 1 ∧ n ≤ cs.length := by
    have hback := ne_backslash_of_isQuote hq
    rw [quotedLength, shortLength_eq hback, longLength_eq hback]
    split
    case isTrue htriple =>
      have htwo : 2 ≤ cs.length := by
        have := congrArg List.length htriple
        simp at this
        omega
      have hlong := closingLength_le [q, q, q] false (cs.drop 2)
      rw [List.length_drop] at hlong
      exact ⟨_, rfl, by omega⟩
    case isFalse => exact ⟨_, rfl, closingLength_le ..⟩
  refine ⟨cs.take n, cs.drop n, (List.take_append_drop n cs).symm, ?_⟩
  rw [List.take_append_drop, hn, List.length_take_of_le hle]

/-- So does a quoted text. -/
theorem quotedLength_rewords (hq : isQuote q) (h : Rewords before before')
    (hrest : Rewords rest rest') (hlen : quotedLength q (before ++ rest) = before.length + 1) :
    quotedLength q (before' ++ rest') = before'.length + 1 := by
  have hback := ne_backslash_of_isQuote hq
  have hname := isNameChar_of_isQuote hq
  have htwo : ∀ c ∈ [q, q], isNameChar c = false := by simp [hname]
  have hopens (cs : List Char) : cs.take 2 = [q, q] ↔ [q, q] <+: cs := by
    rw [List.prefix_iff_eq_take, eq_comm]
    rfl
  have hsame := Rewords.prefix_iff htwo (h.append hrest)
  simp only [quotedLength, hopens, shortLength_eq hback, longLength_eq hback] at hlen ⊢
  simp only [← hsame]
  split_ifs at hlen ⊢ with htriple
  · -- both quotes stand in the text, so its rest is closed by three
    have hbegins : [q, q] <+: before :=
      List.prefix_of_prefix_length_le htriple (List.prefix_append ..) (by simp; omega)
    rcases hbegins with ⟨cs, rfl⟩
    obtain ⟨ds, rfl, hinner⟩ := Rewords.of_append htwo h
    have hthree : closingLength [q, q, q] false (cs ++ rest) = cs.length := by simpa using hlen
    have hchars : ∀ c ∈ [q, q, q], isNameChar c = false := by simp [hname]
    have hstays := closingLength_rewords hchars (by simp) hinner hrest hthree
    simpa using hstays
  · rw [closingLength_rewords (by simp [hname]) (by simp) h hrest (by omega)]

end Length

def Stops (cs : List Char) : Prop := ∀ c, cs.head? = some c → isNameChar c = false

theorem Rewords.stops (h : Rewords cs ds) (hcs : Stops cs) : Stops ds := by
  intro c hc
  cases h with
  | nil => cases hc
  | char b h => exact hcs c hc
  | @word u v xs ys hne hne' hw hw' h =>
    rcases List.exists_cons_of_ne_nil hne with ⟨a, u, rfl⟩
    have hnot : isNameChar a = false := hcs a rfl
    rw [hw a List.mem_cons_self] at hnot
    cases hnot

/-- What marks no literal still marks none, whatever follows. -/
theorem Rewords.plain {word' : List Char} (h : Rewords rest rest')
    (hmark : isMarkWord word = false → isMarkWord word' = false)
    (hplain : ∀ q, rest.head? = some q → (isQuote q && isMarkWord word) = false) :
    ∀ q, rest'.head? = some q → (isQuote q && isMarkWord word') = false := by
  intro q hq
  cases hquote : isQuote q with
  | false => rfl
  | true =>
    have hhead := (h.head?_iff (isNameChar_of_isQuote hquote)).2 hq
    exact hmark (by simpa [hquote] using hplain q hhead)

/-- A text begins with the longest text whose characters have a property. -/
theorem exists_run (p : Char → Bool) (cs : List Char) :
    ∃ run rest, cs = run ++ rest ∧ (∀ c ∈ run, p c) ∧ ∀ c, rest.head? = some c → p c = false := by
  refine ⟨cs.takeWhile p, cs.dropWhile p, List.takeWhile_append_dropWhile.symm,
    fun c hc => List.mem_takeWhile_imp hc, fun c hc => ?_⟩
  have := List.head?_dropWhile_not p cs
  rw [hc] at this
  simpa using this

section Run

variable {p : Char → Bool} {run : List Char}

theorem takeWhile_run (hrun : ∀ c ∈ run, p c) (hrest : ∀ c, rest.head? = some c → p c = false) :
    (run ++ rest).takeWhile p = run := by
  rw [List.takeWhile_append_of_pos hrun]
  cases rest with
  | nil => simp
  | cons c rest => simp [hrest c rfl]

theorem dropWhile_run (hrun : ∀ c ∈ run, p c) (hrest : ∀ c, rest.head? = some c → p c = false) :
    (run ++ rest).dropWhile p = rest := by
  rw [List.dropWhile_append_of_pos hrun]
  cases rest with
  | nil => rfl
  | cons c rest => simp [hrest c rfl]

end Run

section Equations

theorem renameText_doubled (hc : c = leftBrace ∨ c = rightBrace) :
    renameText rename raw (c :: c :: cs) = c :: c :: renameText rename raw cs := by
  rw [renameText, if_pos ⟨hc, rfl⟩]
  rfl

theorem renameText_field (hcs : cs.head? ≠ some leftBrace) :
    renameText rename raw (leftBrace :: cs) = leftBrace :: renameField rename raw 1 none cs := by
  rw [renameText, if_neg (by simp [hcs]), if_pos rfl]

/-- The name of a character goes up to a brace. -/
theorem renameText_named (hcs : ∀ b ∈ cs, b ≠ rightBrace) (hhead : cs.head? = some 'N') :
    renameText rename false ('\\' :: (cs ++ rightBrace :: rest)) =
      '\\' :: (cs ++ rightBrace :: renameText rename false rest) := by
  have hrun : ∀ b ∈ cs, decide (b ≠ rightBrace) = true := fun b hb => decide_eq_true (hcs b hb)
  have hstop : ∀ b, (rightBrace :: rest).head? = some b → decide (b ≠ rightBrace) = false := by simp
  rw [renameText, if_neg (by simp [leftBrace, rightBrace]), if_neg (by decide),
    if_pos (by simp [hhead]),
    takeWhile_run hrun hstop]
  split
  case h_1 hdrop =>
    rw [dropWhile_run hrun hstop] at hdrop
    cases hdrop
  case h_2 hdrop =>
    rw [dropWhile_run hrun hstop, List.cons.injEq] at hdrop
    obtain ⟨rfl, rfl⟩ := hdrop
    rfl

/-- Without one it goes up to the end. -/
theorem renameText_unclosed (hcs : ∀ b ∈ cs, b ≠ rightBrace) (hhead : cs.head? = some 'N') :
    renameText rename false ('\\' :: cs) = '\\' :: cs := by
  have hrun : ∀ b ∈ cs, decide (b ≠ rightBrace) = true := fun b hb => decide_eq_true (hcs b hb)
  rw [renameText, if_neg (by simp [leftBrace, rightBrace]), if_neg (by decide),
    if_pos (by simp [hhead]), List.takeWhile_eq_self_iff.2 hrun]
  split
  case h_1 => rw [List.append_nil]
  case h_2 hdrop =>
    rw [List.dropWhile_eq_nil_iff.2 hrun] at hdrop
    cases hdrop

theorem renameText_char (hbrace : ¬((c = leftBrace ∨ c = rightBrace) ∧ cs.head? = some c))
    (hleft : c ≠ leftBrace) (hnamed : ¬(c = '\\' ∧ !raw ∧ cs.head? = some 'N')) :
    renameText rename raw (c :: cs) = c :: renameText rename raw cs := by
  rw [renameText, if_neg hbrace, if_neg hleft, if_neg hnamed]

theorem head?_renameText : (renameText rename raw cs).head? = cs.head? := by
  cases cs with
  | nil => rw [renameText]
  | cons c cs =>
    rw [renameText]
    split_ifs <;> rfl

theorem renameField_quoted :
    renameField rename raw depth (some q) (c :: cs) =
      c :: renameField rename raw depth (if q = c then none else some q) cs := by
  rw [renameField, if_pos Option.isSome_some]
  simp

theorem renameField_openQuote (hc : isQuote c) :
    renameField rename raw depth none (c :: cs) =
      c :: renameField rename raw depth (some c) cs := by
  rw [renameField, if_neg (by simp), if_pos hc]

theorem renameField_left :
    renameField rename raw depth none (leftBrace :: cs) =
      leftBrace :: renameField rename raw (depth + 1) none cs := by
  rw [renameField, if_neg (by simp), if_neg (by decide), if_pos rfl]

theorem renameField_right :
    renameField rename raw depth none (rightBrace :: cs) =
      rightBrace :: if depth ≤ 1 then renameText rename raw cs
        else renameField rename raw (depth - 1) none cs := by
  rw [renameField, if_neg (by simp), if_neg (by decide), if_neg (by decide), if_pos rfl]

theorem renameField_char (hquote : isQuote c = false) (hleft : c ≠ leftBrace)
    (hright : c ≠ rightBrace) (hname : isNameChar c = false) :
    renameField rename raw depth none (c :: cs) = c :: renameField rename raw depth none cs := by
  rw [renameField, if_neg (by simp), if_neg (by simp [hquote]), if_neg hleft, if_neg hright,
    if_neg (by simp [hname])]

theorem not_special_of_nameChar (hc : isNameChar c) :
    isQuote c = false ∧ c ≠ leftBrace ∧ c ≠ rightBrace := by
  refine ⟨?_, ?_, ?_⟩
  · cases hquote : isQuote c with
    | false => rfl
    | true => rw [isNameChar_of_isQuote hquote] at hc; cases hc
  · rintro rfl
    exact absurd hc (by decide +kernel)
  · rintro rfl
    exact absurd hc (by decide +kernel)

/-- A word that is no mark of a literal is renamed. -/
theorem renameField_word (hword : IsWord word) (hrest : Stops rest)
    (hplain : ∀ q, rest.head? = some q → (isQuote q && isMarkWord word) = false) :
    renameField rename raw depth none (word ++ rest) =
      rename word ++ renameField rename raw depth none rest := by
  obtain ⟨c, cs, rfl, hc⟩ := hword.exists_cons
  have hchars := hword.2
  rw [List.forall_mem_cons] at hchars
  obtain ⟨hquote, hleft, hright⟩ := not_special_of_nameChar hchars.1
  rw [List.cons_append, renameField, if_neg (by simp), if_neg (by simp [hquote]), if_neg hleft,
    if_neg hright, if_pos hchars.1, takeWhile_run hchars.2 hrest, if_pos hc]
  split
  case h_1 hdrop =>
    rw [dropWhile_run hchars.2 hrest] at hdrop
    rw [hdrop, renameField, List.append_nil]
  case h_2 q tail hdrop =>
    rw [dropWhile_run hchars.2 hrest] at hdrop
    subst hdrop
    dsimp only
    rw [hplain q rfl, if_neg Bool.false_ne_true]

/-- A literal inside a field is kept, or renamed in turn if its mark says so. -/
theorem renameField_literal (hword : IsWord word) (hmark : isMarkWord word) (hq : isQuote q)
    (hlen : quotedLength q (cs ++ rest) = cs.length + 1) :
    renameField rename raw depth none (word ++ (q :: cs ++ rest)) =
      word ++ (if word.any isFormatMark then renameText rename (word.any isRawMark) (q :: cs)
        else q :: cs) ++ renameField rename raw depth none rest := by
  obtain ⟨c, ds, rfl, hc⟩ := hword.exists_cons
  have hchars := hword.2
  rw [List.forall_mem_cons] at hchars
  obtain ⟨hquote, hleft, hright⟩ := not_special_of_nameChar hchars.1
  have hstop : ∀ b, (q :: cs ++ rest).head? = some b → isNameChar b = false := by
    rintro _ ⟨⟩
    exact isNameChar_of_isQuote hq
  rw [List.cons_append, renameField, if_neg (by simp), if_neg (by simp [hquote]), if_neg hleft,
    if_neg hright, if_pos hchars.1, takeWhile_run hchars.2 hstop, if_pos hc]
  split
  case h_1 hdrop =>
    rw [dropWhile_run hchars.2 hstop] at hdrop
    cases hdrop
  case h_2 b tail hdrop =>
    rw [dropWhile_run hchars.2 hstop, List.cons_append, List.cons.injEq] at hdrop
    obtain ⟨rfl, rfl⟩ := hdrop
    dsimp only
    rw [if_pos (by simp [hq, hmark]), hlen, ← List.cons_append, ← List.length_cons (a := q),
      List.take_left, List.drop_left]

/-- What begins with a digit stays. -/
theorem renameField_number (hchars : ∀ b ∈ c :: cs, isNameChar b) (hc : isNameStart c = false)
    (hrest : Stops rest) : renameField rename raw depth none (c :: cs ++ rest) =
      c :: cs ++ renameField rename raw depth none rest := by
  rw [List.forall_mem_cons] at hchars
  obtain ⟨hquote, hleft, hright⟩ := not_special_of_nameChar hchars.1
  rw [List.cons_append, renameField, if_neg (by simp), if_neg (by simp [hquote]), if_neg hleft,
    if_neg hright, if_pos hchars.1, takeWhile_run hchars.2 hrest, if_neg (by simp [hc]),
    dropWhile_run hchars.2 hrest]

end Equations

/-- How a fact about texts, outside fields and inside of them, follows from the fact about what the
scanner meets next. -/
structure ScanSteps (T : Bool → List Char → Prop)
    (F : Bool → Nat → Option Char → List Char → Prop) : Prop where
  text_nil {raw : Bool} : T raw []
  text_doubled {raw : Bool} {c : Char} {cs : List Char} : c = leftBrace ∨ c = rightBrace →
    T raw cs → T raw (c :: c :: cs)
  text_field {raw : Bool} {cs : List Char} : cs.head? ≠ some leftBrace → F raw 1 none cs →
    T raw (leftBrace :: cs)
  text_named {name rest : List Char} : (∀ b ∈ name, b ≠ rightBrace) → name.head? = some 'N' →
    T false rest → T false ('\\' :: (name ++ rightBrace :: rest))
  /-- A name that no brace ends goes up to the end of the text. -/
  text_unclosed {name : List Char} : (∀ b ∈ name, b ≠ rightBrace) → name.head? = some 'N' →
    T false ('\\' :: name)
  text_char {raw : Bool} {c : Char} {cs : List Char} :
    ¬((c = leftBrace ∨ c = rightBrace) ∧ cs.head? = some c) → c ≠ leftBrace →
    ¬(c = '\\' ∧ !raw ∧ cs.head? = some 'N') → T raw cs → T raw (c :: cs)
  nil {raw : Bool} {depth : Nat} {quote : Option Char} : F raw depth quote []
  quoted {raw : Bool} {depth : Nat} {q c : Char} {cs : List Char} :
    F raw depth (if q = c then none else some q) cs → F raw depth (some q) (c :: cs)
  openQuote {raw : Bool} {depth : Nat} {c : Char} {cs : List Char} : isQuote c →
    F raw depth (some c) cs → F raw depth none (c :: cs)
  left {raw : Bool} {depth : Nat} {cs : List Char} : F raw (depth + 1) none cs →
    F raw depth none (leftBrace :: cs)
  /-- The brace that ends the outermost field. -/
  last {raw : Bool} {depth : Nat} {cs : List Char} : depth ≤ 1 → T raw cs →
    F raw depth none (rightBrace :: cs)
  right {raw : Bool} {depth : Nat} {cs : List Char} : ¬depth ≤ 1 → F raw (depth - 1) none cs →
    F raw depth none (rightBrace :: cs)
  char {raw : Bool} {depth : Nat} {c : Char} {cs : List Char} : isQuote c = false →
    c ≠ leftBrace → c ≠ rightBrace → isNameChar c = false → F raw depth none cs →
    F raw depth none (c :: cs)
  number {raw : Bool} {depth : Nat} {c : Char} {run rest : List Char} :
    (∀ b ∈ c :: run, isNameChar b) → isNameStart c = false → Stops rest → F raw depth none rest →
    F raw depth none (c :: run ++ rest)
  literal {raw : Bool} {depth : Nat} {word inner rest : List Char} {q : Char} : IsWord word →
    isMarkWord word → isQuote q → quotedLength q (inner ++ rest) = inner.length + 1 →
    T (word.any isRawMark) (q :: inner) → F raw depth none rest →
    F raw depth none (word ++ (q :: inner ++ rest))
  word {raw : Bool} {depth : Nat} {word rest : List Char} : IsWord word → Stops rest →
    (∀ q, rest.head? = some q → (isQuote q && isMarkWord word) = false) → F raw depth none rest →
    F raw depth none (word ++ rest)

namespace ScanSteps

variable {T : Bool → List Char → Prop} {F : Bool → Nat → Option Char → List Char → Prop}

mutual

/-- The steps lead through every text. -/
theorem text (h : ScanSteps T F) (raw : Bool) (cs : List Char) : T raw cs := by
  match cs with
  | [] => exact h.text_nil
  | c :: cs =>
    by_cases hdouble : (c = leftBrace ∨ c = rightBrace) ∧ cs.head? = some c
    · obtain ⟨cs, rfl⟩ := List.head?_eq_some_iff.1 hdouble.2
      exact h.text_doubled hdouble.1 (h.text raw cs)
    by_cases hleft : c = leftBrace
    · subst hleft
      exact h.text_field (fun hhead => hdouble ⟨.inl rfl, hhead⟩) (h.field raw 1 none cs)
    by_cases hnamed : c = '\\' ∧ !raw ∧ cs.head? = some 'N'
    · obtain ⟨rfl, hraw, hhead⟩ := hnamed
      obtain rfl : raw = false := by simpa using hraw
      obtain ⟨name, rest, rfl, hname, hrest⟩ := exists_run (fun c => c ≠ rightBrace) cs
      have hname : ∀ b ∈ name, b ≠ rightBrace := fun b hb => of_decide_eq_true (hname b hb)
      have hfirst : name.head? = some 'N' := by
        cases name with
        | nil => exact absurd (hrest 'N' hhead) (by decide)
        | cons => exact hhead
      cases rest with
      | nil =>
        rw [List.append_nil]
        exact h.text_unclosed hname hfirst
      | cons b rest =>
        obtain rfl : b = rightBrace := by simpa using hrest b rfl
        exact h.text_named hname hfirst (h.text false rest)
    · exact h.text_char hdouble hleft hnamed (h.text raw cs)
termination_by cs.length
decreasing_by all_goals grind

/-- So they do inside fields. -/
theorem field (h : ScanSteps T F) (raw : Bool) (depth : Nat) (quote : Option Char)
    (cs : List Char) : F raw depth quote cs := by
  match cs, quote with
  | [], quote => exact h.nil
  | c :: cs, some q => exact h.quoted (h.field raw depth _ cs)
  | c :: cs, none =>
    cases hquote : isQuote c with
    | true => exact h.openQuote hquote (h.field raw depth (some c) cs)
    | false =>
    by_cases hleft : c = leftBrace
    · subst hleft
      exact h.left (h.field raw (depth + 1) none cs)
    by_cases hright : c = rightBrace
    · subst hright
      by_cases hdepth : depth ≤ 1
      · exact h.last hdepth (h.text raw cs)
      · exact h.right hdepth (h.field raw (depth - 1) none cs)
    cases hname : isNameChar c with
    | false => exact h.char hquote hleft hright hname (h.field raw depth none cs)
    | true =>
    -- a run of characters that words hold
    obtain ⟨run, rest, hcs, hrun, hrest⟩ := exists_run isNameChar cs
    have hrun : ∀ b ∈ c :: run, isNameChar b := List.forall_mem_cons.2 ⟨hname, hrun⟩
    have hlen : rest.length ≤ cs.length := by simp [hcs]
    rw [hcs, ← List.cons_append]
    cases hstart : isNameStart c with
    | false => exact h.number hrun hstart hrest (h.field raw depth none rest)
    | true =>
    have hword : IsWord (c :: run) := ⟨hstart, hrun⟩
    by_cases hliteral : ∃ q tail, rest = q :: tail ∧ isQuote q ∧ isMarkWord (c :: run)
    · obtain ⟨q, tail, rfl, hq, hmark⟩ := hliteral
      obtain ⟨inner, after, rfl, hquoted⟩ := exists_quoted hq tail
      exact h.literal hword hmark hq hquoted (h.text ((c :: run).any isRawMark) (q :: inner))
        (h.field raw depth none after)
    · refine h.word hword hrest (fun q hhead => ?_) (h.field raw depth none rest)
      obtain ⟨tail, rfl⟩ := List.head?_eq_some_iff.1 hhead
      rw [Bool.and_eq_false_iff, ← Bool.not_eq_true, ← Bool.not_eq_true, ← not_and_or]
      exact fun hmark => hliteral ⟨q, tail, rfl, hmark⟩
termination_by cs.length
decreasing_by all_goals grind

end

end ScanSteps

/-- What a pass makes of a text: words gave way to words, and a second pass changes nothing. -/
def Settles (f : List Char → List Char) (cs : List Char) : Prop :=
  Rewords cs (f cs) ∧ f (f cs) = f cs

theorem settles_nil {f : List Char → List Char} (h : f [] = []) : Settles f [] := by
  rw [Settles, h, h]
  exact ⟨.nil, rfl⟩

/-- A literal inside a field ends where it did. -/
theorem settles_literal {raw : Bool} {depth : Nat} {word inner rest : List Char} {q : Char}
    (hword : IsWord word) (hmark : isMarkWord word) (hq : isQuote q)
    (hquoted : quotedLength q (inner ++ rest) = inner.length + 1)
    (hinner : Settles (renameText rename (word.any isRawMark)) (q :: inner))
    (hrest : Settles (renameField rename raw depth none) rest) :
    Settles (renameField rename raw depth none) (word ++ (q :: inner ++ rest)) := by
  obtain ⟨inner', hout, hrew, hagain⟩ : ∃ inner',
      (if word.any isFormatMark then renameText rename (word.any isRawMark) (q :: inner)
        else q :: inner) = q :: inner' ∧ Rewords inner inner' ∧
      (if word.any isFormatMark then renameText rename (word.any isRawMark) (q :: inner')
        else q :: inner') = q :: inner' := by
    split
    case isTrue =>
      obtain ⟨inner', hout, hrew⟩ := hinner.1.of_cons (isNameChar_of_isQuote hq)
      exact ⟨inner', hout, hrew, by rw [← hout, hinner.2]⟩
    case isFalse => exact ⟨inner, rfl, .refl inner, rfl⟩
  have hquoted' := quotedLength_rewords hq hrew hrest.1 hquoted
  rw [Settles, renameField_literal hword hmark hq hquoted, hout,
    List.append_assoc, renameField_literal hword hmark hq hquoted', hagain, hrest.2,
    List.append_assoc]
  exact ⟨(Rewords.refl _).append ((Rewords.char q hrew).append hrest.1), rfl⟩

/-- A word that marks no literal gives way to another. -/
theorem settles_word (h : IsRenaming rename) {raw : Bool} {depth : Nat} {word rest : List Char}
    (hword : IsWord word) (hstops : Stops rest)
    (hplain : ∀ q, rest.head? = some q → (isQuote q && isMarkWord word) = false)
    (hrest : Settles (renameField rename raw depth none) rest) :
    Settles (renameField rename raw depth none) (word ++ rest) := by
  have hword' := h.isWord _ hword
  have hplain' := hrest.1.plain (h.unmarked word) hplain
  rw [Settles, renameField_word hword hstops hplain,
    renameField_word hword' (hrest.1.stops hstops) hplain', h.twice, hrest.2]
  obtain ⟨c, cs, hcons, -⟩ := hword.exists_cons
  obtain ⟨b, bs, hcons', -⟩ := hword'.exists_cons
  refine ⟨.word (hcons ▸ List.cons_ne_nil c cs) (hcons' ▸ List.cons_ne_nil b bs) hword.2 hword'.2
    hrest.1, rfl⟩

/-- What a step reads has settled if what comes behind it has. -/
theorem scanSteps_settles (h : IsRenaming rename) :
    ScanSteps (fun raw => Settles (renameText rename raw))
      fun raw depth quote => Settles (renameField rename raw depth quote) where
  text_nil := settles_nil (by rw [renameText])
  text_doubled hc ih := by
    rw [Settles, renameText_doubled hc, renameText_doubled hc, ih.2]
    exact ⟨.char _ (.char _ ih.1), rfl⟩
  text_field hcs ih := by
    have hout := mt (ih.1.head?_iff (by decide +kernel)).2 hcs
    rw [Settles, renameText_field hcs, renameText_field hout, ih.2]
    exact ⟨.char _ ih.1, rfl⟩
  text_named hname hhead ih := by
    rw [Settles, renameText_named hname hhead, renameText_named hname hhead, ih.2]
    exact ⟨.char _ ((Rewords.refl _).append (.char _ ih.1)), rfl⟩
  text_unclosed hname hhead := by
    rw [Settles, renameText_unclosed hname hhead]
    exact ⟨.refl _, renameText_unclosed hname hhead⟩
  text_char hdouble hleft hnamed ih := by
    rw [Settles, renameText_char hdouble hleft hnamed, renameText_char
      (by rwa [head?_renameText]) hleft (by rwa [head?_renameText]), ih.2]
    exact ⟨.char _ ih.1, rfl⟩
  nil := settles_nil (by rw [renameField])
  quoted ih := by
    rw [Settles, renameField_quoted, renameField_quoted, ih.2]
    exact ⟨.char _ ih.1, rfl⟩
  openQuote hc ih := by
    rw [Settles, renameField_openQuote hc, renameField_openQuote hc, ih.2]
    exact ⟨.char _ ih.1, rfl⟩
  left ih := by
    rw [Settles, renameField_left, renameField_left, ih.2]
    exact ⟨.char _ ih.1, rfl⟩
  last hdepth ih := by
    rw [Settles, renameField_right, if_pos hdepth, renameField_right, if_pos hdepth, ih.2]
    exact ⟨.char _ ih.1, rfl⟩
  right hdepth ih := by
    rw [Settles, renameField_right, if_neg hdepth, renameField_right, if_neg hdepth, ih.2]
    exact ⟨.char _ ih.1, rfl⟩
  char hquote hleft hright hname ih := by
    rw [Settles, renameField_char hquote hleft hright hname,
      renameField_char hquote hleft hright hname, ih.2]
    exact ⟨.char _ ih.1, rfl⟩
  number hchars hc hrest ih := by
    rw [Settles, renameField_number hchars hc hrest,
      renameField_number hchars hc (ih.1.stops hrest), ih.2]
    exact ⟨(Rewords.refl _).append ih.1, rfl⟩
  literal := settles_literal
  word := settles_word h

def onWords (rename : String → String) (word : List Char) : List Char :=
  (rename (String.ofList word)).toList

/-- A format string is marks, one of which says so, and a quoted text. -/
theorem exists_marks {literal : List Char} (h : isFormat literal) :
    ∃ (marks : List Char) (quote : Char) (quoted : List Char),
      literal = marks ++ quote :: quoted ∧ marks.any isFormatMark ∧ isQuote quote ∧
        ∀ c ∈ marks, isQuote c = false := by
  obtain ⟨marks, quoted, rfl, hmarks, hquoted⟩ := exists_run (fun c => !isQuote c) literal
  have hnone : ∀ c ∈ marks, isQuote c = false := fun c hc => by simpa using hmarks c hc
  cases quoted with
  | nil =>
    have hany : (marks ++ []).any isQuote = false := by
      rw [List.append_nil, List.any_eq_false]
      exact fun c hc => by simp [hnone c hc]
    rw [isFormat, split, hany, if_neg Bool.false_ne_true] at h
    cases h
  | cons q quoted =>
    have hq : isQuote q := by simpa using hquoted q rfl
    rw [isFormat, split_of_unquoted hnone hq] at h
    exact ⟨marks, q, quoted, rfl, h, hq, hnone⟩

theorem renameFields_eq (f : String → String) {marks quoted : List Char}
    (hmarks : ∀ c ∈ marks, isQuote c = false) (hq : isQuote quote) :
    renameFields f (String.ofList (marks ++ quote :: quoted)) =
      String.ofList (marks ++ renameText (onWords f) (marks.any isRawMark) (quote :: quoted)) := by
  rw [renameFields, String.toList_ofList, split_of_unquoted hmarks hq]
  rfl

/-- Renaming the fields of a format string leaves a format string that has no other names. -/
theorem renameFields_settles {f : String → String} (h : IsRenaming (onWords f)) {literal : String}
    (hf : isFormat literal.toList) : isFormat (renameFields f literal).toList ∧
      renameFields f (renameFields f literal) = renameFields f literal := by
  obtain ⟨marks, q, quoted, hliteral, hmark, hq, hnone⟩ := exists_marks hf
  have hsettles := (scanSteps_settles h).text (marks.any isRawMark) (q :: quoted)
  obtain ⟨quoted', hout, -⟩ := hsettles.1.of_cons (isNameChar_of_isQuote hq)
  have honce : renameFields f literal = String.ofList (marks ++ q :: quoted') := by
    rw [← String.ofList_toList (s := literal), hliteral, renameFields_eq f hnone hq, hout]
  rw [honce, renameFields_eq f hnone hq, ← hout, hsettles.2, isFormat, String.toList_ofList, hout,
    split_of_unquoted hnone hq]
  exact ⟨hmark, rfl⟩

end AsyncErasure.FormatString

namespace AsyncErasure.Convention

open FormatString

/-- Every name goes through the renames once and for all: what it becomes is an identifier that no
literal is marked by and that no rename is for. The attributes that are set keep their names, and
shadowed names do not. -/
structure IsStable (c : Convention) : Prop where
  isWord : ∀ p ∈ c.renames, IsWord p.2.toList
  unmarked : ∀ p ∈ c.renames, isMarkWord p.2.toList = false
  last : ∀ p ∈ c.renames, c.renames.lookup p.2 = none
  setters : ∀ p ∈ c.setters, c.rename p.2 = p.2
  shadowed : ∀ name ∈ c.shadowed, c.rename name ≠ name

variable {c : Convention}

theorem rename_eq (c : Convention) (name : String) :
    c.rename name = name ∨ ∃ p ∈ c.renames, c.rename name = p.2 := by
  rw [rename]
  cases h : c.renames.lookup name with
  | none => exact .inl rfl
  | some new =>
    obtain ⟨before, after, hall, -⟩ := List.lookup_eq_some_iff.1 h
    exact .inr ⟨(name, new), by rw [hall]; simp, rfl⟩

theorem namesWords (h : ∀ p ∈ c.renames, IsWord p.2.toList ∧ isMarkWord p.2.toList = false) :
    NamesWords (onWords c.rename) := by
  have hcases (word : List Char) : onWords c.rename word = word ∨
      ∃ p ∈ c.renames, onWords c.rename word = p.2.toList := by
    unfold onWords
    rcases rename_eq c (String.ofList word) with heq | ⟨p, hp, heq⟩
    · exact .inl (by rw [heq, String.toList_ofList])
    · exact .inr ⟨p, hp, by rw [heq]⟩
  refine ⟨fun word hword => ?_, fun word hword => ?_⟩
  · rcases hcases word with heq | ⟨p, hp, heq⟩
    · rwa [heq]
    · rw [heq]
      exact (h p hp).1
  · rcases hcases word with heq | ⟨p, hp, heq⟩
    · rwa [heq]
    · rw [heq]
      exact (h p hp).2

namespace IsStable

variable (h : c.IsStable)

include h

theorem rename_rename (name : String) : c.rename (c.rename name) = c.rename name := by
  rcases rename_eq c name with heq | ⟨p, hp, heq⟩
  · rw [heq, heq]
  · rw [heq, rename, h.last p hp]
    rfl

theorem isRenaming : IsRenaming (onWords c.rename) := by
  have hnames := namesWords fun p hp => ⟨h.isWord p hp, h.unmarked p hp⟩
  refine ⟨hnames.isWord, fun word => ?_, hnames.unmarked⟩
  unfold onWords
  rw [String.ofList_toList, h.rename_rename]

theorem renameLiteral_renameLiteral (literal : String) :
    c.renameLiteral (c.renameLiteral literal) = c.renameLiteral literal := by
  unfold renameLiteral
  split
  case isTrue hf =>
    have hsettles := renameFields_settles h.isRenaming hf
    rw [if_pos hsettles.1, hsettles.2]
  case isFalse hf => rfl

end IsStable

theorem isStable_standard : standard.IsStable :=
  ⟨by decide +kernel, by decide +kernel, by decide +kernel, by decide +kernel, by decide +kernel⟩

end AsyncErasure.Convention
