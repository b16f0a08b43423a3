import AsyncErasure.Proofs.Renaming.FormatString
import Mathlib.Data.List.SplitBy

namespace AsyncErasure.FormatString

open Text Literal

/-- What stands between the quotes of a format string, with fields of some kind. -/
inductive Segment (φ : Type) where
  | plain (c : Char)
  | doubled (brace : Char)
  /-- A backslash with the character behind it. -/
  | escape (c : Char)
  /-- A character by its name. -/
  | named (name : List Char)
  | field (x : φ)
deriving DecidableEq

/-- What a backslash that the scanner has just passed means for what comes next. -/
inductive View where
  | text
  /-- A backslash stands in front, itself escaped by another one. -/
  | backslash
  /-- What looks like the name of a character goes up to the next right brace. -/
  | name
deriving DecidableEq

def braced (text : List Char) : List Char := leftBrace :: (text ++ [rightBrace])

namespace Segment

variable {φ : Type}

def spell (write : φ → List Char) : Segment φ → List Char
  | plain c => [c]
  | doubled brace => [brace, brace]
  | escape c => ['\\', c]
  | named name => '\\' :: 'N' :: leftBrace :: (name ++ [rightBrace])
  | field x => write x

def fits : Segment (List Char) → Bool
  | plain c => c != leftBrace && c != rightBrace && c != '\\' && !isQuote c && c != '\n'
  | doubled brace => brace == leftBrace || brace == rightBrace
  | escape c => c != 'N' && c != leftBrace && c != rightBrace && c != '\n'
  | named name => name.all fun c => isAlphabetic c || c == ' '
  | field text => text.all fun c =>
    !(isQuote c || [leftBrace, rightBrace, '\\', '!', ':'].contains c)

def isField : Segment φ → Bool
  | field _ => true
  | _ => false

def closes : Segment φ → Bool
  | doubled brace => brace == rightBrace
  | named _ | field _ => true
  | plain _ | escape _ => false

end Segment

/-- Runs of characters that words hold, and all other characters one by one. -/
def pieces (text : List Char) : List (List Char) :=
  text.splitBy fun a b => isNameChar a && isNameChar b

/-- Every whole word gives way to what is made of it. -/
def renameWords (f : List Char → List Char) (text : List Char) : List Char :=
  (pieces text).flatMap fun piece => if IsWord piece then f piece else piece

def Segment.rename (f : List Char → List Char) : Segment (List Char) → Segment (List Char)
  | field text => field (renameWords f text)
  | s => s

def View.next {φ : Type} : View → Segment φ → View
  | name, s => if s.closes then text else name
  | backslash, .plain c => if c = 'N' then name else text
  | _, .escape c => if c = '\\' then backslash else text
  | _, _ => text

def View.pending : View → List Char → List Char
  | text, _ => []
  | backslash, _ => ['\\']
  | name, before => '\\' :: 'N' :: before

/-- What the scanner makes of segments: every field is renamed that no name hides. -/
def renameSegments (f : List Char → List Char) :
    View → List (Segment (List Char)) → List (Segment (List Char))
  | _, [] => []
  | view, s :: segments =>
    (if view = .name then s else s.rename f) :: renameSegments f (view.next s) segments

/-- No name hides a field. -/
def seesFields {φ : Type} : View → List (Segment φ) → Bool
  | _, [] => true
  | view, s :: segments => !(view = .name && s.isField) && seesFields (view.next s) segments

def spellAll {φ : Type} (write : φ → List Char) (segments : List (Segment φ)) : List Char :=
  segments.flatMap (Segment.spell write)

theorem spellAll_cons {φ : Type} (write : φ → List Char) (s : Segment φ)
    (segments : List (Segment φ)) :
    spellAll write (s :: segments) = s.spell write ++ spellAll write segments :=
      List.flatMap_cons ..

variable {f : List Char → List Char} {raw : Bool} {text run rest cs quotes before : List Char}
  {c : Char}

theorem renameSegments_eq_map {view : View} {segments : List (Segment (List Char))}
    (h : seesFields view segments) :
    renameSegments f view segments = segments.map (Segment.rename f) := by
  induction segments generalizing view with
  | nil => rfl
  | cons s segments ih =>
    rw [seesFields, Bool.and_eq_true] at h
    rw [renameSegments, ih h.2, List.map_cons]
    congr 1
    split
    case isTrue hname =>
      cases s with
      | field => simp [hname, Segment.isField] at h
      | _ => rfl
    case isFalse => rfl

section Words

theorem renameWords_char (hc : isNameChar c = false) :
    renameWords f (c :: cs) = c :: renameWords f cs := by
  have hpieces : pieces (c :: cs) = [c] :: pieces cs :=
    List.splitBy_append (l := [c]) (m := cs) (by simp [hc])
  have hword : ¬IsWord [c] := by simp [IsWord, hc]
  rw [renameWords, hpieces, List.flatMap_cons, if_neg hword]
  rfl

theorem renameWords_run (hne : run ≠ []) (hrun : ∀ c ∈ run, isNameChar c) (hrest : Stops rest) :
    renameWords f (run ++ rest) = (if IsWord run then f run else run) ++ renameWords f rest := by
  have hchain : run.IsChain fun a b => (isNameChar a && isNameChar b) = true := by
    refine List.Pairwise.isChain (List.pairwise_of_forall_mem_list fun a ha b hb => ?_)
    simp [hrun a ha, hrun b hb]
  have hpieces : pieces (run ++ rest) = run :: pieces rest := by
    rw [pieces, List.splitBy_append, List.splitBy_of_isChain hne hchain]
    · rfl
    · intro a _ b hb
      simp [hrest b hb]
  rw [renameWords, hpieces, List.flatMap_cons]
  rfl

theorem renameWords_append (hrest : Stops rest) :
    renameWords f (cs ++ rest) = renameWords f cs ++ renameWords f rest := by
  have hpieces : pieces (cs ++ rest) = pieces cs ++ pieces rest := by
    refine List.splitBy_append fun a _ b hb => ?_
    simp [hrest b hb]
  rw [renameWords, hpieces, List.flatMap_append]
  rfl

def isFlat (text : List Char) : Bool :=
  text.all fun c => !(isQuote c || c == leftBrace || c == rightBrace)

theorem isFlat_of_fits (h : (Segment.field text).fits) : isFlat text :=
  List.all_eq_true.2 fun b hb => by
    have := List.all_eq_true.1 h b hb
    simp at this ⊢
    exact ⟨⟨this.1, this.2.1⟩, this.2.2.1⟩

def Ends (rest : List Char) : Prop :=
  ∀ b, rest.head? = some b → isNameChar b = false ∧ isQuote b = false

theorem ends_left (rest : List Char) : Ends (leftBrace :: rest) := by
  rintro b ⟨⟩
  decide +kernel

theorem ends_right (rest : List Char) : Ends (rightBrace :: rest) := by
  rintro b ⟨⟩
  decide +kernel

/-- In a flat text the scanner renames every word. -/
theorem renameField_flat {depth : Nat} {text : List Char} (htext : isFlat text)
    (hrest : Ends rest) :
    renameField f raw depth none (text ++ rest) =
      renameWords f text ++ renameField f raw depth none rest := by
  match text with
  | [] => rfl
  | c :: cs =>
    have hall (b : Char) (hb : b ∈ c :: cs) :
        isQuote b = false ∧ b ≠ leftBrace ∧ b ≠ rightBrace := by
      have := List.all_eq_true.1 htext b hb
      simp at this
      exact ⟨this.1.1, this.1.2, this.2⟩
    have hflat {tail : List Char} (htail : ∀ b ∈ tail, b ∈ c :: cs) : isFlat tail :=
      List.all_eq_true.2 fun b hb => List.all_eq_true.1 htext b (htail b hb)
    obtain ⟨hquote, hleft, hright⟩ := hall c (List.mem_cons_self ..)
    cases hname : isNameChar c with
    | false =>
      rw [List.cons_append, renameField_char hquote hleft hright hname,
        renameField_flat (hflat fun b => List.mem_cons_of_mem c) hrest, renameWords_char hname,
        List.cons_append]
    | true =>
      obtain ⟨run, tail, hcs, hrun, htail⟩ := exists_run isNameChar cs
      have hrun : ∀ b ∈ c :: run, isNameChar b := List.forall_mem_cons.2 ⟨hname, hrun⟩
      have hlen : tail.length ≤ cs.length := by simp [hcs]
      have hends : Ends (tail ++ rest) := by
        cases tail with
        | nil => exact hrest
        | cons d tail =>
          rintro b ⟨⟩
          exact ⟨htail d rfl, (hall d (by simp [hcs])).1⟩
      rw [hcs, ← List.cons_append, renameWords_run (List.cons_ne_nil c run) hrun htail,
        List.append_assoc, List.append_assoc,
        ← renameField_flat (hflat fun b hb => by simp [hcs, hb]) hrest]
      cases hstart : isNameStart c with
      | true =>
        have hword : IsWord (c :: run) := ⟨hstart, hrun⟩
        rw [if_pos hword]
        exact renameField_word hword (fun b hb => (hends b hb).1) fun b hb => by
          simp [(hends b hb).2]
      | false =>
        rw [if_neg fun h => by simp [IsWord, hstart] at h]
        exact renameField_number hrun hstart fun b hb => (hends b hb).1
termination_by text.length
decreasing_by all_goals grind

end Words

section Scan

theorem notName : rightBrace ≠ 'N' := by decide

/-- A right brace is text on its own, too. -/
theorem renameText_right (cs : List Char) :
    renameText f raw (rightBrace :: cs) = rightBrace :: renameText f raw cs := by
  have hplain (cs : List Char) (hcs : cs.head? ≠ some rightBrace) :
      renameText f raw (rightBrace :: cs) = rightBrace :: renameText f raw cs :=
    renameText_char (by simp [hcs]) (by decide) (by simp [rightBrace])
  induction cs with
  | nil => exact hplain [] (by simp)
  | cons c cs ih =>
    by_cases hc : c = rightBrace
    · subst hc
      rw [renameText_doubled (.inr rfl), ih]
    · exact hplain _ (by simpa using hc)

variable {s : Segment (List Char)}

theorem renameText_plain (hs : (Segment.plain c).fits) :
    renameText f raw (c :: cs) = c :: renameText f raw cs := by
  simp only [Segment.fits, Bool.and_eq_true, bne_iff_ne] at hs
  obtain ⟨⟨⟨⟨hleft, hright⟩, hback⟩, -⟩, -⟩ := hs
  exact renameText_char (by simp [hleft, hright]) hleft (by simp [hback])

theorem renameText_quotes (hquotes : ∀ q ∈ quotes, isQuote q) (cs : List Char) :
    renameText f raw (quotes ++ cs) = quotes ++ renameText f raw cs := by
  induction quotes with
  | nil => rfl
  | cons q quotes ih =>
    rw [List.forall_mem_cons] at hquotes
    have hback := Token.ne_backslash_of_isQuote hquotes.1
    obtain ⟨hleft, hright⟩ : q ≠ leftBrace ∧ q ≠ rightBrace := by
      constructor <;> (rintro rfl; exact absurd hquotes.1 (by decide))
    rw [List.cons_append, renameText_char (by simp [hleft, hright]) hleft (by simp [hback]),
      ih hquotes.2, List.cons_append]

theorem notMem_cons_name {name : List Char} (h : rightBrace ∉ name) :
    rightBrace ∉ 'N' :: leftBrace :: name := by
  simp only [List.mem_cons, not_or]
  exact ⟨by decide, by decide, h⟩

/-- A named character stays. -/
theorem renameText_nameOf {name : List Char} (h : rightBrace ∉ name) (rest : List Char) :
    renameText f false ('\\' :: 'N' :: leftBrace :: (name ++ rightBrace :: rest)) =
      '\\' :: 'N' :: leftBrace :: (name ++ rightBrace :: renameText f false rest) := by
  have hcs (b : Char) (hb : b ∈ 'N' :: leftBrace :: name) : b ≠ rightBrace := fun hbrace =>
    notMem_cons_name h (hbrace ▸ hb)
  exact renameText_named hcs rfl

theorem notMem_of_named {name : List Char} (hs : (Segment.named name).fits) : rightBrace ∉ name :=
  fun h => absurd (List.all_eq_true.1 hs _ h) (by decide +kernel)

theorem notMem_of_field (hs : (Segment.field text).fits) : rightBrace ∉ leftBrace :: text := by
  intro h
  obtain h | h := List.mem_cons.1 h
  · exact absurd h (by decide)
  · exact absurd (List.all_eq_true.1 hs _ h) (by decide)

theorem exists_closing (hs : s.fits) (hc : s.closes) : ∃ inner tail,
    s.spell braced = inner ++ rightBrace :: tail ∧ rightBrace ∉ inner ∧
      (tail = [] ∨ tail = [rightBrace]) := by
  cases s with
  | plain | escape => cases hc
  | doubled brace =>
    obtain rfl : brace = rightBrace := eq_of_beq hc
    exact ⟨[], [rightBrace], rfl, nofun, .inr rfl⟩
  | named name =>
    refine ⟨'\\' :: 'N' :: leftBrace :: name, [], rfl, fun h => ?_, .inl rfl⟩
    exact (List.mem_cons.1 h).elim (by decide) (notMem_cons_name (notMem_of_named hs))
  | field text => exact ⟨leftBrace :: text, [], rfl, notMem_of_field hs, .inl rfl⟩

theorem notMem_of_not_closes (hs : s.fits) (hc : s.closes = false) :
    rightBrace ∉ s.spell braced := by
  cases s with
  | plain c | escape c =>
    have hback : rightBrace ≠ '\\' := by decide
    simp only [Segment.fits, Bool.and_eq_true, bne_iff_ne] at hs
    simp [Segment.spell, hback, eq_comm, hs]
  | doubled brace =>
    have hne : rightBrace ≠ brace := fun h => by simp [Segment.closes, h] at hc
    simp [Segment.spell, hne]
  | named | field => cases hc

/-- One segment in text. -/
theorem renameText_spell (hs : s.fits) (rest : List Char) : ∃ front,
    (s.rename f).spell braced = front ++ (View.text.next s).pending [] ∧
      renameText f false (s.spell braced ++ rest) =
        front ++ renameText f false ((View.text.next s).pending [] ++ rest) := by
  cases s with
  | plain c => exact ⟨[c], rfl, renameText_plain hs⟩
  | doubled brace =>
    have hbrace : brace = leftBrace ∨ brace = rightBrace := by simpa [Segment.fits] using hs
    exact ⟨[brace, brace], rfl, renameText_doubled hbrace⟩
  | escape c =>
    simp only [Segment.fits, Bool.and_eq_true, bne_iff_ne] at hs
    obtain ⟨⟨⟨hname, hleft⟩, hright⟩, -⟩ := hs
    have hfirst : renameText f false ('\\' :: c :: rest) = '\\' :: renameText f false (c :: rest) :=
      renameText_char (by simp [leftBrace, rightBrace]) (by decide) (by simp [hname])
    -- Behind an escaped backslash the scanner is still undecided about the next character.
    by_cases hback : c = '\\'
    · subst hback
      exact ⟨['\\'], rfl, hfirst⟩
    · have hsecond : renameText f false (c :: rest) = c :: renameText f false rest :=
        renameText_char (by simp [hleft, hright]) hleft (by simp [hback])
      have hnext : View.text.next (.escape c : Segment (List Char)) = .text := if_neg hback
      refine ⟨['\\', c], by rw [hnext]; rfl, ?_⟩
      rw [hnext]
      exact hfirst.trans (congrArg _ hsecond)
  | named name =>
    refine ⟨(Segment.named name).spell braced, (List.append_nil _).symm, ?_⟩
    simpa [Segment.spell, View.next, View.pending] using
      renameText_nameOf (f := f) (notMem_of_named hs) rest
  | field text =>
    refine ⟨((Segment.field text).rename f).spell braced, (List.append_nil _).symm, ?_⟩
    have hcs : (text ++ rightBrace :: rest).head? ≠ some leftBrace := by
      cases text with
      | nil => simp [leftBrace, rightBrace]
      | cons b text =>
        intro hb
        obtain rfl : b = leftBrace := Option.some.inj hb
        exact absurd hs (by simp [Segment.fits])
    have hscan : renameText f false (leftBrace :: (text ++ rightBrace :: rest)) =
        leftBrace :: renameField f false 1 none (text ++ rightBrace :: rest) := renameText_field hcs
    have hwords : renameField f false 1 none (text ++ rightBrace :: rest) =
        renameWords f text ++ rightBrace :: renameText f false rest := by
      rw [renameField_flat (isFlat_of_fits hs) (ends_right rest), renameField_right,
        if_pos (Nat.le_refl 1)]
    simpa [Segment.spell, braced, View.next, View.pending, Segment.rename, hwords] using hscan

/-- One segment: a part of what is pending and of the segment is done, and the rest is pending. -/
theorem renameText_step (view : View) (hs : s.fits) (hbefore : rightBrace ∉ before)
    (rest : List Char) : ∃ front before', rightBrace ∉ before' ∧
      view.pending before ++ (if view = .name then s else s.rename f).spell braced =
        front ++ (view.next s).pending before' ∧
      renameText f false (view.pending before ++ (s.spell braced ++ rest)) =
        front ++ renameText f false ((view.next s).pending before' ++ rest) := by
  cases view with
  | text =>
    obtain ⟨front, hspell, hstep⟩ := renameText_spell (f := f) hs rest
    exact ⟨front, [], List.not_mem_nil, hspell, hstep⟩
  | backslash =>
    -- Only an `N` makes the backslash the start of a name; before anything else it is plain.
    by_cases hname : s = .plain 'N'
    · subst hname
      exact ⟨[], [], List.not_mem_nil, rfl, rfl⟩
    · have hnext : View.backslash.next s = View.text.next s := by
        cases s with
        | plain c => simp_all [View.next]
        | _ => rfl
      have hhead : (s.spell braced ++ rest).head? ≠ some 'N' := by
        cases s with
        | plain c => simpa [Segment.spell] using hname
        | doubled brace =>
          rintro ⟨⟩
          exact absurd hs (by decide)
        | _ => simp [Segment.spell, braced, leftBrace]
      obtain ⟨front, hspell, hstep⟩ := renameText_spell (f := f) hs rest
      rw [hnext]
      refine ⟨'\\' :: front, [], List.not_mem_nil, congrArg ('\\' :: ·) hspell, ?_⟩
      rw [View.pending, List.singleton_append, renameText_char (by simp [leftBrace, rightBrace])
        (by decide) fun h => hhead h.2.2, hstep, List.cons_append]
  | name =>
    cases hc : s.closes with
    -- The first right brace ends the name, be it that of a field or one of a doubled pair.
    | true =>
      obtain ⟨inner, tail, hspell, hinner, htail⟩ := exists_closing hs hc
      have hnext : View.name.next s = .text := if_pos hc
      have hname (b : Char) (hb : b ∈ 'N' :: (before ++ inner)) : b ≠ rightBrace := by
        rintro rfl
        simp [notName, hbefore, hinner] at hb
      have hclosed : renameText f false (tail ++ rest) = tail ++ renameText f false rest := by
        rcases htail with rfl | rfl
        · rfl
        · exact renameText_right rest
      refine ⟨'\\' :: 'N' :: (before ++ s.spell braced), [], List.not_mem_nil, ?_, ?_⟩
      · simp [hnext, View.pending]
      · have hnamed : renameText f false
            ('\\' :: ('N' :: (before ++ inner) ++ rightBrace :: (tail ++ rest))) = '\\' ::
              ('N' :: (before ++ inner) ++ rightBrace :: (tail ++ renameText f false rest)) := by
          rw [← hclosed]
          exact renameText_named hname rfl
        simpa [hnext, View.pending, hspell] using hnamed
    | false =>
      have hnext : View.name.next s = .name := if_neg (by simp [hc])
      refine ⟨[], before ++ s.spell braced, ?_, ?_, ?_⟩
      · simp [hbefore, notMem_of_not_closes hs hc]
      · simp [hnext, View.pending]
      · simp [hnext, View.pending]

/-- The scanner makes of segments what their views say. -/
theorem renameText_segments (hquotes : ∀ q ∈ quotes, isQuote q) (view : View)
    {segments : List (Segment (List Char))} (hfits : ∀ s ∈ segments, s.fits)
    (hbefore : rightBrace ∉ before) :
    renameText f false (view.pending before ++ (spellAll braced segments ++ quotes)) =
      view.pending before ++ (spellAll braced (renameSegments f view segments) ++ quotes) := by
  induction segments generalizing view before with
  | nil =>
    have hhead : quotes.head? ≠ some 'N' := fun h =>
      absurd (hquotes 'N' (List.mem_of_mem_head? h)) (by decide)
    have hright : rightBrace ∉ quotes := fun h => absurd (hquotes _ h) (by decide)
    have hkeep : renameText f false quotes = quotes := by
      have hscan : renameText f false (quotes ++ []) = quotes ++ renameText f false [] :=
        renameText_quotes hquotes []
      rwa [renameText, List.append_nil] at hscan
    show renameText f false (view.pending before ++ quotes) = view.pending before ++ quotes
    cases view with
    | text => exact hkeep
    | backslash =>
      rw [View.pending, List.singleton_append, renameText_char (by simp [leftBrace, rightBrace])
        (by decide) fun h => hhead h.2.2, hkeep]
    | name =>
      have hname (b : Char) (hb : b ∈ 'N' :: (before ++ quotes)) : b ≠ rightBrace := by
        rintro rfl
        simp [notName, hbefore, hright] at hb
      exact renameText_unclosed hname rfl
  | cons s segments ih =>
    rw [List.forall_mem_cons] at hfits
    obtain ⟨front, before', hbefore', hspell, hstep⟩ :=
      renameText_step (f := f) view hfits.1 hbefore (spellAll braced segments ++ quotes)
    rw [renameSegments, spellAll_cons, spellAll_cons, List.append_assoc, hstep,
      ih _ hfits.2 hbefore',
      List.append_assoc, ← List.append_assoc (view.pending before), hspell, List.append_assoc]

end Scan

def quote (marks quotes text : List Char) : String :=
  String.ofList (marks ++ (quotes ++ (text ++ quotes)))

def ofSegments (marks quotes : List Char) (segments : List (Segment (List Char))) : String :=
  quote marks quotes (spellAll braced segments)

def isDelimited (marks quotes : List Char) : Bool :=
  Lexeme.areMarks marks && marks.any isFormatMark && (quotes.length == 1 || quotes.length == 3) &&
    quotes.all fun q => isQuote q && quotes.head? == some q

theorem isQuote_of_isDelimited {marks : List Char} (h : isDelimited marks quotes) :
    ∀ q ∈ quotes, isQuote q := by
  simp only [isDelimited, Bool.and_eq_true, List.all_eq_true] at h
  exact fun q hq => (h.2 q hq).1

/-- Between its quotes a format string is renamed as the scanner of fields does. -/
theorem renameFields_quote (rename : String → String) {marks text : List Char}
    (h : isDelimited marks quotes) : renameFields rename (quote marks quotes text) =
      String.ofList (marks ++ (quotes ++
        renameText (onWords rename) (marks.any isRawMark) (text ++ quotes))) := by
  have hquotes := isQuote_of_isDelimited h
  simp only [isDelimited, Bool.and_eq_true] at h
  rw [← renameText_quotes hquotes]
  cases quotes with
  | nil => simp at h
  | cons q tail =>
    have hq := hquotes q (List.mem_cons_self ..)
    exact renameFields_eq rename (Lexeme.isQuote_eq_false h.1.1.1) hq

/-- The marks are no raw ones. -/
def areFrame (marks quotes : List Char) : Bool :=
  isDelimited marks quotes && !marks.any isRawMark

end AsyncErasure.FormatString

namespace AsyncErasure.Convention

open FormatString

/-- Every word of every field is renamed and everything else stays, unless a field is hidden behind
an escaped backslash and an `N`. -/
theorem renameFields_segments (c : Convention) {marks quotes : List Char}
    {segments : List (Segment (List Char))}
    (hframe : areFrame marks quotes) (hfits : ∀ s ∈ segments, s.fits)
    (hseen : seesFields .text segments) :
    renameFields c.rename (ofSegments marks quotes segments) =
      ofSegments marks quotes (segments.map (Segment.rename (onWords c.rename))) := by
  simp only [areFrame, Bool.and_eq_true, Bool.not_eq_true'] at hframe
  obtain ⟨hframe, hraw⟩ := hframe
  have hscan := renameText_segments (f := onWords c.rename) (isQuote_of_isDelimited hframe) .text
    hfits List.not_mem_nil
  rw [renameSegments_eq_map hseen] at hscan
  rw [ofSegments, renameFields_quote c.rename hframe, hraw]
  exact congrArg (fun text => String.ofList (marks ++ (quotes ++ text))) hscan

def mixedSegments : List (Segment (List Char)) :=
  [.named "dash".toList, .field "aconn".toList, .doubled leftBrace, .field "x.alist".toList,
    .escape '\\', .escape '\'', .field "1anext+anext".toList, .doubled rightBrace, .plain 'n']

theorem renameFields_segments_mixed :
    renameFields standard.rename (ofSegments ['f'] ['"', '"', '"'] mixedSegments) =
      ofSegments ['f'] ['"', '"', '"']
        [.named "dash".toList, .field "conn".toList, .doubled leftBrace, .field "x.list".toList,
          .escape '\\', .escape '\'', .field "1anext+next".toList, .doubled rightBrace,
          .plain 'n'] := by
  have hframe : areFrame ['f'] ['"', '"', '"'] := by decide +kernel
  have hfits : ∀ s ∈ mixedSegments, s.fits := by decide +kernel
  have hseen : seesFields .text mixedSegments := by decide +kernel
  exact (standard.renameFields_segments hframe hfits hseen).trans (by decide +kernel)

/-- The backslash is escaped and the braces hold a field, whose word is not renamed. -/
theorem renameFields_hides_field :
    (∀ s ∈ [Segment.escape '\\', .plain 'N', .field "aconn".toList], s.fits) ∧
      ofSegments ['f'] ['\''] [.escape '\\', .plain 'N', .field "aconn".toList] =
        "f'\\\\N\x7baconn\x7d'" ∧
      renameFields standard.rename "f'\\\\N\x7baconn\x7d'" = "f'\\\\N\x7baconn\x7d'" ∧
      ofSegments ['f'] ['\''] ([.escape '\\', .plain 'N', .field "aconn".toList].map
        (Segment.rename (onWords standard.rename))) = "f'\\\\N\x7bconn\x7d'" := by
  decide +kernel

end AsyncErasure.Convention
