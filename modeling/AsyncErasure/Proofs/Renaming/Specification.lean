import AsyncErasure.Proofs.Renaming.Segment

namespace AsyncErasure.FormatString

open Text Literal

/-- A replacement field that is formatted by a specification. -/
structure Field where
  code : List Char
  conversion : Option Char
  /-- The specification up to the first field nested in it. -/
  front : List Char
  /-- The nested fields, each with the literal text behind it. -/
  nested : List (List Char × List Char)
deriving DecidableEq

namespace Field

/-- What stands between the code and the first nested field. -/
def format (x : Field) : List Char :=
  (x.conversion.elim [] fun c => ['!', c]) ++ ':' :: x.front

def literals (x : Field) : List (List Char) := x.format :: x.nested.map Prod.snd

def codes (x : Field) : List (List Char) := x.code :: x.nested.map Prod.fst

def nestedWith (code literal : List Char → List Char) (nested : List (List Char × List Char)) :
    List Char :=
  nested.flatMap fun (inner, behind) => leftBrace :: (code inner ++ rightBrace :: literal behind)

/-- The field with its codes and its literal texts changed. -/
def spellWith (code literal : List Char → List Char) (x : Field) : List Char :=
  leftBrace :: (code x.code ++ (literal x.format ++
    (nestedWith code literal x.nested ++ [rightBrace])))

def fits (x : Field) : Bool :=
  x.codes.all (fun text => isFlat text && text.all fun c => c != '!' && c != ':') &&
    isFlat x.conversion.toList &&
    (x.front :: x.nested.map Prod.snd).all fun text => isFlat text && text.all (· != '\\')

end Field

namespace Segment

def isBraced {φ : Type} : Segment φ → Bool
  | doubled _ | field _ => true
  | _ => false

/-- The segment is of its kind, in front of the next one. In a raw string a backslash is a plain
character, in others it stands alone only in front of a brace. -/
def fitsBefore (raw : Bool) (next : Option (Segment Field)) : Segment Field → Bool
  | plain c => c != leftBrace && c != rightBrace && (raw || c != '\\' || next.any isBraced)
  | doubled brace => brace == leftBrace || brace == rightBrace
  | escape c => !raw && c != 'N' && c != leftBrace && c != rightBrace
  | named name => !raw && !name.contains rightBrace
  | field x => x.fits

end Segment

def Fits (raw : Bool) : List (Segment Field) → Prop
  | [] => True
  | s :: segments => s.fitsBefore raw segments.head? ∧ Fits raw segments

instance decidableFits (raw : Bool) :
    (segments : List (Segment Field)) → Decidable (Fits raw segments)
  | [] => .isTrue trivial
  | s :: segments =>
    have := decidableFits raw segments
    inferInstanceAs (Decidable (s.fitsBefore raw segments.head? ∧ Fits raw segments))

/-- No plain `N` stands behind an escaped backslash. The scanner takes it for the start of a
name. -/
def IsClear (segments : List (Segment Field)) : Prop :=
  ¬[Segment.escape '\\', .plain 'N'] <:+: segments

def writeWith (code literal : List Char → List Char) (segments : List (Segment Field)) :
    List Char :=
  spellAll (Field.spellWith code literal) segments

variable {f : List Char → List Char} {raw : Bool} {rest : List Char}

section Scan

variable {x : Field} {nested : List (List Char × List Char)}

theorem isFlat_append {a b : List Char} : isFlat (a ++ b) ↔ isFlat a ∧ isFlat b := by
  simp [isFlat, List.all_append]

section Spelling

variable (code literal : List Char → List Char) (rest : List Char)

theorem nestedWith_cons (n : List Char × List Char) (nested : List (List Char × List Char)) :
    Field.nestedWith code literal (n :: nested) ++ rest = leftBrace :: (code n.1 ++
      rightBrace :: (literal n.2 ++ (Field.nestedWith code literal nested ++ rest))) := by
  simp [Field.nestedWith]

theorem spellWith_append (x : Field) :
    x.spellWith code literal ++ rest = leftBrace :: (code x.code ++ (literal x.format ++
      (Field.nestedWith code literal x.nested ++ rightBrace :: rest))) := by
  simp [Field.spellWith]

theorem writeWith_cons (s : Segment Field) (segments : List (Segment Field)) :
    writeWith code literal (s :: segments) =
      s.spell (Field.spellWith code literal) ++ writeWith code literal segments := spellAll_cons ..

end Spelling

/-- A flat text in front of nested fields and the end of a field ends at a brace. -/
theorem exists_brace (nested : List (List Char × List Char)) :
    ∃ brace, (brace = leftBrace ∨ brace = rightBrace) ∧
      ∀ code literal rest, ∃ tail,
        Field.nestedWith code literal nested ++ rightBrace :: rest = brace :: tail := by
  cases nested with
  | nil => exact ⟨rightBrace, .inr rfl, fun _ _ rest => ⟨rest, rfl⟩⟩
  | cons n nested => exact ⟨leftBrace, .inl rfl, fun _ _ _ => ⟨_, rfl⟩⟩

theorem ends_nestedWith (code literal : List Char → List Char)
    (nested : List (List Char × List Char)) (rest : List Char) :
    Ends (Field.nestedWith code literal nested ++ rightBrace :: rest) := by
  obtain ⟨brace, hbrace, hall⟩ := exists_brace nested
  obtain ⟨tail, htail⟩ := hall code literal rest
  rw [htail]
  obtain rfl | rfl := hbrace
  · exact ends_left tail
  · exact ends_right tail

/-- Nested fields and the literal texts behind them, to the end of the field around them. -/
theorem renameField_nested (h : ∀ n ∈ nested, isFlat n.1 ∧ isFlat n.2) :
    renameField f raw 1 none (Field.nestedWith id id nested ++ rightBrace :: rest) =
      Field.nestedWith (renameWords f) (renameWords f) nested ++
        rightBrace :: renameText f raw rest := by
  induction nested with
  | nil =>
    show renameField f raw 1 none (rightBrace :: rest) = rightBrace :: renameText f raw rest
    rw [renameField_right, if_pos (Nat.le_refl 1)]
  | cons n nested ih =>
    obtain ⟨⟨hinner, hbehind⟩, h⟩ := List.forall_mem_cons.1 h
    rw [nestedWith_cons, nestedWith_cons, renameField_left, id, id,
      renameField_flat hinner (ends_right _),
      renameField_right, if_neg (by decide),
        renameField_flat hbehind (ends_nestedWith _ _ _ _), ih h]

theorem isFlat_format (h : x.fits) : isFlat x.format := by
  simp only [Field.fits, Bool.and_eq_true, List.all_cons] at h
  obtain ⟨⟨-, hconversion⟩, ⟨hfront, -⟩, -⟩ := h
  have hcolon : isFlat [':'] := by decide
  have hbang : isFlat ['!'] := by decide
  rw [Field.format, show ':' :: x.front = [':'] ++ x.front from rfl]
  cases hc : x.conversion with
  | none => exact isFlat_append.2 ⟨hcolon, hfront⟩
  | some c =>
    rw [hc] at hconversion
    exact isFlat_append.2 ⟨isFlat_append.2 ⟨hbang, hconversion⟩, isFlat_append.2 ⟨hcolon, hfront⟩⟩

theorem flat_of_fits (h : x.fits) :
    isFlat x.code ∧ ∀ n ∈ x.nested, isFlat n.1 ∧ isFlat n.2 := by
  simp only [Field.fits, Field.codes, Bool.and_eq_true, List.all_cons, List.all_map,
    List.all_eq_true, Function.comp_apply] at h
  obtain ⟨⟨⟨⟨hcode, -⟩, hinner⟩, -⟩, -, hbehind⟩ := h
  exact ⟨hcode, fun n hn => ⟨(hinner n hn).1, (hbehind n hn).1⟩⟩

theorem stops_format (x : Field) (rest : List Char) : Stops (x.format ++ rest) := by
  intro c hc
  rw [Field.format] at hc
  cases hx : x.conversion with
  | none =>
    rw [hx] at hc
    obtain rfl : ':' = c := Option.some.inj hc
    decide +kernel
  | some b =>
    rw [hx] at hc
    obtain rfl : '!' = c := Option.some.inj hc
    decide +kernel

/-- In a field every word of its codes and of its literal texts is renamed. -/
theorem renameText_specified (h : x.fits) :
    renameText f raw (x.spellWith id id ++ rest) =
      x.spellWith (renameWords f) (renameWords f) ++ renameText f raw rest := by
  obtain ⟨hcode, hnested⟩ := flat_of_fits h
  have hformat := isFlat_format h
  have hflat : isFlat (x.code ++ x.format) := isFlat_append.2 ⟨hcode, hformat⟩
  have hhead : (x.code ++ (x.format ++ (Field.nestedWith id id x.nested ++
      rightBrace :: rest))).head? ≠ some leftBrace := by
    rw [← List.append_assoc]
    cases htext : x.code ++ x.format with
    | nil =>
      have := List.append_eq_nil_iff.1 htext
      simp [Field.format] at this
    | cons b text =>
      rintro ⟨⟩
      rw [htext] at hflat
      exact absurd hflat (by simp [isFlat])
  rw [spellWith_append, spellWith_append, id, id, renameText_field hhead, ← List.append_assoc,
    renameField_flat hflat (ends_nestedWith _ _ _ _), renameField_nested hnested,
    renameWords_append (by simpa using stops_format x []), List.append_assoc]

/-- One segment: every word of a field is renamed, and everything else stays. -/
theorem renameText_segment {s : Segment Field} {next : Option (Segment Field)}
    (h : s.fitsBefore raw next)
    (hrest : raw = false → (s = .plain '\\' ∨ s = .escape '\\') → rest.head? ≠ some 'N') :
    renameText f raw (s.spell (Field.spellWith id id) ++ rest) =
      s.spell (Field.spellWith (renameWords f) (renameWords f)) ++ renameText f raw rest := by
  cases s with
  | plain c =>
    simp only [Segment.fitsBefore, Bool.and_eq_true, bne_iff_ne] at h
    refine renameText_char (by simp [h]) h.1.1 ?_
    rintro ⟨rfl, hraw, hhead⟩
    exact hrest (by simpa using hraw) (.inl rfl) hhead
  | doubled brace => exact renameText_doubled (by simpa [Segment.fitsBefore] using h)
  | escape c =>
    simp only [Segment.fitsBefore, Bool.and_eq_true, bne_iff_ne, Bool.not_eq_true'] at h
    obtain ⟨⟨⟨hraw, hname⟩, hleft⟩, hright⟩ := h
    have hfirst : renameText f raw ('\\' :: c :: rest) = '\\' :: renameText f raw (c :: rest) :=
      renameText_char (by simp [leftBrace, rightBrace]) (by decide) (by simp [hname])
    have hsecond : renameText f raw (c :: rest) = c :: renameText f raw rest := by
      refine renameText_char (by simp [hleft, hright]) hleft ?_
      rintro ⟨rfl, -, hhead⟩
      exact hrest hraw (.inr rfl) hhead
    exact hfirst.trans (congrArg _ hsecond)
  | named name =>
    simp only [Segment.fitsBefore, Bool.and_eq_true, Bool.not_eq_true', List.contains_eq_mem,
      decide_eq_false_iff_not] at h
    obtain ⟨rfl, hname⟩ := h
    simpa [Segment.spell] using renameText_nameOf (f := f) hname rest
  | field x => exact renameText_specified h

theorem IsClear.tail {s : Segment Field} {segments : List (Segment Field)}
    (h : IsClear (s :: segments)) : IsClear segments :=
  fun hpair => h (hpair.trans (List.suffix_cons s segments).isInfix)

/-- Only a plain `N` is written with an `N` in front. -/
theorem head?_writeWith {segments : List (Segment Field)} {quotes : List Char}
    (hquotes : ∀ q ∈ quotes, isQuote q) (hfits : Fits raw segments)
    (h : (writeWith id id segments ++ quotes).head? = some 'N') :
    segments.head? = some (.plain 'N') := by
  cases segments with
  | nil => exact absurd (hquotes 'N' (List.mem_of_mem_head? h)) (by decide)
  | cons s segments =>
    cases s with
    | plain c => exact congrArg (some ∘ Segment.plain) (Option.some.inj h)
    | doubled brace =>
      obtain rfl : brace = 'N' := Option.some.inj h
      exact absurd hfits.1 (by simp [Segment.fitsBefore, leftBrace, rightBrace])
    | escape c => exact absurd (Option.some.inj h) (by decide)
    | named name => exact absurd (Option.some.inj h) (by decide)
    | field x => exact absurd (Option.some.inj h) (by decide)

/-- The scanner renames every word in every field. -/
theorem renameText_all {segments : List (Segment Field)} {quotes : List Char}
    (hquotes : ∀ q ∈ quotes, isQuote q) (hfits : Fits raw segments) (hclear : IsClear segments) :
    renameText f raw (writeWith id id segments ++ quotes) =
      writeWith (renameWords f) (renameWords f) segments ++ quotes := by
  induction segments with
  | nil =>
    have hscan : renameText f raw (quotes ++ []) = quotes ++ renameText f raw [] :=
      renameText_quotes hquotes []
    rwa [renameText, List.append_nil] at hscan
  | cons s segments ih =>
    obtain ⟨hs, hfits⟩ := hfits
    rw [writeWith_cons, writeWith_cons, List.append_assoc, List.append_assoc, renameText_segment hs,
      ih hfits hclear.tail]
    rintro hraw hback hhead
    have hnext := head?_writeWith hquotes hfits hhead
    obtain rfl | rfl := hback
    · simp [Segment.fitsBefore, hraw, hnext, Segment.isBraced] at hs
    · refine hclear ?_
      obtain ⟨later, rfl⟩ := List.head?_eq_some_iff.1 hnext
      exact ⟨[], later, rfl⟩

end Scan

section Cancel

variable {x : Field} {text : List Char} {brace : Char}

theorem not_mem_of_isFlat (h : isFlat text) (hbrace : brace = leftBrace ∨ brace = rightBrace) :
    brace ∉ text := by
  intro hmem
  have := List.all_eq_true.1 h brace hmem
  obtain rfl | rfl := hbrace <;> simp at this

/-- Renaming puts no braces into a text. -/
theorem not_mem_renameWords (hf : ∀ word, IsWord word → IsWord (f word)) (h : isFlat text)
    (hbrace : brace = leftBrace ∨ brace = rightBrace) : brace ∉ renameWords f text := by
  intro hmem
  obtain ⟨piece, hpiece, hmem⟩ := List.mem_flatMap.1 hmem
  split at hmem
  · rename_i hword
    have hname := (hf piece hword).2 brace hmem
    obtain rfl | rfl := hbrace <;> exact absurd hname (by decide +kernel)
  · refine not_mem_of_isFlat h hbrace ?_
    rw [← List.flatten_splitBy (fun a b => isNameChar a && isNameChar b) text]
    exact List.mem_flatten.2 ⟨piece, hpiece, hmem⟩

theorem eq_of_append_cons {a b : List Char} {as bs : List Char} (ha : brace ∉ a) (hb : brace ∉ b)
    (h : a ++ brace :: as = b ++ brace :: bs) : a = b ∧ as = bs := by
  have hlen := congrArg (List.idxOf brace) h
  rw [List.idxOf_append_of_notMem ha, List.idxOf_append_of_notMem hb, List.idxOf_cons_self,
    List.idxOf_cons_self] at hlen
  obtain ⟨hab, htail⟩ := List.append_inj h hlen
  exact ⟨hab, (List.cons.inj htail).2⟩

/-- A literal text is told from what comes before the next brace. -/
theorem literal_eq (hf : ∀ word, IsWord word → IsWord (f word)) (h : isFlat text)
    (hbrace : brace = leftBrace ∨ brace = rightBrace) {as bs : List Char}
    (heq : renameWords f text ++ brace :: as = text ++ brace :: bs) :
    renameWords f text = text ∧ as = bs :=
  eq_of_append_cons (not_mem_renameWords hf h hbrace) (not_mem_of_isFlat h hbrace) heq

theorem nested_eq (hf : ∀ word, IsWord word → IsWord (f word)) {code : List Char → List Char}
    {nested : List (List Char × List Char)} (h : ∀ n ∈ nested, isFlat n.2) {as bs : List Char}
    (heq : Field.nestedWith code (renameWords f) nested ++ rightBrace :: as =
      Field.nestedWith code id nested ++ rightBrace :: bs) :
    (∀ text ∈ nested.map Prod.snd, renameWords f text = text) ∧ as = bs := by
  induction nested with
  | nil => exact ⟨nofun, (List.cons.inj heq).2⟩
  | cons n nested ih =>
    obtain ⟨hn, h⟩ := List.forall_mem_cons.1 h
    rw [nestedWith_cons, nestedWith_cons] at heq
    have heq := (List.cons.inj (List.append_cancel_left (List.cons.inj heq).2)).2
    obtain ⟨brace, hbrace, hall⟩ := exists_brace nested
    obtain ⟨left, hleft⟩ := hall code (renameWords f) as
    obtain ⟨right, hright⟩ := hall code id bs
    rw [hleft, hright] at heq
    obtain ⟨htext, htails⟩ := literal_eq hf hn hbrace heq
    obtain ⟨hrest, hends⟩ := ih h (by rw [hleft, hright, htails])
    exact ⟨List.forall_mem_cons.2 ⟨htext, hrest⟩, hends⟩

theorem field_eq (hf : ∀ word, IsWord word → IsWord (f word)) {code : List Char → List Char}
    (h : x.fits) {as bs : List Char}
    (heq : x.spellWith code (renameWords f) ++ as = x.spellWith code id ++ bs) :
    (∀ text ∈ x.literals, renameWords f text = text) ∧ as = bs := by
  have hformat := isFlat_format h
  have hnested := (flat_of_fits h).2
  rw [spellWith_append, spellWith_append] at heq
  have heq := List.append_cancel_left (List.cons.inj heq).2
  obtain ⟨brace, hbrace, hall⟩ := exists_brace x.nested
  obtain ⟨left, hleft⟩ := hall code (renameWords f) as
  obtain ⟨right, hright⟩ := hall code id bs
  rw [hleft, hright] at heq
  obtain ⟨htext, htails⟩ := literal_eq hf hformat hbrace heq
  obtain ⟨hrest, hends⟩ := nested_eq hf (fun n hn => (hnested n hn).2)
    (by rw [hleft, hright, htails])
  exact ⟨List.forall_mem_cons.2 ⟨htext, hrest⟩, hends⟩

/-- If renaming everything leaves the text as renaming the codes does, it leaves every literal
text. -/
theorem literals_eq (hf : ∀ word, IsWord word → IsWord (f word)) {code : List Char → List Char}
    {segments : List (Segment Field)} (hfits : Fits raw segments)
    (heq : writeWith code (renameWords f) segments = writeWith code id segments) :
    ∀ x, .field x ∈ segments → ∀ text ∈ x.literals, renameWords f text = text := by
  induction segments with
  | nil => nofun
  | cons s segments ih =>
    obtain ⟨hs, hfits⟩ := hfits
    rw [writeWith_cons, writeWith_cons] at heq
    intro x hx
    obtain rfl | hx := List.mem_cons.1 hx
    · exact (field_eq hf hs heq).1
    · refine ih hfits ?_ x hx
      cases s with
      | field y => exact (field_eq hf hs heq).2
      | _ => exact List.append_cancel_left heq

theorem writeWith_eq {code : List Char → List Char} {segments : List (Segment Field)}
    (h : ∀ x, .field x ∈ segments → ∀ text ∈ x.literals, renameWords f text = text) :
    writeWith code (renameWords f) segments = writeWith code id segments := by
  refine List.flatMap_congr fun s hs => ?_
  cases s with
  | field x =>
    obtain ⟨hformat, hbehind⟩ := List.forall_mem_cons.1 (h x hs)
    have hnested : Field.nestedWith code (renameWords f) x.nested =
        Field.nestedWith code id x.nested := by
      refine List.flatMap_congr fun n hn => ?_
      have hn : renameWords f n.2 = n.2 := hbehind n.2 (List.mem_map_of_mem hn)
      exact congrArg (fun behind => leftBrace :: (code n.1 ++ rightBrace :: behind)) hn
    rw [Segment.spell, Segment.spell, Field.spellWith, Field.spellWith, hformat, hnested, id]
  | _ => rfl

end Cancel

theorem quote_inj {marks quotes a b : List Char} :
    quote marks quotes a = quote marks quotes b ↔ a = b := by
  rw [quote, quote, String.ofList_inj]
  simp

end AsyncErasure.FormatString

namespace AsyncErasure.Convention

open FormatString

/-- All words between the braces of a field are renamed. So the literal texts of specifications, and
the conversions in front of them, stay only where they hold no word that has another name. -/
theorem renameFields_specifications (c : Convention) {marks quotes : List Char}
    {segments : List (Segment Field)} (hframe : isDelimited marks quotes)
    (hfits : Fits (marks.any Literal.isRawMark) segments) (hclear : IsClear segments) :
    renameFields c.rename (quote marks quotes (writeWith id id segments)) =
        quote marks quotes (writeWith (renameWords (onWords c.rename))
          (renameWords (onWords c.rename)) segments) ∧
      (c.IsStable →
        (renameFields c.rename (quote marks quotes (writeWith id id segments)) =
            quote marks quotes (writeWith (renameWords (onWords c.rename)) id segments) ↔
          ∀ x, .field x ∈ segments → ∀ text ∈ x.literals,
            renameWords (onWords c.rename) text = text)) := by
  have hquotes := isQuote_of_isDelimited hframe
  have hall : renameFields c.rename (quote marks quotes (writeWith id id segments)) =
      quote marks quotes (writeWith (renameWords (onWords c.rename))
        (renameWords (onWords c.rename)) segments) := by
    rw [renameFields_quote c.rename hframe, renameText_all hquotes hfits hclear]
    rfl
  refine ⟨hall, fun hstable => ?_⟩
  rw [hall, quote_inj]
  exact ⟨literals_eq hstable.isRenaming.isWord hfits, writeWith_eq⟩

def specified : List (Segment Field) :=
  [.named "dash".toList, .field ⟨"aconn.f".toList, some 'r', ">".toList,
    [("alist".toList, ".".toList), ("n".toList, "d".toList)]⟩, .escape '\\', .escape '\'',
    .doubled leftBrace, .plain 'N', .plain '\\', .field ⟨"x".toList, none, "02d".toList, []⟩]

theorem renameFields_specifications_specified :
    renameFields standard.rename (quote ['f'] ['"'] (writeWith id id specified)) =
        "f\"\\N\x7bdash\x7d\x7bconn.f!r:>\x7blist\x7d.\x7bn\x7dd\x7d\\\\\\'\x7b\x7bN\\\x7bx:02d\x7d\"" ∧
      renameFields standard.rename (quote ['f'] ['"'] (writeWith id id specified)) =
        quote ['f'] ['"'] (writeWith (renameWords (onWords standard.rename)) id specified) := by
  have hframe : isDelimited ['f'] ['"'] := by decide +kernel
  have hfits : Fits (['f'].any Literal.isRawMark) specified := by decide +kernel
  have hclear : IsClear specified := by unfold IsClear; decide +kernel
  obtain ⟨hall, hiff⟩ := standard.renameFields_specifications hframe hfits hclear
  refine ⟨hall.trans (by decide +kernel), (hiff isStable_standard).2 ?_⟩
  intro x hx
  simp only [specified, List.mem_cons, List.not_mem_nil, reduceCtorEq, false_or, or_false,
    Segment.field.injEq] at hx
  obtain rfl | rfl := hx <;> decide +kernel

/-- The specification is the text `aconn`, and it is renamed. -/
theorem renameFields_changes_specification :
    Fits false [.field ⟨"x".toList, none, "aconn".toList, []⟩] ∧
      quote ['f'] ['\''] (writeWith id id [.field ⟨"x".toList, none, "aconn".toList, []⟩]) =
        "f'\x7bx:aconn\x7d'" ∧
      renameFields standard.rename "f'\x7bx:aconn\x7d'" = "f'\x7bx:conn\x7d'" ∧
      quote ['f'] ['\''] (writeWith (renameWords (onWords standard.rename)) id
        [.field ⟨"x".toList, none, "aconn".toList, []⟩]) = "f'\x7bx:aconn\x7d'" := by
  decide +kernel

end AsyncErasure.Convention
