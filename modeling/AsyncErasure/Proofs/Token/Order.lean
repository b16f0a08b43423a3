import AsyncErasure.Proofs.Token.Stream

namespace AsyncErasure

def Lexeme.frames : Lexeme → Bool
  | indent | dedent | endMarker => true
  | _ => false

def Lexeme.isNewline : Lexeme → Bool
  | newline _ => true
  | _ => false

theorem Lexeme.frames_of_isCode {l : Lexeme} (h : l.isCode) : l.frames = false := by
  cases l <;> first | rfl | cases h

theorem Lexeme.isNewline_of_isCode {l : Lexeme} (h : l.isCode) : l.isNewline = false := by
  cases l <;> first | rfl | cases h

theorem Lexeme.frames_of_isNewline {l : Lexeme} (h : l.isNewline) : l.frames = false := by
  cases l <;> first | rfl | cases h

theorem Lexeme.frames_of_isComment {l : Lexeme} (h : l.isComment) : l.frames = false := by
  cases l <;> first | rfl | cases h

theorem Lexeme.isNewline_of_isComment {l : Lexeme} (h : l.isComment) : l.isNewline = false := by
  cases l <;> first | rfl | cases h

namespace Token

variable {home place : Place} {opened : List Opened} {indents inside : List Nat} {cs : List Char}
  {line : CodeLine} {n m : Nat} {front later start tokens : List Token}

/-- From the given line on, each token begins no higher than the one before it ends. -/
def GoesDown : Nat → List Token → Prop
  | _, [] => True
  | n, t :: rest => n ≤ t.span.line ∧ t.span.line ≤ t.span.endLine ∧ GoesDown t.span.endLine rest

theorem GoesDown.mono (h : GoesDown m tokens) (hn : n ≤ m) : GoesDown n tokens := by
  cases tokens with
  | nil => trivial
  | cons t rest => exact ⟨hn.trans h.1, h.2⟩

theorem GoesDown.le_line (h : GoesDown n tokens) :
    ∀ t ∈ tokens, n ≤ t.span.line ∧ t.span.line ≤ t.span.endLine := by
  induction tokens generalizing n with
  | nil => exact nofun
  | cons t rest ih =>
    obtain ⟨hbegin, hend, hrest⟩ := h
    refine List.forall_mem_cons.2 ⟨⟨hbegin, hend⟩, fun u hu => ?_⟩
    exact ⟨(hbegin.trans hend).trans (ih hrest u hu).1, (ih hrest u hu).2⟩

/-- Tokens on one line come before what begins there or below. -/
theorem GoesDown.of_level (hf : ∀ t ∈ front, t.span.line = n ∧ t.span.endLine = n)
    (h : GoesDown n later) : GoesDown n (front ++ later) := by
  induction front with
  | nil => exact h
  | cons t front ih =>
    obtain ⟨⟨hline, hend⟩, hf⟩ := List.forall_mem_cons.1 hf
    exact ⟨hline.ge, hend ▸ hline.le, hend ▸ ih hf⟩

theorem dedent_level {width : Nat} : ∀ t ∈ (dedent place width indents).1,
    t.span.line = place.line ∧ t.span.endLine = place.line := by
  intro t ht
  obtain ⟨_, -, rfl⟩ := List.mem_map.1 ht
  exact ⟨rfl, rfl⟩

theorem layout_level {width : Nat} (h : layout place width indents = .ok (start, inside)) :
    ∀ t ∈ start, t.span.line = place.line ∧ t.span.endLine = place.line := by
  unfold layout at h
  split at h
  · cases h
    exact List.forall_mem_singleton.2 ⟨rfl, rfl⟩
  · dsimp only at h
    split at h
    · cases h
      exact dedent_level
    · cases h

/-- A line of code goes down to where the next line begins. -/
theorem LineReads.goesDown (h : LineReads home opened place cs line)
    (hlater : GoesDown line.place.line later) : GoesDown place.line (line.tokens ++ later) := by
  induction h with
  | eof => exact ⟨Nat.le_refl _, Nat.le_refl _, hlater⟩
  | ends => exact ⟨Nat.le_refl _, Nat.le_refl _, hlater.mono (Nat.le_succ _)⟩
  | margin _ _ ih | hoist _ _ _ _ ih => exact ih hlater
  | join _ ih | wrap _ _ ih => exact (ih hlater).mono (Nat.le_succ _)
  | remark _ _ _ ih => exact ⟨Nat.le_refl _, Nat.le_refl _, ih hlater⟩
  | @lexeme _ _ place c cs _ _ n _ _ _ ih =>
    have hend : place.line ≤ (place.through (c :: cs.take n)).line := by
      rw [Place.line_through]
      exact Nat.le_add_right ..
    exact ⟨Nat.le_refl _, hend, ih hlater⟩

/-- A page goes down from its first line. -/
theorem PageReads.goesDown (h : PageReads indents place cs tokens) :
    GoesDown place.line tokens := by
  induction h with
  | eof => exact .of_level dedent_level ⟨Nat.le_refl _, Nat.le_refl _, trivial⟩
  | gap _ _ ih => exact ih.mono (Nat.le_succ _)
  | comment _ _ _ _ _ ih => exact .of_level dedent_level ⟨Nat.le_refl _, Nat.le_refl _, ih⟩
  | code _ hl here _ ih =>
    obtain ⟨bodies, hbodies⟩ := here.hoisted_eq
    have hstart := layout_level hl
    simp only [List.append_assoc]
    refine .of_level hstart (.of_level ?_ (here.goesDown ih))
    rw [hbodies]
    exact List.forall_mem_map.2 fun _ _ => ⟨rfl, rfl⟩

/-- The tokens of a text go down from its first line. -/
theorem goesDown_of_scan {source : String} (h : scan source = .ok tokens) : GoesDown 1 tokens :=
  (pageReads_of_lines h).goesDown

/-- Behind a line end nothing but frames stands on its line, and behind an indent something other
than a frame comes first. -/
def Steps : List Token → Prop
  | [] => True
  | t :: rest =>
    (t.lexeme.isNewline → ∀ u ∈ rest, u.lexeme.frames = false → t.span.line < u.span.line) ∧
    (t.lexeme = .indent → ∃ u ∈ rest.head?, u.lexeme.frames = false) ∧ Steps rest

/-- What comes behind a line end. -/
theorem Steps.line_lt {t : Token} (front : List Token) (h : Steps (front ++ t :: later))
    (hl : t.lexeme.isNewline) :
    ∀ u ∈ later, u.lexeme.frames = false → t.span.line < u.span.line := by
  induction front with
  | nil => exact h.1 hl
  | cons _ _ ih => exact ih h.2.2

theorem Steps.cons {t : Token} (hn : t.lexeme.isNewline = false) (hi : t.lexeme ≠ .indent)
    (h : Steps later) : Steps (t :: later) :=
  ⟨fun hl => absurd hl (by simp [hn]), fun hl => absurd hl hi, h⟩

theorem Steps.append (hf : ∀ t ∈ front, t.lexeme = .dedent ∨ t.lexeme = .endMarker ∨
    t.lexeme.isComment) (h : Steps later) : Steps (front ++ later) := by
  induction front with
  | nil => exact h
  | cons t front ih =>
    rw [List.forall_mem_cons] at hf
    refine .cons ?_ ?_ (ih hf.2)
    · obtain h | h | h := hf.1
      · rw [h]
        rfl
      · rw [h]
        rfl
      · exact Lexeme.isNewline_of_isComment h
    · intro hl
      simp [hl, Lexeme.isComment] at hf

/-- A line of code begins with something other than a frame. -/
theorem LineReads.head (h : LineReads home opened place cs line) :
    ∃ u ∈ line.tokens.head?, u.lexeme.frames = false := by
  induction h with
  | eof | ends | remark => exact ⟨_, rfl, rfl⟩
  | margin _ _ ih | join _ ih | wrap _ _ ih | hoist _ _ _ _ ih => exact ih
  | lexeme hm => exact ⟨_, rfl, Lexeme.frames_of_isCode (Lexeme.isCode_of_munch hm)⟩

theorem LineReads.steps (h : LineReads home opened place cs line)
    (hdown : GoesDown line.place.line later)
    (hlast : line.rest = [] → ∀ u ∈ later, u.lexeme.frames) (hlater : Steps later) :
    Steps (line.tokens ++ later) := by
  induction h with
  | eof => exact ⟨fun _ u hu hf => by simp [hlast rfl u hu] at hf, nofun, hlater⟩
  | ends => exact ⟨fun _ u hu _ => (hdown.le_line u hu).1, nofun, hlater⟩
  | margin _ _ ih | join _ ih | wrap _ _ ih | hoist _ _ _ _ ih => exact ih hdown hlast
  | remark _ _ _ ih => exact .cons rfl (by simp [commentOf]) (ih hdown hlast)
  | lexeme hm _ _ ih =>
    have hcode := Lexeme.isCode_of_munch hm
    refine .cons (Lexeme.isNewline_of_isCode hcode) ?_ (ih hdown hlast)
    rintro rfl
    cases hcode

theorem steps_of_lines (h : lines indents place cs = .ok tokens) : Steps tokens := by
  have hdedent {place : Place} {width : Nat} {indents : List Nat} :
      ∀ t ∈ (dedent place width indents).1, t.lexeme = .dedent := by
    intro t ht
    obtain ⟨_, -, rfl⟩ := List.mem_map.1 ht
    rfl
  induction indents, place, cs using lines.induct generalizing tokens with
  | case1 indents place cs hcs =>
    rw [lines_eq, hcs] at h
    cases h
    exact .append (fun t ht => .inl (hdedent t ht)) (.cons rfl (by simp) trivial)
  | case2 indents place cs =>
    rename_i hcs _ ih
    rw [lines_eq, hcs] at h
    exact ih h
  | case3 indents place cs _ _ body =>
    rename_i hd _ hcs _ _ ih
    rw [lines_eq, hcs] at h
    dsimp only at h
    rw [if_neg (by decide), if_pos rfl, hd] at h
    obtain ⟨later, hl, hr⟩ := bind_eq_ok h
    cases hr
    cases hd
    exact .append (fun t ht => .inl (hdedent t ht)) (.cons rfl (by simp) (ih hl))
  | case4 indents place cs =>
    rename_i hcs _ _ hn hh ih
    rw [lines_eq, hcs] at h
    dsimp only at h
    rw [if_neg hn, if_neg hh] at h
    obtain ⟨⟨front, inside⟩, hlayout, hr⟩ := bind_eq_ok h
    obtain ⟨line, hline, hr⟩ := bind_eq_ok hr
    obtain ⟨later, hlater, hr⟩ := bind_eq_ok hr
    cases hr
    have hreads := lineReads_of_codeLine hline
    obtain ⟨bodies, hbodies⟩ := hreads.hoisted_eq
    -- Nothing is left behind the last line of code but the ends of blocks and of the text.
    have hlast : line.rest = [] → ∀ u ∈ later, u.lexeme.frames := by
      intro hrest u hu
      rw [hrest, lines_nil] at hlater
      cases hlater
      rcases List.mem_append.1 hu with hu | hu
      · rw [hdedent u hu]
        rfl
      · rw [List.mem_singleton.1 hu]
        rfl
    have hcode : Steps (line.hoisted ++ (line.tokens ++ later)) := by
      refine .append (fun t ht => .inr (.inr ?_))
        (hreads.steps (pageReads_of_lines hlater).goesDown hlast (ih inside line hline hlater))
      rw [hbodies] at ht
      obtain ⟨body, -, rfl⟩ := List.mem_map.1 ht
      rfl
    rw [List.append_assoc, List.append_assoc]
    unfold layout at hlayout
    split at hlayout
    · cases hlayout
      refine ⟨fun hl => absurd hl (by simp [Lexeme.isNewline]), fun _ => ?_, hcode⟩
      show ∃ u ∈ (line.hoisted ++ (line.tokens ++ later)).head?, u.lexeme.frames = false
      -- An indent: what follows is a comment out of brackets or the first lexeme of the line.
      obtain ⟨u, hu, hf⟩ := hreads.head
      rw [hbodies]
      cases bodies with
      | nil => exact ⟨u, by simp [Option.mem_def.1 hu], hf⟩
      | cons body bodies => exact ⟨_, rfl, rfl⟩
    · dsimp only at hlayout
      split at hlayout
      · cases hlayout
        exact .append (fun t ht => .inl (hdedent t ht)) hcode
      · cases hlayout

end Token

end AsyncErasure
