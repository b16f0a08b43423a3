import AsyncErasure.Proofs.Token.Tiling

namespace AsyncErasure

def Place.below (n : Nat) (p : Place) : Place := ⟨p.line + n, p.col⟩

def Span.below (n : Nat) (s : Span) : Span := ⟨s.start.below n, s.stop.below n⟩

def Token.below (n : Nat) (t : Token) : Token := ⟨t.lexeme, t.span.below n⟩

namespace Place

variable (n : Nat) (p : Place)

theorem shift_below (k : Nat) : (p.below n).shift k = (p.shift k).below n := rfl

theorem lineStart_below : (p.below n).lineStart = p.lineStart.below n := rfl

theorem nextLine_below : (p.below n).nextLine = p.nextLine.below n := by
  simp [below, nextLine, Nat.add_right_comm]

theorem through_below (cs : List Char) : (p.below n).through cs = (p.through cs).below n := by
  induction cs generalizing p with
  | nil => rfl
  | cons c cs ih =>
    have hafter : (p.below n).after c = (p.after c).below n := by
      unfold after
      split
      · exact nextLine_below n p
      · exact shift_below n p 1
    rw [through_cons, through_cons, hafter, ih]

end Place

namespace Token

variable {n : Nat} {home place : Place} {opened inside : List Opened} {indents : List Nat}
  {cs : List Char} {line : CodeLine} {start tokens : List Token} {kept : List Nat}

def openedBelow (n : Nat) (opened : List Opened) : List Opened :=
  opened.map fun (b, p) => (b, p.below n)

def CodeLine.below (n : Nat) (l : CodeLine) : CodeLine :=
  ⟨l.hoisted.map (Token.below n), l.tokens.map (Token.below n), l.place.below n, l.rest⟩

theorem nest_below {l : Lexeme} (h : nest place opened l = .ok inside) :
    nest (place.below n) (openedBelow n opened) l = .ok (openedBelow n inside) := by
  unfold nest at h ⊢
  split at h
  · cases h
    rfl
  · split at h
    · cases h
    · split at h
      · cases h
        simp [openedBelow, *]
      · cases h
  · cases h
    rfl

/-- A line of code is read the same way some lines below. -/
theorem codeLine_below (h : codeLine home opened place cs = .ok line) :
    codeLine (home.below n) (openedBelow n opened) (place.below n) cs = .ok (line.below n) := by
  have hempty (opened : List Opened) : (openedBelow n opened).isEmpty = opened.isEmpty := by
    cases opened <;> rfl
  -- One case per branch of the scanner; only places differ, and every test is on characters.
  fun_induction codeLine home opened place cs generalizing line with
  | case1 => cases h
  | case2 opened place hopened =>
    cases h
    rw [List.getLast?_eq_none_iff.1 hopened, codeLine]
    rfl
  | case3 opened place c cs hc ih =>
    rw [codeLine.eq_def]
    dsimp only
    rw [if_pos hc, Place.shift_below]
    exact ih h
  | case4 opened place cs =>
    rename_i ih
    obtain ⟨l, hl, hr⟩ := bind_eq_ok h
    have hrest : codeLine (home.below n) (openedBelow n opened)
        ((place.below n).shift ((restOfLine cs).length + 1)) (afterLine cs) =
        .ok (l.below n) := ih hl
    rw [codeLine.eq_def]
    dsimp only
    rw [if_neg (by decide), if_pos rfl, hrest]
    simp only [bind, Except.bind, hempty]
    split at hr
    · cases hr
      rw [if_pos ‹_›]
      rfl
    · cases hr
      rw [if_neg ‹_›]
      rfl
  | case5 opened place cs =>
    rename_i ih
    rw [codeLine.eq_def]
    dsimp only
    rw [if_neg (by decide), if_neg (by decide), if_pos rfl, Place.nextLine_below]
    exact ih h
  | case6 => cases h
  | case7 opened place cs hopen =>
    cases h
    rw [codeLine.eq_def]
    dsimp only
    rw [if_neg (by decide), if_neg (by decide), if_neg (by decide), if_pos rfl, hempty,
      if_pos hopen, Place.nextLine_below]
    rfl
  | case8 opened place cs hopen _ _ _ ih =>
    rw [codeLine.eq_def]
    dsimp only
    rw [if_neg (by decide), if_neg (by decide), if_neg (by decide), if_pos rfl, hempty,
      if_neg hopen, Place.nextLine_below]
    exact ih h
  | case9 => cases h
  | case10 opened place c cs hc hhash hjoin hend lexeme k hm ih =>
    obtain ⟨inside, hn, hr⟩ := bind_eq_ok h
    obtain ⟨l, hl, hr⟩ := bind_eq_ok hr
    cases hr
    have hrest := ih inside hl
    rw [← Place.through_below] at hrest
    rw [codeLine.eq_def]
    dsimp only
    rw [if_neg hc, if_neg hhash, if_neg hjoin, if_neg hend, hm]
    simp only [nest_below hn, bind, Except.bind, hrest, pure, Except.pure]
    simp [CodeLine.below, CodeLine.cons, Token.below, Span.below, Place.through_below]

theorem dedent_below (width : Nat) : dedent (place.below n) width indents =
    ((dedent place width indents).1.map (Token.below n), (dedent place width indents).2) := by
  simp [dedent, Token.below, Span.below, Place.lineStart_below]

theorem layout_below {width : Nat} (h : layout place width indents = .ok (start, kept)) :
    layout (place.below n) width indents = .ok (start.map (Token.below n), kept) := by
  unfold layout at h ⊢
  split at h
  · cases h
    rw [if_pos ‹_›]
    rfl
  · dsimp only at h ⊢
    rw [if_neg ‹_›, dedent_below]
    split at h
    · cases h
      rw [if_pos ‹_›]
    · cases h

/-- The tokens of a text that starts some lines below are those of the text, as many lines below. -/
theorem lines_below (h : lines indents place cs = .ok tokens) :
    lines indents (place.below n) cs = .ok (tokens.map (Token.below n)) := by
  induction indents, place, cs using lines.induct generalizing tokens with
  | case1 indents place cs hcs =>
    rw [lines_eq, hcs] at h ⊢
    cases h
    simp [Place.shift_below, dedent_below, Token.below, Span.below, Place.lineStart_below]
  | case2 indents place cs =>
    rename_i hcs _ ih
    rw [lines_eq, hcs] at h ⊢
    dsimp only at h ⊢
    rw [if_pos rfl] at h ⊢
    rw [Place.shift_below, Place.nextLine_below]
    exact ih h
  | case3 indents place cs _ _ body =>
    rename_i hd _ hcs _ _ ih
    rw [lines_eq, hcs] at h ⊢
    dsimp only at h ⊢
    rw [if_neg (by decide), if_pos rfl] at h ⊢
    obtain ⟨later, hl, hr⟩ := bind_eq_ok h
    cases hr
    cases hd
    rw [Place.shift_below, Place.shift_below, dedent_below]
    dsimp only
    rw [show lines (dedent _ _ indents).2 (Place.below n _) (afterLine body) = _ from ih hl]
    simp [Except.bind, Except.pure, bind, pure, Token.below, Span.below, Place.below, Place.shift]
  | case4 indents place cs =>
    rename_i hcs _ _ hn hh ih
    rw [lines_eq, hcs] at h ⊢
    dsimp only at h ⊢
    rw [if_neg hn, if_neg hh] at h ⊢
    obtain ⟨⟨start, inside⟩, hlayout, hr⟩ := bind_eq_ok h
    obtain ⟨line, hline, hr⟩ := bind_eq_ok hr
    obtain ⟨later, hlater, hr⟩ := bind_eq_ok hr
    cases hr
    have hhere : codeLine _ (openedBelow n []) _ _ = _ := codeLine_below hline
    rw [Place.shift_below, layout_below hlayout]
    simp only [bind, Except.bind]
    rw [show codeLine _ [] _ _ = _ from hhere]
    dsimp only
    rw [show lines inside (line.below n).place (line.below n).rest =
      _ from ih inside line hline hlater]
    simp [Except.pure, pure, CodeLine.below]

/-- What is left behind a line of code starts where the line stops. -/
theorem LineReads.through_rest (h : LineReads home opened place cs line) :
    line.place.through line.rest = place.through cs := by
  obtain ⟨tiles, hcovers, hplace⟩ := exists_covers_of_lineReads h
  rw [hplace, ← Place.through_append, hcovers.spells]

/-- The last token of a text marks its end. -/
theorem PageReads.endMarker (h : PageReads indents place cs tokens) :
    [⟨.endMarker, ⟨(place.through cs).lineStart, place.through cs⟩⟩] <:+ tokens := by
  induction h with
  | eof hm =>
    rw [through_margin _ hm]
    exact List.suffix_append ..
  | gap hm _ ih =>
    rw [Place.through_append, through_margin _ hm, Place.through_cons]
    exact ih
  | comment width hm hbody _ _ ih =>
    rw [Place.through_append, through_margin _ hm, ← List.cons_append, Place.through_append,
      through_comment _ hbody]
    exact ih.trans ((List.suffix_cons ..).trans (List.suffix_append ..))
  | code hm _ here _ ih =>
    rw [Place.through_append, through_margin _ hm, ← here.through_rest]
    exact ih.trans (List.suffix_append ..)

end Token

end AsyncErasure
