import AsyncErasure.Proofs.Grammar.Position

namespace AsyncErasure

open Token

namespace Grammar

open Rule Cursor

variable {α : Type} {p : Rule α} {c c' : Cursor}

section Remarks

variable {a b : List Token} {cs ds : List Stmt} (c : Cursor)

/-- Comments that have been read: each of the statements is one of the tokens. -/
def Echoes (read : List Token) (cs : List Stmt) : Prop :=
  ∀ s ∈ cs, s.isCode = false ∧ ∃ t ∈ read, t.lexeme.isComment ∧ s.span = t.span

theorem Echoes.nil : Echoes a [] := fun _ hs => absurd hs List.not_mem_nil

theorem Echoes.mono (h : Echoes a cs) (hsub : a ⊆ b) : Echoes b cs :=
  fun s hs => (h s hs).imp_right fun ⟨t, ht, hc⟩ => ⟨t, hsub ht, hc⟩

theorem Echoes.append (h : Echoes a cs) (h' : Echoes b ds) : Echoes (a ++ b) (cs ++ ds) :=
  List.forall_mem_append.2
    ⟨h.mono (List.subset_append_left a b), h'.mono (List.subset_append_right a b)⟩

theorem commentIf_echoes (wanted : Bool → Bool) :
    Accounts (fun read o => Echoes read o.toList) (commentIf wanted) c := by
  refine .get ?_
  dsimp only
  split
  · rename_i text inline hl
    split
    · refine .advance (by simp [hl]) (.pure (List.forall_mem_singleton.2 ⟨rfl, c.next, ?_⟩))
      simp [hl, Lexeme.isComment, Stmt.span]
    · exact .pure .nil
  · exact .pure .nil

theorem inlineComment_echoes : Accounts Echoes inlineComment c :=
  (commentIf_echoes c id).bind fun o read c' _ h => .pure (by rwa [List.append_nil])

theorem comments_echoes : Accounts Echoes (many comment) c :=
  .many (commentIf_echoes · fun _ => true) .nil (fun _ _ => .nil)
    (fun _ _ _ _ h h' => Echoes.append h h') c

theorem commentsBefore_echoes (words : List Keyword) :
    Accounts Echoes (commentsBefore words) c := by
  refine .get ?_
  split
  · split
    · exact comments_echoes c
    · exact .pure .nil
  · exact .pure .nil

theorem decorator_echoes :
    Accounts (fun read o => Echoes read (o.elim [] Prod.snd)) decorator c := by
  refine .accept (by simp) (fun _ => ?_) fun _ => .pure .nil
  refine Accounts.bind (expr_forms .named _) fun value a c _ _ => ?_
  refine (inlineComment_echoes c).bind fun trailing b c _ ht => ?_
  refine Accounts.bind (newline_tells c) fun _ d c _ _ => ?_
  refine (comments_echoes c).bind fun comments e c _ hc => .pure ?_
  have hall := (ht.append (hc.mono (List.subset_append_right d e)))
  exact hall.mono fun t ht => by simp_all

theorem decorators_echoes :
    Accounts (fun read lines => Echoes read (lines.flatMap Prod.snd)) (many decorator) c := by
  refine .many decorator_echoes .nil (fun _ _ => .nil) (fun _ _ _ _ h h' => ?_) c
  rw [List.flatMap_cons]
  exact Echoes.append h h'

/-- A loop that gives nothing has ended in its first round. -/
theorem none_of_many {p : Rule (Option α)} {c' : Cursor} (h : many p c = .ok ([], c')) :
    p c = .ok (none, c') := by
  have hround : takeItems p (c.later.length + 1) c = .ok ([], c') := h
  obtain ⟨o, m, ho, hrest⟩ := eq_ok_of_bind hround
  cases o with
  | none =>
    cases hrest
    exact ho
  | some a =>
    obtain ⟨as, m', -, hdone⟩ := eq_ok_of_bind hrest
    cases hdone

/-- Where a decorator comes next, there is at least one. -/
theorem decorators_ne_nil {c c' : Cursor} {lines : List (Expr × List Stmt)}
    (hat : c.next.lexeme = .symbol .atSign) (h : many decorator c = .ok (lines, c')) :
    lines ≠ [] := by
  rintro rfl
  have hnone := none_of_many c h
  obtain ⟨seen, m, hseen, hrest⟩ := eq_ok_of_bind hnone
  rw [accept_apply, if_pos hat] at hseen
  cases hseen
  have hsome : Ensures (fun (o : Option (Expr × List Stmt)) _ => o ≠ none) (do
      let value ← expr .named
      let trailing ← inlineComment
      newline
      let comments ← many comment
      return some (value, trailing ++ comments)) :=
    .next fun _ => .next fun _ => .next fun _ => .next fun _ => .pure fun _ => by simp
  exact hsome _ _ _ hrest rfl

end Remarks

section Hollow

variable {self : Rule (List Stmt)} {c c' : Cursor}

theorem simpleLine_ne_nil : Ensures (fun ss _ => ss ≠ []) simpleLine :=
  .next fun _ => .next fun _ => .next fun _ => .next fun _ => .pure fun _ => by simp

theorem decorated_ne_nil : Ensures (fun ss _ => ss ≠ []) (decorated self) := by
  refine .next fun _ => .next fun lines => .next fun l => ?_
  dsimp only
  split <;> exact .next fun _ => .pure fun _ => by simp

theorem statement_ne_nil {ss : List Stmt} (h : statement self c = .ok (ss, c')) : ss ≠ [] := by
  have hone {p : Rule Stmt} : Ensures (fun ss _ => ss ≠ []) (List.singleton <$> p) := by
    rw [map_eq_pure_bind]
    exact .next fun _ => .pure fun _ => List.cons_ne_nil _ []
  cases hl : c.next.lexeme with
  | comment text inline =>
    simp [statement, comment, commentIf, hl] at h
    simp [← h.1]
  | _ =>
    obtain ⟨start, _, hplace, h⟩ := eq_ok_of_bind h
    cases hplace
    obtain ⟨l, _, hpeek, h⟩ := eq_ok_of_bind h
    cases hpeek
    refine (?_ : Ensures (fun ss _ => ss ≠ []) _) c ss c' h
    split
    · simp_all
    · exact .fail _
    · exact decorated_ne_nil
    iterate 8 exact hone
    · exact simpleLine_ne_nil

theorem eq_of_commentIf {wanted : Bool → Bool} (h : commentIf wanted c = .ok (none, c')) :
    c' = c := by
  cases hl : c.next.lexeme with
  | comment text inline =>
    cases hw : wanted inline <;> simp [commentIf, hl, hw] at h
    exact h.symm
  | _ =>
    simp [commentIf, hl] at h
    exact h.symm

theorem eq_of_inlineComment (h : inlineComment c = .ok ([], c')) : c' = c := by
  obtain ⟨o, m, ho, hdone⟩ := eq_ok_of_bind h
  cases o with
  | none =>
    cases hdone
    exact eq_of_commentIf ho
  | some s => cases hdone

theorem newline_cases (h : newline c = .ok ((), c')) :
    c.next.lexeme.isNewline ∧ c' = c.advance ∨
      c.next.lexeme = .endMarker ∧ c' = c := by
  cases hl : c.next.lexeme with
  | newline written =>
    simp [newline, hl] at h
    exact .inl ⟨rfl, h.symm⟩
  | endMarker =>
    simp [newline, hl] at h
    exact .inr ⟨rfl, h.symm⟩
  | _ => simp [newline, hl, Rule.fail] at h

theorem dedent_cases (h : discard (accept .dedent) c = .ok ((), c')) :
    c.next.lexeme = .dedent ∧ c' = c.advance ∨ c' = c := by
  have hdone : (Function.const Bool () <$> accept .dedent) c = .ok ((), c') := h
  rw [map_apply, accept_apply] at hdone
  by_cases hl : c.next.lexeme = .dedent
  · rw [if_pos hl] at hdone
    cases hdone
    exact .inl ⟨hl, rfl⟩
  · rw [if_neg hl] at hdone
    cases hdone
    exact .inr rfl

/-- Past tokens of layout alone, a cursor has reached nothing further. -/
theorem Cursor.Moves.reached_eq {read : List Token} (h : c.Moves read c')
    (hr : ∀ t ∈ read, t.lexeme.isLayout) : c'.reached = c.reached := by
  induction h with
  | stay => rfl
  | step hlater _ ih =>
    obtain ⟨hl, hr⟩ := List.forall_mem_cons.1 hr
    rw [ih hr, Ready.reached_advance hlater, if_pos hl]

theorem ne_endMarker_of_isNewline {l : Lexeme} (h : l.isNewline) : l ≠ .endMarker := by
  rintro rfl
  cases h

theorem isLayout_of_isNewline {l : Lexeme} (h : l.isNewline) : l.isLayout := by
  cases l <;> first | rfl | cases h

variable (hself : ∀ c, Accounts (fun _ ss => ss ≠ []) self c)
include hself

/-- A round that gives no statement has read a line end. -/
theorem unit_accounts (closed : Lexeme → Bool) (c : Cursor) : Accounts (fun read o =>
    (o = none → read = [] ∧ closed c.next.lexeme) ∧
      (o = some [] → ∃ t, read = [t] ∧ t.lexeme.isNewline))
    (unit self closed) c := by
  refine .peek ?_
  split
  · exact .pure ⟨fun _ => ⟨rfl, ‹_›⟩, nofun⟩
  · split
    · rename_i hl
      exact .advance (by simp [hl]) (.pure ⟨nofun, fun _ => ⟨c.next, rfl, by rw [hl]; rfl⟩⟩)
    · refine (hself c).bind fun ss read c' _ hne => .pure ⟨nofun, fun h => ?_⟩
      exact absurd (Option.some.inj h) hne

/-- Rounds that give no statements have read line ends. -/
theorem units_accounts (closed : Lexeme → Bool) (n : Nat) (c : Cursor) : Accounts (fun read units =>
    units.flatten = [] → ∀ t ∈ read, t.lexeme.isNewline)
    (takeItems (unit self closed) n) c := by
  have hround (c : Cursor) : Accounts (fun read o => (o = none → read = []) ∧
      (o = some [] → ∃ t, read = [t] ∧ t.lexeme.isNewline)) (unit self closed) c :=
    (unit_accounts hself closed c).mono fun _ _ h => ⟨fun ho => (h.1 ho).1, h.2⟩
  refine .takeItems hround (fun _ => nofun) (fun read h _ => ?_)
    (fun read more ss units h hunits hflat => ?_) n c
  · simp [h.1 rfl]
  · rw [List.flatten_cons, List.append_eq_nil_iff] at hflat
    obtain ⟨t, rfl, ht⟩ := h.2 (congrArg some hflat.1)
    exact List.forall_mem_cons.2 ⟨ht, hunits hflat.2⟩

/-- A block without statements that is not closed at once holds line ends. -/
theorem statementsUpTo_hollow {closed : Lexeme → Bool} (hs : c.Scanned)
    (hopen : closed c.next.lexeme = false) (h : statementsUpTo self closed c = .ok ([], c')) :
    ∃ t more, c.Moves (t :: more) c' ∧ ∀ u ∈ t :: more, u.lexeme.isNewline := by
  rw [statementsUpTo_eq, map_eq_pure_bind] at h
  obtain ⟨units, m, hunits, hdone⟩ := eq_ok_of_bind h
  obtain ⟨hflat, rfl⟩ := Prod.mk.inj (Except.ok.inj hdone)
  have hround : takeItems (unit self closed) (c.later.length + 1) c = .ok (units, m) := hunits
  obtain ⟨o, k, ho, hrest⟩ := eq_ok_of_bind hround
  obtain ⟨read, hm, hnone, hsome⟩ := unit_accounts hself closed c hs o k ho
  cases o with
  | none => exact absurd (hnone rfl).2 (by simp [hopen])
  | some ss =>
    obtain ⟨rest, k', hloop, hcons⟩ := eq_ok_of_bind hrest
    obtain ⟨rfl, rfl⟩ := Prod.mk.inj (Except.ok.inj hcons)
    rw [List.flatten_cons, List.append_eq_nil_iff] at hflat
    obtain ⟨t, rfl, ht⟩ := hsome (congrArg some hflat.1)
    obtain ⟨more, hm', hmore⟩ := units_accounts hself closed _ k (hs.rest hm) rest _ hloop
    exact ⟨t, more, hm.trans hm', List.forall_mem_cons.2 ⟨ht, hmore hflat.2⟩⟩

/-- An indented block without statements: a line end, and behind the indent another one. -/
theorem block_hollow (hs : c.Scanned) (hsteps : Steps c.tokens) (h : block self c = .ok ([], c')) :
    ∃ a i b more, c.Moves (a :: i :: b :: more) c' ∧
      a.lexeme.isNewline ∧ b.lexeme.isNewline ∧ ∀ t ∈ a :: i :: b :: more, t.lexeme.isLayout := by
  obtain ⟨ends, k, hends, h⟩ := eq_ok_of_bind h
  obtain ⟨ends', hlooks, -⟩ := atLineEnd_looks c
  obtain ⟨rfl, rfl⟩ := Prod.mk.inj (Except.ok.inj (hlooks.symm.trans hends))
  split at h
  case isFalse => exact absurd rfl (simpleLine_ne_nil _ _ _ h)
  obtain ⟨trailing, k, htrailing, h⟩ := eq_ok_of_bind h
  obtain ⟨_, l, hnewline, h⟩ := eq_ok_of_bind h
  obtain ⟨comments, m, hcomments, h⟩ := eq_ok_of_bind h
  obtain ⟨next, _, hpeek, h⟩ := eq_ok_of_bind h
  cases hpeek
  split at h
  case isFalse => cases h
  rename_i hindent
  have hindent := eq_of_beq hindent
  obtain ⟨_, _, hadvance, h⟩ := eq_ok_of_bind h
  cases hadvance
  obtain ⟨body, n, hbody, h⟩ := eq_ok_of_bind h
  obtain ⟨_, n', hdedent, h⟩ := eq_ok_of_bind h
  obtain ⟨hempty, rfl⟩ := Prod.mk.inj (Except.ok.inj h)
  simp only [List.append_eq_nil_iff] at hempty
  obtain ⟨⟨rfl, rfl⟩, rfl⟩ := hempty
  -- There are no comments, so the line end comes first and the indent behind it.
  obtain rfl := eq_of_inlineComment htrailing
  obtain rfl := eq_of_commentIf (none_of_many _ hcomments)
  obtain ⟨hl, rfl⟩ | ⟨hl, rfl⟩ := newline_cases hnewline
  case inr => simp [hl] at hindent
  have hlater := hs.later_ne_nil (ne_endMarker_of_isNewline hl)
  have hs' := hs.step hlater
  have hlater' := hs'.later_ne_nil (by simp [hindent])
  rw [tokens_advance hlater, tokens_advance hlater'] at hsteps
  obtain ⟨u, hu, hframes⟩ := hsteps.2.2.2.1 hindent
  obtain rfl : k.advance.advance.next = u := Option.some.inj hu
  have hopen : (k.advance.advance.next.lexeme == .dedent ||
      k.advance.advance.next.lexeme == .endMarker) = false := by
    cases hl : k.advance.advance.next.lexeme <;> first | rfl | (rw [hl] at hframes; cases hframes)
  obtain ⟨b, more, hm, hlines⟩ := statementsUpTo_hollow hself (hs'.step hlater')
    hopen hbody
  have hread : k.Moves (k.next :: k.advance.next :: b :: more) n :=
    .step hlater (.step hlater' hm)
  have hlayout : ∀ t ∈ k.next :: k.advance.next :: b :: more, t.lexeme.isLayout := by
    refine List.forall_mem_cons.2 ⟨isLayout_of_isNewline hl,
      List.forall_mem_cons.2 ⟨?_, fun t ht => ?_⟩⟩
    · rw [hindent]
      rfl
    · exact isLayout_of_isNewline (hlines t ht)
  have hb := hlines b (List.mem_cons_self ..)
  have hclosed := hs.rest hread
  obtain ⟨hclose, rfl⟩ | rfl := dedent_cases hdedent
  · refine ⟨k.next, k.advance.next, b, more ++ [n.next], ?_, hl, hb, ?_⟩
    · exact hread.trans (hclosed.moves_advance (by simp [hclose]))
    · simp only [← List.cons_append]
      refine List.forall_mem_append.2 ⟨hlayout, List.forall_mem_singleton.2 ?_⟩
      rw [hclose]
      rfl
  · exact ⟨_, _, b, more, hread, hl, hb, hlayout⟩

end Hollow

end Grammar

end AsyncErasure
