import AsyncErasure.Proofs.Grammar.Carry
import AsyncErasure.Proofs.Grammar.Conservation
import AsyncErasure.Proofs.Token.Order
import AsyncErasure.Proofs.Tree.Order

namespace AsyncErasure

def Lexeme.opensDefinition : Lexeme → Bool
  | keyword .def_ | keyword .class_ | keyword .async_ => true
  | _ => false

namespace Token

/-- How far the tokens of a text have come. -/
structure Stage where
  /-- A line may begin. -/
  fresh : Bool
  /-- A decorator waits for its definition. -/
  adorned : Bool

namespace Stage

def opening : Stage := ⟨true, false⟩

def within : Stage := ⟨false, false⟩

/-- A decorator opens a line with its sign, and what opens a line as a definition ends its wait. -/
def behind (s : Stage) (l : Lexeme) : Stage :=
  ⟨l.endsLine, (s.adorned || s.fresh && l == .symbol .atSign) && !(s.fresh && l.opensDefinition)⟩

@[simp] theorem behind_of_stale {adorned : Bool} (l : Lexeme) :
    (⟨false, adorned⟩ : Stage).behind l = ⟨l.endsLine, adorned⟩ := by
  simp [behind]

theorem behind_of_bare {fresh : Bool} {l : Lexeme} (hl : l ≠ .symbol .atSign) :
    (⟨fresh, false⟩ : Stage).behind l = ⟨l.endsLine, false⟩ := by
  simp [behind, hl]

end Stage

/-- No comment stands between a decorator and the definition that it decorates, be it behind the
decorator, on a line of its own or moved there out of the brackets of what comes next. -/
def bareDecorators (s : Stage) : List Token → Bool
  | [] => true
  | t :: rest => !(s.adorned && t.lexeme.isComment) && bareDecorators (s.behind t.lexeme) rest

variable {s : Stage} {fresh fresh' adorned : Bool} {l : Lexeme} {t : Token} {tokens : List Token}

@[simp] theorem bareDecorators_cons : bareDecorators s (t :: tokens) ↔
    (s.adorned → t.lexeme.isComment = false) ∧ bareDecorators (s.behind t.lexeme) tokens := by
  simp only [bareDecorators, Bool.and_eq_true, Bool.not_eq_true', Bool.and_eq_false_iff]
  cases s.adorned <;> simp

/-- Less is asked where no decorator waits and no line begins. -/
theorem bareDecorators_mono (h : bareDecorators ⟨fresh, adorned⟩ tokens) (hf : fresh' → fresh) :
    bareDecorators ⟨fresh', false⟩ tokens := by
  induction tokens generalizing fresh fresh' adorned with
  | nil => rfl
  | cons t tokens ih =>
    rw [bareDecorators_cons] at h ⊢
    refine ⟨nofun, ?_⟩
    have hrest := h.2
    unfold Stage.behind at hrest ⊢
    by_cases hat : fresh' ∧ t.lexeme = .symbol .atSign
    · obtain ⟨hfresh', hat⟩ := hat
      simpa [hfresh', hat, hf hfresh', Lexeme.opensDefinition] using hrest
    · have hnone : ((false || fresh' && t.lexeme == .symbol .atSign) &&
          !(fresh' && t.lexeme.opensDefinition)) = false := by
        simp only [Bool.false_or, Bool.and_eq_false_iff]
        simp only [not_and] at hat
        cases hb : fresh' <;> simp_all
      rw [hnone]
      exact ih hrest id

end Token

namespace Grammar

open Token Rule Cursor

namespace Cursor

/-- A cursor that has come to a line or below. What is left of the tokens goes down from there, and
the decorators in it are bare. -/
structure Ready (s : Stage) (lo : Nat) (c : Cursor) : Prop where
  scanned : c.Scanned
  low : lo ≤ c.reached.line
  down : GoesDown c.reached.line c.tokens
  bare : bareDecorators s c.tokens

variable {c c' : Cursor} {lo hi : Nat} {s : Stage} {fresh fresh' adorned : Bool} {read : List Token}

namespace Ready

theorem low_next (h : c.Ready s lo) : lo ≤ c.next.span.line := h.low.trans h.down.1

theorem mono (h : c.Ready ⟨fresh, adorned⟩ lo) (hf : fresh' → fresh) :
    c.Ready ⟨fresh', false⟩ lo :=
  { h with bare := bareDecorators_mono h.bare hf }

/-- Where a decorator waits, no comment comes next. -/
theorem isComment_eq (h : c.Ready ⟨fresh, true⟩ lo) : c.next.lexeme.isComment = false :=
  (bareDecorators_cons.1 h.bare).1 rfl

theorem reached_advance (h : c.later ≠ []) : c.advance.reached =
    if c.next.lexeme.isLayout then c.reached else c.next.span.stop := by
  obtain ⟨next, later, reached⟩ := c
  cases later with
  | nil => exact absurd rfl h
  | cons t ts => rfl

/-- In front of a decorator it makes no difference whether another one waits. -/
theorem adorn (h : c.Ready .opening lo) (hat : c.next.lexeme = .symbol .atSign) :
    c.Ready ⟨true, true⟩ lo := by
  refine { h with bare := ?_ }
  have hbare := h.bare
  rw [tokens, bareDecorators_cons, hat] at hbare ⊢
  exact ⟨fun _ => rfl, hbare.2⟩

/-- In front of its definition a decorator waits no more. -/
theorem release (h : c.Ready ⟨true, true⟩ lo) (hl : c.next.lexeme.opensDefinition) :
    c.Ready .within lo := by
  refine { h with bare := ?_ }
  have hbare := h.bare
  rw [tokens, bareDecorators_cons] at hbare ⊢
  have hbehind : Stage.behind ⟨true, true⟩ c.next.lexeme = ⟨c.next.lexeme.endsLine, false⟩ := by
    simp [Stage.behind, hl]
  rw [Stage.within, Stage.behind_of_stale]
  exact ⟨by simp, hbehind ▸ hbare.2⟩

/-- Past the next token. -/
theorem step (h : c.Ready s lo) (hlater : c.later ≠ []) :
    c.advance.Ready (s.behind c.next.lexeme) lo := by
  have htokens := tokens_advance hlater
  have hbare := h.bare
  obtain ⟨hbegin, hend, hdown⟩ := htokens ▸ h.down
  rw [htokens, bareDecorators_cons] at hbare
  have hreached := reached_advance hlater
  refine ⟨h.scanned.step hlater, ?_, ?_, hbare.2⟩
  · rw [hreached]
    split
    · exact h.low
    · exact h.low_next.trans hend
  · rw [hreached]
    split
    · exact hdown.mono (hbegin.trans hend)
    · exact hdown

/-- Past a token that lays out nothing, a cursor has come to the line where it ends. -/
theorem step_down (h : c.Ready s lo) (hlater : c.later ≠ []) (hl : c.next.lexeme.isLayout = false) :
    c.advance.Ready (s.behind c.next.lexeme) c.next.span.endLine := by
  refine { h.step hlater with low := ?_ }
  rw [reached_advance hlater, hl]
  exact Nat.le_refl _

theorem behind_code {l : Lexeme} (hl : l.isCode) :
    (⟨false, adorned⟩ : Stage).behind l = ⟨false, adorned⟩ := by
  rw [Stage.behind_of_stale]
  cases l <;> first | rfl | cases hl

/-- Past tokens of code in a line. -/
theorem moves (h : c.Ready ⟨false, adorned⟩ lo) (hm : c.Moves read c') (hr : Coded read) :
    c'.Ready ⟨false, adorned⟩ lo ∧ (read ≠ [] → c.next.span.line ≤ c'.reached.line) := by
  induction hm generalizing lo with
  | stay c => exact ⟨h, nofun⟩
  | @step c c' read hlater _ ih =>
    obtain ⟨hl, hr⟩ := coded_cons.1 hr
    have hdown := behind_code hl ▸ h.step_down hlater (Lexeme.isLayout_of_isCode hl)
    refine ⟨(ih (behind_code hl ▸ h.step hlater) hr).1, fun _ => ?_⟩
    exact h.down.2.1.trans (ih hdown hr).1.low

/-- What comes later stands no higher. -/
theorem line_le (h : c.Ready s lo) (hm : c.Moves read c') :
    c.next.span.line ≤ c'.next.span.line := by
  induction hm generalizing lo s with
  | stay c => exact Nat.le_refl _
  | @step c c' read hlater _ ih =>
    have hdown := h.down
    rw [tokens_advance hlater] at hdown
    exact (hdown.2.1.trans hdown.2.2.1).trans (ih (h.step hlater))

end Ready

end Cursor

variable {α β : Type} {p : Rule α} {f : α → Rule β} {c : Cursor} {lo : Nat}

/-- The rule comes from one stage of the tokens to another, and down to a line of which, with its
result, the relation holds. -/
abbrev Lays (lo : Nat) (before after : Stage) (K : Nat → α → Prop) (p : Rule α)
    (c : Cursor) : Prop :=
  Carries Ready before after lo K p c

namespace Lays

variable {before after s : Stage} {fresh adorned : Bool} {J : Nat → α → Prop} {K : Nat → β → Prop}

/-- A rule of a line, at the beginning of the line too. -/
theorem inLine (h : Lays lo .within after J p c) : Lays lo ⟨fresh, false⟩ after J p c :=
  fun hs => h (hs.mono nofun)

/-- First a rule that reads code. -/
theorem past {must : Bool} {P : α → Prop} (hp : Obtains must P p c)
    (hf : ∀ a c', Lays lo ⟨false, adorned⟩ after K (f a) c') :
    Lays lo ⟨false, adorned⟩ after K (p >>= f) c := by
  intro hs b c' hc
  obtain ⟨a, m, ha, hb⟩ := eq_ok_of_bind hc
  obtain ⟨read, hm, -, hcode, -⟩ := hp hs.scanned a m ha
  exact hf a m (hs.moves hm hcode).1 b c' hb

/-- First a rule that reads code that begins at a line. -/
theorem opens {P : α → Prop} {start : Place} (hlo : lo ≤ start.line)
    (hstart : start.line ≤ c.next.span.line) (hp : Obtains true P p c)
    (hf : ∀ a c', Lays start.line .within after K (f a) c') :
    Lays lo .within after K (p >>= f) c := by
  intro hs b c' hc
  obtain ⟨a, m, ha, hb⟩ := eq_ok_of_bind hc
  obtain ⟨read, hm, hne, hcode, -⟩ := hp hs.scanned a m ha
  obtain ⟨hready, hreached⟩ := hs.moves hm hcode
  obtain ⟨hi, hhi, hdone⟩ :=
    hf a m { hready with low := hstart.trans (hreached (hne rfl)) } b c' hb
  exact ⟨hi, hlo.trans hhi, hdone⟩

/-- Where the cursor is ready, what comes next is no higher. -/
theorem below (h : lo ≤ c.next.span.line → Lays lo before after J p c) :
    Lays lo before after J p c := fun hs => h hs.low_next hs

/-- At a place that is no higher than what comes next. -/
theorem starting {f : Place → Rule β} (h : ∀ start : Place, lo ≤ start.line →
    start.line ≤ c.next.span.line → Lays lo before after K (f start) c) :
    Lays lo before after K (Rule.place >>= f) c :=
  .place fun start hstart => below fun hlo => h start (hstart ▸ hlo) (hstart ▸ Nat.le_refl _)

theorem spanned {start : Place} {make : Span → β}
    (h : ∀ stop : Place, lo ≤ stop.line → K stop.line (make ⟨start, stop⟩)) :
    Lays lo s s K (spanFrom start >>= fun span => Pure.pure (make span)) c := by
  intro hs b c' hc
  cases hc
  exact ⟨c.reached.line, hs.low, { hs with low := Nat.le_refl _ }, h c.reached hs.low⟩

/-- Past the next token. -/
theorem advance {f : Unit → Rule β} (hne : c.next.lexeme ≠ .endMarker)
    (h : Lays lo (before.behind c.next.lexeme) after K (f ()) c.advance) :
    Lays lo before after K (Rule.advance >>= f) c :=
  fun hs b c' hc => h (hs.step (hs.scanned.later_ne_nil hne)) b c' hc

theorem accept {l : Lexeme} {f : Bool → Rule β} (hl : l ≠ .endMarker)
    (hyes : c.next.lexeme = l → Lays lo (before.behind l) after K (f true) c.advance)
    (hno : c.next.lexeme ≠ l → Lays lo before after K (f false) c) :
    Lays lo before after K (Rule.accept l >>= f) c := by
  by_cases heq : c.next.lexeme = l
  · intro hs b c' hc
    rw [bind_apply, accept_apply, if_pos heq] at hc
    exact advance (f := fun _ => f true) (heq ▸ hl) (heq.symm ▸ hyes heq) hs b c' hc
  · intro hs b c' hc
    rw [bind_apply, accept_apply, if_neg heq] at hc
    exact hno heq hs b c' hc

end Lays

section Simple

variable {fresh adorned : Bool}

theorem commentIf_lays (wanted : Bool → Bool) (lo : Nat) (c : Cursor) :
    Lays lo ⟨fresh, false⟩ ⟨fresh, false⟩ (fun hi o => Laid lo hi o.toList)
      (commentIf wanted) c := by
  refine .get ?_
  dsimp only
  split
  · rename_i text inline hl
    split
    · intro hs o c' hc
      cases hc
      have hlater := hs.scanned.later_ne_nil (by simp [hl])
      have hdown := hs.step_down hlater (by rw [hl]; rfl)
      rw [hl, Stage.behind_of_bare (by simp)] at hdown
      refine ⟨c.next.span.endLine, hs.low_next.trans hs.down.2.1, hdown.mono fun _ => rfl, ?_⟩
      exact .single (s := .comment c.next.span text inline) rfl hs.low_next (Laid.nil.2 hs.down.2.1)
    · exact .pure .empty
  · exact .pure .empty

theorem inlineComment_lays (lo : Nat) (c : Cursor) :
    Lays lo ⟨fresh, false⟩ ⟨fresh, false⟩ (Laid lo) inlineComment c :=
  (commentIf_lays id lo c).next fun _ _ _ h => .pure h

theorem comments_lays (lo : Nat) (c : Cursor) :
    Lays lo ⟨fresh, false⟩ ⟨fresh, false⟩ (Laid lo) (many comment) c := by
  refine (Carries.manyBlocks Laid (fun _ => .empty) .append (fun s => [s]) (fun lo c => ?_)
    lo c).weaken fun hi ss h => by simpa using h
  refine (commentIf_lays (fun _ => true) lo c).weaken fun hi o h => ?_
  cases o <;> exact h

theorem commentsBefore_lays (words : List Keyword) (lo : Nat) (c : Cursor) :
    Lays lo ⟨fresh, false⟩ ⟨fresh, false⟩ (Laid lo) (commentsBefore words) c := by
  refine .get ?_
  split
  · split
    · exact comments_lays lo c
    · exact .pure .empty
  · exact .pure .empty

/-- Where a decorator waits, there is no comment to lay. -/
theorem commentIf_bare (wanted : Bool → Bool) (lo : Nat) (c : Cursor) :
    Lays lo ⟨fresh, true⟩ ⟨fresh, true⟩ (fun hi o => hi = lo ∧ o = none) (commentIf wanted) c := by
  intro hs
  refine Carries.get ?_ hs
  dsimp only
  split
  · rename_i hl
    have hnone := hs.isComment_eq
    rw [hl] at hnone
    cases hnone
  · exact .pure ⟨rfl, rfl⟩

theorem inlineComment_bare (lo : Nat) (c : Cursor) :
    Lays lo ⟨fresh, true⟩ ⟨fresh, true⟩ (fun hi ss => hi = lo ∧ ss = []) inlineComment c :=
  (commentIf_bare id lo c).next fun _ _ _ ⟨hhi, ho⟩ => .pure ⟨hhi, by rw [ho]; rfl⟩

theorem comments_bare (lo : Nat) (c : Cursor) :
    Lays lo ⟨fresh, true⟩ ⟨fresh, true⟩ (fun hi ss => hi = lo ∧ ss = []) (many comment) c := by
  refine Carries.many (L := fun lo hi ss => hi = lo ∧ ss = []) (commentIf_bare fun _ => true)
    (fun _ => ⟨rfl, rfl⟩) (fun _ _ h => ⟨h.1, rfl⟩) (fun _ _ _ _ _ h => nomatch h.2) lo c

theorem newline_lays (c : Cursor) :
    Lays lo ⟨false, adorned⟩ ⟨true, adorned⟩ (fun hi _ => hi = lo) newline c := by
  refine .peek ?_
  split
  · rename_i hl
    refine bind_pure Rule.advance ▸ Lays.advance (by simp [hl]) ?_
    rw [hl, Stage.behind_of_stale]
    exact .pure rfl
  · rename_i hl
    intro hs a c' hc
    cases hc
    refine ⟨lo, Nat.le_refl lo, { hs with bare := ?_ }, rfl⟩
    rw [tokens, hs.scanned.later_eq_nil hl, bareDecorators_cons, hl]
    exact ⟨fun _ => rfl, rfl⟩
  · exact .fail _

theorem dedent_lays (c : Cursor) :
    Lays lo .opening .opening (fun hi _ => hi = lo) (accept .dedent) c :=
  bind_pure (accept .dedent) ▸ Lays.accept (by simp) (fun _ => .pure rfl) fun _ => .pure rfl

theorem simpleStatement_lays (lo : Nat) (c : Cursor) :
    Lays lo .within .within (fun hi s => Laid lo hi [s]) simpleStatement c := by
  intro hs s c' hc
  obtain ⟨read, hm, hne, hcode, -⟩ := simpleStatement_obtains c hs.scanned s c' hc
  obtain ⟨hready, hreached⟩ := hs.moves hm hcode
  obtain ⟨hsimple, hspan⟩ := spans_simpleStatement hc
  refine ⟨c'.reached.line, hready.low, { hready with low := Nat.le_refl _ },
    .single hspan hs.low_next ?_⟩
  have hchildren : s.children = [] := by cases s <;> first | rfl | cases hsimple
  exact hchildren ▸ Laid.nil.2 (hreached (hne rfl))

theorem simpleLine_lays (lo : Nat) (c : Cursor) :
    Lays lo .within .opening (Laid lo) simpleLine c := by
  refine (simpleStatement_lays lo c).next fun first m c hfirst => ?_
  refine Carries.next (Carries.manyBlocks Laid (fun _ => .empty) .append (fun s => [s])
    (fun lo c => ?_) m c) fun rest n c hrest => ?_
  · refine Lays.accept (by simp) (fun _ => .look (atLineEnd_looks _) fun ends => ?_) fun _ =>
      .pure .empty
    split
    · exact .pure .empty
    · exact (simpleStatement_lays lo _).next fun _ _ _ h => .pure h
  refine (inlineComment_lays n c).next fun trailing _ c ht => .silent (newline_lays c) fun _ c => ?_
  exact .pure (by simpa using (hfirst.append hrest).append ht)

end Simple

section Compound

variable {self : Rule (List Stmt)} (hself : ∀ lo c, Lays lo .opening .opening (Laid lo) self c)
  {start : Place} (lo : Nat) (c : Cursor)
include hself

theorem statementsUpTo_lays (closed : Lexeme → Bool) :
    Lays lo .opening .opening (Laid lo) (statementsUpTo self closed) c := by
  rw [statementsUpTo_eq]
  refine Carries.map (Carries.manyBlocks Laid (fun _ => .empty) .append id (fun lo c => ?_) lo c)
    fun hi units h => by simpa using h
  refine .peek ?_
  split
  · exact .pure .empty
  · split
    · rename_i hl
      refine Lays.advance (by simp [hl]) ?_
      rw [hl]
      exact .pure .empty
    · exact (hself lo c).next fun ss hi c h => .pure h

theorem block_lays : Lays lo .within .opening (Laid lo) (block self) c := by
  refine .look (atLineEnd_looks c) fun ends => ?_
  split
  · refine (inlineComment_lays lo c).next fun trailing m c ht => .silent (newline_lays c)
      fun _ c => ?_
    refine (comments_lays m c).next fun comments n c hc => .peek ?_
    split
    · rename_i hindent
      refine Lays.advance (by simp [eq_of_beq hindent]) ?_
      rw [eq_of_beq hindent]
      refine (statementsUpTo_lays hself n _ _).next fun body k c hb => ?_
      refine .silent ((dedent_lays c).map fun _ _ h => h) fun _ c => ?_
      exact .pure ((ht.append hc).append hb)
    · exact .fail _
  · exact simpleLine_lays lo c

theorem colonBlock_lays : Lays lo .within .opening (Laid lo) (colonBlock self) c :=
  Lays.past (.expected rfl) fun _ c => block_lays hself lo c

theorem blockBefore_lays (words : List Keyword) :
    Lays lo .within .opening (Laid lo) (blockBefore self words) c := by
  refine (colonBlock_lays hself lo c).next fun body m c hb => ?_
  exact (commentsBefore_lays words m c).next fun cs hi c hc => .pure (hb.append hc)

theorem clauseBlock_lays (word : Keyword) :
    Lays lo .opening .opening (Laid lo) (clauseBlock self word) c := by
  refine Carries.next (J := fun hi o => Laid lo hi (o.getD [])) ?_ fun o hi c h => .pure h
  refine Lays.accept (by simp) (fun _ => ?_) fun _ => .pure .empty
  rw [Stage.opening, Stage.behind_of_bare (by simp)]
  exact (colonBlock_lays hself lo _).next fun body hi c h => .pure h

theorem functionDef_lays {start : Place} (hlo : lo ≤ start.line)
    (hstart : start.line ≤ c.next.span.line) (mode : Mode) (decorators : List Expr) :
    Lays lo .within .opening (fun hi s => Laid lo hi [s])
      (functionDef self start mode decorators) c := by
  refine Lays.opens hlo hstart (.expected rfl) fun _ c => ?_
  refine Lays.past .identifier fun name c => ?_
  refine Lays.past (.expected rfl) fun _ c => ?_
  refine Lays.past (parameters_forms expr_forms c _ true) fun params c => ?_
  refine Lays.past (.expected rfl) fun _ c => ?_
  refine Lays.past (.after rfl fun c => expr_forms .test c) fun returns c => ?_
  refine (colonBlock_lays hself _ c).next fun body hi c hb => Lays.spanned fun stop hstop => ?_
  exact .single rfl hlo (hb.upTo hstop)

theorem classDef_lays {start : Place} (hlo : lo ≤ start.line)
    (hstart : start.line ≤ c.next.span.line) (decorators : List Expr) :
    Lays lo .within .opening (fun hi s => Laid lo hi [s]) (classDef self start decorators) c := by
  refine Lays.opens hlo hstart (.expected rfl) fun _ c => ?_
  refine Lays.past .identifier fun name c => ?_
  have hbody (bases : List Expr) (keywords : List Argument) (c : Cursor) :
      Lays start.line .within .opening (fun hi s => Laid lo hi [s]) (do
        let body ← colonBlock self
        return .classDef (← spanFrom start) name bases keywords decorators body) c := by
    refine (colonBlock_lays hself _ c).next fun body hi c hb => Lays.spanned fun stop hstop => ?_
    exact .single rfl hlo (hb.upTo hstop)
  refine Lays.accept (by simp) (fun _ => ?_) fun _ => hbody [] [] c
  refine Lays.past (callArguments_forms expr_forms _) fun args c => ?_
  exact Lays.past (.expected rfl) fun _ c => hbody args.1 args.2 c

/-- A block and the alternative behind it. -/
theorem branch_lays (n : Nat) (hl : c.next.lexeme.isCode) :
    Lays lo .within .opening (fun hi s => Laid lo hi [s]) (branch self n) c := by
  induction n generalizing lo c with
  | zero => exact .fail _
  | succ n ih =>
    refine Lays.starting fun start hlo hstart => ?_
    refine Lays.opens hlo hstart (.advanced hl) fun _ c => ?_
    refine Lays.past (expr_forms .named c) fun test c => ?_
    refine (blockBefore_lays hself _ c _).next fun body m c hb => .sees ?_
    have hdone {hi : Nat} {orelse : List Stmt} (ho : Laid m hi orelse) (stop : Place)
        (hstop : hi ≤ stop.line) : Laid lo stop.line [.branch ⟨start, stop⟩ test body orelse] :=
      .single rfl hlo ((hb.append ho).upTo hstop)
    split
    · rename_i helif
      have hnext := ih m c (by rw [eq_of_beq helif]; rfl)
      exact (hnext.inLine.map (K := Laid m) fun _ _ h => h).next fun orelse hi c ho =>
        Lays.spanned (hdone ho)
    · exact (clauseBlock_lays hself m c _).next fun orelse hi c ho => Lays.spanned (hdone ho)

theorem whileLoop_lays {start : Place} (hlo : lo ≤ start.line)
    (hstart : start.line ≤ c.next.span.line) :
    Lays lo .within .opening (fun hi s => Laid lo hi [s]) (whileLoop self start) c := by
  refine Lays.opens hlo hstart (.expected rfl) fun _ c => ?_
  refine Lays.past (expr_forms .named c) fun test c => ?_
  refine (blockBefore_lays hself _ c _).next fun body m c hb => ?_
  refine (clauseBlock_lays hself m c _).next fun orelse hi c ho => ?_
  refine Lays.spanned fun stop hstop => ?_
  exact .single rfl hlo ((hb.append ho).upTo hstop)

theorem forLoop_lays {start : Place} (hlo : lo ≤ start.line)
    (hstart : start.line ≤ c.next.span.line) (mode : Mode) :
    Lays lo .within .opening (fun hi s => Laid lo hi [s]) (forLoop self start mode) c := by
  refine Lays.opens hlo hstart (.expected rfl) fun _ c => ?_
  refine Lays.past (targetList_forms expr_forms c) fun target c => ?_
  refine Lays.past (.expected rfl) fun _ c => ?_
  refine Lays.past (expr_forms .tuple c) fun iter c => ?_
  refine (blockBefore_lays hself _ c _).next fun body m c hb => ?_
  refine (clauseBlock_lays hself m c _).next fun orelse hi c ho => ?_
  refine Lays.spanned fun stop hstop => ?_
  exact .single rfl hlo ((hb.append ho).upTo hstop)

theorem withBlock_lays {start : Place} (hlo : lo ≤ start.line)
    (hstart : start.line ≤ c.next.span.line) (mode : Mode) :
    Lays lo .within .opening (fun hi s => Laid lo hi [s]) (withBlock self start mode) c := by
  refine Lays.opens hlo hstart (.expected rfl) fun _ c => ?_
  refine Lays.past (withItems_obtains c) fun items c => ?_
  refine (colonBlock_lays hself _ c).next fun body hi c hb => Lays.spanned fun stop hstop => ?_
  exact .single rfl hlo (hb.upTo hstop)

theorem handler_lays :
    Lays lo .within .opening (fun hi h => Laid lo hi h.2.body) (handler self) c := by
  have hbody (star : Bool) (type : Option Expr) (name : Option String) (c : Cursor) :
      Lays lo .within .opening (fun hi (h : Bool × Handler) => Laid lo hi h.2.body) (do
        let body ← blockBefore self [.except_, .else_, .finally_]
        return (star, ⟨type, name, body⟩)) c :=
    (blockBefore_lays hself lo c _).next fun body hi c hb => .pure hb
  refine Lays.past (.expected rfl) fun _ c => Lays.past (.accepted rfl) fun star c => .sees ?_
  dsimp only
  split
  · exact hbody star none none c
  · refine Lays.past (expr_forms .test c) fun type c => ?_
    exact Lays.past (.after rfl fun c => .identifier) fun name c => hbody star (some type) name c

theorem tryBlock_lays {start : Place} (hlo : lo ≤ start.line)
    (hstart : start.line ≤ c.next.span.line) :
    Lays lo .within .opening (fun hi s => Laid lo hi [s]) (tryBlock self start) c := by
  refine Lays.opens hlo hstart (.expected rfl) fun _ c => ?_
  refine (blockBefore_lays hself _ c _).next fun body la c hb => ?_
  refine Carries.next (Carries.manyBlocks Laid (fun _ => .empty) .append (fun h => h.2.body)
    (fun lo c => .sees ?_) la c) fun handlers lb c hh => ?_
  · split
    · exact (handler_lays hself lo c).inLine.next fun h hi c hk => .pure hk
    · exact .pure .empty
  refine (clauseBlock_lays hself lb c _).next fun orelse lc c ho => ?_
  refine (commentsBefore_lays _ lc c).next fun cs ld c hc => ?_
  refine (clauseBlock_lays hself ld c _).next fun final hi c hl => ?_
  dsimp only
  split
  · exact .fail _
  · refine Lays.spanned fun stop hstop => .single rfl hlo ?_
    have hstmts := Guarded.append_stmts ⟨body, handlers.map Prod.snd, orelse⟩ cs
    have hall := ((((hb.append hh).append ho).append hc).append hl).upTo hstop
    rw [Stmt.children, ← List.append_assoc _ _ final, ← List.append_assoc _ _ final]
    refine Eq.subst (motive := fun ss => Laid start.line stop.line (ss ++ final)) hstmts.symm ?_
    simpa [Guarded.stmts, List.flatMap_map] using hall

theorem asyncStatement_lays {start : Place} (hlo : lo ≤ start.line)
    (hstart : start.line ≤ c.next.span.line) (decorators : List Expr) :
    Lays lo .within .opening (fun hi s => Laid lo hi [s])
      (asyncStatement self start decorators) c := by
  refine Lays.opens hlo hstart (.expected rfl) fun _ c => Lays.below fun hstart => .peek ?_
  have hone {p : Rule Stmt} (hp : Lays start.line .within .opening
      (fun hi s => Laid start.line hi [s]) p c) :
      Lays start.line .within .opening (fun hi s => Laid lo hi [s]) p c :=
    hp.weaken fun hi s h => h.downFrom hlo
  have hle := Nat.le_refl start.line
  split
  · exact hone (functionDef_lays hself _ c hle hstart .async decorators)
  · split
    · exact hone (forLoop_lays hself _ c hle hstart .async)
    · exact .fail _
  · split
    · exact hone (withBlock_lays hself _ c hle hstart .async)
    · exact .fail _
  · exact .fail _

omit hself in
/-- A decorator line without comments, which moves nothing. -/
theorem decorator_bare : Lays lo ⟨true, true⟩ ⟨true, true⟩
    (fun hi o => hi = lo ∧ o.elim [] Prod.snd = []) decorator c := by
  refine Lays.accept (by simp) (fun _ => ?_) fun _ => .pure ⟨rfl, rfl⟩
  show Lays lo ⟨false, true⟩ _ _ _ _
  refine Lays.past (expr_forms .named _) fun value c => ?_
  refine (inlineComment_bare lo c).next fun trailing m c ⟨hm, ht⟩ => .silent (newline_lays c)
    fun _ c => ?_
  refine (comments_bare m c).next fun comments n c ⟨hn, hc⟩ => .pure ⟨hn.trans hm, ?_⟩
  rw [ht, hc]
  rfl

omit hself in
theorem decorators_bare : Lays lo ⟨true, true⟩ ⟨true, true⟩
    (fun hi lines => hi = lo ∧ lines.flatMap Prod.snd = []) (many decorator) c := by
  refine Carries.many (L := fun lo hi lines => hi = lo ∧ lines.flatMap Prod.snd = []) decorator_bare
    (fun _ => ⟨rfl, rfl⟩) (fun _ _ h => ⟨h.1, rfl⟩) (fun lo m hi line lines hline hlines => ?_) lo c
  rw [List.flatMap_cons]
  exact ⟨hlines.1.trans hline.1, by rw [hlines.2, List.append_nil]; exact hline.2⟩

theorem decorated_lays (hat : c.next.lexeme = .symbol .atSign) :
    Lays lo .opening .opening (Laid lo) (decorated self) c := by
  intro hs ss c' hc
  obtain ⟨start, _, hplace, hc⟩ := eq_ok_of_bind hc
  cases hplace
  obtain ⟨lines, m, hlines, hc⟩ := eq_ok_of_bind hc
  obtain ⟨hi, -, hm, hhi, hnone⟩ := decorators_bare lo c (hs.adorn hat) lines m hlines
  rw [hhi] at hm
  -- The definition comes below the first decorator, where its span begins.
  obtain ⟨read, hmoves, -⟩ := Tells.many Prod.snd decorator_tells c hs.scanned lines m hlines
  have hstart := hs.line_le hmoves
  have hdone {p : Rule Stmt} (hl : m.next.lexeme.opensDefinition)
      (hp : Lays lo .within .opening (fun hi s => Laid lo hi [s]) p m) :
      Lays lo ⟨true, true⟩ .opening (Laid lo) (do
        let definition ← p
        return lines.flatMap Prod.snd ++ [definition]) m :=
    fun hs => hp.next (fun s hi c h => .pure (by rwa [hnone])) (hs.release hl)
  refine (?_ : Lays lo ⟨true, true⟩ .opening (Laid lo) _ m) hm ss c' hc
  refine .peek ?_
  split
  · rename_i hl
    exact hdone (by rw [hl]; rfl) (functionDef_lays hself lo m hs.low_next hstart .sync _)
  · rename_i hl
    exact hdone (by rw [hl]; rfl) (classDef_lays hself lo m hs.low_next hstart _)
  · rename_i hl
    exact hdone (by rw [hl]; rfl) (asyncStatement_lays hself lo m hs.low_next hstart _)
  · exact .fail _

theorem statement_lays : Lays lo .opening .opening (Laid lo) (statement self) c := by
  have hone {p : Rule Stmt} (hp : Lays lo .within .opening (fun hi s => Laid lo hi [s]) p c) :
      Lays lo .opening .opening (Laid lo) (List.singleton <$> p) c := hp.inLine.map fun _ _ h => h
  refine Lays.starting fun start hlo hstart => .peek ?_
  split
  · exact (commentIf_lays _ lo c).next fun o hi c h => .pure h
  · exact .fail _
  · rename_i hl
    exact decorated_lays hself lo c hl
  · exact hone (functionDef_lays hself lo c hlo hstart .sync [])
  · exact hone (classDef_lays hself lo c hlo hstart [])
  · rename_i hl
    exact hone ((branch_lays hself lo c c.size (by rw [hl]; rfl)).congr rfl)
  · exact hone (whileLoop_lays hself lo c hlo hstart)
  · exact hone (forLoop_lays hself lo c hlo hstart .sync)
  · exact hone (tryBlock_lays hself lo c hlo hstart)
  · exact hone (withBlock_lays hself lo c hlo hstart .sync)
  · exact hone (asyncStatement_lays hself lo c hlo hstart [])
  · exact (simpleLine_lays lo c).inLine

end Compound

theorem parseStatements_lays (depth : Nat) (lo : Nat) (c : Cursor) :
    Lays lo .opening .opening (Laid lo) (parseStatements depth) c := by
  induction depth generalizing lo c with
  | zero => exact .fail _
  | succ depth ih => exact statement_lays ih lo c

end Grammar
end AsyncErasure
