import AsyncErasure.Proofs.Grammar.Balance
import AsyncErasure.Proofs.Grammar.Hollow
import AsyncErasure.Proofs.Tree.Spread

namespace AsyncErasure

open Token

namespace Grammar

open Rule Cursor

variable {tokens : List Token} {opened mid inside : List Bracket} {lo hi : Nat}

namespace Cursor

/-- A cursor on the tokens. Those behind it leave the given brackets open, and nothing among them
fills a line below `lo`. -/
structure Past (tokens : List Token) (opened : List Bracket) (lo : Nat) (c : Cursor) : Prop where
  scanned : c.Scanned
  steps : Steps c.tokens
  down : GoesDown c.reached.line c.tokens
  low : lo ≤ c.reached.line
  passed : ∃ front, tokens = front ++ c.tokens ∧ balance [] (front.map lexeme) = some opened ∧
    ∀ t ∈ front, t.lexeme.fills → t.span.endLine ≤ lo

variable {c c' : Cursor} {read : List Token}

namespace Past

/-- The lines in front of a cursor are skipped. -/
theorem skips (h : c.Past tokens [] lo) :
    ∀ n, lo < n → n < c.next.span.line → Skips tokens n := by
  obtain ⟨front, htokens, hflat, hend⟩ := h.passed
  intro n hlo hn
  refine ⟨front, c.tokens, htokens, hflat, fun t ht hf => (hend t ht hf).trans_lt hlo, ?_⟩
  exact List.forall_mem_cons.2 ⟨fun _ => hn, fun t ht _ =>
    (hn.trans_le h.down.2.1).trans_le (h.down.2.2.le_line t ht).1⟩

theorem raise (h : c.Past tokens opened lo) : c.Past tokens opened c.reached.line := by
  obtain ⟨front, htokens, hopen, hend⟩ := h.passed
  exact { h with
    low := Nat.le_refl _
    passed := ⟨front, htokens, hopen, fun t ht hf => (hend t ht hf).trans h.low⟩ }

/-- Past the next token. -/
theorem step (h : c.Past tokens opened lo) (hlater : c.later ≠ [])
    (hn : c.next.lexeme.nesting opened = some inside) (hle : lo ≤ hi)
    (hhi : hi ≤ c.advance.reached.line) (hfills : c.next.lexeme.fills → c.next.span.endLine ≤ hi) :
    c.advance.Past tokens inside hi := by
  have htokens := tokens_advance hlater
  obtain ⟨front, hsplit, hopen, hend⟩ := h.passed
  refine ⟨h.scanned.step hlater, (htokens ▸ h.steps).2.2, ?_, hhi, front ++ [c.next], ?_, ?_, ?_⟩
  · have hdown := htokens ▸ h.down
    rw [Ready.reached_advance hlater]
    split
    · exact hdown.2.2.mono (hdown.1.trans hdown.2.1)
    · exact hdown.2.2
  · rw [hsplit, htokens, List.append_assoc, List.singleton_append]
  · rw [List.map_append, balance_append, hopen, Option.bind_some, List.map_singleton,
      balance_cons, hn]
    rfl
  · exact List.forall_mem_append.2
      ⟨fun t ht hf => (hend t ht hf).trans hle, List.forall_mem_singleton.2 hfills⟩

/-- A token that fills no line leaves a cursor where it has come to. -/
theorem step_quiet (h : c.Past tokens opened lo) (hlater : c.later ≠ [])
    (hl : c.next.lexeme.fills = false) : c.advance.Past tokens opened lo := by
  refine h.step hlater (Lexeme.nesting_of_isFlat (Lexeme.isFlat_of_not_fills hl) opened)
    (Nat.le_refl lo)
    ?_ fun hf => ?_
  · rw [Ready.reached_advance hlater]
    split
    · exact h.low
    · exact (h.low.trans h.down.1).trans h.down.2.1
  · rw [hl] at hf
    cases hf

/-- Past a token that lays out nothing, a cursor has come to the line where it ends. -/
theorem step_down (h : c.Past tokens opened lo) (hlater : c.later ≠ [])
    (hl : c.next.lexeme.isLayout = false) (hn : c.next.lexeme.nesting opened = some inside) :
    c.advance.Past tokens inside c.next.span.endLine := by
  refine h.step hlater hn ((h.low.trans h.down.1).trans h.down.2.1) ?_ fun _ => Nat.le_refl _
  rw [Ready.reached_advance hlater, hl]
  exact Nat.le_refl _

/-- Past tokens of code. -/
theorem moves (h : c.Past tokens opened lo) (hm : c.Moves read c') (hr : Coded read)
    (hn : balance opened (read.map lexeme) = some inside) :
    c'.Past tokens inside c'.reached.line ∧ lo ≤ c'.reached.line := by
  induction hm generalizing lo opened with
  | stay c =>
    obtain rfl := Option.some.inj hn
    exact ⟨h.raise, h.low⟩
  | @step c c' read hlater _ ih =>
    obtain ⟨hl, hr⟩ := coded_cons.1 hr
    rw [List.map_cons, balance_cons] at hn
    obtain ⟨mid, hmid, hn⟩ := Option.bind_eq_some_iff.1 hn
    obtain ⟨hpast, hle⟩ := ih (h.step_down hlater (Lexeme.isLayout_of_isCode hl) hmid) hr hn
    exact ⟨hpast, ((h.low.trans h.down.1).trans h.down.2.1).trans hle⟩

/-- What has been read stands no higher than where it begins. -/
theorem line_le (h : c.Past tokens opened lo) (hm : c.Moves read c') :
    ∀ t ∈ read, c.next.span.line ≤ t.span.line ∧ t.span.line ≤ t.span.endLine := by
  have hdown : GoesDown c.next.span.line c.tokens := ⟨Nat.le_refl _, h.down.2⟩
  exact fun t ht => hdown.le_line t (hm.tokens_eq ▸ List.mem_append_left _ ht)

/-- What has been read fills no lines below those that the cursor has come past. -/
theorem endLine_le (h : c.Past tokens opened lo) (hm : c.Moves read c')
    (h' : c'.Past tokens inside hi) : ∀ t ∈ read, t.lexeme.fills → t.span.endLine ≤ hi := by
  obtain ⟨front, htokens, -⟩ := h.passed
  obtain ⟨front', htokens', -, hend⟩ := h'.passed
  rw [hm.tokens_eq, ← List.append_assoc] at htokens
  obtain rfl := List.append_cancel_right (htokens.symm.trans htokens')
  exact fun t ht => hend t (List.mem_append_right _ ht)

end Past

end Cursor

variable {α β : Type} {p : Rule α} {f : α → Rule β} {c c' : Cursor}

/-- Past what a rule reads if it reads code. -/
theorem Cursor.Past.moved {must : Bool} {P : α → Prop} {a : α} (h : c.Past tokens opened lo)
    (hp : Obtains must P p c) (hn : Nests opened inside p c) (ha : p c = .ok (a, c')) :
    c'.Past tokens inside c'.reached.line ∧ lo ≤ c'.reached.line := by
  obtain ⟨read, hm, -, hcode, -⟩ := hp h.scanned a c' ha
  obtain ⟨read', hm', hopen⟩ := hn h.scanned a c' ha
  obtain rfl : read = read' := List.append_cancel_right (hm.tokens_eq.symm.trans hm'.tokens_eq)
  exact h.moves hm hcode hopen

abbrev Spreads (tokens : List Token) (opened inside : List Bracket) (lo : Nat) (K : Nat → α → Prop)
    (p : Rule α) (c : Cursor) : Prop :=
  Carries (Past tokens) opened inside lo K p c

namespace Spreads

variable {K : Nat → β → Prop}

/-- First a rule that reads code. -/
theorem past {must : Bool} {P : α → Prop} (hp : Obtains must P p c) (hn : Nests opened mid p c)
    (hf : ∀ a m c', Spreads tokens mid inside m K (f a) c') :
    Spreads tokens opened inside lo K (p >>= f) c := by
  intro hs b c' hc
  obtain ⟨a, m, ha, hb⟩ := eq_ok_of_bind hc
  obtain ⟨hpast, hlo⟩ := hs.moved hp hn ha
  obtain ⟨hi, hhi, hpast, hb⟩ := hf a _ m hpast b c' hb
  exact ⟨hi, hlo.trans hhi, hpast, hb⟩

/-- The lines in front of the cursor are skipped. -/
theorem skipping {J : Nat → α → Prop}
    (h : (∀ n, lo < n → n < c.next.span.line → Skips tokens n) →
      Spreads tokens [] inside lo J p c) :
    Spreads tokens [] inside lo J p c := fun hs => h hs.skips hs

theorem spanned {start : Place} {make : Span → β}
    (h : ∀ stop : Place, K stop.line (make ⟨start, stop⟩)) :
    Spreads tokens opened opened lo K (spanFrom start >>= fun span => Pure.pure (make span)) c := by
  intro hs b c' hc
  cases hc
  exact ⟨c.reached.line, hs.low, hs.raise, h c.reached⟩

/-- Past a token that fills no line. -/
theorem advance {f : Unit → Rule β} (hne : c.next.lexeme ≠ .endMarker)
    (hl : c.next.lexeme.fills = false) (h : Spreads tokens opened inside lo K (f ()) c.advance) :
    Spreads tokens opened inside lo K (Rule.advance >>= f) c :=
  fun hs b c' hc => h (hs.step_quiet (hs.scanned.later_ne_nil hne) hl) b c' hc

theorem accept {l : Lexeme} {f : Bool → Rule β} (hne : l ≠ .endMarker) (hl : l.fills = false)
    (hyes : Spreads tokens opened inside lo K (f true) c.advance)
    (hno : Spreads tokens opened inside lo K (f false) c) :
    Spreads tokens opened inside lo K (Rule.accept l >>= f) c := by
  intro hs b c' hc
  rw [bind_apply, accept_apply] at hc
  by_cases heq : c.next.lexeme = l
  · rw [if_pos heq] at hc
    exact hyes (hs.step_quiet (hs.scanned.later_ne_nil (heq ▸ hne)) (heq ▸ hl)) b c' hc
  · rw [if_neg heq] at hc
    exact hno hs b c' hc

/-- Past code that may come next. -/
theorem take {l : Lexeme} {f : Bool → Rule β} (hl : l.isCode) (hn : l.nesting opened = some mid)
    (hyes : ∀ m, Spreads tokens mid inside m K (f true) c.advance)
    (hno : Spreads tokens opened inside lo K (f false) c) :
    Spreads tokens opened inside lo K (Rule.accept l >>= f) c := by
  intro hs b c' hc
  rw [bind_apply, accept_apply] at hc
  by_cases heq : c.next.lexeme = l
  · rw [if_pos heq] at hc
    have hlater := hs.scanned.later_ne_nil (heq ▸ ne_endMarker_of_isCode hl)
    have hpast := hs.step_down hlater (heq ▸ Lexeme.isLayout_of_isCode hl) (heq ▸ hn)
    obtain ⟨hi, hhi, hpast, hb⟩ := hyes _ hpast b c' hc
    exact ⟨hi, ((hs.low.trans hs.down.1).trans hs.down.2.1).trans hhi, hpast, hb⟩
  · rw [if_neg heq] at hc
    exact hno hs b c' hc

end Spreads

section Simple

variable (lo : Nat) (c : Cursor)

theorem commentIf_spreads (wanted : Bool → Bool) :
    Spreads tokens [] [] lo (fun hi o => Spread tokens lo hi o.toList) (commentIf wanted) c := by
  refine .get ?_
  dsimp only
  split
  · rename_i text inline hl
    split
    · intro hs o c' hc
      cases hc
      have hlater := hs.scanned.later_ne_nil (by simp [hl])
      refine ⟨c.next.span.endLine, (hs.low.trans hs.down.1).trans hs.down.2.1,
        hs.step_down hlater (by rw [hl]; rfl) (by rw [hl]; rfl), ?_⟩
      exact Spread.single (s := .comment c.next.span text inline) hs.skips nofun
    · exact .pure .empty
  · exact .pure .empty

theorem inlineComment_spreads : Spreads tokens [] [] lo (Spread tokens lo) inlineComment c :=
  (commentIf_spreads lo c id).next fun _ _ _ h => .pure h

theorem comments_spreads : Spreads tokens [] [] lo (Spread tokens lo) (many comment) c := by
  refine (Carries.manyBlocks (Spread tokens) (fun _ => .empty) .append (fun s => [s])
    (fun lo c => ?_) lo c).weaken fun hi ss h => by simpa using h
  refine (commentIf_spreads lo c fun _ => true).weaken fun hi o h => ?_
  cases o <;> exact h

theorem commentsBefore_spreads (words : List Keyword) :
    Spreads tokens [] [] lo (Spread tokens lo) (commentsBefore words) c := by
  refine .get ?_
  split
  · split
    · exact comments_spreads lo c
    · exact .pure .empty
  · exact .pure .empty

theorem newline_spreads : Spreads tokens [] [] lo (fun hi _ => hi = lo) newline c := by
  refine .peek ?_
  split
  · rename_i hl
    exact bind_pure Rule.advance ▸ Spreads.advance (by simp [hl]) (by rw [hl]; rfl) (.pure rfl)
  · exact .pure rfl
  · exact .fail _

theorem dedent_spreads :
    Spreads tokens [] [] lo (fun hi _ => hi = lo) (accept .dedent) c :=
  bind_pure (accept .dedent) ▸ Spreads.accept (by simp) rfl (.pure rfl) (.pure rfl)

theorem simpleStatement_spreads :
    Spreads tokens [] [] lo (fun hi s => Spread tokens lo hi [s]) simpleStatement c := by
  intro hs s c' hc
  obtain ⟨hpast, hlo⟩ := hs.moved (simpleStatement_obtains c) (simpleStatement_nests c) hc
  obtain ⟨hsimple, hspan⟩ := spans_simpleStatement hc
  have hblocks : s.blocks = [] := by cases s <;> first | rfl | cases hsimple
  have hreaches : s.Reaches tokens c.next.span.line c'.reached.line :=
    ⟨by rw [hspan]; rfl, by rw [hspan]; rfl, by rw [hblocks]; exact nofun⟩
  exact ⟨c'.reached.line, hlo, hpast, hreaches.spread hs.skips⟩

theorem simpleLine_spreads : Spreads tokens [] [] lo (Spread tokens lo) simpleLine c := by
  refine (simpleStatement_spreads lo c).next fun first m c hfirst => ?_
  refine Carries.next (Carries.manyBlocks (Spread tokens) (fun _ => .empty) .append (fun s => [s])
    (fun lo c => ?_) m c) fun rest n c hrest => ?_
  · refine Spreads.accept (by simp) rfl (.look (atLineEnd_looks _) fun ends => ?_) (.pure .empty)
    split
    · exact .pure .empty
    · exact (simpleStatement_spreads lo _).next fun _ _ _ h => .pure h
  refine (inlineComment_spreads n c).next fun trailing m c ht => ?_
  refine (newline_spreads m c).next fun _ _ c hm => .pure ?_
  rw [hm]
  simpa using (hfirst.append hrest).append ht

end Simple

def Guarded.last (g : Guarded) : List Stmt :=
  if g.orelse.isEmpty then (g.handlers.getLast?.map Handler.body).getD g.body else g.orelse

def Guarded.blocks (g : Guarded) : List (List Stmt) :=
  g.body :: (g.handlers.map Handler.body ++ [g.orelse])

theorem Guarded.mem_blocks_append {g : Guarded} {cs body : List Stmt}
    (h : body ∈ (g.append cs).blocks) : body ∈ g.blocks ∨ body = g.last ++ cs := by
  unfold Guarded.append Guarded.blocks at h
  unfold Guarded.last Guarded.blocks
  split at h
  · rename_i hempty
    rw [if_pos hempty]
    split at h
    · rename_i handler hlast
      obtain ⟨front, hfront⟩ := List.getLast?_eq_some_iff.1 hlast
      simp [hfront] at h ⊢
      grind
    · rename_i hlast
      simp [hlast] at h ⊢
      grind
  · rename_i hempty
    simp [hempty] at h ⊢
    grind

/-- What comes behind an alternative without statements stands further down than the next line. -/
theorem clauseBlock_hollow {self : Rule (List Stmt)}
    (hfull : ∀ c, Accounts (fun _ ss => ss ≠ []) self c) {word : Keyword} (hs : c.Past tokens [] lo)
    (h : clauseBlock self word c = .ok ([], c')) :
    c' = c ∨ ∀ t ∈ c'.tokens, t.lexeme.frames = false → c'.reached.line + 1 < t.span.line := by
  obtain ⟨o, m, ho, hdone⟩ := eq_ok_of_bind h
  obtain ⟨hnone, rfl⟩ := Prod.mk.inj (Except.ok.inj hdone)
  rw [after_apply] at ho
  split at ho
  case isFalse =>
    cases ho
    exact .inl rfl
  rename_i hword
  split at ho
  case h_2 => cases ho
  rename_i body m' hbody
  cases ho
  obtain rfl : body = [] := hnone
  obtain ⟨_, k, hcolon, hblock⟩ := eq_ok_of_bind hbody
  have hlater := hs.scanned.later_ne_nil (by simp [hword])
  have hs : c.advance.Past tokens [] c.next.span.endLine :=
    hs.step_down hlater (by rw [hword]; rfl) (by rw [hword]; rfl)
  obtain ⟨hs, -⟩ := hs.moved (.expected rfl) (.expected rfl) hcolon
  obtain ⟨a, i, b, more, hread, ha, hb, hlayout⟩ :=
    block_hollow hfull hs.scanned hs.steps hblock
  have hsteps := hread.tokens_eq ▸ hs.steps
  have hdown := hread.tokens_eq ▸ hs.down
  refine .inr fun t ht hframes => ?_
  rw [Cursor.Moves.reached_eq hread hlayout]
  have hab := hsteps.line_lt [] ha b (by simp) (Lexeme.frames_of_isNewline hb)
  have hbt := hsteps.line_lt [a, i] hb t (by simp [ht]) hframes
  have := hdown.1
  omega

section Compound

variable {self : Rule (List Stmt)}
  (hself : ∀ lo c, Spreads tokens [] [] lo (Spread tokens lo) self c) {start : Place} (lo : Nat)
  (c : Cursor)
include hself

theorem statementsUpTo_spreads (closed : Lexeme → Bool) :
    Spreads tokens [] [] lo (Spread tokens lo) (statementsUpTo self closed) c := by
  rw [statementsUpTo_eq]
  refine Carries.map (Carries.manyBlocks (Spread tokens) (fun _ => .empty) .append id
    (fun lo c => ?_) lo c) fun hi units h => by simpa using h
  refine .peek ?_
  split
  · exact .pure .empty
  · split
    · rename_i hl
      exact Spreads.advance (by simp [hl]) (by rw [hl]; rfl) (.pure .empty)
    · exact (hself lo c).next fun ss hi c h => .pure h

theorem block_spreads : Spreads tokens [] [] lo (Spread tokens lo) (block self) c := by
  refine .look (atLineEnd_looks c) fun ends => ?_
  split
  · refine (inlineComment_spreads lo c).next fun trailing m c ht => ?_
    refine .silent (newline_spreads m c) fun _ c => ?_
    refine (comments_spreads m c).next fun comments n c hc => .peek ?_
    split
    · rename_i hindent
      refine Spreads.advance (by simp [eq_of_beq hindent]) (by rw [eq_of_beq hindent]; rfl) ?_
      refine (statementsUpTo_spreads hself n _ _).next fun body k c hb => ?_
      refine .silent ((dedent_spreads k c).map fun _ _ h => h) fun _ c => ?_
      exact .pure ((ht.append hc).append hb)
    · exact .fail _
  · exact simpleLine_spreads lo c

theorem colonBlock_spreads : Spreads tokens [] [] lo (SpreadTo tokens) (colonBlock self) c :=
  Spreads.past (.expected rfl) (.expected rfl) fun _ m c =>
    (block_spreads hself m c).weaken fun _ _ h => h.to

theorem blockBefore_spreads (words : List Keyword) :
    Spreads tokens [] [] lo (SpreadTo tokens) (blockBefore self words) c := by
  refine (colonBlock_spreads hself lo c).next fun body m c hb => ?_
  exact (commentsBefore_spreads m c words).next fun cs hi c hc => .pure (hb.append hc)

theorem clauseBlock_spreads (word : Keyword) :
    Spreads tokens [] [] lo (SpreadTo tokens) (clauseBlock self word) c := by
  refine Carries.next (J := fun hi o => SpreadTo tokens hi (o.getD [])) ?_ fun o hi c h => .pure h
  refine Spreads.take rfl rfl (fun m => ?_) (.pure Spread.empty.to)
  exact (colonBlock_spreads hself m _).next fun body hi c h => .pure h

theorem functionDef_spreads (mode : Mode) (decorators : List Expr) :
    Spreads tokens [] [] lo
      (fun hi s => s.Reaches tokens start.line hi ∧ (!decorators.isEmpty → s.isDecorated))
      (functionDef self start mode decorators) c := by
  refine Spreads.past (.expected rfl) (.expected rfl) fun _ _ c => ?_
  refine Spreads.past .identifier .identifier fun name _ c => ?_
  refine Spreads.past (.expected rfl) .opens fun _ _ c => ?_
  refine Spreads.past (parameters_forms expr_forms c _ true) (parameters_nests expr_nests c _ true)
    fun params _ c => ?_
  refine Spreads.past (.expected rfl) .closes fun _ _ c => ?_
  refine Spreads.past (.after rfl fun c => expr_forms .test c)
    (.after rfl fun c => expr_nests _ .test c) fun returns _ c => ?_
  refine (colonBlock_spreads hself _ c).next fun body hi c hb => ?_
  refine Spreads.spanned fun stop => ⟨?_, id⟩
  exact ⟨rfl, rfl, List.forall_mem_singleton.2 hb.isSpread⟩

theorem classDef_spreads (decorators : List Expr) :
    Spreads tokens [] [] lo
      (fun hi s => s.Reaches tokens start.line hi ∧ (!decorators.isEmpty → s.isDecorated))
      (classDef self start decorators) c := by
  refine Spreads.past (.expected rfl) (.expected rfl) fun _ _ c => ?_
  refine Spreads.past .identifier .identifier fun name lo c => ?_
  have hbody (bases : List Expr) (keywords : List Argument) (lo : Nat) (c : Cursor) :
      Spreads tokens [] [] lo
        (fun hi (s : Stmt) => s.Reaches tokens start.line hi ∧
          (!decorators.isEmpty → s.isDecorated)) (do
          let body ← colonBlock self
          return .classDef (← spanFrom start) name bases keywords decorators body) c := by
    refine (colonBlock_spreads hself _ c).next fun body hi c hb => ?_
    refine Spreads.spanned fun stop => ⟨?_, id⟩
    exact ⟨rfl, rfl, List.forall_mem_singleton.2 hb.isSpread⟩
  refine Spreads.take rfl rfl (fun m => ?_) (hbody [] [] lo c)
  refine Spreads.past (callArguments_forms expr_forms _) (callArguments_nests expr_nests _)
    fun args _ c => ?_
  exact Spreads.past (.expected rfl) .closes fun _ lo c => hbody args.1 args.2 lo c

/-- A block and the alternative behind it. -/
theorem branch_spreads (n : Nat) (hl : ∃ word, c.next.lexeme = .keyword word) :
    Spreads tokens [] [] lo (fun hi s => s.Reaches tokens c.next.span.line hi)
      (branch self n) c := by
  induction n generalizing lo c with
  | zero => exact .fail _
  | succ n ih =>
    obtain ⟨word, hl⟩ := hl
    refine .place fun start hstart => ?_
    refine Spreads.past (.advanced (by rw [hl]; rfl)) (.advanced (by rw [hl]; rfl)) fun _ _ c' => ?_
    refine Spreads.past (expr_forms .named c') (expr_nests _ .named c') fun test lo c' => ?_
    refine (blockBefore_spreads hself lo c' _).next fun body m c' hb => .sees ?_
    have hdone {orelse : List Stmt} (ho : IsSpread tokens orelse) (stop : Place) :
        (Stmt.branch ⟨start, stop⟩ test body orelse).Reaches tokens c.next.span.line stop.line :=
      ⟨congrArg Place.line hstart.symm, rfl, by simpa [Stmt.blocks] using ⟨hb.isSpread, ho⟩⟩
    split
    · rename_i helif
      refine Spreads.skipping fun hskips => ?_
      have hnext := (ih m c' ⟨_, eq_of_beq helif⟩).map (g := List.singleton)
        (K := fun _ ss => IsSpread tokens ss) fun _ _ h => (h.spread hskips).to.isSpread
      exact hnext.next fun orelse hi c ho => Spreads.spanned (hdone ho)
    · exact (clauseBlock_spreads hself m c' _).next fun orelse hi c ho =>
        Spreads.spanned (hdone ho.isSpread)

theorem whileLoop_spreads :
    Spreads tokens [] [] lo (fun hi s => s.Reaches tokens start.line hi)
      (whileLoop self start) c := by
  refine Spreads.past (.expected rfl) (.expected rfl) fun _ _ c => ?_
  refine Spreads.past (expr_forms .named c) (expr_nests _ .named c) fun test _ c => ?_
  refine (blockBefore_spreads hself _ c _).next fun body m c hb => ?_
  refine (clauseBlock_spreads hself m c _).next fun orelse hi c ho => Spreads.spanned fun stop => ?_
  exact ⟨rfl, rfl, by simpa [Stmt.blocks] using ⟨hb.isSpread, ho.isSpread⟩⟩

theorem forLoop_spreads (mode : Mode) :
    Spreads tokens [] [] lo (fun hi s => s.Reaches tokens start.line hi)
      (forLoop self start mode) c := by
  refine Spreads.past (.expected rfl) (.expected rfl) fun _ _ c => ?_
  refine Spreads.past (targetList_forms expr_forms c) (targetList_nests expr_nests c)
    fun target _ c => ?_
  refine Spreads.past (.expected rfl) (.expected rfl) fun _ _ c => ?_
  refine Spreads.past (expr_forms .tuple c) (expr_nests _ .tuple c) fun iter _ c => ?_
  refine (blockBefore_spreads hself _ c _).next fun body m c hb => ?_
  refine (clauseBlock_spreads hself m c _).next fun orelse hi c ho => Spreads.spanned fun stop => ?_
  exact ⟨rfl, rfl, by simpa [Stmt.blocks] using ⟨hb.isSpread, ho.isSpread⟩⟩

theorem withBlock_spreads (mode : Mode) :
    Spreads tokens [] [] lo (fun hi s => s.Reaches tokens start.line hi)
      (withBlock self start mode) c := by
  refine Spreads.past (.expected rfl) (.expected rfl) fun _ _ c => ?_
  refine Spreads.past (withItems_obtains c) (withItems_nests c) fun items _ c => ?_
  refine (colonBlock_spreads hself _ c).next fun body hi c hb => Spreads.spanned fun stop => ?_
  exact ⟨rfl, rfl, List.forall_mem_singleton.2 hb.isSpread⟩

theorem handler_spreads :
    Spreads tokens [] [] lo (fun hi h => SpreadTo tokens hi h.2.body) (handler self) c := by
  have hbody (star : Bool) (type : Option Expr) (name : Option String) (lo : Nat) (c : Cursor) :
      Spreads tokens [] [] lo (fun hi (h : Bool × Handler) => SpreadTo tokens hi h.2.body) (do
        let body ← blockBefore self [.except_, .else_, .finally_]
        return (star, ⟨type, name, body⟩)) c :=
    (blockBefore_spreads hself lo c _).next fun body hi c hb => .pure hb
  refine Spreads.past (.expected rfl) (.expected rfl) fun _ _ c => ?_
  refine Spreads.past (.accepted rfl) (.accepted rfl) fun star lo c => .sees ?_
  dsimp only
  split
  · exact hbody star none none lo c
  · refine Spreads.past (expr_forms .test c) (expr_nests _ .test c) fun type _ c => ?_
    exact Spreads.past (.after rfl fun c => .identifier) (.after rfl fun c => .identifier)
      fun name lo c => hbody star (some type) name lo c

section Final

variable (hfull : ∀ c, Accounts (fun _ ss => ss ≠ []) self c)
include hfull

/-- An alternative and the comments behind it. They go on with what comes before, unless there are
statements in the alternative. -/
theorem orelse_spreads {words : List Keyword} {f : List Stmt → List Stmt → Rule β}
    {K : Nat → β → Prop}
    (hf : ∀ orelse cs hi c, IsSpread tokens orelse →
      (∀ before, SpreadTo tokens lo before →
        IsSpread tokens ((if orelse.isEmpty then before else orelse) ++ cs)) →
      Spreads tokens [] [] hi K (f orelse cs) c) :
    Spreads tokens [] [] lo K (do
      let orelse ← clauseBlock self .else_
      let cs ← commentsBefore words
      f orelse cs) c := by
  intro hs b c' hc
  obtain ⟨orelse, m, horelse, hc⟩ := eq_ok_of_bind hc
  obtain ⟨cs, k, hcs, hc⟩ := eq_ok_of_bind hc
  obtain ⟨la, hla, hm, ho⟩ := clauseBlock_spreads hself lo c .else_ hs orelse m horelse
  obtain ⟨lb, hlb, hk, hspread⟩ := commentsBefore_spreads la m words hm cs k hcs
  suffices h : ∃ lb, lo ≤ lb ∧ k.Past tokens [] lb ∧ ∀ before, SpreadTo tokens lo before →
      IsSpread tokens ((if orelse.isEmpty then before else orelse) ++ cs) by
    obtain ⟨lb, hlb, hk, hlast⟩ := h
    obtain ⟨hi, hhi, hdone⟩ := hf orelse cs lb k ho.isSpread hlast hk b c' hc
    exact ⟨hi, hlb.trans hhi, hdone⟩
  cases orelse with
  | cons s orelse => exact ⟨lb, hla.trans hlb, hk, fun _ _ => (ho.append hspread).isSpread⟩
  | nil =>
    rcases clauseBlock_hollow hfull hs horelse with rfl | hbelow
    · -- No alternative comes.
      obtain ⟨lb, hlb, hk, hspread⟩ := commentsBefore_spreads lo m words hs cs k hcs
      exact ⟨lb, hlb, hk, fun _ hbefore => (hbefore.append hspread).isSpread⟩
    · refine ⟨lb, hla.trans hlb, hk, fun before hbefore => ?_⟩
      cases cs with
      | nil => simpa using hbefore.isSpread
      | cons s cs =>
        obtain ⟨read, hmoves, hechoes⟩ := commentsBefore_echoes m words hm.scanned _ k hcs
        obtain ⟨-, t, ht, hcomment, hspan⟩ := hechoes s (List.mem_cons_self ..)
        have hfar := hbelow t (hmoves.tokens_eq ▸ List.mem_append_left _ ht)
          (Lexeme.frames_of_isComment hcomment)
        rw [← hspan] at hfar
        have hlow := hm.low
        exact (hbefore.append (hspread.from_above hla (by omega))).isSpread

theorem tryBlock_spreads :
    Spreads tokens [] [] lo (fun hi s => s.Reaches tokens start.line hi)
      (tryBlock self start) c := by
  refine Spreads.past (.expected rfl) (.expected rfl) fun _ _ c => ?_
  refine (blockBefore_spreads hself _ c _).next fun body la c hb => ?_
  refine Carries.next (Carries.many
    (S := fun lo hi o => (o = none → hi = lo) ∧ ∀ h ∈ o, SpreadTo tokens hi h.2.body)
    (L := fun lo hi hs => (∀ h ∈ hs, IsSpread tokens h.2.body) ∧ ∀ before,
      SpreadTo tokens lo before → SpreadTo tokens hi ((hs.getLast?.map (·.2.body)).getD before))
    (fun lo c => .sees ?_) (fun lo => ⟨nofun, fun _ h => h⟩) (fun lo hi h => ?_)
    (fun lo mid hi a as ha has => ?_) la c) fun handlers lb c hh => ?_
  · split
    · exact (handler_spreads hself lo c).next fun h hi c hk => .pure ⟨nofun, by simpa using hk⟩
    · exact .pure ⟨fun _ => rfl, nofun⟩
  · rw [h.1 rfl]
    exact ⟨nofun, fun _ h => h⟩
  · have hbody := ha.2 a rfl
    refine ⟨List.forall_mem_cons.2 ⟨hbody.isSpread, has.1⟩, fun before _ => ?_⟩
    have hlast := has.2 a.2.body hbody
    rw [List.getLast?_cons]
    cases h : as.getLast? <;> simpa [h] using hlast
  refine orelse_spreads hself lb c hfull fun orelse cs lc c ho hlast => ?_
  refine (clauseBlock_spreads hself lc c _).next fun final hi c hl => ?_
  dsimp only
  split
  · exact .fail _
  · refine Spreads.spanned fun stop => ⟨rfl, rfl, fun block hblock => ?_⟩
    have hblock : block ∈ (Guarded.append ⟨body, handlers.map Prod.snd, orelse⟩ cs).blocks ∨
        block = final := by
      simpa [Stmt.blocks, Guarded.blocks, or_assoc] using hblock
    -- Comments before the final block went to the last block with statements.
    rcases hblock with hblock | rfl
    · rcases Guarded.mem_blocks_append hblock with hblock | rfl
      · simp only [Guarded.blocks, List.mem_cons, List.mem_append, List.map_map, List.mem_map,
          List.not_mem_nil, or_false] at hblock
        rcases hblock with rfl | ⟨h, hh', rfl⟩ | rfl
        · exact hb.isSpread
        · exact hh.1 h hh'
        · exact ho
      · have hguarded := hlast _ (hh.2 body hb)
        simpa [Guarded.last, Function.comp_def] using hguarded
    · exact hl.isSpread

end Final

theorem asyncStatement_spreads (decorators : List Expr) :
    Spreads tokens [] [] lo
      (fun hi s => s.Reaches tokens start.line hi ∧ (!decorators.isEmpty → s.isDecorated))
      (asyncStatement self start decorators) c := by
  refine Spreads.past (.expected rfl) (.expected rfl) fun _ m c => .peek ?_
  have hplain {p : Rule Stmt} (hp : Spreads tokens [] [] m
      (fun hi s => s.Reaches tokens start.line hi) p c)
      (hbare : decorators.isEmpty) : Spreads tokens [] [] m
        (fun hi s => s.Reaches tokens start.line hi ∧ (!decorators.isEmpty → s.isDecorated)) p c :=
    hp.weaken fun _ _ h => ⟨h, by simp [hbare]⟩
  split
  · exact functionDef_spreads hself m c .async decorators
  · split
    · exact hplain (forLoop_spreads hself m c .async) ‹_›
    · exact .fail _
  · split
    · exact hplain (withBlock_spreads hself m c .async) ‹_›
    · exact .fail _
  · exact .fail _

omit hself in
theorem decorators_spread :
    Spreads tokens [] [] lo (fun _ _ => True) (many decorator) c := by
  refine Carries.many (S := fun _ _ _ => True) (L := fun _ _ _ => True) (fun lo c => ?_)
    (fun _ => trivial) (fun _ _ _ => trivial) (fun _ _ _ _ _ _ _ => trivial) lo c
  refine Spreads.take rfl rfl (fun m => ?_) (.pure trivial)
  refine Spreads.past (expr_forms .named _) (expr_nests _ .named _) fun value m c => ?_
  refine (inlineComment_spreads m c).next fun trailing m c _ => .silent (newline_spreads m c)
    fun _ c => ?_
  exact (comments_spreads m c).next fun comments n c _ => .pure trivial

/-- The comments among decorators lie between the first of them and the end of the definition. -/
theorem decorated_spreads (hat : c.next.lexeme = .symbol .atSign) :
    Spreads tokens [] [] lo (Spread tokens lo) (decorated self) c := by
  intro hs ss c' hc
  obtain ⟨start, _, hplace, hc⟩ := eq_ok_of_bind hc
  cases hplace
  obtain ⟨lines, m, hlines, hc⟩ := eq_ok_of_bind hc
  obtain ⟨read, hmoves, hechoes⟩ := decorators_echoes c hs.scanned lines m hlines
  obtain ⟨k, hk, hm, -⟩ := decorators_spread lo c hs lines m hlines
  have hbelow (hi : Nat) (hhi : k ≤ hi) : ∀ s ∈ lines.flatMap Prod.snd, s.isCode = false ∧
      c.next.span.line ≤ s.span.line ∧ s.span.line ≤ s.span.endLine ∧ s.span.line ≤ hi := by
    intro s hcomment
    obtain ⟨hcode, t, ht, hcomment, hspan⟩ := hechoes s hcomment
    have hline := hs.line_le hmoves t ht
    have hend := hs.endLine_le hmoves hm t ht (Lexeme.fills_of_isComment hcomment)
    rw [hspan]
    exact ⟨hcode, hline.1, hline.2, (hline.2.trans hend).trans hhi⟩
  have hdone {p : Rule Stmt} (hp : Spreads tokens [] [] k (fun hi s =>
      s.Reaches tokens c.next.span.line hi ∧ (!(lines.map Prod.fst).isEmpty → s.isDecorated)) p m) :
      Spreads tokens [] [] k (Spread tokens lo) (do
        let definition ← p
        return lines.flatMap Prod.snd ++ [definition]) m := by
    intro hm ss c' hc
    obtain ⟨d, c'', hd, hend⟩ := eq_ok_of_bind hc
    obtain ⟨hi, hhi, hpast, hreach, hdecorated⟩ := hp hm d c'' hd
    cases hend
    have hadorned := hdecorated (by simpa using decorators_ne_nil hat hlines)
    exact ⟨hi, hhi, hpast, .adorned hs.skips (hbelow hi hhi) hadorned hreach⟩
  obtain ⟨hi, hhi, hdone⟩ : ∃ hi, k ≤ hi ∧ c'.Past tokens [] hi ∧ Spread tokens lo hi ss := by
    refine (?_ : Spreads tokens [] [] k (Spread tokens lo) _ m) hm ss c' hc
    refine .peek ?_
    split
    · exact hdone (functionDef_spreads hself k m .sync _)
    · exact hdone (classDef_spreads hself k m _)
    · exact hdone (asyncStatement_spreads hself k m _)
    · exact .fail _
  exact ⟨hi, hk.trans hhi, hdone⟩

theorem statement_spreads (hfull : ∀ c, Accounts (fun _ ss => ss ≠ []) self c) :
    Spreads tokens [] [] lo (Spread tokens lo) (statement self) c := by
  refine .place fun start hstart => Spreads.skipping fun hskips => .peek ?_
  have hone {p : Rule Stmt}
      (hp : Spreads tokens [] [] lo (fun hi s => s.Reaches tokens c.next.span.line hi) p c) :
      Spreads tokens [] [] lo (Spread tokens lo) (List.singleton <$> p) c :=
    hp.map fun _ _ h => h.spread hskips
  subst hstart
  split
  · exact (commentIf_spreads lo c _).next fun o hi c h => .pure h
  · exact .fail _
  · rename_i hl
    exact decorated_spreads hself lo c hl
  · exact hone ((functionDef_spreads hself lo c .sync []).weaken fun _ _ h => h.1)
  · exact hone ((classDef_spreads hself lo c []).weaken fun _ _ h => h.1)
  · rename_i hl
    exact hone ((branch_spreads hself lo c c.size ⟨_, hl⟩).congr rfl)
  · exact hone (whileLoop_spreads hself lo c)
  · exact hone (forLoop_spreads hself lo c .sync)
  · exact hone (tryBlock_spreads hself lo c hfull)
  · exact hone (withBlock_spreads hself lo c .sync)
  · exact hone ((asyncStatement_spreads hself lo c []).weaken fun _ _ h => h.1)
  · exact simpleLine_spreads lo c

end Compound

theorem parseStatements_ne_nil (depth : Nat) (c : Cursor) :
    Accounts (fun _ ss => ss ≠ []) (parseStatements depth) c := by
  intro hs ss c' h
  obtain ⟨read, hm, -⟩ := parseStatements_tells depth c hs ss c' h
  cases depth with
  | zero => cases h
  | succ depth => exact ⟨read, hm, statement_ne_nil h⟩

theorem parseStatements_spreads (depth : Nat) (lo : Nat) (c : Cursor) :
    Spreads tokens [] [] lo (Spread tokens lo) (parseStatements depth) c := by
  induction depth generalizing lo c with
  | zero => exact .fail _
  | succ depth ih => exact statement_spreads ih lo c (parseStatements_ne_nil depth)

end Grammar

end AsyncErasure
