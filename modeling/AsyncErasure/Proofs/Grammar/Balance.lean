import AsyncErasure.Proofs.Grammar.Conservation

namespace AsyncErasure.Grammar

open Rule Cursor

variable {α β : Type} {p : Rule α} {f : α → Rule β} {c : Cursor} {opened mid inside : List Bracket}

def flat : Lexeme → Bool
  | .symbol (.opening _) | .symbol (.closing _) | .endMarker => false
  | _ => true

theorem flat_iff {l : Lexeme} : flat l ↔ l.isFlat ∧ l ≠ .endMarker := by
  cases l with
  | symbol s => cases s <;> simp [flat, Lexeme.isFlat]
  | _ => simp [flat, Lexeme.isFlat]

/-- Whenever the rule succeeds at the cursor, what it has read takes the open brackets, innermost
first, from the ones to the others. -/
def Nests (opened inside : List Bracket) (p : Rule α) (c : Cursor) : Prop :=
  Accounts (fun read _ => Token.balance opened (read.map Token.lexeme) = some inside) p c

namespace Nests

theorem pure {a : α} : Nests opened opened (Pure.pure a) c := Accounts.pure rfl

theorem fail (fault : Fault) : Nests opened inside (Rule.fail fault : Rule α) c :=
  Accounts.fail fault

theorem bind (hp : Nests opened mid p c) (hf : ∀ a c', Nests mid inside (f a) c') :
    Nests opened inside (p >>= f) c := by
  refine Accounts.bind hp fun a read c' _ hr => Accounts.mono (hf a c') fun more b hb => ?_
  rw [List.map_append, Token.balance_append, hr]
  exact hb

theorem map {g : α → β} (hp : Nests opened inside p c) : Nests opened inside (g <$> p) c :=
  Accounts.map hp fun _ _ h => h

theorem peek {f : Lexeme → Rule β} (h : Nests opened inside (f c.next.lexeme) c) :
    Nests opened inside (Rule.peek >>= f) c := h

theorem peekSecond {f : Lexeme → Rule β} (h : Nests opened inside (f c.second.lexeme) c) :
    Nests opened inside (Rule.peekSecond >>= f) c := h

theorem sees {l : Lexeme} {f : Bool → Rule β} (h : Nests opened inside (f (c.next.lexeme == l)) c) :
    Nests opened inside (Rule.sees l >>= f) c := h

theorem place {f : Place → Rule β} (h : ∀ start, Nests opened inside (f start) c) :
    Nests opened inside (Rule.place >>= f) c := h c.next.span.start

theorem spanFrom {start : Place} {f : Span → Rule β} (h : ∀ span, Nests opened inside (f span) c) :
    Nests opened inside (Rule.spanFrom start >>= f) c := h ⟨start, c.reached⟩

/-- What is made from the span of what has been read. -/
theorem spanned {start : Place} {make : Span → β} : Nests opened opened
    (Rule.spanFrom start >>= fun span => Pure.pure (make span)) c := spanFrom fun _ => pure

/-- First a rule that only looks at what comes next. -/
theorem look {P : α → Prop} (hp : ∃ a, p c = .ok (a, c) ∧ P a)
    (hf : ∀ a, P a → Nests opened inside (f a) c) : Nests opened inside (p >>= f) c := by
  obtain ⟨a, ha, hP⟩ := hp
  intro hs b c' hc
  rw [bind_apply, ha] at hc
  exact hf a hP hs b c' hc

theorem startsClause {f : Bool → Rule β} (h : ∀ starts, Nests opened inside (f starts) c) :
    Nests opened inside (Grammar.startsClause >>= f) c := by
  obtain ⟨starts, hstarts⟩ := startsClause_looks c
  exact look (P := fun _ => True) ⟨starts, hstarts, trivial⟩ fun starts _ => h starts

/-- The second token comes next when the first one is passed. -/
theorem second (hne : c.next.lexeme ≠ .endMarker)
    (h : c.second = c.advance.next → Nests opened inside p c) : Nests opened inside p c :=
  fun hs => h (second_of_later (hs.later_ne_nil hne)) hs

/-- Past a token, with what it opens or closes. -/
theorem pass {f : Unit → Rule β} (hne : c.next.lexeme ≠ .endMarker)
    (hn : c.next.lexeme.nesting opened = some mid) (h : Nests mid inside (f ()) c.advance) :
    Nests opened inside (Rule.advance >>= f) c := by
  refine Accounts.advance hne (Accounts.mono h fun more b hb => ?_)
  rw [List.map_cons, Token.balance_cons, hn]
  exact hb

theorem advance {f : Unit → Rule β} (hl : flat c.next.lexeme)
    (h : Nests opened inside (f ()) c.advance) : Nests opened inside (Rule.advance >>= f) c :=
  pass (flat_iff.1 hl).2 (Lexeme.nesting_of_isFlat (flat_iff.1 hl).1 opened) h

theorem advanced (hl : flat c.next.lexeme) : Nests opened opened Rule.advance c :=
  bind_pure Rule.advance ▸ advance hl pure

theorem take {l : Lexeme} {f : Bool → Rule β} (hl : l ≠ .endMarker)
    (hn : l.nesting opened = some mid) (hyes : Nests mid inside (f true) c.advance)
    (hno : Nests opened inside (f false) c) : Nests opened inside (Rule.accept l >>= f) c := by
  refine Accounts.accept hl (fun hc => Accounts.mono hyes fun more b hb => ?_) fun _ => hno
  rw [List.map_cons, Token.balance_cons, hc, hn]
  exact hb

theorem accept {l : Lexeme} {f : Bool → Rule β} (hl : flat l)
    (hyes : Nests opened inside (f true) c.advance) (hno : Nests opened inside (f false) c) :
    Nests opened inside (Rule.accept l >>= f) c :=
  take (flat_iff.1 hl).2 (Lexeme.nesting_of_isFlat (flat_iff.1 hl).1 opened) hyes hno

theorem accepted {l : Lexeme} (hl : flat l) : Nests opened opened (Rule.accept l) c :=
  bind_pure (Rule.accept l) ▸ accept hl pure pure

theorem expect {l : Lexeme} {f : Unit → Rule β} (hl : flat l)
    (h : Nests opened inside (f ()) c.advance) : Nests opened inside (Rule.expect l >>= f) c := by
  refine Accounts.expect (flat_iff.1 hl).2 fun hc => Accounts.mono h fun more b hb => ?_
  rw [List.map_cons, Token.balance_cons, hc, Lexeme.nesting_of_isFlat (flat_iff.1 hl).1]
  exact hb

theorem expected {l : Lexeme} (hl : flat l) : Nests opened opened (Rule.expect l) c :=
  bind_pure (Rule.expect l) ▸ expect hl pure

/-- Past an opening bracket. -/
theorem opening {b : Bracket} {f : Unit → Rule β}
    (h : Nests (b :: opened) inside (f ()) c.advance) :
    Nests opened inside (Rule.expect (Symbol.opening b) >>= f) c := by
  refine Accounts.expect (by simp) fun hc => Accounts.mono h fun more a ha => ?_
  rw [List.map_cons, Token.balance_cons, hc]
  exact ha

theorem opens {b : Bracket} : Nests opened (b :: opened) (Rule.expect (Symbol.opening b)) c :=
  bind_pure (Rule.expect (Symbol.opening b)) ▸ opening pure

/-- Past a closing bracket. -/
theorem closing {b : Bracket} {f : Unit → Rule β} (h : Nests opened inside (f ()) c.advance) :
    Nests (b :: opened) inside (Rule.expect (Symbol.closing b) >>= f) c := by
  refine Accounts.expect (by simp) fun hc => Accounts.mono h fun more a ha => ?_
  rw [List.map_cons, Token.balance_cons, hc, Lexeme.nesting_closing]
  exact ha

theorem closes {b : Bracket} : Nests (b :: opened) opened (Rule.expect (Symbol.closing b)) c :=
  bind_pure (Rule.expect (Symbol.closing b)) ▸ closing pure

theorem name {f : String → Rule β} (h : ∀ id, Nests opened inside (f id) c.advance) :
    Nests opened inside (Rule.name >>= f) c := by
  refine Accounts.name fun id hc _ => Accounts.mono (h id) fun more b hb => ?_
  rw [List.map_cons, Token.balance_cons, hc, Lexeme.nesting_of_isFlat rfl]
  exact hb

theorem identifier : Nests opened opened Rule.name c :=
  bind_pure Rule.name ▸ name fun _ => pure

theorem after {l : Lexeme} (hl : flat l) (hp : ∀ c, Nests opened opened p c) :
    Nests opened opened (Rule.after l p) c :=
  accept hl ((hp c.advance).bind fun _ _ => pure) pure

/-- A part that may be missing. -/
theorem optional {f : Option α → Rule β} (hp : Nests opened opened p c) (missing : Bool)
    (hf : ∀ o c, Nests opened inside (f o) c) :
    Nests opened inside (if missing then Pure.pure none >>= f else (some <$> p) >>= f) c := by
  cases missing with
  | true => exact hf none c
  | false => exact hp.map.bind fun o c => hf o c

theorem orElse {q : Rule α} (hp : Nests opened inside p c) (hq : Nests opened inside q c) :
    Nests opened inside (Rule.orElse p q) c := Accounts.orElse hp hq

section Loop

variable {p : Rule (Option α)} (hp : ∀ c, Nests opened opened p c)
include hp

theorem takeItems (n : Nat) (c : Cursor) : Nests opened opened (Rule.takeItems p n) c := by
  induction n generalizing c with
  | zero => exact pure
  | succ n ih =>
    refine (hp c).bind fun o c' => ?_
    cases o with
    | none => exact pure
    | some a => exact (ih c').bind fun _ _ => pure

theorem many (c : Cursor) : Nests opened opened (Rule.many p) c := takeItems hp c.size c

end Loop

theorem grow {p : α → Rule (Option α)} (hp : ∀ a c, Nests opened opened (p a) c) (a : α)
    (c : Cursor) : Nests opened opened (Rule.grow p a) c := by
  suffices h : ∀ n a c, Nests opened opened (growTimes p n a) c from h c.size a c
  intro n
  induction n with
  | zero => exact fun a c => pure
  | succ n ih =>
    refine fun a c => (hp a c).bind fun o c' => ?_
    cases o with
    | none => exact pure
    | some b => exact ih b c'

theorem listUpTo {closed : Lexeme → Bool} {item : Rule α} (hitem : ∀ c, Nests opened opened item c)
    (c : Cursor) : Nests opened opened (Rule.listUpTo closed item) c := by
  suffices h : ∀ n c, Nests opened opened (listUpTo.go closed item n) c from h c.size c
  intro n
  induction n with
  | zero => exact fun c => pure
  | succ n ih =>
    refine fun c => peek ?_
    split
    · exact pure
    · exact (hitem c).bind fun a c' => accept rfl ((ih c'.advance).bind fun _ _ => pure) pure

theorem listTail {closed : Lexeme → Bool} {item : Rule α} (hitem : ∀ c, Nests opened opened item c)
    (c : Cursor) : Nests opened opened (Rule.listTail closed item) c := by
  refine many (fun c => accept rfl (peek ?_) pure) c
  split
  · exact pure
  · exact (hitem _).bind fun _ _ => pure

end Nests

section Expressions

variable {self : Level → Rule Expr}
  (hself : ∀ opened level c, Nests opened opened (self level) c) (c : Cursor)
include hself

theorem starOr_nests (level : Level) : Nests opened opened (starOr self level) c := by
  refine .sees ?_
  split
  · rename_i hstar
    refine .place fun start => .advance (by rw [eq_of_beq hstar]; rfl) ?_
    exact (hself _ .bitOr _).bind fun value c => .spanned
  · exact hself _ level c

omit hself in
theorem itemOrTuple_nests {closed : Lexeme → Bool} {item : Rule Expr}
    (hitem : ∀ c, Nests opened opened item c) :
    Nests opened opened (itemOrTuple closed item) c := by
  refine .place fun start => (hitem c).bind fun first c => .sees ?_
  split
  · exact (Nests.listTail hitem c).bind fun rest c => .spanned
  · exact .pure

theorem starExpressions_nests : Nests opened opened (starExpressions self) c :=
  itemOrTuple_nests c fun c => starOr_nests hself c .test

theorem targetList_nests : Nests opened opened (targetList self) c :=
  itemOrTuple_nests c fun c => starOr_nests hself c .bitOr

theorem namedExpression_nests : Nests opened opened (namedExpression self) c := by
  refine .peek (.peekSecond ?_)
  split
  · rename_i id hname hwalrus
    refine .second (by simp [hname]) fun hnext => .place fun start =>
      .advance (by rw [hname]; rfl) ?_
    refine .spanFrom fun span => .advance (by rw [← hnext, hwalrus]; rfl) ?_
    exact (hself _ .test _).bind fun value c => .spanned
  · exact hself _ .test c

theorem yieldExpression_nests : Nests opened opened (yieldExpression self) c := by
  refine .place fun start => .expect rfl (.accept rfl ?_ (.peek ?_))
  · exact (hself _ .test _).bind fun value c => .spanned
  · dsimp only
    split
    · exact (hself _ .tuple _).map.bind fun value c => .spanned
    · show Nests _ _ (do return Expr.yield (← Rule.spanFrom start) none) _
      exact .spanned

theorem param_nests (annotated : Bool) : Nests opened opened (param self annotated) c := by
  have hdefault (id : String) (hint : Option Expr) (c : Cursor) :
      Nests opened opened (do
        let default ← after Symbol.assign (self .test)
        return (⟨id, hint, default⟩ : Param)) c :=
    (Nests.after rfl fun c => hself _ .test c).bind fun default c => .pure
  refine .name fun id => ?_
  split
  · exact (Nests.after rfl fun c => hself _ .test c).bind fun hint c => hdefault id hint c
  · exact hdefault id none c.advance

theorem paramItem_nests (close : Symbol) (annotated : Bool) :
    Nests opened opened (paramItem self close annotated) c := by
  have hparam (make : Param → ParamItem) (c : Cursor) :
      Nests opened opened (do return make (← param self annotated)) c :=
    (param_nests hself c annotated).bind fun p c => .pure
  refine .accept rfl .pure (.accept rfl (hparam _ _) (.accept rfl (.sees (.sees ?_)) (hparam _ _)))
  split
  · exact .pure
  · exact hparam (fun p => .star (some p)) _

theorem parameters_nests (close : Symbol) (annotated : Bool) :
    Nests opened opened (parameters self close annotated) c :=
  (Nests.listUpTo (fun c => paramItem_nests hself c close annotated) c).map

theorem lambda_nests : Nests opened opened (lambda self) c := by
  refine .place fun start => .expect rfl ((parameters_nests hself _ _ _).bind fun params c => ?_)
  exact .expect rfl ((hself _ .test _).bind fun body c => .spanned)

theorem expression_nests : Nests opened opened (expression self) c := by
  refine .sees ?_
  split
  · exact lambda_nests hself c
  · refine .place fun start => (hself _ .disjunction c).bind fun body c => .accept rfl ?_ .pure
    refine (hself _ .disjunction _).bind fun test c => .expect rfl ?_
    exact (hself _ .test _).bind fun orelse c => .spanned

theorem boolLevel_nests (op : BoolOp) : Nests opened opened (boolLevel self op) c := by
  refine .place fun start => (hself _ _ c).bind fun first c => .sees ?_
  split
  · refine (Nests.many (fun c => .after ?_ fun c => hself _ _ c) c).bind fun rest c => .spanned
    rfl
  · exact .pure

theorem negation_nests : Nests opened opened (negation self) c := by
  refine .sees ?_
  split
  · rename_i hnot
    refine .place fun start => .advance (by rw [eq_of_beq hnot]; rfl) ?_
    exact (hself _ .negation _).bind fun operand c => .spanned
  · exact hself _ .comparison c

omit hself in
theorem comparisonOp_nests : Nests opened opened comparisonOp c := by
  refine .peek ?_
  split
  · rename_i s hs
    split
    · rename_i op hop
      refine .advance ?_ .pure
      rw [hs]
      cases s <;> first | rfl | cases hop
    · exact .pure
  · rename_i hin
    exact .advance (by rw [hin]; rfl) .pure
  · rename_i his
    exact .advance (by rw [his]; rfl) (.accept rfl .pure .pure)
  · rename_i hnot
    refine .peekSecond ?_
    split
    · rename_i hin
      refine .second (by simp [hnot]) fun hnext => .advance (by rw [hnot]; rfl) (.advance ?_ .pure)
      rw [← hnext, eq_of_beq hin]
      rfl
    · exact .pure
  · exact .pure

theorem comparison_nests : Nests opened opened (comparison self) c := by
  refine .place fun start => (hself _ .bitOr c).bind fun left c => ?_
  refine (Nests.many (fun c => (comparisonOp_nests c).bind fun op c => ?_) c).bind fun links c => ?_
  · cases op with
    | none => exact .pure
    | some op => exact (hself _ .bitOr c).bind fun e c => .pure
  · split
    · exact .pure
    · exact .spanned

omit hself in
theorem flat_of_binaryOp {level : Level} {op : BinOp} (h : binaryOp level c = .ok (some op, c)) :
    flat c.next.lexeme := by
  cases hl : c.next.lexeme with
  | symbol s =>
    have hall : binaryOp level c =
        .ok (if s ∈ grouped level then BinOp.ofSymbol? s else none, c) := by
      simp only [binaryOp, bind_apply, peek_apply, hl]
      rfl
    have hop := (Prod.mk.inj (Except.ok.inj (hall.symm.trans h))).1
    have hs : op.symbol = s := by
      simpa using List.find?_some (p := fun op : BinOp => op.symbol = s)
        (Option.ite_none_right_eq_some.1 hop).2
    rw [← hs]
    cases op <;> rfl
  | _ => simp [binaryOp, hl] at h

theorem binaryLevel_nests (level : Level) : Nests opened opened (binaryLevel self level) c := by
  refine .place fun start => (hself _ _ c).bind fun first c => ?_
  refine Nests.grow (fun left c => ?_) first c
  obtain ⟨op, hop, -⟩ := binaryOp_looks c level
  refine .look (P := (· = op)) ⟨op, hop, rfl⟩ fun o ho => ?_
  subst ho
  cases o with
  | none => exact .pure
  | some op =>
    exact .advance (flat_of_binaryOp c hop) ((hself _ _ _).bind fun right c => .spanned)

omit hself in
theorem flat_of_signOp {op : UnaryOp} (h : signOp c = .ok (some op, c)) : flat c.next.lexeme := by
  cases hl : c.next.lexeme with
  | symbol s => cases s <;> first | rfl | simp [signOp, hl, UnaryOp.ofSymbol?] at h
  | _ => simp [signOp, hl] at h

theorem signed_nests : Nests opened opened (signed self) c := by
  obtain ⟨op, hop, -⟩ := signOp_looks c
  refine .look (P := (· = op)) ⟨op, hop, rfl⟩ fun o ho => ?_
  subst ho
  cases o with
  | none => exact hself _ .power c
  | some op =>
    refine .place fun start => .advance (flat_of_signOp c hop) ?_
    exact (hself _ .signed _).bind fun operand c => .spanned

theorem power_nests : Nests opened opened (power self) c := by
  refine .place fun start => (hself _ .awaited c).bind fun base c => .accept rfl ?_ .pure
  exact (hself _ .signed _).bind fun exponent c => .spanned

theorem awaited_nests : Nests opened opened (awaited self) c := by
  refine .sees ?_
  split
  · rename_i hawait
    refine .place fun start => .advance (by rw [eq_of_beq hawait]; rfl) ?_
    exact (hself _ .atom _).bind fun value c => .spanned
  · exact hself _ .atom c

theorem clause_nests : Nests opened opened (clause self) c := by
  refine .accept rfl ?_ ?_
  all_goals
    refine .expect rfl ((targetList_nests hself _).bind fun target c => .expect rfl ?_)
    refine (hself _ .disjunction _).bind fun iter c => ?_
    exact (Nests.many (fun c => .after rfl fun c => hself _ .disjunction c) c).bind
      fun ifs c => .pure

theorem clauses_nests : Nests opened opened (Grammar.clauses self) c := by
  refine Nests.many (fun c => .startsClause fun starts => ?_) c
  split
  · exact (clause_nests hself c).bind fun k c => .pure
  · exact .pure

theorem displayTail_nests (b : Bracket) (first : Expr) :
    Nests (b :: opened) opened (displayTail self b first) c :=
  (Nests.listTail (fun c => starOr_nests hself c .named) c).bind fun _ _ => .closing .pure

/-- A comprehension behind its element, up to the closing bracket. -/
theorem comprehension_nests (b : Bracket) {start : Place} (make : List Clause → Span → Expr) :
    Nests (b :: opened) opened (do
      let clauses ← Grammar.clauses self
      expect (Symbol.closing b)
      return make clauses (← spanFrom start)) c :=
  (clauses_nests hself c).bind fun _ _ => .closing .spanned

theorem parenthesized_nests : Nests opened opened (parenthesized self) c := by
  refine .place fun start => .opening ?_
  refine .take (by simp) (Lexeme.nesting_closing ..) .spanned (.sees ?_)
  split
  · exact (yieldExpression_nests hself _).bind fun value c => .closing .pure
  refine (starOr_nests hself _ .named).bind fun first c => .startsClause fun starts => ?_
  split
  · exact comprehension_nests hself c .round fun ks span => .comp span .generator first ks
  refine .take (by simp) (Lexeme.nesting_closing ..) ?_ ?_
  · rw [if_pos rfl]
    split
    · exact .spanned
    · exact .pure
  · exact (displayTail_nests hself c .round first).bind fun elts c => .spanned

theorem listDisplay_nests : Nests opened opened (listDisplay self) c := by
  refine .place fun start => .opening ?_
  refine .take (by simp) (Lexeme.nesting_closing ..) .spanned ?_
  refine (starOr_nests hself _ .named).bind fun first c => .startsClause fun starts => ?_
  split
  · exact comprehension_nests hself c .square fun ks span => .comp span .list first ks
  · exact (displayTail_nests hself c .square first).bind fun elts c => .spanned

theorem dictItem_nests : Nests opened opened (dictItem self) c := by
  refine .accept rfl ?_ ?_
  · exact (hself _ .bitOr _).bind fun value c => .pure
  · refine (hself _ .test c).bind fun key c => .expect rfl ?_
    exact (hself _ .test _).bind fun value c => .pure

theorem dictItems_nests : Nests (.curly :: opened) opened (dictItems self) c :=
  (Nests.listUpTo (fun c => dictItem_nests hself c) c).bind fun _ _ => .closing .pure

theorem dictTail_nests (first : DictItem) :
    Nests (.curly :: opened) opened (dictTail self first) c :=
  .accept rfl ((dictItems_nests hself _).bind fun _ _ => .pure) (.closing .pure)

theorem braceDisplay_nests : Nests opened opened (braceDisplay self) c := by
  refine .place fun start => .opening ?_
  refine .take (by simp) (Lexeme.nesting_closing ..) .spanned (.sees ?_)
  split
  · exact (dictItems_nests hself _).bind fun is c => .spanned
  refine (starOr_nests hself _ .named).bind fun first c => .accept rfl ?_ ?_
  · refine (hself _ .test _).bind fun value c => .startsClause fun starts => ?_
    split
    · exact comprehension_nests hself c .curly fun ks span => .dictComp span first value ks
    · exact (dictTail_nests hself c _).bind fun is c => .spanned
  refine .startsClause fun starts => ?_
  split
  · exact comprehension_nests hself c .curly fun ks span => .comp span .set first ks
  · exact (displayTail_nests hself c .curly first).bind fun elts c => .spanned

theorem atom_nests : Nests opened opened (atom self) c := by
  have hconstant (start : Place) (value : Constant) (hl : flat c.next.lexeme) :
      Nests opened opened (do
        advance
        return Expr.constant (← spanFrom start) value) c := .advance hl .spanned
  refine .place fun start => .peek ?_
  split
  iterate 3
    · rename_i hl
      exact hconstant start _ (by rw [hl]; rfl)
  · rename_i id hl
    exact .advance (by rw [hl]; rfl) .spanned
  · rename_i text hl
    exact hconstant start _ (by rw [hl]; rfl)
  · refine (Nests.many (fun c => .peek ?_) c).bind fun texts c => .spanned
    split
    · rename_i text hl
      exact .advance (by rw [hl]; rfl) .pure
    · exact .pure
  · rename_i hl
    exact hconstant start _ (by rw [hl]; rfl)
  · exact parenthesized_nests hself c
  · exact listDisplay_nests hself c
  · exact braceDisplay_nests hself c
  · exact .fail _

theorem callArgument_nests : Nests opened opened (callArgument self) c := by
  refine .place fun start => .accept rfl ?_ (.accept rfl ?_ (.peek (.peekSecond ?_)))
  · exact (hself _ .test _).bind fun value c => .pure
  · exact (hself _ .test _).bind fun value c => .spanned
  split
  · rename_i hword
    refine .second ?_ fun hnext => .name fun id => .advance ?_ ?_
    · intro hend
      simp [hend, Lexeme.isWord] at hword
    · have hassign : c.second.lexeme = .symbol .assign := by simp_all
      rw [← hnext, hassign]
      rfl
    · exact (hself _ .test _).bind fun value c => .pure
  · refine (hself _ .named c).bind fun value c => .startsClause fun starts => ?_
    split
    · exact (clauses_nests hself c).bind fun ks c => .spanned
    · exact .pure

theorem callArguments_nests : Nests opened opened (callArguments self) c :=
  (Nests.listUpTo (fun c => callArgument_nests hself c) c).map

theorem sliceRest_nests (start : Place) (lower : Option Expr) :
    Nests opened opened (sliceRest self start lower) c := by
  have hdone (upper step : Option Expr) (c : Cursor) : Nests opened opened
      (spanFrom start >>= fun span => pure (Expr.slice span lower upper step)) c := .spanned
  refine .accept rfl (.peek ?_) ?_
  · dsimp only
    refine Nests.optional (hself _ .test _) _ fun upper c => ?_
    refine .accept rfl (.peek ?_) (hdone upper none c)
    exact Nests.optional (hself _ .test _) _ fun step c => hdone upper step c
  · cases lower with
    | none => exact .fail _
    | some e => exact .pure

theorem sliceItem_nests : Nests opened opened (sliceItem self) c := by
  refine .place fun start => .sees ?_
  split
  · exact starOr_nests hself c .test
  refine .sees ?_
  split
  · exact sliceRest_nests hself c start none
  · exact (hself _ .named c).map.bind fun lower c => sliceRest_nests hself c start lower

theorem slices_nests : Nests opened opened (slices self) c :=
  itemOrTuple_nests c fun c => sliceItem_nests hself c

theorem primary_nests : Nests opened opened (primary self) c := by
  refine .place fun start => (atom_nests hself c).bind fun first c => ?_
  refine Nests.grow (fun value c => ?_) first c
  refine .accept rfl (.name fun field => .spanned) ?_
  refine .take (by simp) rfl ?_ (.take (by simp) rfl ?_ .pure)
  · exact (callArguments_nests hself _).bind fun args c => .closing .spanned
  · exact (slices_nests hself _).bind fun index c => .closing .spanned

theorem parseLevel_nests (level : Level) : Nests opened opened (parseLevel self level) c := by
  cases level with
  | named => exact namedExpression_nests hself c
  | yielded =>
    refine .sees ?_
    split
    · exact yieldExpression_nests hself c
    · exact hself _ .tuple c
  | tuple => exact starExpressions_nests hself c
  | test => exact expression_nests hself c
  | disjunction => exact boolLevel_nests hself c .or
  | conjunction => exact boolLevel_nests hself c .and
  | negation => exact negation_nests hself c
  | comparison => exact comparison_nests hself c
  | bitOr | bitXor | bitAnd | shift | sum | product => exact binaryLevel_nests hself c _
  | signed => exact signed_nests hself c
  | power => exact power_nests hself c
  | awaited => exact awaited_nests hself c
  | atom => exact primary_nests hself c

end Expressions

theorem parseAt_nests (depth : Nat) (opened : List Bracket) (level : Level) (c : Cursor) :
    Nests opened opened (parseAt depth level) c := by
  induction depth generalizing opened level c with
  | zero => exact .fail _
  | succ depth ih => exact parseLevel_nests ih c level

/-- What is read as an expression is balanced. -/
theorem expr_nests (opened : List Bracket) (level : Level) (c : Cursor) :
    Nests opened opened (expr level) c := by
  intro hs e c' hc
  exact parseAt_nests _ opened level c hs e c' hc

section Statements

variable (c : Cursor)

theorem dottedName_nests : Nests opened opened dottedName c :=
  .name fun _ => (Nests.many (fun _ => .after rfl fun _ => .identifier) _).bind fun _ _ => .pure

theorem aliased_nests {path : Rule String} (hpath : ∀ c, Nests opened opened path c) :
    Nests opened opened (aliased path) c :=
  (hpath c).bind fun _ _ => (Nests.after rfl fun _ => .identifier).bind fun _ _ => .pure

theorem commaSeparated_nests {item : Rule α} (hitem : ∀ c, Nests opened opened item c) :
    Nests opened opened (commaSeparated item) c := by
  refine (hitem c).bind fun first c => ?_
  exact (Nests.listTail hitem c).bind fun rest c => .pure

theorem dots_nests : Nests opened opened dots c := by
  refine .peek ?_
  split
  · rename_i hl
    exact .advance (by rw [hl]; rfl) .pure
  · rename_i hl
    exact .advance (by rw [hl]; rfl) .pure
  · exact .pure

theorem importedNames_nests : Nests opened opened importedNames c := by
  have hitem (opened : List Bracket) (c : Cursor) : Nests opened opened (aliased name) c :=
    aliased_nests c fun c => .identifier
  refine .accept rfl .pure (.take (by simp) rfl ?_ (commaSeparated_nests c (hitem _)))
  exact (Nests.listUpTo (hitem _) _).bind fun names c => .closing .pure

theorem importFrom_nests (start : Place) (hl : flat c.next.lexeme) :
    Nests opened opened (importFrom start) c := by
  refine .advance hl ((Nests.many dots_nests _).bind fun levels c => .sees ?_)
  have hrest (level : Nat) (path : Option String) (c : Cursor) :
      Nests opened opened (if level = 0 ∧ path.isNone then fail .expectedModule
        else do
          expect Keyword.import_
          let names ← importedNames
          if names.isEmpty then fail .expectedName
          else return Stmt.importFrom (← spanFrom start) path names level) c := by
    split
    · exact .fail _
    · refine .expect rfl ((importedNames_nests _).bind fun names c => ?_)
      split
      · exact .fail _
      · exact .spanned
  dsimp only
  split
  · exact hrest _ none c
  · exact (dottedName_nests c).map.bind fun path c => hrest _ path c

theorem flat_of_augmentedOp {op : BinOp} (h : augmentedOp c = .ok (some op, c)) :
    flat c.next.lexeme := by
  cases hl : c.next.lexeme with
  | symbol s =>
    have hall : augmentedOp c = .ok (BinOp.ofAssignSymbol? s, c) := by
      simp only [augmentedOp, bind_apply, peek_apply, hl]
      rfl
    have hop := (Prod.mk.inj (Except.ok.inj (hall.symm.trans h))).1
    have hs : op.assignSymbol = s := by
      simpa using List.find?_some (p := fun op : BinOp => op.assignSymbol = s) hop
    rw [← hs]
    cases op <;> rfl
  | _ => simp [augmentedOp, hl] at h

theorem expressionStatement_nests (start : Place) :
    Nests opened opened (expressionStatement start) c := by
  refine .sees ((expr_nests _ .yielded c).bind fun first c => .accept rfl ?_ ?_)
  · refine (expr_nests _ .test _).bind fun hint c => ?_
    exact (Nests.after rfl fun c => expr_nests _ .yielded c).bind fun value c => .spanned
  obtain ⟨op, hop, -⟩ := augmentedOp_looks c
  refine .look (P := (· = op)) ⟨op, hop, rfl⟩ fun o ho => ?_
  subst ho
  cases o with
  | some op =>
    exact .advance (flat_of_augmentedOp c hop)
      ((expr_nests _ .yielded _).bind fun value c => .spanned)
  | none =>
    refine (Nests.many (fun c => .after rfl fun c => expr_nests _ .yielded c) c).bind
      fun rest c => ?_
    split
    · exact .spanned
    · exact .spanned

/-- What is read as a simple statement is balanced. -/
theorem simpleStatement_nests : Nests opened opened simpleStatement c := by
  have hwords {make : Span → List String → Stmt} (hl : flat c.next.lexeme) (start : Place) :
      Nests opened opened (do
        advance
        let names ← commaSeparated name
        return make (← spanFrom start) names) c :=
    .advance hl ((commaSeparated_nests _ fun c => .identifier).bind fun names c => .spanned)
  have htarget (c : Cursor) : Nests opened opened (starOr expr .bitOr) c :=
    starOr_nests expr_nests c .bitOr
  refine .place fun start => .peek ?_
  split
  -- `pass`, `break` and `continue`
  iterate 3
    · rename_i hl
      exact .advance (by rw [hl]; rfl) .spanned
  -- `return`
  · rename_i hl
    refine .advance (by rw [hl]; rfl) (.look (atSimpleEnd_looks _) fun ends _ => ?_)
    dsimp only
    split
    · show Nests _ _ (do return Stmt.ret (← Rule.spanFrom start) none) _
      exact .spanned
    · exact (expr_nests _ .tuple _).map.bind fun value c => .spanned
  -- `raise`
  · rename_i hl
    refine .advance (by rw [hl]; rfl) (.look (atSimpleEnd_looks _) fun ends _ => ?_)
    split
    · exact .spanned
    · refine (expr_nests _ .test _).bind fun exc c => ?_
      exact (Nests.after rfl fun c => expr_nests _ .test c).bind fun cause c => .spanned
  -- `assert`
  · rename_i hl
    refine .advance (by rw [hl]; rfl) ((expr_nests _ .test _).bind fun test c => ?_)
    exact (Nests.after rfl fun c => expr_nests _ .test c).bind fun msg c => .spanned
  -- `del`
  · rename_i hl
    refine .advance (by rw [hl]; rfl) ((htarget _).bind fun first c => ?_)
    refine (Nests.many (fun c => .accept rfl ?_ .pure) c).bind fun rest c => .spanned
    refine .look (atSimpleEnd_looks _) fun ends _ => ?_
    split
    · exact .pure
    · exact (htarget _).bind fun e c => .pure
  -- `global` and `nonlocal`
  · rename_i hl
    exact hwords (by rw [hl]; rfl) start
  · rename_i hl
    exact hwords (by rw [hl]; rfl) start
  -- `import` and `from`
  · rename_i hl
    refine .advance (by rw [hl]; rfl) ?_
    exact (commaSeparated_nests _ fun c => aliased_nests c fun c => dottedName_nests c).bind
      fun names c => .spanned
  · rename_i hl
    exact importFrom_nests c start (by rw [hl]; rfl)
  · exact expressionStatement_nests c start

theorem withItem_nests : Nests opened opened withItem c := by
  refine (expr_nests _ .test c).bind fun context c => ?_
  exact (Nests.after rfl fun c => starOr_nests expr_nests c .bitOr).bind fun target c => .pure

theorem withItems_nests : Nests opened opened withItems c := by
  refine .sees ?_
  have hplain (c : Cursor) : Nests opened opened (commaSeparated withItem) c :=
    commaSeparated_nests c fun c => withItem_nests c
  split
  · refine .orElse (.opening ?_) (hplain c)
    refine (Nests.listUpTo (fun c => withItem_nests c) _).bind fun items c => .closing (.sees ?_)
    split
    · exact .fail _
    · exact .pure
  · exact hplain c

end Statements

end AsyncErasure.Grammar
