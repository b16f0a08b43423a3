import AsyncErasure.Proofs.Grammar.Reading
import AsyncErasure.Proofs.Tree.Formation

namespace AsyncErasure

def Level.slot : Level → Slot
  | .yielded | .tuple => .elements
  | _ => .plain

theorem Slot.inner_admits (slot : Slot) : slot.inner.Admits slot := ⟨id, nofun⟩

def Grammar.ParamItem.isFormed (hinted : Bool) : ParamItem → Bool
  | .slash | .star none => true
  | .star (some p) | .doubleStar p | .plain p => p.isFormed hinted

namespace Formed

theorem params_append {hinted : Bool} {a b : List Param} :
    params hinted (a ++ b) ↔ params hinted a ∧ params hinted b := by
  simp only [params_eq_true, List.forall_mem_append]

open Grammar (ParamItem)

theorem add_paramItem {hinted : Bool} {p : Parameters} {starred : Bool} {item : ParamItem}
    (hp : p.isFormed hinted) (hi : item.isFormed hinted) :
    (ParamItem.add (p, starred) item).1.isFormed hinted := by
  obtain ⟨posonly, args, vararg, kwonly, kwarg⟩ := p
  simp only [Parameters.isFormed, Bool.and_eq_true] at hp
  cases item with
  | plain param =>
    cases starred <;>
      simp_all [ParamItem.add, Parameters.isFormed, params_append, params, ParamItem.isFormed]
  | star vararg =>
    cases vararg <;> simp_all [ParamItem.add, Parameters.isFormed, ParamItem.isFormed, param?]
  | _ => simp_all [ParamItem.add, Parameters.isFormed, ParamItem.isFormed, param?, params]

theorem collect_paramItems {hinted : Bool} {items : List ParamItem}
    (h : ∀ item ∈ items, item.isFormed hinted) : (ParamItem.collect items).isFormed hinted := by
  suffices hfold : ∀ acc : Parameters × Bool, acc.1.isFormed hinted →
      (items.foldl ParamItem.add acc).1.isFormed hinted from hfold (.empty, false) rfl
  induction items with
  | nil => exact fun acc hacc => hacc
  | cons item items ih =>
    intro acc hacc
    rw [List.forall_mem_cons] at h
    exact ih h.2 _ (add_paramItem hacc h.1)

end Formed

namespace Grammar

open Rule Formed

abbrev Forms (slot : Slot) (p : Rule Expr) (c : Cursor) : Prop :=
  Obtains true (fun e => e.isFormed slot) p c

section

variable {self : Level → Rule Expr} (hself : ∀ level c, Forms level.slot (self level) c)
  (c : Cursor)
include hself

theorem starOr_forms (level : Level) : Forms level.slot (starOr self level) c := by
  refine .sees ?_
  split
  · rename_i hstar
    refine .place fun start => .advance (by rw [eq_of_beq hstar]; rfl) ?_
    exact (hself .bitOr _).bind fun value _ hv => .spanned fun _ => hv
  · exact hself level c

omit hself in
theorem itemOrTuple_forms {slot : Slot} (hbare : slot.bare) {closed : Lexeme → Bool}
    {item : Rule Expr} (hitem : ∀ c, Forms slot.inner item c) :
    Forms slot (itemOrTuple closed item) c := by
  refine .place fun start => (hitem c).bind fun first c hfirst => .sees ?_
  split
  · refine (Obtains.listTail hitem).next fun rest c hrest => .spanned fun _ => ?_
    simp [Expr.isFormed, hbare, exprs, exprs_eq_true, hfirst]
    exact hrest
  · exact .pure (Expr.isFormed_of_admits slot.inner_admits hfirst)

theorem starExpressions_forms : Forms .elements (starExpressions self) c :=
  itemOrTuple_forms c rfl fun c =>
    (starOr_forms hself c .test).weaken fun _ h => Expr.isFormed_of_plain h

theorem targetList_forms : Forms .targets (targetList self) c :=
  itemOrTuple_forms c rfl fun c =>
    (starOr_forms hself c .bitOr).weaken fun _ h => Expr.isFormed_of_plain h

theorem namedExpression_forms : Forms .plain (namedExpression self) c := by
  refine .peek (.peekSecond ?_)
  split
  · rename_i id hname hwalrus
    refine .second (by rw [hname]; rfl) fun hnext => .identified hname fun hid => ?_
    refine .place fun start => .advance (by rw [hname]; rfl) ?_
    refine .spanFrom fun span => .advance (by rw [← hnext, hwalrus]; rfl) ?_
    refine (hself .test _).bind fun value c hv => .spanned fun _ => ?_
    exact Bool.and_eq_true_iff.2 ⟨hid, hv⟩
  · exact hself .test c

theorem yieldExpression_forms : Forms .plain (yieldExpression self) c := by
  refine .place fun start => .expect rfl (.accept rfl (fun _ => ?_) fun _ => ?_)
  · exact (hself .test _).bind fun value c hv => .spanned fun _ => hv
  · refine .peek ?_
    have hvalue (value : Option Expr) (hv : expr? .elements value) (c : Cursor) :
        Obtains false (fun e : Expr => e.isFormed .plain)
          (spanFrom start >>= fun span => pure (.yield span value)) c := .spanned fun _ => hv
    dsimp only
    split
    · refine Obtains.bind ((hself .tuple _).map fun e h => ?_) fun value c hv => hvalue value hv c
      exact h
    · exact hvalue none rfl _

theorem param_forms (annotated : Bool) :
    Obtains true (fun p => p.isFormed annotated) (param self annotated) c := by
  have hdefault (id : String) (hid : isIdentifier id) (hint : Option Expr)
      (hh : ∀ x ∈ hint, annotated ∧ x.isFormed .plain) (c : Cursor) :
      Obtains false (fun p : Param => p.isFormed annotated) (do
        let default ← after Symbol.assign (self .test)
        return ⟨id, hint, default⟩) c := by
    refine (Obtains.after rfl fun c => hself .test c).next fun default c hd => .pure ?_
    simp only [Param.isFormed, hid, Bool.true_and, Bool.and_eq_true, expr?_eq_true]
    refine ⟨⟨?_, fun x hx => (hh x hx).2⟩, hd⟩
    cases hint with
    | none => simp
    | some x => simp [(hh x rfl).1]
  refine .name fun id hid => ?_
  split
  · rename_i hannotated
    refine (Obtains.after rfl fun c => hself .test c).next fun hint c hh => ?_
    exact hdefault id hid hint (fun x hx => ⟨hannotated, hh x hx⟩) c
  · exact hdefault id hid none nofun _

theorem paramItem_forms (close : Symbol) (annotated : Bool) :
    Obtains true (fun i => i.isFormed annotated) (paramItem self close annotated) c := by
  refine .accept rfl (fun _ => .pure rfl) fun _ => ?_
  refine .accept rfl (fun _ => ?_) fun _ => .accept rfl (fun _ => .sees (.sees ?_)) fun _ => ?_
  · exact (param_forms hself _ annotated).bind fun p c hp => .pure hp
  · split
    · exact .pure rfl
    · exact (param_forms hself _ annotated).bind fun p c hp => .pure hp
  · exact (param_forms hself _ annotated).bind fun p c hp => .pure hp

theorem parameters_forms (close : Symbol) (annotated : Bool) :
    Obtains false (fun p => p.isFormed annotated) (parameters self close annotated) c :=
  (Obtains.listUpTo fun c => paramItem_forms hself c close annotated).map
    fun _ h => collect_paramItems h

theorem lambda_forms : Forms .plain (lambda self) c := by
  refine .place fun start => .expect rfl ?_
  refine (parameters_forms hself _ .colon false).next fun params c hp => .expect rfl ?_
  refine (hself .test _).bind fun body c hb => .spanned fun _ => ?_
  exact Bool.and_eq_true_iff.2 ⟨hp, hb⟩

theorem expression_forms : Forms .plain (expression self) c := by
  refine .sees ?_
  split
  · exact lambda_forms hself c
  · refine .place fun start => (hself .disjunction c).bind fun body c hb => ?_
    refine .accept rfl (fun _ => ?_) fun _ => .pure hb
    refine (hself .disjunction _).bind fun test c ht => .expect rfl ?_
    refine (hself .test _).bind fun orelse c ho => .spanned fun _ => ?_
    exact Bool.and_eq_true_iff.2 ⟨Bool.and_eq_true_iff.2 ⟨ht, hb⟩, ho⟩

theorem boolLevel_forms (op : BoolOp) : Forms .plain (boolLevel self op) c := by
  have hlevel (c : Cursor) : Forms .plain (self op.level.next) c := by
    cases op <;> exact hself _ c
  refine .place fun start => (hlevel c).bind fun first c hfirst => .sees ?_
  split
  · rename_i hnext
    have hword : (op.keyword : Lexeme).isCode := rfl
    refine Obtains.next (Obtains.many_cons (fun c => .after hword hlevel)
      (.after_of_next hword (by simpa using hnext) hlevel)).relax fun rest c ⟨hne, hrest⟩ => ?_
    refine .spanned fun _ => ?_
    simp only [Expr.isFormed, Bool.and_eq_true, exprs_eq_true, List.forall_mem_cons]
    refine ⟨?_, hfirst, hrest⟩
    have := List.length_pos_iff.2 hne
    simp
    omega
  · exact .pure hfirst

theorem negation_forms : Forms .plain (negation self) c := by
  refine .sees ?_
  split
  · rename_i hnot
    refine .place fun start => .advance (by rw [eq_of_beq hnot]; rfl) ?_
    exact (hself .negation _).bind fun operand c ho => .spanned fun _ => ho
  · exact hself .comparison c

omit hself in
theorem comparisonOp_obtains : Obtains false (fun _ => True) comparisonOp c := by
  refine .peek ?_
  split
  · rename_i s hs
    split
    · exact .advance (by rw [hs]; rfl) (.pure trivial)
    · exact .pure trivial
  · rename_i hin
    exact .advance (by rw [hin]; rfl) (.pure trivial)
  · rename_i his
    refine .advance (by rw [his]; rfl) ?_
    exact .accept rfl (fun _ => .pure trivial) fun _ => .pure trivial
  · rename_i hnot
    refine .peekSecond ?_
    split
    · rename_i hin
      have hnot' : c.next.lexeme.isCode := by rw [hnot]; rfl
      refine .second hnot' fun hnext => .advance hnot' ?_
      refine .advance ?_ (.pure trivial)
      rw [← hnext, eq_of_beq hin]
      rfl
    · exact .pure trivial
  · exact .pure trivial

theorem comparison_forms : Forms .plain (comparison self) c := by
  refine .place fun start => (hself .bitOr c).bind fun left c hl => ?_
  refine (Obtains.many (P := fun link => link.isFormed) (fun c => ?_) c).next
    fun links c hlinks => ?_
  · refine (comparisonOp_obtains c).next fun op c _ => ?_
    cases op with
    | none => exact .pure nofun
    | some op =>
      exact (hself .bitOr c).bind fun e c he => .pure fun _ hlink => Option.some.inj hlink ▸ he
  · split
    · exact .pure hl
    · rename_i hne
      refine .spanned fun _ => ?_
      simp only [Expr.isFormed, Bool.and_eq_true, links_eq_true]
      exact ⟨⟨hl, by simpa using hne⟩, hlinks⟩

omit hself in
theorem binaryOp_looks (level : Level) :
    ∃ op, binaryOp level c = .ok (op, c) ∧ (op.isSome → ∃ s, c.next.lexeme = .symbol s) := by
  cases hl : c.next.lexeme with
  | symbol s =>
    exact ⟨_, by simp only [binaryOp, bind_apply, peek_apply, hl]; rfl, fun _ => ⟨s, rfl⟩⟩
  | _ => exact ⟨none, by simp [binaryOp, hl], nofun⟩

theorem binaryLevel_forms (level : Level) (hlevel : level.next.slot = .plain) :
    Forms .plain (binaryLevel self level) c := by
  have hnext (c : Cursor) : Forms .plain (self level.next) c := hlevel ▸ hself level.next c
  refine .place fun start => (hnext c).bind fun first c hfirst => ?_
  refine .grow (fun left c hl => .look (binaryOp_looks c level) fun op hop => ?_) hfirst
  cases op with
  | none => exact .pure nofun
  | some op =>
    refine .advance (isCode_of_symbol (hop rfl)) ?_
    refine (hnext _).bind fun right c hr => .spanned fun _ => ?_
    exact fun _ h => Option.some.inj h ▸ Bool.and_eq_true_iff.2 ⟨hl, hr⟩

omit hself in
theorem signOp_looks :
    ∃ op, signOp c = .ok (op, c) ∧ (op.isSome → ∃ s, c.next.lexeme = .symbol s) := by
  cases hl : c.next.lexeme with
  | symbol s => exact ⟨_, by simp only [signOp, bind_apply, peek_apply, hl]; rfl, fun _ => ⟨s, rfl⟩⟩
  | _ => exact ⟨none, by simp [signOp, hl], nofun⟩

theorem signed_forms : Forms .plain (signed self) c := by
  refine .look (signOp_looks c) fun op hop => ?_
  cases op with
  | none => exact hself .power c
  | some op =>
    refine .place fun start => .advance (isCode_of_symbol (hop rfl)) ?_
    exact (hself .signed _).bind fun operand c ho => .spanned fun _ => ho

theorem power_forms : Forms .plain (power self) c := by
  refine .place fun start => (hself .awaited c).bind fun base c hb => ?_
  refine .accept rfl (fun _ => ?_) fun _ => .pure hb
  refine (hself .signed _).bind fun exponent c he => .spanned fun _ => ?_
  exact Bool.and_eq_true_iff.2 ⟨hb, he⟩

theorem awaited_forms : Forms .plain (awaited self) c := by
  refine .sees ?_
  split
  · rename_i hawait
    refine .place fun start => .advance (by rw [eq_of_beq hawait]; rfl) ?_
    exact (hself .atom _).bind fun value c hv => .spanned fun _ => hv
  · exact hself .atom c

omit hself in
theorem startsClause_looks : ∃ starts, startsClause c = .ok (starts, c) := by
  cases hl : c.next.lexeme with
  | keyword k => cases k <;> simp [startsClause, hl]
  | _ => simp [startsClause, hl]

omit hself in
theorem startsClause_obtains {α : Type} {S : α → Prop} {must : Bool} {f : Bool → Rule α}
    (hyes : startsClause c = .ok (true, c) → Obtains must S (f true) c)
    (hno : Obtains must S (f false) c) : Obtains must S (startsClause >>= f) c := by
  obtain ⟨starts, hstarts⟩ := startsClause_looks c
  refine .look (P := fun b => b = starts) ⟨starts, hstarts, rfl⟩ fun b hb => ?_
  cases starts with
  | true => exact hb ▸ hyes hstarts
  | false => exact hb ▸ hno

theorem clause_forms : Obtains true (fun k => k.isFormed) (clause self) c := by
  refine .accept rfl (fun _ => ?_) fun _ => ?_
  all_goals
    refine .expect rfl ((targetList_forms hself _).bind fun target c ht => .expect rfl ?_)
    refine (hself .disjunction _).bind fun iter c hi => ?_
    refine (Obtains.many (fun c => .after rfl fun c => hself .disjunction c) c).next
      fun ifs c hifs => ?_
    refine .pure ?_
    simp only [Clause.isFormed, Bool.and_eq_true, exprs_eq_true]
    exact ⟨⟨ht, hi⟩, hifs⟩

/-- Where a clause starts, there is one. -/
theorem clauses_forms (hc : startsClause c = .ok (true, c)) :
    Obtains true (fun ks => ks ≠ [] ∧ Formed.clauses ks) (Grammar.clauses self) c := by
  refine (Obtains.many_cons (P := fun k => k.isFormed) (fun c => ?_) ?_).weaken fun ks hks => ?_
  · refine startsClause_obtains c (fun _ => ?_) (.pure nofun)
    exact (clause_forms hself c).bind fun k c hk => .pure fun _ h => Option.some.inj h ▸ hk
  · refine .look (P := (· = true)) ⟨true, hc, rfl⟩ fun starts hstarts => ?_
    rw [hstarts]
    exact (clause_forms hself c).bind fun k c hk => .pure ⟨k, rfl, hk⟩
  · exact ⟨hks.1, clauses_eq_true.2 hks.2⟩

theorem element_forms : Forms .plain (starOr self .named) c := starOr_forms hself c .named

theorem displayTail_forms (b : Bracket) {first : Expr} (hf : first.isFormed .plain) :
    Obtains true (fun elts => elts ≠ [] ∧ exprs .plain elts) (displayTail self b first) c := by
  refine (Obtains.listTail fun c => element_forms hself c).next fun rest c hrest => ?_
  refine .expect rfl (.pure ⟨List.cons_ne_nil first rest, ?_⟩)
  exact exprs_eq_true.2 (List.forall_mem_cons.2 ⟨hf, hrest⟩)

theorem parenthesized_forms : Forms .plain (parenthesized self) c := by
  refine .place fun start => .expect rfl (.accept rfl (fun _ => .spanned fun _ => rfl) fun _ => ?_)
  refine .sees ?_
  split
  · exact (yieldExpression_forms hself _).bind fun value c hv => .expect rfl (.pure hv)
  refine (element_forms hself _).bind fun first c hf => startsClause_obtains c (fun hc => ?_) ?_
  · refine (clauses_forms hself c hc).bind fun ks c ⟨hne, hks⟩ => .expect rfl (.spanned fun _ => ?_)
    simp [Expr.isFormed, hf, hne, hks]
  refine .accept rfl (fun _ => ?_) fun _ => ?_
  · rw [if_pos rfl]
    split
    · rename_i s elts bracketed
      refine .spanned fun _ => ?_
      cases bracketed with
      | true => exact hf
      | false => simp [Expr.isFormed, Slot.plain] at hf
    · exact .pure hf
  · exact (displayTail_forms hself c .round hf).bind fun elts c ⟨_, helts⟩ => .spanned
      fun _ => helts

theorem listDisplay_forms : Forms .plain (listDisplay self) c := by
  refine .place fun start => .expect rfl (.accept rfl (fun _ => .spanned fun _ => rfl) fun _ => ?_)
  refine (element_forms hself _).bind fun first c hf => startsClause_obtains c (fun hc => ?_) ?_
  · refine (clauses_forms hself c hc).bind fun ks c ⟨hne, hks⟩ => .expect rfl (.spanned fun _ => ?_)
    simp [Expr.isFormed, hf, hne, hks]
  · exact (displayTail_forms hself c .square hf).bind fun elts c ⟨_, helts⟩ => .spanned
      fun _ => helts

theorem dictItem_forms : Obtains true (fun i => i.isFormed) (dictItem self) c := by
  refine .accept rfl (fun _ => ?_) fun _ => ?_
  · exact (hself .bitOr _).bind fun value c hv => .pure (Bool.and_eq_true_iff.2 ⟨rfl, hv⟩)
  · refine (hself .test c).bind fun key c hk => .expect rfl ?_
    exact (hself .test _).bind fun value c hv => .pure (Bool.and_eq_true_iff.2 ⟨hk, hv⟩)

theorem dictItems_forms : Obtains true (fun is => items is) (dictItems self) c := by
  refine (Obtains.listUpTo fun c => dictItem_forms hself c).next fun is c his => .expect rfl ?_
  exact .pure (items_eq_true.2 his)

theorem dictTail_forms {first : DictItem} (hf : first.isFormed) :
    Obtains true (fun is => items is) (dictTail self first) c := by
  refine .accept rfl (fun _ => ?_) fun _ => .expect rfl (.pure ?_)
  · refine (dictItems_forms hself _).bind fun is c his => .pure ?_
    exact Bool.and_eq_true_iff.2 ⟨hf, his⟩
  · exact Bool.and_eq_true_iff.2 ⟨hf, rfl⟩

theorem braceDisplay_forms : Forms .plain (braceDisplay self) c := by
  refine .place fun start => .expect rfl (.accept rfl (fun _ => .spanned fun _ => rfl) fun _ => ?_)
  refine .sees ?_
  split
  · exact (dictItems_forms hself _).bind fun is c his => .spanned fun _ => his
  refine (element_forms hself _).bind fun first c hf => .accept rfl (fun _ => ?_) fun _ => ?_
  · refine (hself .test _).bind fun value c hv => startsClause_obtains c (fun hc => ?_) ?_
    · refine (clauses_forms hself c hc).bind fun ks c ⟨hne, hks⟩ =>
        .expect rfl (.spanned fun _ => ?_)
      simp only [Expr.isFormed, Bool.and_eq_true]
      exact ⟨⟨⟨hf, hv⟩, by simpa using hne⟩, hks⟩
    · refine (dictTail_forms hself c ?_).bind fun is c his => .spanned fun _ => his
      exact Bool.and_eq_true_iff.2 ⟨hf, hv⟩
  refine startsClause_obtains c (fun hc => ?_) ?_
  · refine (clauses_forms hself c hc).bind fun ks c ⟨hne, hks⟩ => .expect rfl (.spanned fun _ => ?_)
    simp [Expr.isFormed, hf, hne, hks]
  · refine (displayTail_forms hself c .curly hf).bind fun elts c ⟨hne, helts⟩ => .spanned
      fun _ => ?_
    simp [Expr.isFormed, hne, helts]

omit hself in
theorem stringPart_obtains : Obtains false (fun o => ∀ text ∈ o, True) stringPart c := by
  refine .peek ?_
  split
  · rename_i text hs
    exact .advance (by rw [hs]; rfl) (.pure fun _ _ => trivial)
  · exact .pure nofun

theorem atom_forms : Forms .plain (atom self) c := by
  have hconstant (start : Place) (value : Constant) (hl : c.next.lexeme.isCode) :
      Forms .plain (do
        advance
        return .constant (← spanFrom start) value) c :=
    .advance hl (.spanned fun _ => rfl)
  refine .place fun start => .peek ?_
  split
  · rename_i hl
    exact hconstant start .none (by rw [hl]; rfl)
  · rename_i hl
    exact hconstant start .true (by rw [hl]; rfl)
  · rename_i hl
    exact hconstant start .false (by rw [hl]; rfl)
  · rename_i id hl
    exact .identified hl fun hid => .advance (by rw [hl]; rfl) (.spanned fun _ => hid)
  · rename_i text hl
    exact hconstant start (.number text) (by rw [hl]; rfl)
  · rename_i text hl
    refine Obtains.bind (Obtains.many_cons stringPart_obtains ?_) fun parts c ⟨hne, _⟩ => ?_
    · refine .peek ?_
      rw [hl]
      exact .advance (by rw [hl]; rfl) (.pure ⟨text, rfl, trivial⟩)
    · exact .spanned fun _ => by simpa [Expr.isFormed] using hne
  · rename_i hl
    exact hconstant start .ellipsis (by rw [hl]; rfl)
  · exact parenthesized_forms hself c
  · exact listDisplay_forms hself c
  · exact braceDisplay_forms hself c
  · exact .fail _

theorem callArgument_forms :
    Obtains true (fun x => x.elim (·.isFormed .plain) (·.isFormed)) (callArgument self) c := by
  refine .place fun start => .accept rfl (fun _ => ?_) fun _ => .accept rfl (fun _ => ?_)
    fun _ => ?_
  · exact (hself .test _).bind fun value c hv => .pure (Bool.and_eq_true_iff.2 ⟨rfl, hv⟩)
  · exact (hself .test _).bind fun value c hv => .spanned fun _ => hv
  refine .peek (.peekSecond ?_)
  split
  · rename_i hword
    refine .second ?_ fun hnext => ?_
    · cases hl : c.next.lexeme <;>
        simp_all [Lexeme.isWord, Lexeme.isCode, Lexeme.isLayout, Lexeme.isComment]
    refine .name fun id hid => .advance ?_ ?_
    · have hassign : c.second.lexeme = .symbol .assign := by simp_all
      rw [← hnext, hassign]
      rfl
    · refine (hself .test _).bind fun value c hv => .pure (Bool.and_eq_true_iff.2 ⟨hid, hv⟩)
  · refine (hself .named c).bind fun value c hv => startsClause_obtains c (fun hc => ?_) (.pure hv)
    refine (clauses_forms hself c hc).bind fun ks c hks => .spanned fun _ => ?_
    simp [Expr.isFormed, hks.1, hks.2]
    exact hv

theorem callArguments_forms :
    Obtains false (fun r => exprs .plain r.1 ∧ arguments r.2) (callArguments self) c := by
  refine (Obtains.listUpTo fun c => callArgument_forms hself c).map fun args hargs => ?_
  rw [exprs_eq_true, arguments_eq_true]
  constructor
  · intro e he
    obtain ⟨x, hx, hxe⟩ := List.mem_filterMap.1 he
    cases x with
    | inl e' => exact Option.some.inj hxe ▸ hargs _ hx
    | inr a => cases hxe
  · intro a ha
    obtain ⟨x, hx, hxa⟩ := List.mem_filterMap.1 ha
    cases x with
    | inl e => cases hxa
    | inr a' => exact Option.some.inj hxa ▸ hargs _ hx

omit hself in
/-- A bound of a slice that may be missing. -/
theorem bound_forms {p : Rule Expr} (hp : ∀ c, Forms .plain p c)
    {f : Option Expr → Rule Expr} {S : Expr → Prop} (missing : Bool)
    (hf : ∀ o c, expr? .plain o → Obtains false S (f o) c) :
    Obtains false S (if missing then pure none >>= f else (some <$> p) >>= f) c := by
  cases missing with
  | true => exact hf none c rfl
  | false => exact Obtains.bind ((hp c).map fun e he => he) fun o c ho => hf o c ho

def sliceRest (self : Level → Rule Expr) (start : Place) (lower : Option Expr) : Rule Expr := do
  if ← accept Symbol.colon then
    let upper ← if endsBound (← peek) then pure none else some <$> self .test
    let step ← if ← accept Symbol.colon then
        let next ← peek
        if next == Symbol.comma || closes .square next then pure none else some <$> self .test
      else pure none
    return .slice (← spanFrom start) lower upper step
  else
    match lower with
    | some e => return e
    | none => fail .invalid

theorem sliceRest_forms {start : Place} {lower : Option Expr} (hl : expr? .plain lower) :
    Obtains lower.isNone (fun e => e.isFormed Slot.index.inner) (sliceRest self start lower) c := by
  have hdone (upper step : Option Expr) (hu : expr? .plain upper) (hs : expr? .plain step)
      (c : Cursor) : Obtains false (fun e : Expr => e.isFormed Slot.index.inner)
        (spanFrom start >>= fun span => pure (.slice span lower upper step)) c :=
    .spanned fun _ => by simp [Expr.isFormed, Slot.index, Slot.inner, hl, hu, hs]
  refine .accept rfl (fun _ => .peek ?_) fun _ => ?_
  · dsimp only
    refine bound_forms c.advance (hself .test) _ fun upper c hu => ?_
    refine .accept rfl (fun _ => .peek ?_) fun _ => hdone upper none hu rfl _
    exact bound_forms c.advance (hself .test) _ fun step c hs => hdone upper step hu hs c
  · cases lower with
    | none => exact .fail _
    | some e => exact .pure (Expr.isFormed_of_plain hl)

theorem sliceItem_forms : Forms Slot.index.inner (sliceItem self) c := by
  refine .place fun start => .sees ?_
  split
  · exact (starOr_forms hself c .test).weaken fun _ h => Expr.isFormed_of_plain h
  refine .sees ?_
  split
  · have hlower : expr? .plain none := rfl
    exact sliceRest_forms hself c hlower
  · exact Obtains.bind ((hself .named c).map fun e he => he) fun lower c hl =>
      (sliceRest_forms hself c hl).relax

theorem slices_forms : Forms .index (slices self) c :=
  itemOrTuple_forms c rfl fun c => sliceItem_forms hself c

theorem primary_forms : Forms .plain (primary self) c := by
  refine .place fun start => (atom_forms hself c).bind fun first c hfirst => ?_
  refine .grow (fun value c hv => ?_) hfirst
  have hsome {e : Expr} (he : e.isFormed .plain) : ∀ b ∈ some e, b.isFormed .plain :=
    fun _ h => Option.some.inj h ▸ he
  refine .accept rfl (fun _ => ?_) fun _ => .accept rfl (fun _ => ?_) fun _ =>
    .accept rfl (fun _ => ?_) fun _ => .pure nofun
  · exact .name fun field hf => .spanned fun _ => hsome (Bool.and_eq_true_iff.2 ⟨hv, hf⟩)
  · refine (callArguments_forms hself _).next fun args c ⟨ha, hk⟩ =>
      .expect rfl (.spanned fun _ => ?_)
    exact hsome (Bool.and_eq_true_iff.2 ⟨Bool.and_eq_true_iff.2 ⟨hv, ha⟩, hk⟩)
  · refine (slices_forms hself _).bind fun index c hi => .expect rfl (.spanned fun _ => ?_)
    exact hsome (Bool.and_eq_true_iff.2 ⟨hv, hi⟩)

theorem parseLevel_forms (level : Level) : Forms level.slot (parseLevel self level) c := by
  cases level with
  | named => exact namedExpression_forms hself c
  | yielded =>
    refine .sees ?_
    split
    · exact (yieldExpression_forms hself c).weaken fun _ h => Expr.isFormed_of_plain h
    · exact hself .tuple c
  | tuple => exact starExpressions_forms hself c
  | test => exact expression_forms hself c
  | disjunction => exact boolLevel_forms hself c .or
  | conjunction => exact boolLevel_forms hself c .and
  | negation => exact negation_forms hself c
  | comparison => exact comparison_forms hself c
  | bitOr | bitXor | bitAnd | shift | sum | product => exact binaryLevel_forms hself c _ rfl
  | signed => exact signed_forms hself c
  | power => exact power_forms hself c
  | awaited => exact awaited_forms hself c
  | atom => exact primary_forms hself c

end

theorem parseAt_forms (depth : Nat) (level : Level) (c : Cursor) :
    Forms level.slot (parseAt depth level) c := by
  induction depth generalizing level c with
  | zero => exact .fail _
  | succ depth ih => exact parseLevel_forms ih c level

/-- What is read as an expression is formed, and it is not read out of nothing. -/
theorem expr_forms (level : Level) (c : Cursor) : Forms level.slot (expr level) c := by
  intro hs e c' hc
  exact parseAt_forms _ level c hs e c' hc

end Grammar

end AsyncErasure
