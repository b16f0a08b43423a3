import AsyncErasure.Proofs.Grammar.Formation
import AsyncErasure.Proofs.Grammar.Parameter
import AsyncErasure.Proofs.Tree.Leaf

namespace AsyncErasure.Grammar

open Rule Cursor Leaf

def gathered (read : List Token) : Multiset Lexeme :=
  ((read.map Token.lexeme).filter Lexeme.isLeaf : List Lexeme)

@[simp] theorem gathered_nil : gathered [] = 0 := rfl

@[simp] theorem gathered_append (a b : List Token) :
    gathered (a ++ b) = gathered a + gathered b := by
  simp [gathered]

theorem gathered_cons (t : Token) (read : List Token) :
    gathered (t :: read) = gathered [t] + gathered read := gathered_append [t] read

/-- The lexemes that leave no trace in the leaves and that a rule may pass. -/
def silent : Lexeme → Bool
  | .name _ | .number _ | .string _ | .endMarker => false
  | _ => true

theorem silent_iff {l : Lexeme} : silent l ↔ l.isLeaf = false ∧ l ≠ .endMarker := by
  cases l <;> simp [silent, Lexeme.isLeaf]

theorem silent_of_symbol {l : Lexeme} : (∃ s, l = .symbol s) → silent l := by
  rintro ⟨s, rfl⟩
  rfl

theorem gathered_silent {t : Token} (h : silent t.lexeme) : gathered [t] = 0 := by
  simp [gathered, (silent_iff.1 h).1]

theorem gathered_leaf {t : Token} {l : Lexeme} (hl : t.lexeme = l) (h : l.isLeaf) :
    gathered [t] = {l} := by
  simp [gathered, hl, h]

inductive ParameterList : List Token → List ParamItem → Prop
  | function (before : List Token) {d n b : Token} {id : String} {c c' : Cursor}
    {items : List ParamItem} : d.lexeme = .keyword .def_ → n.lexeme = .name id →
    b.lexeme = .symbol (.opening .round) →
    paramItems expr (.closing .round) true c = .ok (items, c') →
    ParameterList (before ++ d :: n :: b :: c.tokens) items
  | lambda (before : List Token) {t : Token} {depth : Nat} {c c' : Cursor}
    {items : List ParamItem} : t.lexeme = .keyword .lambda_ →
    paramItems (parseAt depth) .colon false c = .ok (items, c') →
    ParameterList (before ++ t :: c.tokens) items

theorem ParameterList.behind {tokens : List Token} {items : List ParamItem}
    (h : ParameterList tokens items) (read : List Token) :
    ParameterList (read ++ tokens) items := by
  cases h with
  | function before hd hn hb hitems =>
    rw [← List.append_assoc]
    exact .function _ hd hn hb hitems
  | lambda before ht hitems =>
    rw [← List.append_assoc]
    exact .lambda _ ht hitems

/-- No parameter list among the tokens has two slashes, two starred or two doubly starred
parameters. -/
def SingleLists (tokens : List Token) : Prop :=
  ∀ items, ParameterList tokens items → ParamItem.areSingle items

theorem SingleLists.rest (read : List Token) {tokens : List Token}
    (h : SingleLists (read ++ tokens)) : SingleLists tokens :=
  fun items hitems => h items (hitems.behind read)

variable {α β : Type} {p : Rule α} {f : α → Rule β} {c : Cursor}

/-- Whenever the rule succeeds at the cursor, the leaves that were there before and those that it
has read are the leaves of its result. -/
def Gathers (before : Multiset Lexeme) (leaves : α → Multiset Lexeme) (p : Rule α) (c : Cursor) :
    Prop :=
  SingleLists c.tokens → Accounts (fun read a => before + gathered read = leaves a) p c

namespace Gathers

variable {before : Multiset Lexeme} {L : α → Multiset Lexeme} {M : β → Multiset Lexeme}

theorem pure {a : α} (h : before = L a) : Gathers before L (Pure.pure a) c := fun _ =>
  Accounts.pure (by rw [gathered_nil, add_zero, h])

theorem fail (fault : Fault) : Gathers before L (Rule.fail fault) c := fun _ => Accounts.fail fault

theorem congr {q : Rule α} (h : Gathers before L p c) (hq : q c = p c) : Gathers before L q c :=
  fun hs => (h hs).congr hq

theorem weaken {L' : α → Multiset Lexeme} (h : Gathers before L p c) (hL : ∀ a, L a = L' a) :
    Gathers before L' p c := fun hl =>
  (h hl).mono fun _ a hr => hr.trans (hL a)

/-- Beside leaves that the rule leaves alone. -/
theorem frame (h : Gathers before L p c) (others : Multiset Lexeme) :
    Gathers (others + before) (fun a => others + L a) p c := fun hl =>
  (h hl).mono fun _ _ hr => (add_assoc ..).trans (congrArg (others + ·) hr)

theorem alone (h : Gathers 0 L p c) : Gathers before (fun a => before + L a) p c := by
  simpa using h.frame before

/-- A rule whose result is known to have a property. -/
theorem knowing {P : α → Prop} {must : Bool} (ho : Obtains must P p c) (hp : Gathers before L p c)
    (hf : ∀ a c', P a → Gathers (L a) M (f a) c') : Gathers before M (p >>= f) c := by
  intro hl hs b c' hc
  obtain ⟨a, m, ha, hb⟩ := eq_ok_of_bind hc
  obtain ⟨read, hm, hr⟩ := hp hl hs a m ha
  obtain ⟨-, -, -, -, hP⟩ := ho hs a m ha
  have hrest : SingleLists m.tokens := SingleLists.rest _ (hm.tokens_eq ▸ hl)
  obtain ⟨more, hm', hr'⟩ := hf a m hP hrest (hs.rest hm) b c' hb
  exact ⟨read ++ more, hm.trans hm', by simp only [gathered_append, ← add_assoc, hr, hr']⟩

/-- One rule on top of another. -/
theorem next (hp : Gathers before L p c) (hf : ∀ a c', Gathers (L a) M (f a) c') :
    Gathers before M (p >>= f) c := by
  intro hl
  refine (hp hl).bind fun a read c' hm hr => ?_
  have hrest : SingleLists c'.tokens := SingleLists.rest _ (hm.tokens_eq ▸ hl)
  exact (hf a c' hrest).mono fun more b hb => by rw [gathered_append, ← add_assoc, hr, hb]

/-- One rule beside another. -/
theorem bind (hp : Gathers 0 L p c) (hf : ∀ a c', Gathers (before + L a) M (f a) c') :
    Gathers before M (p >>= f) c := next hp.alone hf

theorem map {g : α → β} (hp : Gathers before L p c) (hg : ∀ a, L a = M (g a)) :
    Gathers before M (g <$> p) c := by
  rw [map_eq_pure_bind]
  exact hp.next fun a _ => pure (hg a)

theorem peek {f : Lexeme → Rule β} (h : Gathers before M (f c.next.lexeme) c) :
    Gathers before M (Rule.peek >>= f) c := h

theorem peekSecond {f : Lexeme → Rule β} (h : Gathers before M (f c.second.lexeme) c) :
    Gathers before M (Rule.peekSecond >>= f) c := h

theorem sees {l : Lexeme} {f : Bool → Rule β} (h : Gathers before M (f (c.next.lexeme == l)) c) :
    Gathers before M (Rule.sees l >>= f) c := h

theorem place {f : Place → Rule β} (h : ∀ start, Gathers before M (f start) c) :
    Gathers before M (Rule.place >>= f) c := h c.next.span.start

theorem get {f : Cursor → Rule β} (h : Gathers before M (f c) c) :
    Gathers before M (MonadState.get >>= f) c := h

theorem spanFrom {start : Place} {f : Span → Rule β} (h : ∀ span, Gathers before M (f span) c) :
    Gathers before M (Rule.spanFrom start >>= f) c := h ⟨start, c.reached⟩

/-- What is made from the span of what has been read. -/
theorem spanned {start : Place} {make : Span → β} (h : ∀ span, before = M (make span)) :
    Gathers before M (Rule.spanFrom start >>= fun span => Pure.pure (make span)) c :=
  spanFrom fun span => pure (h span)

/-- A node, with the leaves of its parts. -/
theorem node {start : Place} {make : Span → Expr} (h : ∀ span, before = parts (make span)) :
    Gathers before ofExpr (Rule.spanFrom start >>= fun span => Pure.pure (make span)) c :=
  spanned fun span => (h span).trans (ofExpr_eq _).symm

/-- First a rule that only looks at what comes next. -/
theorem look {P : α → Prop} (hp : ∃ a, p c = .ok (a, c) ∧ P a)
    (hf : ∀ a, P a → Gathers before M (f a) c) : Gathers before M (p >>= f) c := by
  obtain ⟨a, ha, hP⟩ := hp
  intro hl hs b c' hc
  rw [bind_apply, ha] at hc
  exact hf a hP hl hs b c' hc

theorem startsClause {f : Bool → Rule β} (h : ∀ starts, Gathers before M (f starts) c) :
    Gathers before M (Grammar.startsClause >>= f) c := by
  obtain ⟨starts, hstarts⟩ := startsClause_looks c
  exact look (P := fun _ => True) ⟨starts, hstarts, trivial⟩ fun starts _ => h starts

/-- The second token comes next when the first one is passed. -/
theorem second (hne : c.next.lexeme ≠ .endMarker)
    (h : c.second = c.advance.next → Gathers before L p c) : Gathers before L p c := fun hl hs =>
  h (second_of_later (hs.later_ne_nil hne)) hl hs

/-- Past a token of any kind. -/
theorem pass {f : Unit → Rule β} (hne : c.next.lexeme ≠ .endMarker)
    (h : c.tokens = c.next :: c.advance.tokens →
      Gathers (before + gathered [c.next]) M (f ()) c.advance) :
    Gathers before M (Rule.advance >>= f) c := by
  intro hl hs
  have htokens := tokens_advance (hs.later_ne_nil hne)
  rw [htokens] at hl
  have hrest : SingleLists c.advance.tokens := SingleLists.rest [c.next] hl
  refine Accounts.advance hne ((h htokens hrest).mono fun more b hb => ?_) hs
  rw [gathered_cons, ← add_assoc, hb]

theorem advance {f : Unit → Rule β} (hl : silent c.next.lexeme)
    (h : Gathers before M (f ()) c.advance) : Gathers before M (Rule.advance >>= f) c :=
  pass (silent_iff.1 hl).2 fun _ => by rwa [gathered_silent hl, add_zero]

/-- Past a leaf. -/
theorem take {f : Unit → Rule β} {l : Lexeme} (hc : c.next.lexeme = l) (hl : l.isLeaf)
    (h : Gathers (before + {l}) M (f ()) c.advance) : Gathers before M (Rule.advance >>= f) c := by
  refine pass ?_ fun _ => by rwa [gathered_leaf hc hl]
  rintro hend
  rw [← hc, hend] at hl
  cases hl

/-- A rule that does the same at the cursor. -/
theorem of_eq {q : Rule α} (h : p c = q c) (hq : Gathers before L q c) : Gathers before L p c :=
  fun hl hs a c' hc => hq hl hs a c' (h ▸ hc)

theorem accept {l : Lexeme} {f : Bool → Rule β} (hl : silent l)
    (hyes : c.next.lexeme = l → Gathers before M (f true) c.advance)
    (hno : c.next.lexeme ≠ l → Gathers before M (f false) c) :
    Gathers before M (Rule.accept l >>= f) c := by
  by_cases h : c.next.lexeme = l
  · refine of_eq (q := Rule.advance >>= fun _ => f true) (by simp [h]) (advance (h ▸ hl) (hyes h))
  · exact of_eq (q := f false) (by simp [h]) (hno h)

theorem accepted {l : Lexeme} (hl : silent l) : Gathers 0 (fun _ => 0) (Rule.accept l) c :=
  bind_pure (Rule.accept l) ▸ accept hl (fun _ => pure rfl) fun _ => pure rfl

theorem expect {l : Lexeme} {f : Unit → Rule β} (hl : silent l)
    (h : c.next.lexeme = l → c.tokens = c.next :: c.advance.tokens →
      Gathers before M (f ()) c.advance) : Gathers before M (Rule.expect l >>= f) c := by
  by_cases hc : c.next.lexeme = l
  · refine of_eq (q := Rule.advance >>= f) (by simp [expect_apply l c hc]) (pass ?_ fun ht => ?_)
    · exact hc ▸ (silent_iff.1 hl).2
    · rw [gathered_silent (hc ▸ hl), add_zero]
      exact h hc ht
  · exact of_eq (q := Rule.fail (.expected l) >>= f) (by simp [Rule.expect, hc])
      fun _ _ _ _ => nofun

theorem name {f : String → Rule β}
    (h : ∀ id, c.next.lexeme = .name id → c.tokens = c.next :: c.advance.tokens →
      Gathers (before + {.name id}) M (f id) c.advance) :
    Gathers before M (Rule.name >>= f) c := by
  cases hl : c.next.lexeme with
  | name id =>
    refine of_eq (q := Rule.advance >>= fun _ => f id) (by simp [name_apply hl])
      (pass ?_ fun ht => ?_)
    · simp [hl]
    · rw [gathered_leaf hl rfl]
      exact h id hl ht
  | _ =>
    exact of_eq (q := Rule.fail .expectedName >>= f) (by simp [Rule.name, hl])
      fun _ _ _ _ => nofun

theorem identifier : Gathers 0 (fun id => {Lexeme.name id}) Rule.name c :=
  bind_pure Rule.name ▸ name fun _ _ _ => pure (zero_add _)

theorem after {l : Lexeme} (hl : silent l) (hp : ∀ c, Gathers 0 L p c) :
    Gathers 0 (fun o => total L o.toList) (Rule.after l p) c := by
  refine accept hl (fun _ => ?_) fun _ => pure rfl
  exact (hp c.advance).bind fun a _ => pure (by simp)

/-- A part that may be missing. -/
theorem optional {f : Option α → Rule β} (hp : Gathers 0 L p c) (missing : Bool)
    (hf : ∀ o c, Gathers (before + total L o.toList) M (f o) c) :
    Gathers before M (if missing then Pure.pure none >>= f else (some <$> p) >>= f) c := by
  cases missing with
  | true => simpa using hf none c
  | false => exact bind (hp.map fun a => by simp) fun o c => hf o c

theorem orElse {q : Rule α} (hp : Gathers before L p c) (hq : Gathers before L q c) :
    Gathers before L (Rule.orElse p q) c := fun hl => (hp hl).orElse (hq hl)

section Loop

variable {p : Rule (Option α)} (hp : ∀ c, Gathers 0 (fun o => total L o.toList) p c)
include hp

theorem takeItems (n : Nat) (c : Cursor) : Gathers 0 (total L) (Rule.takeItems p n) c := by
  induction n generalizing c with
  | zero => exact pure rfl
  | succ n ih =>
    refine (hp c).bind fun o c' => ?_
    cases o with
    | none => exact pure rfl
    | some a => exact (ih c').bind fun as _ => pure (by simp)

theorem many (c : Cursor) : Gathers 0 (total L) (Rule.many p) c := takeItems hp c.size c

end Loop

theorem grow {p : α → Rule (Option α)}
    (hp : ∀ a c, Gathers (L a) (fun o => L (o.getD a)) (p a) c) (a : α) (c : Cursor) :
    Gathers (L a) L (Rule.grow p a) c := by
  suffices h : ∀ n a c, Gathers (L a) L (growTimes p n a) c from h c.size a c
  intro n
  induction n with
  | zero => exact fun a c => pure rfl
  | succ n ih =>
    refine fun a c => (hp a c).next fun o c' => ?_
    cases o with
    | none => exact pure rfl
    | some b => exact ih b c'

theorem listUpTo {closed : Lexeme → Bool} {item : Rule α} (hitem : ∀ c, Gathers 0 L item c)
    (c : Cursor) : Gathers 0 (total L) (Rule.listUpTo closed item) c := by
  suffices h : ∀ n c, Gathers 0 (total L) (listUpTo.go closed item n) c from h c.size c
  intro n
  induction n with
  | zero => exact fun c => pure rfl
  | succ n ih =>
    refine fun c => peek ?_
    split
    · exact pure rfl
    · refine (hitem c).bind fun a c' => accept rfl (fun _ => ?_) fun _ => pure (by simp)
      exact (ih c'.advance).bind fun as _ => pure (by simp)

theorem listTail {closed : Lexeme → Bool} {item : Rule α} (hitem : ∀ c, Gathers 0 L item c)
    (c : Cursor) : Gathers 0 (total L) (Rule.listTail closed item) c := by
  refine many (fun c => accept rfl (fun _ => peek ?_) fun _ => ?_) c
  · split
    · exact pure rfl
    · exact (hitem _).bind fun a _ => pure (by simp)
  · exact pure rfl

end Gathers

def ofParamItem (item : ParamItem) : Multiset Lexeme := total ofParam item.param?.toList

theorem total_ofParamItem (items : List ParamItem) :
    total ofParamItem items = total ofParam (items.filterMap ParamItem.param?) := by
  induction items with
  | nil => rfl
  | cons item items ih =>
    rw [total_cons, ih, List.filterMap_cons, ofParamItem]
    cases item.param? <;> simp

/-- Items that keep all their parameters keep all their leaves. -/
theorem ofParameters_collect {items : List ParamItem} (h : ParamItem.keepAll items) :
    total ofParamItem items = ofParameters (ParamItem.collect items) := by
  rw [total_ofParamItem, ofParameters, total, total, ← Multiset.sum_coe, ← Multiset.sum_coe]
  exact congrArg Multiset.sum
    (Multiset.coe_eq_coe.2 (((ParamItem.all_collect_iff items).2 h).symm.map ofParam))

theorem total_splitArguments (args : List (Expr ⊕ Argument)) :
    total (Sum.elim ofExpr ofArgument) args =
      total ofExpr (splitArguments args).1 + total ofArgument (splitArguments args).2 := by
  induction args with
  | nil => rfl
  | cons x args ih =>
    simp only [splitArguments] at ih
    rw [total_cons, ih]
    cases x <;> simp only [splitArguments, List.filterMap_cons, Sum.getLeft?, Sum.getRight?,
      total_cons, Sum.elim_inl, Sum.elim_inr] <;> abel

section

variable {self : Level → Rule Expr} (hself : ∀ level c, Gathers 0 ofExpr (self level) c)
  (c : Cursor)
include hself

theorem starOr_gathers (level : Level) : Gathers 0 ofExpr (starOr self level) c := by
  refine .sees ?_
  split
  · rename_i hstar
    refine .place fun start => .advance (by rw [eq_of_beq hstar]; rfl) ?_
    exact (hself .bitOr _).bind fun value c => .node fun _ => zero_add _
  · exact hself level c

omit hself in
theorem itemOrTuple_gathers {closed : Lexeme → Bool} {item : Rule Expr}
    (hitem : ∀ c, Gathers 0 ofExpr item c) : Gathers 0 ofExpr (itemOrTuple closed item) c := by
  refine .place fun start => (hitem c).bind fun first c => .sees ?_
  split
  · exact (Gathers.listTail hitem c).bind fun rest c => .node fun _ => by simp [parts]
  · exact .pure (zero_add _)

theorem starExpressions_gathers : Gathers 0 ofExpr (starExpressions self) c :=
  itemOrTuple_gathers c fun c => starOr_gathers hself c .test

theorem targetList_gathers : Gathers 0 ofExpr (targetList self) c :=
  itemOrTuple_gathers c fun c => starOr_gathers hself c .bitOr

theorem namedExpression_gathers : Gathers 0 ofExpr (namedExpression self) c := by
  refine .peek (.peekSecond ?_)
  split
  · rename_i id hname hwalrus
    refine .second (by simp [hname]) fun hnext => .place fun start => .take hname rfl ?_
    refine .spanFrom fun span => .advance (by rw [← hnext, hwalrus]; rfl) ?_
    refine (hself .test _).bind fun value c => .node fun _ => ?_
    rw [parts, ofExpr_eq (.name span id), parts, zero_add]
  · exact hself .test c

theorem yieldExpression_gathers : Gathers 0 ofExpr (yieldExpression self) c := by
  refine .place fun start => .expect rfl fun _ _ => .accept rfl (fun _ => ?_) fun _ => .peek ?_
  · exact (hself .test _).bind fun value c => .node fun _ => zero_add _
  · dsimp only
    split
    · refine Gathers.bind (L := fun o => total ofExpr o.toList)
        ((hself .tuple _).map fun e => by simp) fun value c => ?_
      exact .node fun _ => zero_add _
    · show Gathers 0 ofExpr (spanFrom start >>= fun span => pure (.yield span none)) _
      exact .node fun _ => rfl

theorem param_gathers (annotated : Bool) : Gathers 0 ofParam (param self annotated) c := by
  have hdefault (id : String) (hint : Option Expr) (c : Cursor) :
      Gathers ({.name id} + total ofExpr hint.toList) ofParam (do
        let default ← after Symbol.assign (self .test)
        return ⟨id, hint, default⟩) c :=
    (Gathers.after rfl fun c => hself .test c).bind fun default c => .pure (add_assoc ..)
  refine .name fun id _ _ => ?_
  rw [zero_add]
  split
  · exact (Gathers.after rfl fun c => hself .test c).bind fun hint c => hdefault id hint c
  · simpa using hdefault id none c.advance

theorem paramItem_gathers (close : Symbol) (annotated : Bool) :
    Gathers 0 ofParamItem (paramItem self close annotated) c := by
  have hparam (make : Param → ParamItem) (hmake : ∀ p, (make p).param? = some p) (c : Cursor) :
      Gathers 0 ofParamItem (do return make (← param self annotated)) c :=
    (param_gathers hself c annotated).bind fun p c => .pure (by simp [ofParamItem, hmake])
  refine .accept rfl (fun _ => .pure rfl) fun _ => .accept rfl (fun _ => ?_) fun _ =>
    .accept rfl (fun _ => .sees (.sees ?_)) fun _ => ?_
  · exact hparam .doubleStar (fun _ => rfl) _
  · split
    · exact .pure rfl
    · exact hparam (fun p => .star (some p)) (fun _ => rfl) _
  · exact hparam .plain (fun _ => rfl) _

/-- Parameters gather all that is read, if none of them takes the place of another. -/
theorem parameters_gathers {close : Symbol} {annotated : Bool}
    (hsingle : ∀ items c', paramItems self close annotated c = .ok (items, c') →
      ParamItem.areSingle items) :
    Gathers 0 ofParameters (parameters self close annotated) c := by
  intro hl hs ps c' hc
  rw [parameters_eq, map_eq_pure_bind] at hc
  obtain ⟨items, m, hitems, hdone⟩ := eq_ok_of_bind hc
  cases hdone
  obtain ⟨read, hm, hr⟩ :=
    Gathers.listUpTo (fun c => paramItem_gathers hself c close annotated) c hl hs items _ hitems
  have hkeep := ParamItem.keepAll_of_areSingle (hsingle items _ hitems)
  exact ⟨read, hm, hr.trans (ofParameters_collect hkeep)⟩

theorem lambda_gathers (htied : ∃ depth, self = parseAt depth) :
    Gathers 0 ofExpr (lambda self) c := by
  obtain ⟨depth, rfl⟩ := htied
  intro hlists
  refine (Gathers.place fun start => .expect rfl fun hl ht => ?_ : Gathers 0 ofExpr _ c) hlists
  refine (parameters_gathers hself _ fun items c' hitems => ?_).bind fun params c => ?_
  · refine hlists items ?_
    rw [ht]
    exact ParameterList.lambda [] hl hitems
  · refine .expect rfl fun _ _ => (hself .test _).bind fun body c => .node fun _ => ?_
    rw [parts, zero_add]

theorem expression_gathers (htied : ∃ depth, self = parseAt depth) :
    Gathers 0 ofExpr (expression self) c := by
  refine .sees ?_
  split
  · exact lambda_gathers hself c htied
  · refine .place fun start => (hself .disjunction c).bind fun body c => ?_
    refine .accept rfl (fun _ => ?_) fun _ => .pure (zero_add _)
    refine (hself .disjunction _).bind fun test c => .expect rfl fun _ _ => ?_
    refine (hself .test _).bind fun orelse c => .node fun _ => ?_
    rw [parts]
    abel

theorem boolLevel_gathers (op : BoolOp) : Gathers 0 ofExpr (boolLevel self op) c := by
  refine .place fun start => (hself _ c).bind fun first c => .sees ?_
  split
  · refine (Gathers.many (fun c => .after rfl fun c => hself _ c) c).bind fun rest c => ?_
    exact .node fun _ => by simp [parts]
  · exact .pure (zero_add _)

theorem negation_gathers : Gathers 0 ofExpr (negation self) c := by
  refine .sees ?_
  split
  · rename_i hnot
    refine .place fun start => .advance (by rw [eq_of_beq hnot]; rfl) ?_
    exact (hself .negation _).bind fun operand c => .node fun _ => zero_add _
  · exact hself .comparison c

omit hself in
theorem comparisonOp_gathers : Gathers 0 (fun _ => 0) comparisonOp c := by
  refine .peek ?_
  split
  · rename_i s hs
    split
    · exact .advance (by rw [hs]; rfl) (.pure rfl)
    · exact .pure rfl
  · rename_i hin
    exact .advance (by rw [hin]; rfl) (.pure rfl)
  · rename_i his
    refine .advance (by rw [his]; rfl) ?_
    exact .accept rfl (fun _ => .pure rfl) fun _ => .pure rfl
  · rename_i hnot
    refine .peekSecond ?_
    split
    · rename_i hin
      refine .second (by simp [hnot]) fun hnext => .advance (by rw [hnot]; rfl) ?_
      refine .advance ?_ (.pure rfl)
      rw [← hnext, eq_of_beq hin]
      rfl
    · exact .pure rfl
  · exact .pure rfl

theorem comparison_gathers : Gathers 0 ofExpr (comparison self) c := by
  refine .place fun start => (hself .bitOr c).bind fun left c => ?_
  refine (Gathers.many (L := ofLink) (fun c => ?_) c).bind fun links c => ?_
  · refine (comparisonOp_gathers c).bind fun op c => ?_
    cases op with
    | none => exact .pure rfl
    | some op => exact (hself .bitOr c).bind fun e c => .pure (by simp [ofLink])
  · split
    · rename_i hnone
      exact .pure (by simp [List.isEmpty_iff.1 hnone])
    · exact .node fun _ => by rw [parts, zero_add]

theorem binaryLevel_gathers (level : Level) : Gathers 0 ofExpr (binaryLevel self level) c := by
  refine .place fun start => (hself _ c).bind fun first c => ?_
  rw [zero_add]
  refine Gathers.grow (fun left c => .look (binaryOp_looks c level) fun op hop => ?_) first c
  cases op with
  | none => exact .pure rfl
  | some op =>
    refine .advance (silent_of_symbol (hop rfl)) ((hself _ _).bind fun right c => ?_)
    exact .spanned fun span => (ofExpr_eq (.binOp span op left right)).symm

theorem signed_gathers : Gathers 0 ofExpr (signed self) c := by
  refine .look (signOp_looks c) fun op hop => ?_
  cases op with
  | none => exact hself .power c
  | some op =>
    refine .place fun start => .advance (silent_of_symbol (hop rfl)) ?_
    exact (hself .signed _).bind fun operand c => .node fun _ => zero_add _

theorem power_gathers : Gathers 0 ofExpr (power self) c := by
  refine .place fun start => (hself .awaited c).bind fun base c => ?_
  refine .accept rfl (fun _ => ?_) fun _ => .pure (zero_add _)
  exact (hself .signed _).bind fun exponent c => .node fun _ => by rw [parts, zero_add]

theorem awaited_gathers : Gathers 0 ofExpr (awaited self) c := by
  refine .sees ?_
  split
  · rename_i hawait
    refine .place fun start => .advance (by rw [eq_of_beq hawait]; rfl) ?_
    exact (hself .atom _).bind fun value c => .node fun _ => zero_add _
  · exact hself .atom c

theorem clause_gathers : Gathers 0 ofClause (clause self) c := by
  refine .accept rfl (fun _ => ?_) fun _ => ?_
  all_goals
    refine .expect rfl fun _ _ => (targetList_gathers hself _).bind fun target c => ?_
    refine .expect rfl fun _ _ => (hself .disjunction _).bind fun iter c => ?_
    refine (Gathers.many (fun c => .after rfl fun c => hself .disjunction c) c).bind fun ifs c => ?_
    exact .pure (by rw [ofClause, zero_add, add_assoc])

theorem clauses_gathers : Gathers 0 (total ofClause) (Grammar.clauses self) c := by
  refine Gathers.many (fun c => .startsClause fun starts => ?_) c
  split
  · exact (clause_gathers hself c).bind fun k c => .pure (by simp)
  · exact .pure rfl

theorem displayTail_gathers (b : Bracket) (first : Expr) :
    Gathers (ofExpr first) (total ofExpr) (displayTail self b first) c := by
  refine (Gathers.listTail (fun c => starOr_gathers hself c .named) c).bind fun rest c => ?_
  exact .expect rfl fun _ _ => .pure (total_cons ..).symm

/-- A comprehension behind its element, up to the closing bracket. -/
theorem comprehension_gathers (b : Bracket) (start : Place) (kind : Collection) (elt : Expr) :
    Gathers (ofExpr elt) ofExpr (do
      let clauses ← Grammar.clauses self
      expect (Symbol.closing b)
      return .comp (← spanFrom start) kind elt clauses) c := by
  refine (clauses_gathers hself c).bind fun ks c => .expect rfl fun _ _ => .node fun _ => ?_
  exact add_comm ..

theorem parenthesized_gathers : Gathers 0 ofExpr (parenthesized self) c := by
  refine .place fun start => .expect rfl fun _ _ => ?_
  refine .accept rfl (fun _ => .node fun _ => rfl) fun _ => ?_
  refine .sees ?_
  split
  · refine (yieldExpression_gathers hself _).bind fun value c => .expect rfl fun _ _ => ?_
    exact .pure (zero_add _)
  refine (starOr_gathers hself _ .named).bind fun first c => .startsClause fun starts => ?_
  rw [zero_add]
  split
  · exact comprehension_gathers hself c .round start .generator first
  refine .accept rfl (fun _ => ?_) fun _ => ?_
  · rw [if_pos rfl]
    split
    · exact .node fun _ => ofExpr_eq _
    · exact .pure rfl
  · exact (displayTail_gathers hself c .round first).next fun elts c => .node fun _ => rfl

theorem listDisplay_gathers : Gathers 0 ofExpr (listDisplay self) c := by
  refine .place fun start => .expect rfl fun _ _ => ?_
  refine .accept rfl (fun _ => .node fun _ => rfl) fun _ => ?_
  refine (starOr_gathers hself _ .named).bind fun first c => .startsClause fun starts => ?_
  rw [zero_add]
  split
  · exact comprehension_gathers hself c .square start .list first
  · exact (displayTail_gathers hself c .square first).next fun elts c => .node fun _ => rfl

theorem dictItem_gathers : Gathers 0 ofItem (dictItem self) c := by
  refine .accept rfl (fun _ => ?_) fun _ => ?_
  · exact (hself .bitOr _).bind fun value c => .pure rfl
  · refine (hself .test c).bind fun key c => .expect rfl fun _ _ => ?_
    exact (hself .test _).bind fun value c => .pure (by simp [ofItem])

theorem dictItems_gathers : Gathers 0 (total ofItem) (dictItems self) c := by
  refine (Gathers.listUpTo (fun c => dictItem_gathers hself c) c).bind fun is c => ?_
  exact .expect rfl fun _ _ => .pure (zero_add _)

theorem dictTail_gathers (first : DictItem) :
    Gathers (ofItem first) (total ofItem) (dictTail self first) c := by
  refine .accept rfl (fun _ => ?_) fun _ => .expect rfl fun _ _ => .pure (by simp)
  exact (dictItems_gathers hself _).bind fun is c => .pure (total_cons ..).symm

theorem braceDisplay_gathers : Gathers 0 ofExpr (braceDisplay self) c := by
  refine .place fun start => .expect rfl fun _ _ => ?_
  refine .accept rfl (fun _ => .node fun _ => rfl) fun _ => ?_
  refine .sees ?_
  split
  · exact (dictItems_gathers hself _).bind fun is c => .node fun _ => zero_add _
  refine (starOr_gathers hself _ .named).bind fun first c => .accept rfl (fun _ => ?_) fun _ => ?_
  · refine (hself .test _).bind fun value c => .startsClause fun starts => ?_
    rw [zero_add]
    split
    · refine (clauses_gathers hself c).bind fun ks c => .expect rfl fun _ _ => .node fun _ => ?_
      exact add_comm ..
    · have hitem : ofExpr first + ofExpr value = ofItem ⟨some first, value⟩ := by simp [ofItem]
      rw [hitem]
      exact (dictTail_gathers hself c _).next fun is c => .node fun _ => rfl
  refine .startsClause fun starts => ?_
  rw [zero_add]
  split
  · exact comprehension_gathers hself c .curly start .set first
  · exact (displayTail_gathers hself c .curly first).next fun elts c => .node fun _ => rfl

theorem atom_gathers : Gathers 0 ofExpr (atom self) c := by
  have hconstant (start : Place) (value : Constant) (hl : silent c.next.lexeme)
      (hvalue : ∀ span, parts (.constant span value) = 0) : Gathers 0 ofExpr (do
        advance
        return .constant (← spanFrom start) value) c :=
    .advance hl (.node fun span => (hvalue span).symm)
  refine .place fun start => .peek ?_
  split
  · rename_i hl
    exact hconstant start .none (by rw [hl]; rfl) fun _ => rfl
  · rename_i hl
    exact hconstant start .true (by rw [hl]; rfl) fun _ => rfl
  · rename_i hl
    exact hconstant start .false (by rw [hl]; rfl) fun _ => rfl
  · rename_i id hl
    exact .take hl rfl (.node fun _ => zero_add _)
  · rename_i text hl
    exact .take hl rfl (.node fun _ => zero_add _)
  · refine (Gathers.many (L := fun text => {Lexeme.string text}) (fun c => .peek ?_) c).bind
      fun texts c => .node fun _ => ?_
    · split
      · rename_i text hl
        exact .take hl rfl (.pure (by simp))
      · exact .pure rfl
    · rw [zero_add, parts, ← Multiset.sum_map_singleton (texts.map Lexeme.string : Multiset Lexeme)]
      simp [total, Function.comp_def]
  · rename_i hl
    exact hconstant start .ellipsis (by rw [hl]; rfl) fun _ => rfl
  · exact parenthesized_gathers hself c
  · exact listDisplay_gathers hself c
  · exact braceDisplay_gathers hself c
  · exact .fail _

theorem callArgument_gathers :
    Gathers 0 (Sum.elim ofExpr ofArgument) (callArgument self) c := by
  refine .place fun start => .accept rfl (fun _ => ?_) fun _ => ?_
  · exact (hself .test _).bind fun value c => .pure rfl
  refine .accept rfl (fun _ => ?_) fun _ => ?_
  · refine (hself .test _).bind fun value c => .spanned fun span => ?_
    rw [zero_add, Sum.elim_inl, ofExpr_eq (.starred span value), parts]
  refine .peek (.peekSecond ?_)
  split
  · rename_i hword
    refine .second ?_ fun hnext => .name fun id _ _ => .advance ?_ ?_
    · intro hend
      simp [hend, Lexeme.isWord] at hword
    · have hassign : c.second.lexeme = .symbol .assign := by simp_all
      rw [← hnext, hassign]
      rfl
    · exact (hself .test _).bind fun value c => .pure (by simp [ofArgument, names])
  · refine (hself .named c).bind fun value c => .startsClause fun starts => ?_
    rw [zero_add]
    split
    · refine (clauses_gathers hself c).bind fun ks c => .spanned fun span => ?_
      rw [Sum.elim_inl, ofExpr_eq (.comp span .generator value ks), parts, add_comm]
    · exact .pure rfl

theorem callArguments_gathers : Gathers 0 (fun r => total ofExpr r.1 + total ofArgument r.2)
    (callArguments self) c :=
  (Gathers.listUpTo (fun c => callArgument_gathers hself c) c).map total_splitArguments

theorem sliceRest_gathers (start : Place) (lower : Option Expr) :
    Gathers (total ofExpr lower.toList) ofExpr (sliceRest self start lower) c := by
  have hdone (upper step : Option Expr) (c : Cursor) :
      Gathers (total ofExpr lower.toList + total ofExpr upper.toList + total ofExpr step.toList)
        ofExpr (spanFrom start >>= fun span => pure (.slice span lower upper step)) c :=
    .node fun _ => add_assoc ..
  refine .accept rfl (fun _ => .peek ?_) fun _ => ?_
  · dsimp only
    refine Gathers.optional (hself .test _) _ fun upper c => ?_
    refine .accept rfl (fun _ => .peek ?_) fun _ => by simpa using hdone upper none c
    exact Gathers.optional (hself .test _) _ fun step c => hdone upper step c
  · cases lower with
    | none => exact .fail _
    | some e => exact .pure (by simp)

theorem sliceItem_gathers : Gathers 0 ofExpr (sliceItem self) c := by
  refine .place fun start => .sees ?_
  split
  · exact starOr_gathers hself c .test
  refine .sees ?_
  split
  · exact sliceRest_gathers hself c start none
  · refine Gathers.bind (L := fun o => total ofExpr o.toList)
      ((hself .named c).map fun e => by simp) fun lower c => ?_
    rw [zero_add]
    exact sliceRest_gathers hself c start lower

theorem slices_gathers : Gathers 0 ofExpr (slices self) c :=
  itemOrTuple_gathers c fun c => sliceItem_gathers hself c

theorem primary_gathers : Gathers 0 ofExpr (primary self) c := by
  refine .place fun start => (atom_gathers hself c).bind fun first c => ?_
  rw [zero_add]
  refine Gathers.grow (fun value c => ?_) first c
  have hsome (make : Span → Expr) {before : Multiset Lexeme} (c : Cursor)
      (h : ∀ span, before = parts (make span)) :
      Gathers before (fun o => ofExpr (o.getD value))
        (spanFrom start >>= fun span => pure (some (make span))) c :=
    .spanned fun span => (h span).trans (ofExpr_eq _).symm
  refine .accept rfl (fun _ => ?_) fun _ => .accept rfl (fun _ => ?_) fun _ =>
    .accept rfl (fun _ => ?_) fun _ => .pure rfl
  · exact .name fun field _ _ => hsome (.attr · value field) _ fun _ => add_comm ..
  · refine (callArguments_gathers hself _).bind fun args c => .expect rfl fun _ _ => ?_
    exact hsome (.call · value args.1 args.2) _ fun _ => rfl
  · refine (slices_gathers hself _).bind fun index c => .expect rfl fun _ _ => ?_
    exact hsome (.subscript · value index) _ fun _ => rfl

theorem parseLevel_gathers (htied : ∃ depth, self = parseAt depth) (level : Level) :
    Gathers 0 ofExpr (parseLevel self level) c := by
  cases level with
  | named => exact namedExpression_gathers hself c
  | yielded =>
    refine .sees ?_
    split
    · exact yieldExpression_gathers hself c
    · exact hself .tuple c
  | tuple => exact starExpressions_gathers hself c
  | test => exact expression_gathers hself c htied
  | disjunction => exact boolLevel_gathers hself c .or
  | conjunction => exact boolLevel_gathers hself c .and
  | negation => exact negation_gathers hself c
  | comparison => exact comparison_gathers hself c
  | bitOr | bitXor | bitAnd | shift | sum | product => exact binaryLevel_gathers hself c _
  | signed => exact signed_gathers hself c
  | power => exact power_gathers hself c
  | awaited => exact awaited_gathers hself c
  | atom => exact primary_gathers hself c

end

theorem parseAt_gathers (depth : Nat) (level : Level) (c : Cursor) :
    Gathers 0 ofExpr (parseAt depth level) c := by
  induction depth generalizing level c with
  | zero => exact .fail _
  | succ depth ih => exact parseLevel_gathers ih c ⟨depth, rfl⟩ level

/-- An expression has the leaves that were read for it. -/
theorem expr_gathers (level : Level) (c : Cursor) : Gathers 0 ofExpr (expr level) c :=
  .of_eq (q := parseAt (20 * (c.size + 1)) level) rfl (parseAt_gathers _ level c)

end AsyncErasure.Grammar
