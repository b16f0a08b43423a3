import AsyncErasure.Proofs.Grammar.Expression
import AsyncErasure.Proofs.Render.Row

namespace AsyncErasure.Grammar

open Fragment Rule Lexeme Spelling

variable {c c' : Cursor} {x : Expr}

section Expressions

theorem take_plain (hf : x.fits .plain) (level context : Level) (hl : level.rank ≤ context.rank)
    (hc : 3 ≤ context.rank) : Takes (expr level) c (x.lexemesIn context) level.limit x :=
  (able_expr (sizeOf x + 1) (20 * c.size + 18)).take x level context c (by omega) hf hl hc
    (by omega)

theorem take_test (hf : x.fits .plain) : Takes (expr .test) c (x.lexemesIn .test) 3 x :=
  take_plain hf .test .test (Nat.le_refl _) (by decide)

theorem take_tuple (hf : x.fits .elements) : Takes (expr .tuple) c (x.lexemesIn .tuple) 2 x :=
  (able_expr (sizeOf x + 1) (20 * c.size + 18)).tuple x c (by omega) hf (by omega)

/-- A target of `del` or `as`. -/
theorem take_target (hf : x.fits .target) :
    Takes (starOr expr .bitOr) c (x.lexemesIn .test) 8 x := by
  rw [Expr.lexemesIn_operand hf rfl rfl rfl]
  exact (able_expr (sizeOf x + 1) (20 * c.size + 18)).starOr .bitOr (by omega) hf rfl rfl
    (Nat.le_refl _) (by decide) (by decide) (by omega)

/-- An optional expression behind a lexeme. -/
theorem take_after {e : Option Expr} (l : Lexeme) (hf : Fits.expr? .plain e)
    (hp : Passes (e.elim [] fun x => l :: x.lexemesIn .test) c c') (hne : c'.next.lexeme ≠ l)
    (hg : c'.next.lexeme.grip < 3) :
    ∃ e', after l (expr .test) c = .ok (e', c') ∧ Shape.expr? e' = Shape.expr? e :=
  (able_expr (sizeOf e + 1) (20 * c.size)).after hf (by omega) hp hne hg (Nat.le_refl _)

theorem isYield_or_lexemesIn (hf : x.fits .elements) :
    (∃ s value, x = .yield s value) ∨ (∃ s value, x = .yieldFrom s value) ∨
      x.lexemesIn .yielded = x.lexemesIn .tuple := by
  have hlex (h : x.needsBrackets .yielded = x.needsBrackets .tuple) :
      x.lexemesIn .yielded = x.lexemesIn .tuple := by
    rw [Expr.lexemesIn, Expr.lexemesIn, Expr.fragmentsIn, Expr.fragmentsIn, Expr.enclosed,
      Expr.enclosed, h]
  cases x with
  | yield => exact .inl ⟨_, _, rfl⟩
  | yieldFrom => exact .inr (.inl ⟨_, _, rfl⟩)
  | boolOp s op | binOp s op | unaryOp s op => exact .inr (.inr (hlex (by cases op <;> rfl)))
  | _ => exact .inr (.inr (hlex rfl))

/-- What stands in an assignment: a tuple or, at its end, a bare `yield`. -/
theorem take_value (hf : x.fits .elements) {context : Level}
    (hc : context = .tuple ∨ context = .yielded) :
    Takes (expr .yielded) c (x.lexemesIn context) 1 x := by
  refine takes_expr ?_
  obtain ⟨d, hd⟩ : ∃ d, 20 * (c.size + 1) = d + 1 := ⟨20 * (c.size + 1) - 1, by omega⟩
  have ha (n : Nat) : Able (parseAt d) n d := able_parseAt (fun x _ hx => parsed x hx) d
  have htuple : Takes (parseLevel (parseAt d) .yielded) c (x.lexemesIn .tuple) 1 x :=
    takes_yielded (opens_of_heads (x.begins.item _ hf rfl .tuple (Nat.le_refl _)))
      ((ha _).tuple x c (Nat.lt_succ_self _) hf (by omega))
  have hyield (h : Takes (yieldExpression (parseAt d)) c (lexemes x.fragments) 1 x)
      (hhead : ∀ m, Passes (lexemes x.fragments) c m → c.next.lexeme = .keyword .yield_) :
      Takes (parseLevel (parseAt d) .yielded) c (lexemes x.fragments) 1 x := by
    intro c' hp hg
    obtain ⟨x', hx', hshape⟩ := h c' hp hg
    exact ⟨x', by simp [parseLevel, hhead c' hp, hx'], hshape⟩
  rw [hd, parseAt]
  obtain rfl | rfl := hc
  · exact htuple
  obtain ⟨s, value, rfl⟩ | ⟨s, value, rfl⟩ | hlex := isYield_or_lexemesIn hf
  · cases value with
    | none =>
      refine hyield Able.yieldNone fun m hp => ?_
      rw [Expr.fragments] at hp
      exact hp.head
    | some value =>
      refine hyield ((ha _).yield (Nat.lt_succ_self _) hf (by omega)) fun m hp => ?_
      rw [Expr.fragments] at hp
      exact hp.head
  · refine hyield ((ha _).yieldFrom (Nat.lt_succ_self _) hf (by omega)) fun m hp => ?_
    rw [Expr.fragments] at hp
    exact hp.head
  · rw [hlex]
    exact htuple

theorem startsExpr_value (hf : x.fits .elements) {context : Level}
    (hc : context = .tuple ∨ context = .yielded) (hp : Passes (x.lexemesIn context) c c') :
    startsExpr c.next.lexeme := by
  obtain rfl | rfl := hc
  · exact startsExpr_element hf rfl (Nat.le_refl _) hp
  obtain ⟨s, value, rfl⟩ | ⟨s, value, rfl⟩ | hlex := isYield_or_lexemesIn hf
  · cases value <;> exact (hp.head (l := .keyword .yield_)) ▸ rfl
  · exact (hp.head (l := .keyword .yield_)) ▸ rfl
  · exact startsExpr_element hf rfl (Nat.le_refl _) (hlex ▸ hp)

/-- The condition of a loop or a branch. -/
theorem take_condition (hf : x.fits .plain) :
    Takes (expr .named) c (lexemes (condition x)) 3 x := by
  by_cases hnamed : ∃ s target value, x = .named s target value
  · obtain ⟨s, target, value, rfl⟩ := hnamed
    simp only [Expr.fits, Bool.and_eq_true] at hf
    obtain ⟨t, id, rfl⟩ : ∃ t id, target = .name t id := by
      cases target <;> first | exact ⟨_, _, rfl⟩ | simp [Expr.isName] at hf
    obtain ⟨d, hd⟩ : ∃ d, 20 * (c.size + 1) = d + 1 := ⟨20 * (c.size + 1) - 1, by omega⟩
    have ha : Able (parseAt d) (sizeOf value + 1) d := able_parseAt (fun x _ hx => parsed x hx) d
    refine takes_expr ?_
    rw [hd, parseAt]
    exact ha.named (Nat.lt_succ_self _) hf.2 (by omega)
  · have hlex : lexemes (condition x) = x.lexemesIn .test := by
      rw [← Expr.lexemesIn_tuple hf]
      cases x <;> first | rfl | exact absurd ⟨_, _, _, rfl⟩ hnamed
    rw [hlex]
    exact take_plain hf .named .test (Nat.zero_le _) (Nat.le_refl _)

end Expressions

def EndsLine (c : Cursor) : Prop :=
  (∃ written, c.next.lexeme = .newline written) ∨ ∃ text, c.next.lexeme = .comment text true

namespace EndsLine

theorem grip_eq (h : EndsLine c) : c.next.lexeme.grip = 0 := by
  obtain ⟨_, h⟩ | ⟨_, h⟩ := h <;> rw [h] <;> rfl

theorem grip_lt (h : EndsLine c) {n : Nat} (hn : 0 < n) : c.next.lexeme.grip < n := h.grip_eq ▸ hn

theorem ne_symbol (h : EndsLine c) (s : Symbol) : c.next.lexeme ≠ .symbol s := by
  obtain ⟨_, h⟩ | ⟨_, h⟩ := h <;> simp [h]

theorem ne_keyword (h : EndsLine c) (k : Keyword) : c.next.lexeme ≠ .keyword k := by
  obtain ⟨_, h⟩ | ⟨_, h⟩ := h <;> simp [h]

theorem atLineEnd_apply (h : EndsLine c) : atLineEnd c = .ok (true, c) := by
  obtain ⟨_, h⟩ | ⟨_, h⟩ := h <;> simp [atLineEnd, h]

theorem atSimpleEnd_apply (h : EndsLine c) : atSimpleEnd c = .ok (true, c) := by
  simp [atSimpleEnd, h.atLineEnd_apply]

theorem augmentedOp_apply (h : EndsLine c) : augmentedOp c = .ok (none, c) := by
  obtain ⟨_, h⟩ | ⟨_, h⟩ := h <;> simp [augmentedOp, h]

end EndsLine

theorem atSimpleEnd_of_startsExpr (h : startsExpr c.next.lexeme) :
    atSimpleEnd c = .ok (false, c) := by
  cases hl : c.next.lexeme with
  | symbol s =>
    rw [hl] at h
    cases s <;> first | exact absurd h (by decide) | simp [atSimpleEnd, atLineEnd, hl]
  | newline | comment | endMarker => simp [hl, startsExpr] at h
  | _ => simp [atSimpleEnd, atLineEnd, hl]

section Statements

/-- A statement that begins with an expression is told by what comes behind it. -/
theorem simpleStatement_of_startsExpr (h : startsExpr c.next.lexeme) :
    simpleStatement c = expressionStatement c.next.span.start c := by
  rw [simpleStatement, bind_apply, place_apply]
  dsimp only
  rw [bind_apply, peek_apply]
  dsimp only
  generalize c.next.lexeme = l at h ⊢
  split
  case h_12 => rfl
  all_goals exact absurd h (by decide)

theorem reads_expr (s : Span) (hf : x.fits .elements) (hp : Passes (x.lexemesIn .yielded) c c')
    (he : EndsLine c') : ∃ s', simpleStatement c = .ok (s', c') ∧
    s'.shape = (Stmt.expr s x).shape := by
  obtain ⟨x', hx', hshape⟩ := take_value hf (.inr rfl) c' hp (he.grip_lt Nat.one_pos)
  rw [simpleStatement_of_startsExpr (startsExpr_value hf (.inr rfl) hp)]
  have hmany : many (after (.symbol .assign) (expr .yielded)) c' = .ok ([], c') :=
    (Repeats.done (by simp [he.ne_symbol .assign])).many
  exact ⟨.expr ⟨c.next.span.start, c'.reached⟩ x',
    by simp [expressionStatement, hx', he.ne_symbol .colon, he.augmentedOp_apply, hmany],
    by simp [Stmt.shape, hshape]⟩

/-- Behind the first target stand the other ones and the value, each behind an equals sign. -/
theorem lexemes_assigned (t : Expr) (ts : List Expr) (value : Expr) :
    ((t :: ts).flatMap fun e => e.lexemesIn .tuple ++ [Lexeme.symbol .assign]) ++
      value.lexemesIn .yielded = t.lexemesIn .tuple ++
        (ts.map (fun e => (Level.tuple, e)) ++ [(Level.yielded, value)]).flatMap
          fun e => .symbol .assign :: e.2.lexemesIn e.1 := by
  induction ts generalizing t with
  | nil => simp
  | cons u us ih =>
    rw [List.flatMap_cons, List.append_assoc, ih u]
    simp

theorem lexemes_targets (targets : List Expr) :
    lexemes (targets.flatMap fun e => e.fragmentsIn .tuple ++ [blank, sign .assign, blank]) =
      targets.flatMap fun e => e.lexemesIn .tuple ++ [Lexeme.symbol .assign] := by
  induction targets with
  | nil => rfl
  | cons e es ih => simp [ih, Expr.lexemesIn]

theorem reads_assign (s : Span) {targets : List Expr} {value : Expr} (hne : targets ≠ [])
    (ht : Fits.exprs .elements targets) (hv : value.fits .elements)
    (hp : Passes ((targets.flatMap fun e => e.lexemesIn .tuple ++ [Lexeme.symbol .assign]) ++
      value.lexemesIn .yielded) c c') (he : EndsLine c') :
    ∃ s', simpleStatement c = .ok (s', c') ∧ s'.shape = (Stmt.assign s targets value).shape := by
  rw [Fits.exprs_eq_true] at ht
  obtain ⟨t, ts, rfl⟩ := List.exists_cons_of_ne_nil hne
  rw [lexemes_assigned, passes_append] at hp
  obtain ⟨m, hfirst, hrest⟩ := hp
  have hm : m.next.lexeme = .symbol .assign := by
    cases ts <;> exact hrest.head
  obtain ⟨t', ht', hshape⟩ := take_value (ht t (by simp)) (.inl rfl) m hfirst
    (by rw [hm]; decide)
  have hitem (e : Level × Expr) (he : e ∈ ts.map (fun e => (Level.tuple, e)) ++
      [(Level.yielded, value)]) : e.2.fits .elements ∧ (e.1 = .tuple ∨ e.1 = .yielded) := by
    obtain he | he := List.mem_append.1 he
    · obtain ⟨u, hu, rfl⟩ := List.mem_map.1 he
      exact ⟨ht u (List.mem_cons_of_mem _ hu), .inl rfl⟩
    · obtain rfl := List.mem_singleton.1 he
      exact ⟨hv, .inr rfl⟩
  obtain ⟨rest, hmany, hmap⟩ := Repeats.of_passes Expr.shape (fun e => e.2.shape) c'
    (Q := fun b => b.next.lexeme.grip < 1) (p := after (.symbol .assign) (expr .yielded)) hrest
    (by simp [he.ne_symbol .assign]) (he.grip_lt Nat.one_pos)
    (fun e _ a b hab => by rw [hab.head]; decide) fun e hmem a b hab _ hb => by
      obtain ⟨hl, hlater, hab⟩ := passes_cons.1 hab
      have hsize := Cursor.size_advance hlater
      have hsize' := hab.size_eq
      obtain ⟨x', hx', hshape⟩ := take_value (hitem e hmem).1 (hitem e hmem).2 b hab hb
      exact ⟨by omega, x', by simp [hl, hx'], hshape⟩
  rw [simpleStatement_of_startsExpr (startsExpr_value (ht t (by simp)) (.inl rfl) hfirst)]
  have haug : augmentedOp m = .ok (none, m) := by
    simp only [augmentedOp, bind_apply, peek_apply, hm]
    rfl
  rw [List.map_append, List.map_map] at hmap
  obtain ⟨us, vs, rfl, hus, hvs⟩ := List.map_eq_append_iff.1 hmap
  obtain ⟨v', rfl, hvshape⟩ := List.map_eq_singleton_iff.1 hvs
  refine ⟨.assign ⟨c.next.span.start, c'.reached⟩ (t' :: us) v',
    by simp [expressionStatement, ht', hm, haug, hmany.many], ?_⟩
  simp only [Stmt.shape, Shape.exprs_eq_map, List.map_cons, hshape, hus, hvshape]
  rfl

theorem reads_augAssign (s : Span) {target value : Expr} (op : BinOp) (ht : target.fits .elements)
    (hv : value.fits .elements)
    (hp : Passes (target.lexemesIn .tuple ++ .symbol op.assignSymbol ::
      value.lexemesIn .yielded) c c')
    (he : EndsLine c') :
    ∃ s', simpleStatement c = .ok (s', c') ∧
      s'.shape = (Stmt.augAssign s target op value).shape := by
  obtain ⟨m, hfirst, hrest⟩ := passes_append.1 hp
  obtain ⟨hm, hlater, hrest⟩ := passes_cons.1 hrest
  obtain ⟨t', ht', hshape⟩ := take_value ht (.inl rfl) m hfirst (by rw [hm]; cases op <;> decide)
  obtain ⟨v', hv', hvshape⟩ := take_value hv (.inr rfl) c' hrest (he.grip_lt Nat.one_pos)
  have hcolon : m.next.lexeme ≠ .symbol .colon := by
    rw [hm]
    cases op <;> decide
  have haug : augmentedOp m = .ok (some op, m) := by
    simp only [augmentedOp, bind_apply, peek_apply, hm]
    cases op <;> rfl
  rw [simpleStatement_of_startsExpr (startsExpr_value ht (.inl rfl) hfirst)]
  exact ⟨.augAssign ⟨c.next.span.start, c'.reached⟩ t' op v',
    by simp [expressionStatement, ht', hcolon, haug, hv'], by simp [Stmt.shape, hshape, hvshape]⟩

/-- A name in brackets is read as the name. -/
theorem take_bracketedName (s : Span) {id : String} (hid : isIdentifier id) :
    Takes (expr .yielded) c
    [.symbol (.opening .round), .name id, .symbol (.closing .round)] 1 (.name s id) := by
  intro c' hp hg
  have hlater := (passes_cons.1 hp).2.1
  have hsize := Cursor.size_advance hlater
  have hopens : Opens 17 [.symbol (.opening .round), .name id, .symbol (.closing .round)] :=
    opens_of_heads (show Heads 17 (enclose .round [Fragment.name id]) from Heads.enclose .round)
  refine takes_expr (takes_of_le .yielded (by decide) (by decide)
    (show Opens Level.atom.rank _ from hopens) (fun d hd => ?_) _ (by omega)) c' hp hg
  simp only [Level.rank] at hd
  obtain ⟨d, rfl⟩ : ∃ d', d = d' + 1 := ⟨d - 1, by omega⟩
  rw [parseAt, parseLevel, primary_eq]
  have hname : Takes (parseAt d .named) c.advance [.name id] 3 (.name s id) :=
    (parsed (.name s id) hid).take .named .atom c.advance d (by decide) (by decide)
      (by simp only [Level.rank]; omega)
  exact ((atom_bracketed (e := .name s id) (by simp) hname fun a b hab => by
    simp [hab.head (l := .name id)]).reaches _).takes fun _ _ _ h => extendPrimary_none h

theorem isName_of_shape {a b : Expr} (h : a.shape = b.shape) : a.isName = b.isName := by
  cases a <;> cases b <;> first | rfl | cases h

theorem fits_elements (h : x.fits .element) : x.fits .elements := by
  cases x with
  | tuple s elts parenthesized =>
    cases parenthesized with
    | true => exact h
    | false => cases h
  | _ => exact h

/-- A target before a type hint, and whether it stands in brackets. -/
theorem take_annotated (simple : Bool) (hf : x.fits .element) (hs : simple → x.isName)
    (hp : Passes (lexemes (annotated x simple)) c c') (hend : c'.next.lexeme = .symbol .colon) :
    startsExpr c.next.lexeme ∧ ∃ x', expr .yielded c = .ok (x', c') ∧ x'.shape = x.shape ∧
      (!(c.next.lexeme == .symbol (.opening .round)) && x'.isName) = simple := by
  have hg : c'.next.lexeme.grip < 1 := by
    rw [hend]
    decide
  cases hn : x.isName with
  | true =>
    obtain ⟨s, id, rfl⟩ : ∃ s id, x = .name s id := by
      cases x <;> first | exact ⟨_, _, rfl⟩ | cases hn
    cases simple with
    | true =>
      have hlex : lexemes (annotated (.name s id) true) = (Expr.name s id).lexemesIn .test := rfl
      rw [hlex] at hp
      have hl : c.next.lexeme = .name id := hp.head
      obtain ⟨x', hx', hshape⟩ := take_plain (x := .name s id) (show isIdentifier id from hf)
        .yielded .test (by decide) (by decide) c' hp hg
      exact ⟨by rw [hl]; rfl, x', hx', hshape, by rw [hl, isName_of_shape hshape]; rfl⟩
    | false =>
      have hl : c.next.lexeme = .symbol (.opening .round) := hp.head
      obtain ⟨x', hx', hshape⟩ := take_bracketedName s hf c' hp hg
      exact ⟨by rw [hl]; rfl, x', hx', hshape, by simp [hl]⟩
  | false =>
    obtain rfl : simple = false := by
      cases simple with
      | true => exact absurd (hs rfl) (by simp [hn])
      | false => rfl
    have hlex : lexemes (annotated x false) = x.lexemesIn .tuple := by
      rw [Expr.lexemesIn_element hf rfl rfl, annotated, hn]
      rfl
    have hfits := fits_elements hf
    rw [hlex] at hp
    obtain ⟨x', hx', hshape⟩ := take_value hfits (.inl rfl) c' hp hg
    exact ⟨startsExpr_value hfits (.inl rfl) hp, x', hx', hshape,
      by simp [isName_of_shape hshape, hn]⟩

theorem reads_annAssign (s : Span) {target hint : Expr} {value : Option Expr} {simple : Bool}
    (ht : target.fits .element) (hh : hint.fits .plain) (hv : Fits.expr? .elements value)
    (hs : simple → target.isName)
    (hp : Passes (lexemes (annotated target simple) ++ .symbol .colon :: (hint.lexemesIn .test ++
      value.elim [] fun v => .symbol .assign :: v.lexemesIn .yielded)) c c') (he : EndsLine c') :
    ∃ s', simpleStatement c = .ok (s', c') ∧
      s'.shape = (Stmt.annAssign s target hint value simple).shape := by
  obtain ⟨m, htarget, hrest⟩ := passes_append.1 hp
  obtain ⟨hcolon, -, hrest⟩ := passes_cons.1 hrest
  obtain ⟨k, hhint, hvalue⟩ := passes_append.1 hrest
  obtain ⟨hstart, t', ht', htshape, hsimple⟩ := take_annotated simple ht hs htarget hcolon
  have hk : k.next.lexeme.grip < 3 := by
    cases value with
    | none => exact passes_nil.1 hvalue ▸ he.grip_lt (by decide)
    | some v => rw [hvalue.head]; decide
  obtain ⟨h', hh', hhshape⟩ := take_test hh k hhint hk
  obtain ⟨v', hv', hvshape⟩ : ∃ v', after (.symbol .assign) (expr .yielded) k = .ok (v', c') ∧
      Shape.expr? v' = Shape.expr? value := by
    cases value with
    | none =>
      obtain rfl := passes_nil.1 hvalue
      exact ⟨none, by simp [he.ne_symbol .assign], rfl⟩
    | some v =>
      obtain ⟨hl, -, hvalue⟩ := passes_cons.1 hvalue
      obtain ⟨v', hv', hvshape⟩ := take_value hv (.inr rfl) c' hvalue (he.grip_lt Nat.one_pos)
      exact ⟨some v', by simp [hl, hv'], by simp [Shape.expr?, hvshape]⟩
  rw [simpleStatement_of_startsExpr hstart]
  refine ⟨.annAssign ⟨c.next.span.start, c'.reached⟩ t' h' v' simple, ?_,
    by simp [Stmt.shape, htshape, hhshape, hvshape]⟩
  simp only [expressionStatement, bind_apply, sees_apply, ht', accept_apply, hcolon, if_true, hh',
    hv', spanFrom_apply, pure_apply, hsimple]

theorem reads_delete (s : Span) {targets : List Expr} (hne : targets ≠ [])
    (ht : Fits.exprs .target targets)
    (hp : Passes (.keyword .del_ :: listed (Expr.lexemesIn .test) targets) c c')
    (he : EndsLine c') :
    ∃ s', simpleStatement c = .ok (s', c') ∧ s'.shape = (Stmt.delete s targets).shape := by
  rw [Fits.exprs_eq_true] at ht
  obtain ⟨t, ts, rfl⟩ := List.exists_cons_of_ne_nil hne
  obtain ⟨hl, -, hp⟩ := passes_cons.1 hp
  rw [listed_cons, passes_append] at hp
  obtain ⟨m, hfirst, hrest⟩ := hp
  have hm : m.next.lexeme.grip < 8 := by
    cases ts with
    | nil => exact passes_nil.1 hrest ▸ he.grip_lt (by decide)
    | cons => rw [hrest.head]; decide
  obtain ⟨t', ht', hshape⟩ := take_target (ht t (by simp)) m hfirst hm
  obtain ⟨rest, hmany, hmap⟩ := Repeats.of_passes Expr.shape Expr.shape c'
    (Q := fun b => b.next.lexeme.grip < 8)
    (p := do
      if ← accept Symbol.comma then
        if ← atSimpleEnd then return none else return some (← starOr expr .bitOr)
      else return none) hrest
    (by simp [he.ne_symbol .comma]) (he.grip_lt (by decide))
    (fun e _ a b hab => by rw [hab.head]; decide) fun e hmem a b hab _ hb => by
      obtain ⟨hl, hlater, hab⟩ := passes_cons.1 hab
      have hsize := Cursor.size_advance hlater
      have hsize' := hab.size_eq
      have hf := ht e (List.mem_cons_of_mem _ hmem)
      have hstart := startsExpr_element hf rfl (by decide) hab
      obtain ⟨x', hx', hshape⟩ := take_target hf b hab hb
      exact ⟨by omega, x', by simp [hl, atSimpleEnd_of_startsExpr hstart, hx'], hshape⟩
  exact ⟨.delete ⟨c.next.span.start, c'.reached⟩ (t' :: rest),
    by simp [-bind_pure_comp, simpleStatement, hl, ht', hmany.many],
    by simp [Stmt.shape, Shape.exprs_eq_map, hshape, hmap]⟩

/-- Items divided by commas. -/
theorem exists_commaSeparated {α β γ : Type} {f : β → List Lexeme} (told : α → γ) (wanted : β → γ)
    {item : Rule α} {xs : List β} (hne : xs ≠ []) (hp : Passes (listed f xs) c c')
    (hend : c'.next.lexeme ≠ .symbol .comma)
    (hitem : ∀ x ∈ xs, ∀ a b, Passes (f x) a b → b.next.lexeme = .symbol .comma ∨ b = c' →
      ∃ v, item a = .ok (v, b) ∧ told v = wanted x) :
    ∃ as, commaSeparated item c = .ok (as, c') ∧ as.map told = xs.map wanted := by
  obtain ⟨x, xs, rfl⟩ := List.exists_cons_of_ne_nil hne
  rw [listed_cons, passes_append] at hp
  obtain ⟨m, hfirst, hrest⟩ := hp
  have hm : m.next.lexeme = .symbol .comma ∨ m = c' := by
    cases xs with
    | nil => exact .inr (passes_nil.1 hrest)
    | cons => exact .inl hrest.head
  have hrest : Passes ((xs.flatMap fun y => .symbol .comma :: f y) ++
      if false then [Lexeme.symbol .comma] else []) m c' := by
    simpa using hrest
  obtain ⟨as, htail, hmap⟩ : ∃ as, listTail (fun _ => false) item m = .ok (as, c') ∧
      as.map told = xs.map wanted :=
    listTail_of_passes told wanted hrest hend (by simp) fun y hy a b hab _ hb =>
      ⟨rfl, hitem y (List.mem_cons_of_mem _ hy) a b hab hb⟩
  obtain ⟨v, hv, htold⟩ := hitem x (List.mem_cons_self ..) c m hfirst hm
  exact ⟨v :: as, by simp [commaSeparated, hv, htail], by simp [htold, hmap]⟩

theorem commaSeparated_of_passes {α β : Type} {f : β → List Lexeme} (wanted : β → α) {item : Rule α}
    {xs : List β} (hne : xs ≠ []) (hp : Passes (listed f xs) c c')
    (hend : c'.next.lexeme ≠ .symbol .comma)
    (hitem : ∀ x ∈ xs, ∀ a b, Passes (f x) a b → b.next.lexeme = .symbol .comma ∨ b = c' →
      item a = .ok (wanted x, b)) :
    commaSeparated item c = .ok (xs.map wanted, c') := by
  obtain ⟨as, has, hmap⟩ := exists_commaSeparated id wanted hne hp hend fun x hx a b hab hb =>
    ⟨_, hitem x hx a b hab hb, rfl⟩
  rw [has, ← hmap, List.map_id]

theorem commaSeparated_name {names : List String} (hne : names ≠ [])
    (hp : Passes (listed (fun id => [.name id]) names) c c') (he : EndsLine c') :
    commaSeparated name c = .ok (names, c') := by
  have h : commaSeparated name c = .ok (names.map id, c') :=
    commaSeparated_of_passes id hne hp (he.ne_symbol .comma) fun id _ a b hab _ => by
      simp only [passes_cons, passes_nil] at hab
      obtain ⟨hl, -, rfl⟩ := hab
      exact name_apply hl
  rwa [List.map_id] at h

theorem lexemes_path (text : String) : lexemes (path text) =
    [Lexeme.symbol .dot].intercalate ((text.toList.splitOn '.').map fun id =>
      [.name (String.ofList id)]) := by
  rw [path, lexemes_intercalate, List.map_map]
  rfl

theorem intercalate_dot (text : String) :
    ".".intercalate ((text.toList.splitOn '.').map String.ofList) = text := by
  refine String.toList_injective ?_
  rw [String.toList_intercalate, List.map_map]
  have hid : (String.toList ∘ String.ofList) = id := funext fun cs => by simp
  rw [hid, List.map_id]
  exact List.intercalate_splitOn '.'

theorem dottedName_of_passes {text : String} (hp : Passes (lexemes (path text)) c c')
    (hend : c'.next.lexeme ≠ .symbol .dot) : dottedName c = .ok (text, c') := by
  obtain ⟨first, ids, hids⟩ := List.exists_cons_of_ne_nil (List.splitOn_ne_nil '.' text.toList)
  have htext := intercalate_dot text
  rw [lexemes_path, hids, intercalate_cons, passes_append] at hp
  obtain ⟨m, hfirst, hrest⟩ := hp
  simp only [passes_cons, passes_nil] at hfirst
  obtain ⟨hl, -, rfl⟩ := hfirst
  obtain ⟨rest, hmany, hmap⟩ := Repeats.of_passes (id : String → String) String.ofList c'
      (Q := fun _ => True)
    (p := after (.symbol .dot) name) hrest (by simp [hend]) trivial (fun _ _ _ _ _ => trivial)
    fun x _ a b hab _ _ => by
      simp only [passes_cons, passes_nil] at hab
      obtain ⟨hdot, hlater, hname, hlater', rfl⟩ := hab
      have hsize := Cursor.size_advance hlater
      have hsize' := Cursor.size_advance hlater'
      exact ⟨by omega, String.ofList x, by simp [hdot, name_apply hname], rfl⟩
  rw [List.map_id] at hmap
  rw [hids, List.map_cons, ← hmap] at htext
  simp [dottedName, name_apply hl, hmany.many, htext]

theorem lexemes_alias (named : String → List Fragment) (a : Alias) :
    lexemes (a.fragments named) =
      lexemes (named a.name) ++ a.asName.elim [] fun id => [Lexeme.keyword .as_, .name id] := by
  obtain ⟨name, asName⟩ := a
  cases asName <;> simp [Alias.fragments, renamed]

theorem aliased_of_passes {named : String → List Fragment} {p : Rule String} {a : Alias}
    (hname : ∀ m, Passes (lexemes (named a.name)) c m → m.next.lexeme ≠ .symbol .dot →
      p c = .ok (a.name, m))
    (hp : Passes (lexemes (a.fragments named)) c c') (hdot : c'.next.lexeme ≠ .symbol .dot)
    (has : c'.next.lexeme ≠ .keyword .as_) : aliased p c = .ok (a, c') := by
  rw [lexemes_alias, passes_append] at hp
  obtain ⟨m, hpath, hrest⟩ := hp
  obtain ⟨id, asName⟩ := a
  cases asName with
  | none =>
    obtain rfl := passes_nil.1 hrest
    simp [aliased, hname m hpath hdot, has]
  | some new =>
    simp only [Option.elim_some, passes_cons, passes_nil] at hrest
    obtain ⟨hl, -, hnew, -, rfl⟩ := hrest
    simp [aliased, hname m hpath (by simp [hl]), hl, name_apply hnew]

/-- Imported names with their aliases, up to the end of the line. -/
theorem commaSeparated_aliased {named : String → List Fragment} {p : Rule String}
    {names : List Alias} (hne : names ≠ [])
    (hname : ∀ a ∈ names, ∀ k m, Passes (lexemes (named a.name)) k m →
      m.next.lexeme ≠ .symbol .dot → p k = .ok (a.name, m))
    (hp : Passes (listed (fun a => lexemes (Alias.fragments named a)) names) c c')
    (he : EndsLine c') : commaSeparated (aliased p) c = .ok (names, c') := by
  have h : commaSeparated (aliased p) c = .ok (names.map id, c') :=
    commaSeparated_of_passes id hne hp (he.ne_symbol .comma) fun a ha k m hkm hend => by
      refine aliased_of_passes (hname a ha k) hkm ?_ ?_
      · obtain h | rfl := hend
        · simp [h]
        · exact he.ne_symbol .dot
      · obtain h | rfl := hend
        · simp [h]
        · exact he.ne_keyword .as_
  rwa [List.map_id] at h

theorem lexemes_dots (level : Nat) : lexemes (Fragment.dots level) =
    (List.replicate (level / 3) 3 ++ List.replicate (level % 3) 1).flatMap fun n =>
      [.symbol (if n = 3 then .ellipsis else .dot)] := by
  have h (n k : Nat) (s : Symbol) (hs : (if k = 3 then Symbol.ellipsis else .dot) = s) :
      lexemes (List.replicate n (sign s)) =
        (List.replicate n k).flatMap fun n => [.symbol (if n = 3 then .ellipsis else .dot)] := by
    induction n with
    | zero => rfl
    | succ n ih => simp [List.replicate_succ, ih, hs]
  rw [Fragment.dots, lexemes_append, h _ 3 .ellipsis rfl, h _ 1 .dot rfl, List.flatMap_append]

/-- The dots before a module path are counted. -/
theorem many_dots {level : Nat} (hp : Passes (lexemes (Fragment.dots level)) c c')
    (hend : c'.next.lexeme ≠ .symbol .dot ∧ c'.next.lexeme ≠ .symbol .ellipsis) :
    ∃ counts, many dots c = .ok (counts, c') ∧ counts.foldl (· + ·) 0 = level := by
  rw [lexemes_dots] at hp
  have hstop : dots c' = .ok (none, c') := by
    cases hl : c'.next.lexeme with
    | symbol s =>
      rw [hl] at hend
      cases s <;> first | exact absurd rfl hend.1 | exact absurd rfl hend.2 | simp [dots, hl]
    | _ => simp [dots, hl]
  obtain ⟨counts, hmany, hmap⟩ := Repeats.of_passes (id : Nat → Nat) id c' (Q := fun _ => True)
    (p := dots) hp hstop trivial (fun _ _ _ _ _ => trivial) fun n hn a b hab _ _ => by
      simp only [passes_cons, passes_nil] at hab
      obtain ⟨hl, hlater, rfl⟩ := hab
      have hsize := Cursor.size_advance hlater
      refine ⟨by omega, n, ?_, rfl⟩
      obtain h | h := List.mem_append.1 hn
      · obtain rfl := (List.mem_replicate.1 h).2
        simp [dots, hl]
      · obtain rfl := (List.mem_replicate.1 h).2
        simp [dots, hl]
  rw [List.map_id, List.map_id] at hmap
  refine ⟨counts, hmany.many, ?_⟩
  rw [hmap, ← List.sum_eq_foldl, List.sum_append, List.sum_replicate_nat, List.sum_replicate_nat]
  omega

theorem importedNames_of_passes {names : List Alias} (hf : Fits.imported names)
    (hp : Passes (listed (fun a => lexemes (Alias.fragments imported a)) names) c c')
    (he : EndsLine c') : importedNames c = .ok (names, c') := by
  rw [Fits.imported, Bool.or_eq_true, beq_iff_eq, Bool.and_eq_true, List.all_eq_true,
    Bool.not_eq_true', List.isEmpty_eq_false_iff] at hf
  obtain rfl | ⟨hne, hf⟩ := hf
  · have hlex : listed (fun a => lexemes (Alias.fragments imported a)) [⟨"*", none⟩] =
        [.symbol .star] := rfl
    rw [hlex, passes_cons, passes_nil] at hp
    obtain ⟨hl, -, rfl⟩ := hp
    simp [importedNames, hl]
  · have hstar (a : Alias) (ha : a ∈ names) : a.name ≠ "*" := by
      rintro h
      have := hf a ha
      rw [Alias.fits, h, Bool.and_eq_true] at this
      exact absurd this.1 (by decide +kernel)
    have hnames : commaSeparated (aliased name) c = .ok (names, c') := commaSeparated_aliased hne
      (fun a ha k m hkm _ => by
        rw [imported, if_neg (hstar a ha)] at hkm
        simp only [lexemes_name, lexemes_nil, passes_cons, passes_nil] at hkm
        obtain ⟨hl, -, rfl⟩ := hkm
        exact name_apply hl) hp he
    obtain ⟨a, as, rfl⟩ := List.exists_cons_of_ne_nil hne
    have hl : c.next.lexeme = .name a.name := by
      rw [listed_cons, lexemes_alias, imported, if_neg (hstar a (by simp))] at hp
      exact hp.head
    simp [importedNames, hl, hnames]

theorem reads_importFrom (s : Span) {path : Option String} {names : List Alias} {level : Nat}
    (hpath : path.all isPath) (hsome : path.isSome || level != 0) (hf : Fits.imported names)
    (hp : Passes (.keyword .from_ :: (lexemes (Fragment.dots level) ++
      (lexemes (path.elim [] Fragment.path) ++ .keyword .import_ ::
        listed (fun a => lexemes (Alias.fragments imported a)) names))) c c') (he : EndsLine c') :
    ∃ s', simpleStatement c = .ok (s', c') ∧
      s'.shape = (Stmt.importFrom s path names level).shape := by
  obtain ⟨hl, -, hp⟩ := passes_cons.1 hp
  obtain ⟨m, hdots, hp⟩ := passes_append.1 hp
  obtain ⟨k, hname, hp⟩ := passes_append.1 hp
  obtain ⟨himport, -, hp⟩ := passes_cons.1 hp
  have hnames := importedNames_of_passes hf hp he
  have hne : names ≠ [] := by
    rintro rfl
    exact absurd hf (by decide)
  suffices hrun : importFrom c.next.span.start c =
      .ok (.importFrom ⟨c.next.span.start, c'.reached⟩ path names level, c') from
    ⟨.importFrom ⟨c.next.span.start, c'.reached⟩ path names level,
      by simp [simpleStatement, hl, hrun], rfl⟩
  cases path with
  | none =>
    obtain rfl := passes_nil.1 hname
    obtain ⟨counts, hmany, hcount⟩ := many_dots hdots (by simp [himport])
    have hlevel : level ≠ 0 := by simpa using hsome
    simp [importFrom, hmany, himport, hcount, hlevel, expect_apply _ _ himport, hnames, hne]
  | some text =>
    obtain ⟨id, hid⟩ : ∃ id, m.next.lexeme = .name id := by
      obtain ⟨id, ids, hids⟩ := List.exists_cons_of_ne_nil (List.splitOn_ne_nil '.' text.toList)
      rw [Option.elim_some, lexemes_path, hids, intercalate_cons] at hname
      exact ⟨_, hname.head⟩
    obtain ⟨counts, hmany, hcount⟩ := many_dots hdots (by simp [hid])
    have hdotted := dottedName_of_passes hname (by simp [himport])
    simp [importFrom, hmany, hid, hcount, hdotted, expect_apply _ _ himport, hnames, hne]

theorem reads_return (opener : Keyword) (s : Span) {value : Option Expr}
    (hf : (Stmt.ret s value).fits) (hp : Passes (lexemes (heading opener (.ret s value))) c c')
    (he : EndsLine c') :
    ∃ s', simpleStatement c = .ok (s', c') ∧ s'.shape = (Stmt.ret s value).shape := by
  cases value with
  | none =>
    simp only [heading, behind, lexemes_word, lexemes_nil, passes_cons, passes_nil] at hp
    obtain ⟨hl, -, rfl⟩ := hp
    exact ⟨.ret ⟨c.next.span.start, c.advance.reached⟩ none,
      by simp [simpleStatement, hl, he.atSimpleEnd_apply], rfl⟩
  | some value =>
    have hlex : lexemes (heading opener (.ret s (some value))) =
        .keyword .return_ :: value.lexemesIn .tuple := rfl
    obtain ⟨hl, -, hp⟩ := passes_cons.1 (hlex ▸ hp)
    have hstart := startsExpr_value hf (.inl rfl) hp
    obtain ⟨v', hv', hshape⟩ := take_tuple hf c' hp (he.grip_lt (by decide))
    exact ⟨.ret ⟨c.next.span.start, c'.reached⟩ (some v'),
      by simp [simpleStatement, hl, atSimpleEnd_of_startsExpr hstart, hv'],
      by simp [Stmt.shape, Shape.expr?, hshape]⟩

theorem reads_raise (opener : Keyword) (s : Span) {exc cause : Option Expr}
    (hexc : Fits.expr? .plain exc) (hcause : Fits.expr? .plain cause)
    (hboth : exc.isSome || cause.isNone)
    (hp : Passes (lexemes (heading opener (.raise s exc cause))) c c') (he : EndsLine c') :
    ∃ s', simpleStatement c = .ok (s', c') ∧ s'.shape = (Stmt.raise s exc cause).shape := by
  cases exc with
  | none =>
    obtain rfl : cause = none := by simpa using hboth
    simp only [heading, lexemes_word, lexemes_nil, passes_cons, passes_nil] at hp
    obtain ⟨hl, -, rfl⟩ := hp
    exact ⟨.raise ⟨c.next.span.start, c.advance.reached⟩ none none,
      by simp [simpleStatement, hl, he.atSimpleEnd_apply], rfl⟩
  | some exc =>
    simp only [heading, lexemes_word, lexemes_blank, lexemes_append, lexemes_behind, passes_cons,
      passes_append] at hp
    obtain ⟨hl, -, m, hread, hfrom⟩ := hp
    have hstart := ((opens_plain hexc .test (by decide)).head hread).1
    have hm : m.next.lexeme.grip < 3 := by
      cases cause with
      | none => exact passes_nil.1 hfrom ▸ he.grip_lt (by decide)
      | some x => rw [hfrom.head]; decide
    obtain ⟨e', he', hshape⟩ := take_test hexc m hread hm
    obtain ⟨x', hx', hcshape⟩ := take_after (.keyword .from_) hcause hfrom
      (he.ne_keyword .from_) (he.grip_lt (by decide))
    exact ⟨.raise ⟨c.next.span.start, c'.reached⟩ (some e') x',
      by simp [-after_apply, simpleStatement, hl, atSimpleEnd_of_startsExpr hstart, he', hx'],
      by simp [Stmt.shape, Shape.expr?, hshape, hcshape]⟩

theorem reads_assert (opener : Keyword) (s : Span) {test : Expr} {msg : Option Expr}
    (htest : test.fits .plain) (hmsg : Fits.expr? .plain msg)
    (hp : Passes (lexemes (heading opener (.assert s test msg))) c c') (he : EndsLine c') :
    ∃ s', simpleStatement c = .ok (s', c') ∧ s'.shape = (Stmt.assert s test msg).shape := by
  simp only [heading, lexemes_word, lexemes_blank, lexemes_append, lexemes_behind, passes_cons,
    passes_append] at hp
  obtain ⟨hl, -, m, hread, hcomma⟩ := hp
  have hm : m.next.lexeme.grip < 3 := by
    cases msg with
    | none => exact passes_nil.1 hcomma ▸ he.grip_lt (by decide)
    | some x => rw [hcomma.head]; decide
  obtain ⟨e', he', hshape⟩ := take_test htest m hread hm
  obtain ⟨x', hx', hmshape⟩ := take_after (.symbol .comma) hmsg hcomma (he.ne_symbol .comma)
    (he.grip_lt (by decide))
  exact ⟨.assert ⟨c.next.span.start, c'.reached⟩ e' x',
    by simp [-after_apply, simpleStatement, hl, he', hx'],
    by simp [Stmt.shape, hshape, hmshape]⟩

/-- A simple statement is read back from the lexemes of its line. -/
theorem reads_simple (opener : Keyword) {s : Stmt} (hs : s.isSimple) (hf : s.fits)
    (hp : Passes (lexemes (heading opener s)) c c') (he : EndsLine c') :
    ∃ s', simpleStatement c = .ok (s', c') ∧ s'.shape = s.shape := by
  have hword {k : Keyword} {m : Span → Stmt} (hk : Passes [.keyword k] c c')
      (hrun : c.next.lexeme = .keyword k → simpleStatement c =
        .ok (m ⟨c.next.span.start, c.advance.reached⟩, c.advance))
      (hshape : ∀ a b, (m a).shape = (m b).shape) (t : Span) :
      ∃ s', simpleStatement c = .ok (s', c') ∧ s'.shape = (m t).shape := by
    simp only [passes_cons, passes_nil] at hk
    obtain ⟨hl, -, rfl⟩ := hk
    exact ⟨_, hrun hl, hshape _ _⟩
  cases s with
  | functionDef | classDef | forLoop | whileLoop | branch | withBlock | tryBlock | comment
  | blank => cases hs
  | ret s value => exact reads_return opener s hf hp he
  | delete s targets =>
    simp only [Stmt.fits, Bool.and_eq_true, Bool.not_eq_true', List.isEmpty_eq_false_iff] at hf
    refine reads_delete s hf.1 hf.2 ?_ he
    simpa [heading, lexemes_exprs] using hp
  | assign s targets value =>
    simp only [Stmt.fits, Bool.and_eq_true, Bool.not_eq_true', List.isEmpty_eq_false_iff] at hf
    refine reads_assign s hf.1.1 hf.1.2 hf.2 ?_ he
    rwa [heading, lexemes_append, lexemes_targets] at hp
  | augAssign s target op value =>
    simp only [Stmt.fits, Bool.and_eq_true] at hf
    refine reads_augAssign s op hf.1 hf.2 ?_ he
    simpa [heading, Expr.lexemesIn] using hp
  | annAssign s target hint value simple =>
    simp only [Stmt.fits, Bool.and_eq_true, Bool.or_eq_true, Bool.not_eq_true'] at hf
    refine reads_annAssign s hf.1.1.1 hf.1.1.2 hf.1.2
      (fun h => hf.2.resolve_left (by simp [h])) ?_ he
    simpa [heading, lexemes_behind, Expr.lexemesIn] using hp
  | raise s exc cause =>
    simp only [Stmt.fits, Bool.and_eq_true] at hf
    exact reads_raise opener s hf.1.1 hf.1.2 hf.2 hp he
  | assert s test msg =>
    simp only [Stmt.fits, Bool.and_eq_true] at hf
    exact reads_assert opener s hf.1 hf.2 hp he
  | importModules s names =>
    simp only [Stmt.fits, Bool.and_eq_true, Bool.not_eq_true', List.isEmpty_eq_false_iff] at hf
    simp only [heading, lexemes_word, lexemes_blank, lexemes_commas, passes_cons] at hp
    obtain ⟨hl, -, hp⟩ := hp
    have hnames := commaSeparated_aliased hf.1 (fun a _ k m => dottedName_of_passes) hp he
    exact ⟨.importModules ⟨c.next.span.start, c'.reached⟩ names,
      by simp [simpleStatement, hl, hnames], rfl⟩
  | importFrom s path names level =>
    simp only [Stmt.fits, Bool.and_eq_true] at hf
    refine reads_importFrom s hf.1.1 hf.1.2 hf.2 ?_ he
    simpa [heading, lexemes_commas] using hp
  | global s names =>
    simp only [Stmt.fits, Bool.and_eq_true, Bool.not_eq_true', List.isEmpty_eq_false_iff] at hf
    simp only [heading, lexemes_word, lexemes_blank, lexemes_commas, passes_cons] at hp
    obtain ⟨hl, -, hp⟩ := hp
    have hnames := commaSeparated_name hf.1 hp he
    exact ⟨.global ⟨c.next.span.start, c'.reached⟩ names,
      by simp [simpleStatement, hl, hnames], rfl⟩
  | nonlocal s names =>
    simp only [Stmt.fits, Bool.and_eq_true, Bool.not_eq_true', List.isEmpty_eq_false_iff] at hf
    simp only [heading, lexemes_word, lexemes_blank, lexemes_commas, passes_cons] at hp
    obtain ⟨hl, -, hp⟩ := hp
    have hnames := commaSeparated_name hf.1 hp he
    exact ⟨.nonlocal ⟨c.next.span.start, c'.reached⟩ names,
      by simp [simpleStatement, hl, hnames], rfl⟩
  | expr s value => exact reads_expr s hf hp he
  | pass s => exact hword (m := .pass) hp (fun h => by simp [simpleStatement, h]) (fun _ _ => rfl) s
  | breakLoop s =>
    exact hword (m := .breakLoop) hp (fun h => by simp [simpleStatement, h]) (fun _ _ => rfl) s
  | continueLoop s =>
    exact hword (m := .continueLoop) hp (fun h => by simp [simpleStatement, h]) (fun _ _ => rfl) s

end Statements

end AsyncErasure.Grammar
