import AsyncErasure.Proofs.Grammar.Item

namespace AsyncErasure

open Fragment

namespace Grammar

open Rule Lexeme

variable {self : Level → Rule Expr} {n depth : Nat} {c c' : Cursor}

/-- An expression behind a lexeme, or nothing if the lexeme does not come. -/
theorem Able.after (ha : Able self n depth) {e : Option Expr} {l : Lexeme}
    (hf : Fits.expr? .plain e) (hn : sizeOf e < n)
    (hp : Passes (e.elim [] fun x => l :: x.lexemesIn .test) c c') (hne : c'.next.lexeme ≠ l)
    (hg : c'.next.lexeme.grip < 3) (hroom : 20 * c.size ≤ depth) :
    ∃ e', after l (self .test) c = .ok (e', c') ∧ Shape.expr? e' = Shape.expr? e := by
  cases e with
  | none =>
    obtain rfl := passes_nil.1 hp
    exact ⟨none, by simp [hne], rfl⟩
  | some x =>
    obtain ⟨hl, hlater, hp⟩ := passes_cons.1 hp
    have hsize := Cursor.size_advance hlater
    simp only [Option.some.sizeOf_spec] at hn
    obtain ⟨x', hx', hshape⟩ := ha.take x .test .test c.advance (by omega) hf (Nat.le_refl _)
      (by decide) (by omega) c' hp hg
    exact ⟨some x', by simp [hl, hx'], by simp [Shape.expr?, hshape]⟩

end Grammar

theorem Param.lexemes_fragments (p : Param) : lexemes p.fragments = .name p.name ::
    ((p.hint.elim [] fun x => .symbol .colon :: x.lexemesIn .test) ++
      p.default.elim [] fun x => .symbol .assign :: x.lexemesIn .test) := by
  obtain ⟨id, hint, default⟩ := p
  cases hint with
  | none => simp [Param.fragments, Grammar.lexemes_behind]
  | some hint =>
    simp [Param.fragments, Grammar.lexemes_behind, Expr.lexemesIn, Expr.fragmentsIn]

namespace Grammar

open Rule Lexeme

variable {self : Level → Rule Expr} {n depth : Nat} {c c' : Cursor} {close : Symbol}
  {annotated : Bool}

def EndsParam (close : Symbol) (c : Cursor) : Prop :=
  c.next.lexeme = .symbol .comma ∨ c.next.lexeme = .symbol close

/-- Parameters with type hints close with a bracket, those of a lambda with a colon. -/
def ClosesParams (close : Symbol) (annotated : Bool) : Prop :=
  close = .closing .round ∨ close = .colon ∧ annotated = false

theorem EndsParam.grip_lt (h : EndsParam close c) (hc : ClosesParams close annotated) :
    c.next.lexeme.grip < 3 := by
  obtain h | h := h <;> rw [h]
  · decide
  · obtain rfl | ⟨rfl, -⟩ := hc <;> decide

theorem EndsParam.ne_assign (h : EndsParam close c) (hc : ClosesParams close annotated) :
    c.next.lexeme ≠ .symbol .assign := by
  obtain h | h := h <;> rw [h]
  · simp
  · obtain rfl | ⟨rfl, -⟩ := hc <;> simp

theorem Able.param (ha : Able self n depth) {p : Param} (hn : sizeOf p < n) (hf : p.fits annotated)
    (hp : Passes (lexemes p.fragments) c c') (hc : ClosesParams close annotated)
    (hend : EndsParam close c') (hroom : 20 * c.size ≤ depth) :
    ∃ p', param self annotated c = .ok (p', c') ∧ p'.shape = p.shape := by
  obtain ⟨id, hint, default⟩ := p
  simp only [Param.fits, Bool.and_eq_true, Bool.or_eq_true] at hf
  simp only [Param.mk.sizeOf_spec] at hn
  simp only [Param.lexemes_fragments, passes_cons, passes_append] at hp
  obtain ⟨hname, hlater, m, hhint, hdefault⟩ := hp
  have hsize := Cursor.size_advance hlater
  have hm := hhint.size_eq
  obtain ⟨default', hd', hdshape⟩ := ha.after hf.2 (by omega) hdefault (hend.ne_assign hc)
    (hend.grip_lt hc) (by omega)
  have hmnext : m.next.lexeme.grip < 3 ∧ (annotated → m.next.lexeme ≠ .symbol .colon) := by
    cases default with
    | none =>
      obtain rfl := passes_nil.1 hdefault
      refine ⟨hend.grip_lt hc, fun hannotated => ?_⟩
      obtain h | h := hend <;> rw [h]
      · simp
      · obtain rfl | ⟨-, hfalse⟩ := hc
        · simp
        · rw [hannotated] at hfalse
          cases hfalse
    | some x =>
      rw [hdefault.head]
      exact ⟨by decide, by simp⟩
  cases annotated with
  | true =>
    obtain ⟨hint', hh', hhshape⟩ := ha.after hf.1.2 (by omega) hhint (hmnext.2 rfl) hmnext.1
      (by omega)
    exact ⟨⟨id, hint', default'⟩,
      by simp [Grammar.param, name_apply hname, hh', hd', -after_apply],
      by simp [Param.shape, hhshape, hdshape]⟩
  | false =>
    obtain rfl : hint = none := by simpa using hf.1.1.2
    obtain rfl := passes_nil.1 hhint
    exact ⟨⟨id, none, default'⟩, by simp [Grammar.param, name_apply hname, hd', -after_apply],
      by simp [Param.shape, hdshape]⟩

def ParamItem.fragments : ParamItem → List Fragment
  | slash => [sign .slash]
  | star none => [sign .star]
  | star (some p) => sign .star :: p.fragments
  | doubleStar p => sign .doubleStar :: p.fragments
  | plain p => p.fragments

def ParamItem.shape : ParamItem → ParamItem
  | slash => slash
  | star vararg => star (Shape.param? vararg)
  | doubleStar p => doubleStar p.shape
  | plain p => plain p.shape

def ParamItem.items (p : Parameters) : List ParamItem :=
  p.posonly.map plain ++ (if p.posonly.isEmpty then [] else [slash]) ++ p.args.map plain ++
    p.vararg.toList.map (star ∘ some) ++
    (if p.vararg.isNone && !p.kwonly.isEmpty then [star none] else []) ++
    p.kwonly.map plain ++ p.kwarg.toList.map doubleStar

namespace ParamItem

theorem fragments_items (p : Parameters) : (items p).map fragments = p.fragments := by
  obtain ⟨posonly, args, vararg, kwonly, kwarg⟩ := p
  have hplain (ps : List Param) : (ps.map plain).map fragments = Spelling.params ps := by
    rw [Spelling.params_eq_map, List.map_map]
    rfl
  have hstar : (vararg.toList.map (star ∘ some)).map fragments =
      Spelling.starParam .star vararg := by
    cases vararg <;> rfl
  have hkwarg : (kwarg.toList.map doubleStar).map fragments =
      Spelling.starParam .doubleStar kwarg := by
    cases kwarg <;> rfl
  simp only [items, List.map_append, hplain, hstar, hkwarg, Parameters.fragments]
  congr 4
  · split <;> rfl
  · split <;> rfl

theorem foldl_plain (p : Parameters) (starred : Bool) (ps : List Param) :
    (ps.map plain).foldl add (p, starred) =
      (if starred then { p with kwonly := p.kwonly ++ ps } else { p with args := p.args ++ ps },
        starred) := by
  induction ps generalizing p with
  | nil =>
    obtain ⟨posonly, args, vararg, kwonly, kwarg⟩ := p
    cases starred <;> simp
  | cons q qs ih => cases starred <;> simp [add, ih]

/-- The items of parameters add up to them. -/
theorem collect_items (p : Parameters) : collect (items p) = p := by
  obtain ⟨posonly, args, vararg, kwonly, kwarg⟩ := p
  simp only [collect, items, List.foldl_append, foldl_plain, Parameters.empty]
  cases posonly <;> cases vararg <;> cases kwonly <;> cases kwarg <;>
    simp [add, foldl_plain]

theorem shape_collect (is : List ParamItem) :
    (collect is).shape = collect (is.map shape) := by
  have hadd (p : Parameters × Bool) (i : ParamItem) :
      add (p.1.shape, p.2) i.shape = ((add p i).1.shape, (add p i).2) := by
    obtain ⟨⟨posonly, args, vararg, kwonly, kwarg⟩, starred⟩ := p
    cases i with
    | star vararg' => cases vararg' <;> rfl
    | plain q =>
      cases starred <;>
        simp [add, shape, Parameters.shape, Shape.params_eq_map]
    | _ => rfl
  have hfold (p : Parameters × Bool) : (is.foldl add p).1.shape =
      ((is.map shape).foldl add (p.1.shape, p.2)).1 := by
    induction is generalizing p with
    | nil => rfl
    | cons i is ih => rw [List.foldl_cons, ih, List.map_cons, List.foldl_cons, hadd]
  exact hfold _

end ParamItem

namespace ParamItem

def params : ParamItem → List Param
  | slash => []
  | star vararg => vararg.toList
  | doubleStar p | plain p => [p]

theorem mem_of_mem_items {p : Parameters} {i : ParamItem} (hi : i ∈ items p) {q : Param}
    (hq : q ∈ i.params) : q ∈ p.posonly ∨ q ∈ p.args ∨ p.vararg = some q ∨ q ∈ p.kwonly ∨
      p.kwarg = some q := by
  obtain ⟨posonly, args, vararg, kwonly, kwarg⟩ := p
  simp only [items, List.mem_append, List.mem_map, Option.mem_toList] at hi
  obtain (((((⟨r, hr, rfl⟩ | hi) | ⟨r, hr, rfl⟩) | ⟨r, hr, rfl⟩) | hi) | ⟨r, hr, rfl⟩) |
    ⟨r, hr, rfl⟩ := hi
  · simp_all [params]
  · split at hi <;> simp_all [params]
  · simp_all [params]
  · simp_all [params]
  · split at hi <;> simp_all [params]
  · simp_all [params]
  · simp_all [params]

end ParamItem

theorem Able.paramItem (ha : Able self n depth) {i : ParamItem}
    (hn : ∀ p ∈ i.params, sizeOf p < n) (hf : ∀ p ∈ i.params, p.fits annotated)
    (hp : Passes (lexemes i.fragments) c c') (hc : ClosesParams close annotated)
    (hend : EndsParam close c') (hroom : 20 * c.size ≤ depth) :
    (c.next.lexeme == .symbol close) = false ∧
      ∃ i', paramItem self close annotated c = .ok (i', c') ∧ i'.shape = i.shape := by
  have hclose {s : Symbol} (hs : s ≠ .closing .round ∧ s ≠ .colon) : s ≠ close := by
    obtain rfl | ⟨rfl, -⟩ := hc
    · exact hs.1
    · exact hs.2
  cases i with
  | slash =>
    simp only [ParamItem.fragments, lexemes_sign, lexemes_nil, passes_cons, passes_nil] at hp
    obtain ⟨hl, -, rfl⟩ := hp
    exact ⟨by simp [hl, hclose], .slash, by simp [Grammar.paramItem, hl], rfl⟩
  | plain p =>
    obtain ⟨p', hp', hshape⟩ := ha.param (hn p (by simp [ParamItem.params]))
      (hf p (by simp [ParamItem.params])) hp hc hend hroom
    rw [ParamItem.fragments, Param.lexemes_fragments] at hp
    exact ⟨by simp [hp.head], .plain p', by simp [Grammar.paramItem, hp.head, hp'],
      by simp [ParamItem.shape, hshape]⟩
  | doubleStar p =>
    obtain ⟨hl, hlater, hp⟩ := passes_cons.1 hp
    have hsize := Cursor.size_advance hlater
    obtain ⟨p', hp', hshape⟩ := ha.param (hn p (by simp [ParamItem.params]))
      (hf p (by simp [ParamItem.params])) hp hc hend (by omega)
    exact ⟨by simp [hl, hclose], .doubleStar p', by simp [Grammar.paramItem, hl, hp'],
      by simp [ParamItem.shape, hshape]⟩
  | star vararg =>
    cases vararg with
    | none =>
      simp only [ParamItem.fragments, lexemes_sign, lexemes_nil, passes_cons, passes_nil] at hp
      obtain ⟨hl, -, rfl⟩ := hp
      refine ⟨by simp [hl, hclose], .star none, ?_, rfl⟩
      obtain hend | hend := hend <;> simp [Grammar.paramItem, hl, hend]
    | some p =>
      rw [ParamItem.fragments, lexemes_sign, passes_cons] at hp
      obtain ⟨hl, hlater, hp⟩ := hp
      have hsize := Cursor.size_advance hlater
      obtain ⟨p', hp', hshape⟩ := ha.param (hn p (by simp [ParamItem.params]))
        (hf p (by simp [ParamItem.params])) hp hc hend (by omega)
      rw [Param.lexemes_fragments] at hp
      exact ⟨by simp [hl, hclose], .star (some p'), by simp [Grammar.paramItem, hl, hp.head, hp'],
        by simp [ParamItem.shape, Shape.param?, hshape]⟩

/-- Parameters up to the symbol that closes them. -/
theorem Able.parameters (ha : Able self n depth) {p : Parameters} (hn : sizeOf p < n)
    (hf : p.fits annotated) (hp : Passes (lexemes (commas p.fragments)) c c')
    (hc : ClosesParams close annotated) (hend : c'.next.lexeme = .symbol close)
    (hroom : 20 * c.size ≤ depth) :
    ∃ p', parameters self close annotated c = .ok (p', c') ∧ p'.shape = p.shape := by
  rw [← ParamItem.fragments_items, lexemes_commas] at hp
  have hitem (i : ParamItem) (hi : i ∈ ParamItem.items p) :
      ∀ q ∈ i.params, sizeOf q < n ∧ q.fits annotated := by
    intro q hq
    have hmem := ParamItem.mem_of_mem_items hi hq
    obtain ⟨posonly, args, vararg, kwonly, kwarg⟩ := p
    simp only [Parameters.fits, Bool.and_eq_true, Fits.params_eq_true, Fits.param?_eq_true] at hf
    simp only [Parameters.mk.sizeOf_spec] at hn
    simp only at hmem
    obtain h | h | rfl | h | rfl := hmem
    · have := List.sizeOf_lt_of_mem h
      exact ⟨by omega, hf.1.1.1.1 q h⟩
    · have := List.sizeOf_lt_of_mem h
      exact ⟨by omega, hf.1.1.1.2 q h⟩
    · simp only [Option.some.sizeOf_spec] at hn
      exact ⟨by omega, hf.1.1.2 q rfl⟩
    · have := List.sizeOf_lt_of_mem h
      exact ⟨by omega, hf.1.2 q h⟩
    · simp only [Option.some.sizeOf_spec] at hn
      exact ⟨by omega, hf.2 q rfl⟩
  have hcomma : (Lexeme.symbol .comma == .symbol close) = false := by
    obtain rfl | ⟨rfl, -⟩ := hc <;> rfl
  obtain ⟨is, his, hmap⟩ := Lists.of_passes ParamItem.shape ParamItem.shape
    (· == .symbol close) (p := Grammar.paramItem self close annotated) hp hcomma (by simp [hend])
    fun i hi a b hab hs hb =>
      ha.paramItem (fun q hq => (hitem i hi q hq).1) (fun q hq => (hitem i hi q hq).2) hab hc
        (by simpa [EndsParam] using hb) (by omega)
  refine ⟨ParamItem.collect is, by simp [Grammar.parameters, his.listUpTo], ?_⟩
  rw [ParamItem.shape_collect, hmap, ← ParamItem.shape_collect, ParamItem.collect_items]

end Grammar

theorem Clause.lexemes_fragments (k : Clause) : lexemes k.fragments =
    (if k.mode = .async then [Lexeme.keyword .async_] else []) ++ Lexeme.keyword .for_ ::
      (k.target.lexemesIn .tuple ++ Lexeme.keyword .in_ :: (k.iter.lexemesIn .disjunction ++
        k.conditions.flatMap fun e => Lexeme.keyword .if_ :: e.lexemesIn .disjunction)) := by
  obtain ⟨mode, target, iter, conditions⟩ := k
  have hconditions : lexemes (Spelling.conditions conditions) =
      conditions.flatMap fun e => .keyword .if_ :: e.lexemesIn .disjunction := by
    induction conditions with
    | nil => rfl
    | cons e es ih => simp [Spelling.conditions, ih, Expr.lexemesIn, Expr.fragmentsIn]
  cases mode <;>
    simp [Clause.fragments, hconditions, Expr.lexemesIn, Expr.fragmentsIn]

theorem Spelling.lexemes_clauses (ks : List Clause) :
    lexemes (Spelling.clauses ks) = ks.flatMap fun k => lexemes k.fragments := by
  induction ks with
  | nil => rfl
  | cons k ks ih => simp [Spelling.clauses, ih]

namespace Grammar

open Rule Lexeme

variable {self : Level → Rule Expr} {n depth : Nat} {c c' : Cursor}

theorem startsClause_clause {k : Clause} (hp : Passes (lexemes k.fragments) c c') :
    startsClause c = .ok (true, c) := by
  rw [Clause.lexemes_fragments] at hp
  split at hp
  · obtain ⟨hasync, hlater, hp⟩ := passes_cons.1 hp
    simp [startsClause, hasync, second_of_later hlater, hp.head]
  · simp [startsClause, hp.head]

/-- The conditions of a clause end before anything that does not go on with an expression. -/
theorem Able.clause (ha : Able self n depth) {k : Clause} (hn : sizeOf k < n) (hf : k.fits)
    (hp : Passes (lexemes k.fragments) c c') (hg : c'.next.lexeme.grip < 3)
    (hroom : 20 * c.size ≤ depth) :
    ∃ k', clause self c = .ok (k', c') ∧ k'.shape = k.shape := by
  rw [Clause.lexemes_fragments] at hp
  obtain ⟨mode, target, iter, conditions⟩ := k
  simp only [Clause.fits, Bool.and_eq_true, Fits.exprs_eq_true] at hf
  simp only [Clause.mk.sizeOf_spec] at hn
  simp only [passes_append, passes_cons] at hp
  obtain ⟨m, hmode, hfor, hlater, t, htarget, hin, hlater', i, hiter, hconditions⟩ := hp
  have hsize := hmode.size_eq
  have hsize' := Cursor.size_advance hlater
  have htsize := htarget.size_eq
  have hisize := Cursor.size_advance hlater'
  have hcsize := hiter.size_eq
  obtain ⟨target', ht', htshape⟩ := ha.targetList (by omega) hf.1.1 (by omega) htarget hin
  -- The iterable and each condition end at the `if` of the next one, or where the clause does.
  have hQ : i.next.lexeme.grip < 4 := by
    cases conditions with
    | nil =>
      obtain rfl := passes_nil.1 hconditions
      omega
    | cons e es =>
      rw [hconditions.head]
      decide
  obtain ⟨iter', hi', hishape⟩ := ha.take iter .disjunction .disjunction t.advance (by omega)
    hf.1.2 (Nat.le_refl _) (by decide) (by omega) i hiter hQ
  have hif : c'.next.lexeme ≠ .keyword .if_ := ne_of_grip_lt hg (by decide)
  obtain ⟨es, hes, hmap⟩ := Repeats.of_passes Expr.shape Expr.shape c'
    (Q := fun b => b.next.lexeme.grip < 4)
    (p := Rule.after (.keyword .if_) (self .disjunction)) hconditions (by simp [hif]) (by omega)
    (fun e _ a b hab => by rw [hab.head]; decide) fun e he a b hab hs hb => by
      obtain ⟨hl, hlater'', hab⟩ := passes_cons.1 hab
      have hasize := Cursor.size_advance hlater''
      have hbsize := hab.size_eq
      have hlt := List.sizeOf_lt_of_mem he
      obtain ⟨e', he', hshape⟩ := ha.take e .disjunction .disjunction a.advance (by omega)
        (hf.2 e he) (Nat.le_refl _) (by decide) (by omega) b hab hb
      exact ⟨by omega, e', by simp [hl, he'], hshape⟩
  refine ⟨⟨mode, target', iter', es⟩, ?_, by
    simp [Clause.shape, htshape, hishape, Shape.exprs_eq_map, hmap]⟩
  cases mode with
  | sync =>
    obtain rfl := passes_nil.1 hmode
    simp [Grammar.clause, hfor, expect_apply _ _ hfor, ht', expect_apply _ _ hin, hi', hes.many]
  | async =>
    simp only [if_true, passes_cons, passes_nil] at hmode
    obtain ⟨hasync, -, rfl⟩ := hmode
    simp [Grammar.clause, hasync, expect_apply _ _ hfor, ht', expect_apply _ _ hin, hi', hes.many]

/-- The clauses of a comprehension, up to a bracket. -/
theorem Able.clauses (ha : Able self n depth) {ks : List Clause} (hn : sizeOf ks < n)
    (hf : Fits.clauses ks) (hp : Passes (lexemes (Spelling.clauses ks)) c c') {b : Bracket}
    (hend : c'.next.lexeme = .symbol (.closing b)) (hroom : 20 * c.size ≤ depth) :
    ∃ ks', clauses self c = .ok (ks', c') ∧ Shape.clauses ks' = Shape.clauses ks := by
  rw [Spelling.lexemes_clauses] at hp
  rw [Fits.clauses_eq_true] at hf
  have hg : c'.next.lexeme.grip < 3 := by
    rw [hend]
    cases b <;> decide
  obtain ⟨ks', hks, hmap⟩ := Repeats.of_passes Clause.shape Clause.shape c'
    (Q := fun b => b.next.lexeme.grip < 3) (p := clauseItem self) hp
    (by simp [clauseItem, startsClause, hend]) hg
    (fun k _ a b hab => by
      rw [Clause.lexemes_fragments] at hab
      split at hab <;> rw [hab.head] <;> decide) fun k hk a b hab hs hb => by
      have hlt := List.sizeOf_lt_of_mem hk
      have hne : (lexemes k.fragments).length ≠ 0 := by simp [Clause.lexemes_fragments]
      have hsize := hab.size_eq
      obtain ⟨k', hk', hshape⟩ := ha.clause (by omega) (hf k hk) hab hb (by omega)
      exact ⟨by omega, k', by simp [clauseItem, startsClause_clause hab, hk'], hshape⟩
  exact ⟨ks', by rw [clauses_eq, hks.many],
    by rw [Shape.clauses_eq_map, Shape.clauses_eq_map, hmap]⟩

def EndsElement (b : Bracket) (c : Cursor) : Prop :=
  c.next.lexeme = .symbol .comma ∨ c.next.lexeme = .symbol (.closing b)

theorem EndsElement.grip_lt {b : Bracket} (h : EndsElement b c) : c.next.lexeme.grip < 3 := by
  obtain h | h := h <;> rw [h]
  · decide
  · cases b <;> decide

theorem EndsElement.startsClause {b : Bracket} (h : EndsElement b c) :
    startsClause c = .ok (false, c) := by
  obtain h | h := h <;> simp [Grammar.startsClause, h]

/-- An entry of a dictionary. -/
theorem Able.dictItem (ha : Able self n depth) {i : DictItem} (hn : sizeOf i < n) (hf : i.fits)
    (hp : Passes (lexemes i.fragments) c c') (hend : EndsElement .curly c')
    (hroom : 20 * c.size + 18 ≤ depth) :
    closes .curly c.next.lexeme = false ∧
      ∃ i', dictItem self c = .ok (i', c') ∧ i'.shape = i.shape := by
  obtain ⟨key, value⟩ := i
  cases key with
  | none =>
    simp only [DictItem.fits, Bool.and_eq_true] at hf
    simp only [DictItem.mk.sizeOf_spec] at hn
    obtain ⟨hl, hlater, hp⟩ := passes_cons.1 hp
    have hsize := Cursor.size_advance hlater
    obtain ⟨v, hv, hshape⟩ := ha.take value .bitOr .bitOr c.advance (by omega) hf.2 (Nat.le_refl _)
      (by decide) (by omega) c' hp (Nat.lt_trans hend.grip_lt (by decide))
    exact ⟨by simp [hl, closes], ⟨none, v⟩, by simp [Grammar.dictItem, hl, hv],
      by simp [DictItem.shape, Shape.expr?, hshape]⟩
  | some key =>
    simp only [DictItem.fits, Fits.expr?, Bool.and_eq_true] at hf
    simp only [DictItem.mk.sizeOf_spec, Option.some.sizeOf_spec] at hn
    have hlex : lexemes (DictItem.fragments ⟨some key, value⟩) =
        key.lexemesIn .test ++ .symbol .colon :: value.lexemesIn .test := by
      simp [DictItem.fragments, Expr.lexemesIn, Expr.fragmentsIn]
    rw [hlex, passes_append] at hp
    obtain ⟨m, hkey, hp⟩ := hp
    obtain ⟨hcolon, hlater, hp⟩ := passes_cons.1 hp
    have hsize := Cursor.size_advance hlater
    have hksize := hkey.size_eq
    have hstart := ((opens_plain hf.1 .test (by decide)).head hkey).1
    obtain ⟨k, hk, hkshape⟩ := ha.take key .test .test c (by omega) hf.1 (Nat.le_refl _)
      (by decide) (by omega) m hkey (by rw [hcolon]; decide)
    obtain ⟨v, hv, hvshape⟩ := ha.take value .test .test m.advance (by omega) hf.2 (Nat.le_refl _)
      (by decide) (by omega) c' hp hend.grip_lt
    have hne : c.next.lexeme ≠ .symbol .doubleStar := by
      intro hl
      rw [hl] at hstart
      cases hstart
    exact ⟨closes_of_startsExpr hstart .curly, ⟨some k, v⟩,
      by simp [Grammar.dictItem, hne, hk, expect_apply _ _ hcolon, hv],
      by simp [DictItem.shape, Shape.expr?, hkshape, hvshape]⟩

/-- The entries of a dictionary and the bracket behind them. -/
theorem Able.dictItems (ha : Able self n depth) {is : List DictItem} (hn : sizeOf is < n)
    (hf : ∀ i ∈ is, i.fits) (hp : Passes (listed (fun i => lexemes i.fragments) is) c c')
    (hend : c'.next.lexeme = .symbol (.closing .curly)) (hroom : 20 * c.size + 18 ≤ depth) :
    ∃ is', dictItems self c = .ok (is', c'.advance) ∧
    is'.map DictItem.shape = is.map DictItem.shape := by
  obtain ⟨is', his, hmap⟩ := Lists.of_passes DictItem.shape DictItem.shape (closes .curly)
    (p := Grammar.dictItem self) hp rfl (by simp [hend, closes])
    fun i hi a b hab hs hb => by
      have hlt := List.sizeOf_lt_of_mem hi
      exact ha.dictItem (by omega) (hf i hi) hab (by simpa [EndsElement, closes] using hb)
        (by omega)
  exact ⟨is', by simp [Grammar.dictItems, his.listUpTo, expect_apply _ _ hend], hmap⟩

def argumentLexemes : Expr ⊕ Argument → List Lexeme
  | .inl e => e.lexemesIn .test
  | .inr a => lexemes a.fragments

def argumentShape : Expr ⊕ Argument → Expr ⊕ Argument := Sum.map Expr.shape Argument.shape

def listedArguments (args : List Expr) (keywords : List Argument) : List (Expr ⊕ Argument) :=
  args.map .inl ++ keywords.map .inr

theorem splitArguments_listed (args : List Expr) (keywords : List Argument) :
    splitArguments (listedArguments args keywords) = (args, keywords) := by
  simp [splitArguments, listedArguments, List.filterMap_append, List.filterMap_map,
    Function.comp_def]

theorem splitArguments_shape (xs : List (Expr ⊕ Argument)) :
    splitArguments (xs.map argumentShape) =
      ((splitArguments xs).1.map Expr.shape, (splitArguments xs).2.map Argument.shape) := by
  simp only [splitArguments, List.filterMap_map, List.map_filterMap, Prod.mk.injEq]
  constructor <;> congr 1 <;> funext x <;> cases x <;> rfl

theorem lexemes_arguments (args : List Expr) (keywords : List Argument) :
    lexemes (commas (Spelling.exprs .test args ++ Spelling.arguments keywords)) =
      listed argumentLexemes (listedArguments args keywords) := by
  have hmap : Spelling.exprs .test args ++ Spelling.arguments keywords =
      (listedArguments args keywords).map
        (Sum.elim (Expr.fragmentsIn .test) Argument.fragments) := by
    simp [Spelling.exprs_eq_map, Spelling.arguments_eq_map, listedArguments]
  rw [hmap, lexemes_commas]
  congr 1
  funext x
  cases x <;> rfl

/-- A plain argument, up to what comes behind it. -/
theorem Able.plainArgument (ha : Able self n depth) {x : Expr} (hn : sizeOf x < n)
    (hf : x.fits .plain) (hp : Passes (x.lexemesIn .test) c c') (hg : c'.next.lexeme.grip < 3)
    (hne : c'.next.lexeme ≠ .symbol .assign) (hroom : 20 * c.size + 18 ≤ depth) :
    closes .round c.next.lexeme = false ∧ ∃ x', x'.shape = x.shape ∧
      callArgument self c = (do
        if ← Grammar.startsClause then
          let clauses ← Grammar.clauses self
          return .inl (.comp (← spanFrom c.next.span.start) .generator x' clauses)
        else return .inl x' : Rule (Expr ⊕ Argument)) c' := by
  have ho := opens_plain hf .test (by decide)
  have hstart := (ho.head hp).1
  have hdouble : c.next.lexeme ≠ .symbol .doubleStar := by
    intro hl
    rw [hl] at hstart
    cases hstart
  have hassign : ¬(c.next.lexeme.isWord ∧ c.second.lexeme = .symbol .assign) := fun ⟨hw, ha⟩ =>
    ho.second hp hw (.inl rfl) hne ha
  obtain ⟨x', hx', hshape⟩ := ha.take x .named .test c hn hf (Nat.zero_le _) (by decide) (by omega)
    c' hp hg
  refine ⟨closes_of_startsExpr hstart .round, x', hshape, ?_⟩
  simp [callArgument, hdouble, not_star_of_opens ho hp, hassign, hx']

theorem Able.callArgument (ha : Able self n depth) {x : Expr ⊕ Argument} (hn : sizeOf x < n)
    (hf : Sum.elim (Expr.fits .element) Argument.fits x = true)
    (hp : Passes (argumentLexemes x) c c') (hend : EndsElement .round c')
    (hroom : 20 * c.size + 18 ≤ depth) :
    closes .round c.next.lexeme = false ∧
      ∃ x', callArgument self c = .ok (x', c') ∧ argumentShape x' = argumentShape x := by
  cases x with
  | inl e =>
    simp only [Sum.inl.sizeOf_spec] at hn
    simp only [Sum.elim_inl] at hf
    obtain ⟨s, v, rfl, hv⟩ | ⟨hplain, -⟩ := Expr.starred_or_plain hf rfl rfl
    · simp only [argumentLexemes, Expr.lexemesIn_starred, passes_cons] at hp
      obtain ⟨hl, hlater, hp⟩ := hp
      have hsize := Cursor.size_advance hlater
      simp only [Expr.starred.sizeOf_spec] at hn
      obtain ⟨v', hv', hshape⟩ := ha.take v .test .bitOr c.advance (by omega) hv (by decide)
        (by decide) (by omega) c' hp hend.grip_lt
      exact ⟨by simp [hl, closes], .inl (.starred ⟨c.next.span.start, c'.reached⟩ v'),
        by simp [Grammar.callArgument, hl, hv'], by simp [argumentShape, Expr.shape, hshape]⟩
    · have hne : c'.next.lexeme ≠ .symbol .assign := by
        obtain h | h := hend <;> simp [h]
      obtain ⟨hclose, e', hshape, he'⟩ :=
        ha.plainArgument (by omega) hplain hp hend.grip_lt hne hroom
      exact ⟨hclose, .inl e', by simp [he', hend.startsClause], by simp [argumentShape, hshape]⟩
  | inr a =>
    obtain ⟨id, value⟩ := a
    cases id with
    | some id =>
      simp only [Sum.inr.sizeOf_spec, Argument.mk.sizeOf_spec] at hn
      simp only [Sum.elim_inr, Argument.fits, Bool.and_eq_true] at hf
      obtain ⟨hl, hlater, hp⟩ := passes_cons.1 hp
      obtain ⟨hassign, hlater', hp⟩ := passes_cons.1 hp
      have hsize := Cursor.size_advance hlater
      have hsize' := Cursor.size_advance hlater'
      obtain ⟨v, hv, hshape⟩ := ha.take value .test .test c.advance.advance (by omega) hf.2
        (Nat.le_refl _) (by decide) (by omega) c' hp hend.grip_lt
      exact ⟨by simp [hl, closes], .inr ⟨some id, v⟩,
        by simp [Grammar.callArgument, hl, isWord, second_of_later hlater, hassign,
          name_apply hl, hv],
        by simp [argumentShape, Argument.shape, hshape]⟩
    | none =>
      simp only [Sum.inr.sizeOf_spec, Argument.mk.sizeOf_spec] at hn
      simp only [Sum.elim_inr, Argument.fits, Bool.and_eq_true] at hf
      obtain ⟨hl, hlater, hp⟩ := passes_cons.1 hp
      have hsize := Cursor.size_advance hlater
      obtain ⟨v, hv, hshape⟩ := ha.take value .test .test c.advance (by omega) hf.2
        (Nat.le_refl _) (by decide) (by omega) c' hp hend.grip_lt
      exact ⟨by simp [hl, closes], .inr ⟨none, v⟩, by simp [Grammar.callArgument, hl, hv],
        by simp [argumentShape, Argument.shape, hshape]⟩

/-- The arguments of a call or of a class header, up to the bracket. -/
theorem Able.callArguments (ha : Able self n depth) {args : List Expr} {keywords : List Argument}
    (hn : sizeOf args + sizeOf keywords < n) (hf : Fits.exprs .element args)
    (hk : Fits.arguments keywords)
    (hp : Passes (lexemes (commas (Spelling.exprs .test args ++ Spelling.arguments keywords))) c c')
    (hend : c'.next.lexeme = .symbol (.closing .round)) (hroom : 20 * c.size + 18 ≤ depth) :
    ∃ args' keywords', callArguments self c = .ok ((args', keywords'), c') ∧
      Shape.exprs args' = Shape.exprs args ∧
      Shape.arguments keywords' = Shape.arguments keywords := by
  rw [lexemes_arguments] at hp
  rw [Fits.exprs_eq_true] at hf
  rw [Fits.arguments_eq_true] at hk
  have hitem (x) (hx : x ∈ listedArguments args keywords) :
      sizeOf x < n ∧ Sum.elim (Expr.fits .element) Argument.fits x = true := by
    obtain hx | hx := List.mem_append.1 hx
    · obtain ⟨e, he, rfl⟩ := List.mem_map.1 hx
      have := List.sizeOf_lt_of_mem he
      exact ⟨by simp only [Sum.inl.sizeOf_spec]; omega, hf e he⟩
    · obtain ⟨a, ha, rfl⟩ := List.mem_map.1 hx
      have := List.sizeOf_lt_of_mem ha
      exact ⟨by simp only [Sum.inr.sizeOf_spec]; omega, hk a ha⟩
  obtain ⟨xs, hxs, hmap⟩ := Lists.of_passes argumentShape argumentShape (closes .round)
    (p := Grammar.callArgument self) hp rfl
    (by simp [hend, closes]) fun x hx a b hab hs hb =>
      ha.callArgument (hitem x hx).1 (hitem x hx).2 hab
        (by simpa [EndsElement, closes] using hb) (by omega)
  have hsplit := splitArguments_shape xs
  rw [hmap, splitArguments_shape, splitArguments_listed] at hsplit
  simp only [Prod.mk.injEq] at hsplit
  refine ⟨(splitArguments xs).1, (splitArguments xs).2,
    by simp [Grammar.callArguments, hxs.listUpTo], ?_, ?_⟩
  · rw [Shape.exprs_eq_map, Shape.exprs_eq_map, hsplit.1]
  · rw [Shape.arguments_eq_map, Shape.arguments_eq_map, hsplit.2]

end Grammar

end AsyncErasure
