import AsyncErasure.Proofs.Grammar.Display

namespace AsyncErasure.Grammar

open Fragment Rule Lexeme

variable {self : Level → Rule Expr} {n depth : Nat} {c c' : Cursor}

theorem Able.boolOp (ha : Able self n depth) (s : Span) (op : BoolOp) {values : List Expr}
    (hn : sizeOf values < n) (hlen : 2 ≤ values.length) (hf : Fits.exprs .plain values)
    (hroom : 20 * c.size + 18 ≤ depth + 1 + op.level.rank) :
    Takes (boolLevel self op) c (lexemes (Expr.boolOp s op values).fragments) op.level.rank
      (.boolOp s op values) := by
  intro c' hp hg
  rw [Fits.exprs_eq_true] at hf
  have hnext : op.level.next.rank = op.level.rank + 1 ∧ op.level.next.limit = op.level.rank + 1 ∧
      op.level.rank ≤ 5 ∧ 3 ≤ op.level.next.rank := by
    cases op <;> decide
  have hgrip : (Lexeme.keyword op.keyword).grip = op.level.rank := by cases op <;> rfl
  have hlex : lexemes (Expr.boolOp s op values).fragments =
      [.keyword op.keyword].intercalate (values.map (Expr.lexemesIn op.level.next)) := by
    rw [Expr.fragments, lexemes_intercalate, Spelling.exprs_eq_map, List.map_map]
    rfl
  obtain _ | ⟨v, _ | ⟨w, ws⟩⟩ := values
  · simp at hlen
  · simp at hlen
  · rw [hlex, intercalate_cons, passes_append] at hp
    obtain ⟨m, hv, hws⟩ := hp
    have hm : m.next.lexeme = .keyword op.keyword := by
      rw [List.flatMap_cons, List.cons_append] at hws
      exact hws.head
    have hmsize := hv.size_eq
    have hlt (x) (hx : x ∈ v :: w :: ws) : sizeOf x < n :=
      Nat.lt_trans (List.sizeOf_lt_of_mem hx) hn
    obtain ⟨v', hv', hshape⟩ := ha.take v op.level.next op.level.next c (hlt v (by simp))
      (hf v (by simp)) (Nat.le_refl _) hnext.2.2.2 (by omega) m hv (by rw [hm]; omega)
    have hend := ne_of_grip_lt hg (Nat.le_of_eq hgrip.symm)
    obtain ⟨vs, hvs, hmap⟩ := Repeats.of_passes Expr.shape Expr.shape c'
      (Q := fun b => b.next.lexeme.grip < op.level.next.limit)
      (p := Rule.after (.keyword op.keyword) (self op.level.next)) hws (by simp [hend]) (by omega)
      (fun x _ a b hab => by rw [hab.head]; omega) fun x hx a b hab hs hb => by
        obtain ⟨hl, hlater, hab⟩ := passes_cons.1 hab
        have hasize := Cursor.size_advance hlater
        have hbsize := hab.size_eq
        obtain ⟨x', hx', hshape⟩ := ha.take x op.level.next op.level.next a.advance
          (hlt x (List.mem_cons_of_mem _ hx)) (hf x (List.mem_cons_of_mem _ hx)) (Nat.le_refl _)
          hnext.2.2.2 (by omega) b hab hb
        exact ⟨by omega, x', by simp [hl, hx'], hshape⟩
    refine ⟨.boolOp ⟨c.next.span.start, c'.reached⟩ op (v' :: vs),
      by simp [boolLevel, hv', hm, hvs.many], ?_⟩
    simp [Expr.shape, Shape.exprs_eq_map, hshape, hmap]

theorem Able.ifElse (ha : Able self n depth) (s : Span) {test body orelse : Expr}
    (hn : sizeOf test + sizeOf body + sizeOf orelse < n) (ht : test.fits .plain)
    (hb : body.fits .plain) (ho : orelse.fits .plain) (hroom : 20 * c.size + 18 ≤ depth + 4) :
    Takes (expression self) c (lexemes (Expr.ifElse s test body orelse).fragments) 3
      (.ifElse s test body orelse) := by
  intro c' hp hg
  have hlex : lexemes (Expr.ifElse s test body orelse).fragments =
      body.lexemesIn .disjunction ++ .keyword .if_ :: (test.lexemesIn .disjunction ++
        .keyword .else_ :: orelse.lexemesIn .test) := by
    simp [Expr.fragments, Expr.lexemesIn, Expr.fragmentsIn]
  rw [hlex] at hp
  simp only [passes_append, passes_cons] at hp
  obtain ⟨i, hbody, hif, hlater, e, htest, helse, hlater', horelse⟩ := hp
  have hisize := hbody.size_eq
  have hasize := Cursor.size_advance hlater
  have hesize := htest.size_eq
  have hbsize := Cursor.size_advance hlater'
  have hopen := ((opens_plain hb .disjunction (by decide)).head hbody).2
  have hlambda : c.next.lexeme ≠ .keyword .lambda_ := by
    intro h
    rw [h] at hopen
    exact absurd hopen (by decide)
  obtain ⟨body', hb', hbshape⟩ := ha.take body .disjunction .disjunction c (by omega) hb
    (Nat.le_refl _) (by decide) hroom i hbody (by rw [hif]; decide)
  obtain ⟨test', ht', htshape⟩ := ha.take test .disjunction .disjunction i.advance (by omega) ht
    (Nat.le_refl _) (by decide) (by omega) e htest (by rw [helse]; decide)
  obtain ⟨orelse', ho', hoshape⟩ := ha.take orelse .test .test e.advance (by omega) ho
    (Nat.le_refl _) (by decide) (by omega) c' horelse hg
  refine ⟨.ifElse ⟨c.next.span.start, c'.reached⟩ test' body' orelse', ?_,
    by simp [Expr.shape, hbshape, htshape, hoshape]⟩
  simp [expression, hlambda, hb', hif, ht', expect_apply _ _ helse, ho']

theorem Able.lambda (ha : Able self n depth) (s : Span) {params : Parameters} {body : Expr}
    (hn : sizeOf params + sizeOf body < n) (hp : params.fits false) (hb : body.fits .plain)
    (hroom : 20 * c.size ≤ depth) :
    Takes (expression self) c (lexemes (Expr.lambda s params body).fragments) 3
      (.lambda s params body) := by
  intro c' hpass hg
  have hlex : lexemes (Expr.lambda s params body).fragments = .keyword .lambda_ ::
      (lexemes (commas params.fragments) ++ .symbol .colon :: body.lexemesIn .test) := by
    rw [Expr.fragments]
    split
    · rename_i h
      simp [List.isEmpty_iff.1 h, commas, Expr.lexemesIn, Expr.fragmentsIn]
    · simp [Expr.lexemesIn, Expr.fragmentsIn]
  rw [hlex] at hpass
  simp only [passes_append, passes_cons] at hpass
  obtain ⟨hl, hlater, m, hparams, hcolon, hlater', hbody⟩ := hpass
  have hsize := Cursor.size_advance hlater
  have hmsize := hparams.size_eq
  have hbsize := Cursor.size_advance hlater'
  obtain ⟨params', hp', hpshape⟩ := ha.parameters (by omega) hp hparams (.inr ⟨rfl, rfl⟩) hcolon
    (by omega)
  obtain ⟨body', hb', hbshape⟩ := ha.take body .test .test m.advance (by omega) hb (Nat.le_refl _)
    (by decide) (by omega) c' hbody hg
  refine ⟨.lambda ⟨c.next.span.start, c'.reached⟩ params' body', ?_,
    by simp [Expr.shape, hpshape, hbshape]⟩
  simp [expression, Grammar.lambda, hl, expect_apply _ _ hl, hp', expect_apply _ _ hcolon, hb']

theorem Able.not (ha : Able self n depth) (s : Span) {operand : Expr} (hn : sizeOf operand < n)
    (hf : operand.fits .plain) (hroom : 20 * c.size ≤ depth) :
    Takes (negation self) c (lexemes (Expr.unaryOp s .not operand).fragments) 6
      (.unaryOp s .not operand) := by
  intro c' hp hg
  obtain ⟨hl, hlater, hp⟩ := passes_cons.1 hp
  have hsize := Cursor.size_advance hlater
  obtain ⟨operand', ho', hshape⟩ := ha.take operand .negation .negation c.advance hn hf
    (Nat.le_refl _) (by decide) (by omega) c' hp hg
  exact ⟨.unaryOp ⟨c.next.span.start, c'.reached⟩ .not operand', by simp [negation, hl, ho'],
    by simp [Expr.shape, hshape]⟩

theorem Able.sign (ha : Able self n depth) (s : Span) {op : UnaryOp} {operand : Expr}
    (hop : op ≠ .not) (hn : sizeOf operand < n) (hf : operand.fits .plain)
    (hroom : 20 * c.size ≤ depth) :
    Takes (signed self) c (lexemes (Expr.unaryOp s op operand).fragments) 14
      (.unaryOp s op operand) := by
  intro c' hp hg
  obtain ⟨sign, hsign, hlex⟩ : ∃ sign, UnaryOp.ofSymbol? sign = some op ∧
      lexemes (Expr.unaryOp s op operand).fragments = .symbol sign ::
        operand.lexemesIn .signed := by
    cases op with
    | not => exact absurd rfl hop
    | invert => exact ⟨.tilde, rfl, rfl⟩
    | plus => exact ⟨.plus, rfl, rfl⟩
    | minus => exact ⟨.minus, rfl, rfl⟩
  rw [hlex] at hp
  obtain ⟨hl, hlater, hp⟩ := passes_cons.1 hp
  have hsize := Cursor.size_advance hlater
  obtain ⟨operand', ho', hshape⟩ := ha.take operand .signed .signed c.advance hn hf
    (Nat.le_refl _) (by decide) (by omega) c' hp hg
  exact ⟨.unaryOp ⟨c.next.span.start, c'.reached⟩ op operand',
    by simp [signed, signOp, hl, hsign, ho'], by simp [Expr.shape, hshape]⟩

theorem Able.await (ha : Able self n depth) (s : Span) {value : Expr} (hn : sizeOf value < n)
    (hf : value.fits .plain) (hroom : 20 * c.size ≤ depth) :
    Takes (awaited self) c (lexemes (Expr.await s value).fragments) 16 (.await s value) := by
  intro c' hp hg
  obtain ⟨hl, hlater, hp⟩ := passes_cons.1 hp
  have hsize := Cursor.size_advance hlater
  obtain ⟨value', hv', hshape⟩ := ha.take value .atom .atom c.advance hn hf (Nat.le_refl _)
    (by decide) (by omega) c' hp (Nat.lt_trans hg (by decide))
  exact ⟨.await ⟨c.next.span.start, c'.reached⟩ value', by simp [awaited, hl, hv'],
    by simp [Expr.shape, hshape]⟩

theorem Able.pow (ha : Able self n depth) (s : Span) {left right : Expr}
    (hn : sizeOf left + sizeOf right < n) (hl : left.fits .plain) (hr : right.fits .plain)
    (hroom : 20 * c.size + 18 ≤ depth + 16) :
    Takes (power self) c (lexemes (Expr.binOp s .pow left right).fragments) 15
      (.binOp s .pow left right) := by
  intro c' hp hg
  have hlex : lexemes (Expr.binOp s .pow left right).fragments =
      left.lexemesIn .awaited ++ .symbol .doubleStar :: right.lexemesIn .power := by
    simp [Expr.fragments, Expr.lexemesIn, Expr.fragmentsIn]
    rfl
  rw [hlex] at hp
  simp only [passes_append, passes_cons] at hp
  obtain ⟨m, hleft, hstar, hlater, hright⟩ := hp
  have hmsize := hleft.size_eq
  have hasize := Cursor.size_advance hlater
  have hgrip : c'.next.lexeme.grip < 14 := by
    have : c'.next.lexeme.grip ≠ 14 := grip_ne_signed c'.next.lexeme
    omega
  obtain ⟨left', hl', hlshape⟩ := ha.take left .awaited .awaited c (by omega) hl (Nat.le_refl _)
    (by decide) hroom m hleft (by rw [hstar]; decide)
  obtain ⟨right', hr', hrshape⟩ := ha.take right .signed .power m.advance (by omega) hr (by decide)
    (by decide) (by omega) c' hright hgrip
  exact ⟨.binOp ⟨c.next.span.start, c'.reached⟩ .pow left' right', by simp [power, hl', hstar, hr'],
    by simp [Expr.shape, hlshape, hrshape]⟩

/-- A comparison operator in front of an operand. -/
theorem comparisonOp_apply (op : CmpOp) {ls : List Lexeme}
    (hp : Passes (lexemes op.fragments ++ ls) c c')
    (hls : ∀ a, Passes ls a c' → 8 ≤ a.next.lexeme.opens) :
    ∃ m, Passes ls m c' ∧ m.size < c.size ∧ comparisonOp c = .ok (some op, m) := by
  cases op with
  | isNot =>
    obtain ⟨hl, hlater, hp⟩ := passes_cons.1 hp
    obtain ⟨hl', hlater', hp⟩ := passes_cons.1 hp
    have hsize := Cursor.size_advance hlater
    have hsize' := Cursor.size_advance hlater'
    exact ⟨c.advance.advance, hp, by omega, by simp [comparisonOp, hl, hl']⟩
  | notIn =>
    obtain ⟨hl, hlater, hp⟩ := passes_cons.1 hp
    obtain ⟨hl', hlater', hp⟩ := passes_cons.1 hp
    have hsize := Cursor.size_advance hlater
    have hsize' := Cursor.size_advance hlater'
    exact ⟨c.advance.advance, hp, by omega,
      by simp [comparisonOp, hl, second_of_later hlater, hl']⟩
  | is =>
    obtain ⟨hl, hlater, hp⟩ := passes_cons.1 hp
    have hsize := Cursor.size_advance hlater
    have hnot : c.advance.next.lexeme ≠ .keyword .not_ := by
      intro h
      have hopen := hls _ hp
      rw [h] at hopen
      exact absurd hopen (by decide)
    exact ⟨c.advance, hp, by omega, by simp [comparisonOp, hl, hnot]⟩
  | _ =>
    obtain ⟨hl, hlater, hp⟩ := passes_cons.1 hp
    have hsize := Cursor.size_advance hlater
    exact ⟨c.advance, hp, by omega, by simp [comparisonOp, hl, CmpOp.ofSymbol?]⟩

theorem Able.comparisonLink (ha : Able self n depth) {k : Comparison} (hn : sizeOf k < n)
    (hf : k.fits) (hp : Passes (lexemes k.op.fragments ++ k.operand.lexemesIn .bitOr) c c')
    (hg : c'.next.lexeme.grip < 8) (hroom : 20 * c.size + 18 ≤ depth + 8) :
    c'.size < c.size ∧ ∃ k', comparisonLink self c = .ok (some k', c') ∧ k'.shape = k.shape := by
  obtain ⟨op, operand⟩ := k
  simp only [Comparison.mk.sizeOf_spec] at hn
  have hf : operand.fits .plain := hf
  obtain ⟨m, hoperand, hsize, hop⟩ := comparisonOp_apply op hp fun a ha =>
    ((opens_plain hf .bitOr (by decide)).head ha).2
  have hmsize := hoperand.size_eq
  obtain ⟨operand', ho', hshape⟩ := ha.take operand .bitOr .bitOr m (by omega) hf (Nat.le_refl _)
    (by decide) (by simp only [Level.rank]; omega) c' hoperand hg
  exact ⟨by omega, ⟨op, operand'⟩, by simp [Grammar.comparisonLink, hop, ho'],
    by simp [Comparison.shape, hshape]⟩

/-- The first lexeme of a comparison operator grips like one. -/
theorem grip_cmpOp (op : CmpOp) {ls : List Lexeme} (hp : Passes (lexemes op.fragments ++ ls) c c') :
    c.next.lexeme.grip = 7 := by
  cases op <;> (rw [hp.head]; rfl)

theorem Able.compare (ha : Able self n depth) (s : Span) {left : Expr} {links : List Comparison}
    (hn : sizeOf left + sizeOf links < n) (hl : left.fits .plain) (hne : links ≠ [])
    (hf : Fits.links links) (hroom : 20 * c.size + 18 ≤ depth + 8) :
    Takes (comparison self) c (lexemes (Expr.compare s left links).fragments) 7
      (.compare s left links) := by
  intro c' hp hg
  rw [Fits.links_eq_true] at hf
  have hlex : lexemes (Expr.compare s left links).fragments =
      left.lexemesIn .bitOr ++ links.flatMap fun k =>
        lexemes k.op.fragments ++ k.operand.lexemesIn .bitOr := by
    have hlinks : lexemes (Spelling.links links) = links.flatMap fun k =>
        lexemes k.op.fragments ++ k.operand.lexemesIn .bitOr := by
      clear hp hn hne hf
      induction links with
      | nil => rfl
      | cons k ks ih =>
        obtain ⟨op, operand⟩ := k
        simp [Spelling.links, Comparison.fragments, ih, Expr.lexemesIn, Expr.fragmentsIn]
    simp [Expr.fragments, hlinks, Expr.lexemesIn, Expr.fragmentsIn]
  rw [hlex, passes_append] at hp
  obtain ⟨m, hleft, hlinks⟩ := hp
  have hmsize := hleft.size_eq
  obtain ⟨ks, hks, hmap⟩ := Repeats.of_passes Comparison.shape Comparison.shape c'
    (Q := fun b => b.next.lexeme.grip < 8) (p := Grammar.comparisonLink self)
    hlinks (comparisonLink_none self hg) (by omega)
    (fun k _ a b hab => by rw [grip_cmpOp k.op hab]; decide) fun k hk a b hab hs hb =>
      ha.comparisonLink (by have := List.sizeOf_lt_of_mem hk; omega) (hf k hk) hab hb (by omega)
  have hm : m.next.lexeme.grip < 8 := by
    obtain ⟨k, ks, rfl⟩ := List.exists_cons_of_ne_nil hne
    rw [List.flatMap_cons, List.append_assoc] at hlinks
    rw [grip_cmpOp k.op hlinks]
    decide
  obtain ⟨left', hl', hlshape⟩ := ha.take left .bitOr .bitOr c (by omega) hl (Nat.le_refl _)
    (by decide) hroom m hleft hm
  have hks' : ks ≠ [] := by
    rintro rfl
    exact hne (List.map_eq_nil_iff.1 hmap.symm)
  exact ⟨.compare ⟨c.next.span.start, c'.reached⟩ left' ks,
    by simp [comparison_eq, hl', hks.many, hks'],
    by simp [Expr.shape, hlshape, Shape.links_eq_map, hmap]⟩

/-- A rule reads the beginning of an expression, and steps lead from there to the whole of it. -/
def Reaches (p : Rule Expr) (step : Place → Expr → Rule (Option Expr)) (c : Cursor)
    (ls : List Lexeme) (n : Nat) (e : Expr) : Prop :=
  ∀ c', Passes ls c c' → c'.next.lexeme.grip < n → ∃ first m e', p c = .ok (first, m) ∧
    Grows (step c.next.span.start) first m e' c' ∧ m.size ≤ c.size ∧ e'.shape = e.shape

theorem Takes.reaches {p : Rule Expr} {ls : List Lexeme} {k : Nat} {e : Expr}
    (h : Takes p c ls k e) (step : Place → Expr → Rule (Option Expr)) :
    Reaches p step c ls k e := by
  intro c' hp hg
  obtain ⟨e', he', hshape⟩ := h c' hp hg
  have hsize := hp.size_eq
  exact ⟨e', c', e', he', Grows.refl _ _ _, by omega, hshape⟩

theorem Reaches.takes {p : Rule Expr} {step : Place → Expr → Rule (Option Expr)}
    {ls : List Lexeme} {k : Nat} {e : Expr} (h : Reaches p step c ls (k + 1) e)
    (hend : ∀ start a m, m.next.lexeme.grip < k → step start a m = .ok (none, m)) :
    Takes (do
      let start ← place
      let first ← p
      grow (step start) first) c ls k e := by
  intro c' hp hg
  obtain ⟨first, m, e', hfirst, hgrows, -, hshape⟩ := h c' hp (by omega)
  exact ⟨e', by simp [hfirst, hgrows.grow (hend _ _ _ hg)], hshape⟩

def isLeftLevel (level : Level) : Bool :=
  [.bitOr, .bitXor, .bitAnd, .shift, .sum, .product].contains level

/-- An operator that groups to the left, reached from its left operand. -/
theorem Able.binOp (ha : Able self n depth) (s : Span) {op : BinOp} {left right : Expr}
    (hop : op ≠ .pow) (hn : sizeOf right < n) (hr : right.fits .plain)
    (hleft : Reaches (self op.level.next) (fun start => extendBinary self start op.level) c
      (left.lexemesIn op.level) (op.level.rank + 1) left)
    (hroom : 20 * c.size + 18 ≤ depth + (op.level.rank + 1)) :
    Reaches (self op.level.next) (fun start => extendBinary self start op.level) c
      (lexemes (Expr.binOp s op left right).fragments) (op.level.rank + 1)
      (.binOp s op left right) := by
  intro c' hp hg
  have hlex : lexemes (Expr.binOp s op left right).fragments =
      left.lexemesIn op.level ++ .symbol op.symbol :: right.lexemesIn op.level.next := by
    simp [Expr.fragments, hop, Expr.lexemesIn, Expr.fragmentsIn]
  rw [hlex] at hp
  simp only [passes_append, passes_cons] at hp
  obtain ⟨k, hl, hsymbol, hlater, hright⟩ := hp
  have hksize := hl.size_eq
  have hasize := Cursor.size_advance hlater
  have hrsize := hright.size_eq
  have hnext : op.level.next.rank = op.level.rank + 1 ∧ op.level.next.limit = op.level.rank + 1 ∧
      3 ≤ op.level.next.rank := by
    cases op <;> first | exact absurd rfl hop | decide
  have hlookup : BinOp.ofSymbol? op.symbol = some op := by cases op <;> rfl
  have hgrouped : op.symbol ∈ grouped op.level := symbol_mem_grouped.2 ⟨rfl, hop⟩
  obtain ⟨first, m, left', hfirst, hgrows, hmsize, hlshape⟩ := hleft k hl
    (by rw [hsymbol, grip_symbol]; omega)
  obtain ⟨right', hr', hrshape⟩ := ha.take right op.level.next op.level.next k.advance hn hr
    (Nat.le_refl _) hnext.2.2 (by omega) c' hright (by omega)
  refine ⟨first, m, .binOp ⟨c.next.span.start, c'.reached⟩ op left' right', hfirst,
    hgrows.step ?_ (by omega), hmsize, by simp [Expr.shape, hlshape, hrshape]⟩
  simp [extendBinary, binaryOp, hsymbol, hlookup, hgrouped, hr']

def extendPrimary (self : Level → Rule Expr) (start : Place) (value : Expr) :
    Rule (Option Expr) := do
  if ← accept Symbol.dot then
    let field ← name
    return some (.attr (← spanFrom start) value field)
  else if ← accept (Symbol.opening .round) then
    let (args, keywords) ← callArguments self
    expect (Symbol.closing .round)
    return some (.call (← spanFrom start) value args keywords)
  else if ← accept (Symbol.opening .square) then
    let index ← slices self
    expect (Symbol.closing .square)
    return some (.subscript (← spanFrom start) value index)
  else return none

theorem primary_eq (self : Level → Rule Expr) :
    primary self = (do
      let start ← place
      let first ← atom self
      grow (extendPrimary self start) first) := rfl

theorem extendPrimary_none {start : Place} {value : Expr} (h : c.next.lexeme.grip < 17) :
    extendPrimary self start value c = .ok (none, c) := by
  simp [extendPrimary, ne_of_grip_lt h (m := .symbol .dot) (by decide),
    ne_of_grip_lt h (m := .symbol (.opening .round)) (by decide),
    ne_of_grip_lt h (m := .symbol (.opening .square)) (by decide)]

section Primary

variable {value : Expr} (hvalue : Reaches (atom self) (extendPrimary self) c
  (value.lexemesIn .atom) 18 value)

include hvalue

theorem Able.attr (s : Span) (field : String) :
    Reaches (atom self) (extendPrimary self) c (lexemes (Expr.attr s value field).fragments) 18
      (.attr s value field) := by
  intro c' hp hg
  have hlex : lexemes (Expr.attr s value field).fragments =
      value.lexemesIn .atom ++ [Lexeme.symbol .dot, .name field] := by
    rw [Expr.fragments]
    split <;> simp [Expr.lexemesIn, Expr.fragmentsIn]
  rw [hlex] at hp
  simp only [passes_append, passes_cons, passes_nil] at hp
  obtain ⟨k, hv, hdot, hlater, hname, hlater', rfl⟩ := hp
  have hsize := Cursor.size_advance hlater
  have hsize' := Cursor.size_advance hlater'
  obtain ⟨first, m, value', hfirst, hgrows, hmsize, hshape⟩ := hvalue k hv (by rw [hdot]; decide)
  refine ⟨first, m, .attr ⟨c.next.span.start, k.advance.advance.reached⟩ value' field, hfirst,
    hgrows.step ?_ (by omega), hmsize, by simp [Expr.shape, hshape]⟩
  simp [extendPrimary, hdot, name_apply hname]

theorem Able.subscript (ha : Able self n depth) (s : Span) {index : Expr} (hn : sizeOf index < n)
    (hf : index.fits .index) (hroom : 20 * c.size ≤ depth) :
    Reaches (atom self) (extendPrimary self) c (lexemes (Expr.subscript s value index).fragments) 18
      (.subscript s value index) := by
  intro c' hp hg
  have hlex : lexemes (Expr.subscript s value index).fragments = value.lexemesIn .atom ++
      Lexeme.symbol (.opening .square) ::
        (index.lexemesIn .tuple ++ [Lexeme.symbol (.closing .square)]) := by
    simp [Expr.fragments, lexemes_enclose, Expr.lexemesIn, Expr.fragmentsIn]
  rw [hlex] at hp
  simp only [passes_append, passes_cons, passes_nil] at hp
  obtain ⟨k, hv, hopen, hlater, i, hindex, hclose, hlater', rfl⟩ := hp
  have hksize := hv.size_eq
  have hsize := Cursor.size_advance hlater
  have hisize := hindex.size_eq
  have hsize' := Cursor.size_advance hlater'
  obtain ⟨first, m, value', hfirst, hgrows, hmsize, hshape⟩ := hvalue k hv (by rw [hopen]; decide)
  obtain ⟨index', hi', hishape⟩ := ha.slices hn hf (by omega) hindex hclose
  refine ⟨first, m, .subscript ⟨c.next.span.start, i.advance.reached⟩ value' index', hfirst,
    hgrows.step ?_ (by omega), hmsize, by simp [Expr.shape, hshape, hishape]⟩
  simp [extendPrimary, hopen, hi', expect_apply _ _ hclose]

/-- A call whose arguments are read up to the bracket behind them. -/
theorem call_of_arguments (s : Span) {args : List Expr} {keywords : List Argument}
    (ls : List Lexeme)
    (hcall : lexemes (Expr.call s value args keywords).fragments = value.lexemesIn .atom ++
      Lexeme.symbol (.opening .round) :: (ls ++ [Lexeme.symbol (.closing .round)]))
    (hargs : ∀ a b, Passes ls a b → a.size < c.size → b.next.lexeme = .symbol (.closing .round) →
      ∃ args' keywords', callArguments self a = .ok ((args', keywords'), b) ∧
        Shape.exprs args' = Shape.exprs args ∧
        Shape.arguments keywords' = Shape.arguments keywords) :
    Reaches (atom self) (extendPrimary self) c (lexemes (Expr.call s value args keywords).fragments)
      18 (.call s value args keywords) := by
  intro c' hp hg
  rw [hcall] at hp
  simp only [passes_append, passes_cons, passes_nil] at hp
  obtain ⟨k, hv, hopen, hlater, i, hls, hclose, hlater', rfl⟩ := hp
  have hksize := hv.size_eq
  have hsize := Cursor.size_advance hlater
  have hisize := hls.size_eq
  have hsize' := Cursor.size_advance hlater'
  obtain ⟨first, m, value', hfirst, hgrows, hmsize, hshape⟩ := hvalue k hv (by rw [hopen]; decide)
  obtain ⟨args', keywords', hcall', hashape, hkshape⟩ := hargs k.advance i hls (by omega) hclose
  refine ⟨first, m, .call ⟨c.next.span.start, i.advance.reached⟩ value' args' keywords', hfirst,
    hgrows.step ?_ (by omega), hmsize, by simp [Expr.shape, hshape, hashape, hkshape]⟩
  simp [extendPrimary, hopen, hcall', expect_apply _ _ hclose]

theorem Able.call (ha : Able self n depth) (s : Span) {args : List Expr}
    {keywords : List Argument} (hn : sizeOf args + sizeOf keywords < n)
    (hf : Fits.exprs .element args) (hk : Fits.arguments keywords)
    (hstar : Expr.lacksStar args keywords) (hroom : 20 * c.size ≤ depth) :
    Reaches (atom self) (extendPrimary self) c (lexemes (Expr.call s value args keywords).fragments)
      18 (.call s value args keywords) := by
  cases h : Expr.isLoneGenerator args keywords with
  | false =>
    refine call_of_arguments hvalue s _ (by
      simp [Expr.fragments_call _ _ h, lexemes_enclose, Expr.lexemesIn, Expr.fragmentsIn]
      rfl) fun a b hab hs hb => ?_
    exact ha.callArguments hn hf hk hab hb (by omega)
  | true =>
    obtain ⟨t, elt, ks, rfl, rfl⟩ := Expr.exists_of_isLoneGenerator h
    simp only [Fits.exprs_eq_true, List.mem_singleton, forall_eq, Expr.fits, Bool.and_eq_true,
      Bool.not_eq_true', List.isEmpty_eq_false_iff] at hf
    simp only [List.cons.sizeOf_spec, Expr.comp.sizeOf_spec] at hn
    have helt : elt.fits .plain := by
      obtain ⟨s, v, rfl, -⟩ | ⟨hplain, -⟩ := Expr.starred_or_plain hf.1.1 rfl rfl
      · cases hstar
      · exact hplain
    refine call_of_arguments hvalue s (elt.lexemesIn .test ++ lexemes (Spelling.clauses ks)) (by
      simp [Expr.fragments, lexemes_enclose, Expr.lexemesIn, Expr.fragmentsIn])
      fun a b hab hs hb => ?_
    obtain ⟨m, he, hks⟩ := passes_append.1 hab
    have hmsize := he.size_eq
    obtain ⟨hclause, hg⟩ := startsClause_clauses hf.1.2 hks
    have hassign : m.next.lexeme ≠ .symbol .assign := by
      intro h
      simp [startsClause, h] at hclause
    obtain ⟨hclose, elt', heshape, hargument⟩ := ha.plainArgument (by omega) helt he hg hassign
      (by omega)
    obtain ⟨ks', hks', hkshape⟩ := ha.clauses (by omega) hf.2 hks hb (by omega)
    have hrun : Grammar.callArgument self a =
        .ok (.inl (.comp ⟨a.next.span.start, b.reached⟩ .generator elt' ks'), b) := by
      simp [hargument, hclause, hks']
    have hlist := (show Lists (closes .round) _ _ _ _ from
      .last hclose hrun (by simp [hb])).listUpTo
    refine ⟨[.comp ⟨a.next.span.start, b.reached⟩ .generator elt' ks'], [],
      by simp [Grammar.callArguments, hlist, splitArguments], ?_, rfl⟩
    simp [Shape.exprs, Expr.shape, heshape, hkshape]

end Primary

/-- A well-formed expression is read back from its lexemes: by every level that its context allows,
and by the levels that grow to the left from what it begins with. -/
structure Parsed (e : Expr) : Prop where
  take : ∀ (level context : Level) (c : Cursor) (d : Nat), level.rank ≤ context.rank →
    3 ≤ context.rank → 20 * c.size + 18 ≤ d + level.rank →
    Takes (parseAt d level) c (e.lexemesIn context) level.limit e
  binary : ∀ (level : Level) (c : Cursor) (d : Nat), isLeftLevel level →
    20 * c.size + 18 ≤ d + (level.rank + 1) →
    Reaches (parseAt d level.next) (fun start => extendBinary (parseAt d) start level) c
      (e.lexemesIn level) (level.rank + 1) e
  primary : ∀ (c : Cursor) (d : Nat), 20 * c.size ≤ d →
    Reaches (atom (parseAt d)) (extendPrimary (parseAt d)) c (e.lexemesIn .atom) 18 e

theorem able_parseAt (ih : ∀ x : Expr, sizeOf x < n → x.fits .plain → Parsed x) (d : Nat) :
    Able (parseAt d) n d := by
  induction d with
  | zero =>
    have hrank (l : Level) : l.rank ≤ 17 := by cases l <;> decide
    refine ⟨fun x level context c hx hf hl hc hroom => ?_, fun x c _ _ hroom => by omega⟩
    exact absurd hroom (by have := hrank level; omega)
  | succ d hd =>
    refine ⟨fun x level context c hx hf hl hc hroom => ?_, fun x c hx hf hroom => ?_⟩
    · exact (ih x hx hf).take level context c (d + 1) hl hc hroom
    · exact hd.starExpressions hx hf (by omega)

def Own (e : Expr) : Prop :=
  ∀ (c : Cursor) (d : Nat), 20 * c.size + 18 ≤ d + 1 + e.level.rank →
    Takes (parseLevel (parseAt d) e.level) c (lexemes e.fragments) e.level.rank e

/-- Brackets that a context asks for, an atom has as well. -/
theorem lexemesIn_bracketed {e : Expr} {context : Level} (h : e.needsBrackets context) :
    e.lexemesIn context = lexemes (enclose .round e.fragments) ∧
      e.lexemesIn .atom = lexemes (enclose .round e.fragments) := by
  have hatom : e.needsBrackets .atom := by
    have hlt {l : Level} (hl : l < context) : l < .atom := by
      have hbound : context.rank ≤ 17 := by cases context <;> decide
      exact Nat.lt_of_lt_of_le hl hbound
    cases e with
    | tuple s elts parenthesized =>
      simp [Expr.needsBrackets, show Level.tuple < Level.atom by decide]
    | _ => simpa [Expr.needsBrackets] using hlt (by simpa [Expr.needsBrackets] using h)
  constructor <;> simp [Expr.lexemesIn, Expr.fragmentsIn, Expr.enclosed, h, hatom]

theorem lexemesIn_bare {e : Expr} (context : Level) (h : e.needsBrackets context = false) :
    e.lexemesIn context = lexemes e.fragments := by
  simp [Expr.lexemesIn, Expr.fragmentsIn, Expr.enclosed, h]

theorem isForm_of_rank {e : Expr} (hf : e.fits .plain) (h : 2 < e.level.rank) : e.isForm := by
  cases e with
  | named | tuple => exact absurd h (by rw [Expr.level]; decide)
  | starred | slice => simp [Expr.fits, Slot.plain] at hf
  | _ => rfl

theorem Parsed.of_primary {e : Expr} (hf : e.fits .plain)
    (hprimary : ∀ (c : Cursor) (d : Nat), 20 * c.size ≤ d →
      Reaches (atom (parseAt d)) (extendPrimary (parseAt d)) c (e.lexemesIn .atom) 18 e)
    (hown : e.isForm → 3 ≤ e.level.rank → e.level.rank < 17 → Own e)
    (hbinary : e.isForm → isLeftLevel e.level → ∀ (c : Cursor) (d : Nat),
      20 * c.size + 18 ≤ d + (e.level.rank + 1) →
      Reaches (parseAt d e.level.next) (fun start => extendBinary (parseAt d) start e.level) c
        (lexemes e.fragments) (e.level.rank + 1) e) : Parsed e := by
  have hatom (c : Cursor) (d : Nat) (hd : 20 * c.size + 18 ≤ d + Level.atom.rank) :
      Takes (parseAt d .atom) c (e.lexemesIn .atom) Level.atom.rank e := by
    simp only [Level.rank] at hd
    obtain ⟨d, rfl⟩ : ∃ d', d = d' + 1 := ⟨d - 1, by have := c.one_le_size; omega⟩
    rw [parseAt, parseLevel, primary_eq]
    exact (hprimary c d (by omega)).takes fun _ _ _ h => extendPrimary_none h
  -- Whether the context needs brackets decides if the expression is an atom here or stands bare.
  have htake (level context : Level) (c : Cursor) (d : Nat) (hl : level.rank ≤ context.rank)
      (hc : 3 ≤ context.rank) (hroom : 20 * c.size + 18 ≤ d + level.rank) :
      Takes (parseAt d level) c (e.lexemesIn context) level.limit e := by
    have hbound (l : Level) : l.rank ≤ 17 := by cases l <;> decide
    have hopens := opens_plain hf .atom (by decide)
    cases hb : e.needsBrackets context with
    | true =>
      obtain ⟨hlex, hlex'⟩ := lexemesIn_bracketed hb
      rw [hlex, ← hlex']
      exact takes_of_le _ (hbound level) (by decide) hopens (hatom c) d hroom
    | false =>
      have hform : e.isForm := by
        refine isForm_of_rank hf (Nat.lt_of_not_le fun hlow => ?_)
        rw [Expr.needsBrackets_of_rank_le_two hlow hc] at hb
        cases hb
      have hle : context.rank ≤ e.level.rank := by
        rw [Expr.needsBrackets_of_isForm context hform, decide_eq_false_iff_not] at hb
        exact Nat.le_of_not_lt hb
      rw [lexemesIn_bare _ hb]
      by_cases htop : e.level.rank = 17
      · obtain hatomic : e.level = .atom := Level.rank_injective htop
        have hlex : e.lexemesIn .atom = lexemes e.fragments :=
          lexemesIn_bare _ (by rw [Expr.needsBrackets_of_isForm .atom hform, hatomic]; rfl)
        rw [← hlex]
        exact takes_of_le _ (hbound level) (by decide) hopens (hatom c) d hroom
      · have hbound' := hbound e.level
        refine takes_of_le _ (Nat.le_trans hl hle) (by omega)
          (opens_of_heads (e.begins.form _ hf hform)) (fun d hd => ?_) d hroom
        obtain ⟨d, rfl⟩ : ∃ d', d = d' + 1 := ⟨d - 1, by have := c.one_le_size; omega⟩
        exact hown hform (by omega) (by omega) c d hd
  refine ⟨htake, fun level c d hlevel hroom => ?_, hprimary⟩
  have hlevels : 3 ≤ level.rank ∧ level.next.rank = level.rank + 1 ∧
      level.next.limit = level.rank + 1 := by
    cases level <;> first | decide | cases hlevel
  have hlt (l : Level) : e.level < l ↔ e.level.rank < l.rank := Iff.rfl
  -- Either the operators of this very level make the expression, or its text is that of the next
  -- level and no operator of this one goes on with it.
  by_cases hsame : e.isForm ∧ e.level = level
  · obtain ⟨hform, rfl⟩ := hsame
    rw [lexemesIn_bare e.level
      (by rw [Expr.needsBrackets_of_isForm _ hform, decide_eq_false_iff_not, hlt]; omega)]
    exact hbinary hform hlevel c d hroom
  · have hlex : e.lexemesIn level = e.lexemesIn level.next := by
      have hn : e.needsBrackets level = e.needsBrackets level.next := by
        by_cases hlow : e.level.rank ≤ 2
        · rw [Expr.needsBrackets_of_rank_le_two hlow hlevels.1,
            Expr.needsBrackets_of_rank_le_two hlow (by omega)]
        · have hform := isForm_of_rank hf (by omega)
          have hne : e.level.rank ≠ level.rank := fun h => hsame ⟨hform, Level.rank_injective h⟩
          rw [Expr.needsBrackets_of_isForm _ hform, Expr.needsBrackets_of_isForm _ hform]
          simp only [hlt, hlevels.2.1, decide_eq_decide]
          omega
      rw [Expr.lexemesIn, Expr.lexemesIn, Expr.fragmentsIn, Expr.fragmentsIn, Expr.enclosed,
        Expr.enclosed, hn]
    rw [hlex]
    have ht := htake level.next level.next c d (Nat.le_refl _) (by omega) (by omega)
    rw [hlevels.2.2] at ht
    exact ht.reaches _

/-- A form weaker than an atom is read by the rule of its level, and as an atom in brackets. -/
theorem Parsed.of_own {e : Expr} (hf : e.fits .plain) (level : Level) (hlevel : e.level = level)
    (hl : 3 ≤ level.rank) (hlt : level.rank < 17)
    (hown : ∀ (c : Cursor) (d : Nat), 20 * c.size + 18 ≤ d + 1 + level.rank →
      Takes (parseLevel (parseAt d) level) c (lexemes e.fragments) level.rank e)
    (hbinary : isLeftLevel level → ∀ (c : Cursor) (d : Nat),
      20 * c.size + 18 ≤ d + (level.rank + 1) →
      Reaches (parseAt d level.next) (fun start => extendBinary (parseAt d) start level) c
        (lexemes e.fragments) (level.rank + 1) e) : Parsed e := by
  subst hlevel
  have hform := isForm_of_rank hf hl
  have hopens := opens_of_heads (e.begins.form _ hf hform)
  refine .of_primary hf (fun c d hd => ?_) (fun _ _ _ => hown) fun _ => hbinary
  have hb : e.needsBrackets .atom := by
    rw [Expr.needsBrackets_of_isForm _ hform, decide_eq_true_eq]
    exact hlt
  rw [(lexemesIn_bracketed hb).1]
  refine Takes.reaches ?_ _
  intro c' hp hg
  obtain ⟨-, hlater, -⟩ := passes_cons.1 (lexemes_enclose .round e.fragments ▸ hp)
  have hsize := Cursor.size_advance hlater
  have hnamed : Takes (parseAt d .named) c.advance (lexemes e.fragments) 3 e := by
    refine takes_of_le .named (Nat.zero_le _) hl hopens (fun k hk => ?_) d
      (by simp only [Level.rank]; omega)
    obtain ⟨k, rfl⟩ : ∃ k', k = k' + 1 := ⟨k - 1, by have := c.advance.one_le_size; omega⟩
    exact hown c.advance k hk
  refine atom_bracketed ?_ hnamed (fun a b hab => ?_) c' hp hg
  · rintro s elts p rfl
    cases hform
  · obtain ⟨hstart, hopen⟩ := hopens.head hab
    refine ⟨?_, ?_, ?_⟩ <;> intro h <;> rw [h] at hstart hopen
    · cases hstart
    · exact absurd (Nat.le_trans hl hopen) (by decide)
    · exact absurd (Nat.le_trans hl hopen) (by decide)

/-- A form that stands in brackets wherever an operand may. -/
theorem Parsed.of_bracketed {e : Expr} (hf : e.fits .plain) (level : Level)
    (hlevel : e.level = level) (hl : level.rank ≤ 2)
    (h : ∀ (c : Cursor) (d : Nat), 20 * c.size ≤ d →
      Takes (atom (parseAt d)) c (lexemes (enclose .round e.fragments)) 18 e) : Parsed e := by
  subst hlevel
  have hb : e.needsBrackets .atom := Expr.needsBrackets_of_rank_le_two hl (by decide)
  refine .of_primary hf (fun c d hd => ?_) (fun _ hl' _ => by omega) fun _ hleft => ?_
  · rw [(lexemesIn_bracketed hb).1]
    exact (h c d hd).reaches _
  · exfalso
    revert hleft hl
    cases e.level <;> decide

/-- A form that is an atom or grows to one. -/
theorem Parsed.of_atom {e : Expr} (hf : e.fits .plain) (hform : e.isForm) (hl : e.level = .atom)
    (h : ∀ (c : Cursor) (d : Nat), 20 * c.size ≤ d →
      Reaches (atom (parseAt d)) (extendPrimary (parseAt d)) c (lexemes e.fragments) 18 e) :
    Parsed e := by
  have hb : e.needsBrackets .atom = false := by
    rw [Expr.needsBrackets_of_isForm _ hform, hl]
    rfl
  refine .of_primary hf (fun c d hd => ?_) (fun _ _ hlt => ?_) fun _ hleft => ?_
  · rw [lexemesIn_bare _ hb]
    exact h c d hd
  · rw [hl] at hlt
    exact absurd hlt (by decide)
  · rw [hl] at hleft
    cases hleft

def ParsedBelow (n : Nat) : Prop := ∀ x : Expr, sizeOf x < n → x.fits .plain → Parsed x

theorem parsed_boolOp {s : Span} {op : BoolOp} {values : List Expr}
    (ih : ParsedBelow (sizeOf (Expr.boolOp s op values)))
    (hf : (Expr.boolOp s op values).fits .plain) : Parsed (.boolOp s op values) := by
  have ha := able_parseAt ih
  have hfits := hf
  simp only [Expr.fits, Bool.and_eq_true, decide_eq_true_eq] at hfits
  simp only [Expr.boolOp.sizeOf_spec] at ha
  refine .of_own hf op.level rfl (by cases op <;> decide) (by cases op <;> decide)
    (fun c d hd => ?_) fun h => by cases op <;> cases h
  have htake := (ha d).boolOp (c := c) s op (by omega) hfits.1.2 hfits.2 hd
  cases op <;> exact htake

theorem parsed_named {s : Span} {target value : Expr}
    (ih : ParsedBelow (sizeOf (Expr.named s target value)))
    (hf : (Expr.named s target value).fits .plain) : Parsed (.named s target value) := by
  have ha := able_parseAt ih
  have hfits := hf
  simp only [Expr.fits, Bool.and_eq_true] at hfits
  simp only [Expr.named.sizeOf_spec] at ha
  obtain ⟨t, id, rfl⟩ : ∃ t id, target = .name t id := by
    cases target <;> first | exact ⟨_, _, rfl⟩ | simp [Expr.isName] at hfits
  refine .of_bracketed hf .named rfl (by decide) fun c d hd c' hp hg => ?_
  obtain ⟨-, hlater, -⟩ := passes_cons.1 hp
  have hsize := Cursor.size_advance hlater
  obtain ⟨d, rfl⟩ : ∃ d', d = d' + 1 := ⟨d - 1, by omega⟩
  refine atom_bracketed (by simp) ((ha d).named (by omega) hfits.2 (by omega)) (fun a b hab => ?_)
    c' hp hg
  have hname : a.next.lexeme = .name id := hab.head
  simp [hname]

theorem parsed_binOp {s : Span} {op : BinOp} {left right : Expr}
    (ih : ParsedBelow (sizeOf (Expr.binOp s op left right)))
    (hf : (Expr.binOp s op left right).fits .plain) : Parsed (.binOp s op left right) := by
  have ha := able_parseAt ih
  have hfits := hf
  simp only [Expr.fits, Bool.and_eq_true] at hfits
  simp only [Expr.binOp.sizeOf_spec] at ha ih
  by_cases hop : op = .pow
  · subst hop
    refine .of_own hf .power rfl (by decide) (by decide) (fun c d hd => ?_)
      fun h => by cases h
    exact (ha d).pow s (by omega) hfits.1 hfits.2 (by simp only [Level.rank] at hd; omega)
  · have hleft : isLeftLevel op.level := by cases op <;> first | rfl | exact absurd rfl hop
    have hreach (c : Cursor) (d : Nat) (hd : 20 * c.size + 18 ≤ d + (op.level.rank + 1)) :=
      (ha d).binOp s hop (by omega) hfits.2
        ((ih left (by omega) hfits.1).binary op.level c d hleft hd) hd
    refine .of_own hf op.level rfl (by cases op <;> decide) (by cases op <;> decide)
      (fun c d hd => ?_) fun _ => hreach
    have htake := (hreach c d (by omega)).takes fun _ _ _ h => extendBinary_none h
    rw [← binaryLevel_eq] at htake
    cases op <;> first | exact htake | exact absurd rfl hop

theorem parsed_unaryOp {s : Span} {op : UnaryOp} {operand : Expr}
    (ih : ParsedBelow (sizeOf (Expr.unaryOp s op operand)))
    (hf : (Expr.unaryOp s op operand).fits .plain) : Parsed (.unaryOp s op operand) := by
  have ha := able_parseAt ih
  have hfits := hf
  simp only [Expr.fits, Bool.and_eq_true] at hfits
  simp only [Expr.unaryOp.sizeOf_spec] at ha
  refine .of_own hf op.level rfl (by cases op <;> decide) (by cases op <;> decide)
    (fun c d hd => ?_) fun h => by cases op <;> cases h
  have hroom : 20 * c.size ≤ d := by
    have : op.level.rank ≤ 17 := by cases op <;> decide
    omega
  cases op with
  | not => exact (ha d).not s (by omega) hfits.2 hroom
  | invert | plus | minus => exact (ha d).sign s (by simp) (by omega) hfits.2 hroom

theorem parsed_lambda {s : Span} {params : Parameters} {body : Expr}
    (ih : ParsedBelow (sizeOf (Expr.lambda s params body)))
    (hf : (Expr.lambda s params body).fits .plain) : Parsed (.lambda s params body) := by
  have ha := able_parseAt ih
  have hfits := hf
  simp only [Expr.fits, Bool.and_eq_true] at hfits
  simp only [Expr.lambda.sizeOf_spec] at ha
  refine .of_own hf .test rfl (by decide) (by decide) (fun c d hd => ?_)
    fun h => by cases h
  exact (ha d).lambda s (by omega) hfits.1.2 hfits.2 (by simp only [Level.rank] at hd; omega)

theorem parsed_ifElse {s : Span} {test body orelse : Expr}
    (ih : ParsedBelow (sizeOf (Expr.ifElse s test body orelse)))
    (hf : (Expr.ifElse s test body orelse).fits .plain) : Parsed (.ifElse s test body orelse) := by
  have ha := able_parseAt ih
  have hfits := hf
  simp only [Expr.fits, Bool.and_eq_true] at hfits
  simp only [Expr.ifElse.sizeOf_spec] at ha
  refine .of_own hf .test rfl (by decide) (by decide) (fun c d hd => ?_)
    fun h => by cases h
  exact (ha d).ifElse s (by omega) hfits.1.1.2 hfits.1.2 hfits.2
    (by simp only [Level.rank] at hd; omega)

theorem parsed_compare {s : Span} {left : Expr} {links : List Comparison}
    (ih : ParsedBelow (sizeOf (Expr.compare s left links)))
    (hf : (Expr.compare s left links).fits .plain) : Parsed (.compare s left links) := by
  have ha := able_parseAt ih
  have hfits := hf
  simp only [Expr.fits, Bool.and_eq_true, Bool.not_eq_true', List.isEmpty_eq_false_iff] at hfits
  simp only [Expr.compare.sizeOf_spec] at ha
  refine .of_own hf .comparison rfl (by decide) (by decide) (fun c d hd => ?_)
    fun h => by cases h
  exact (ha d).compare s (by omega) hfits.1.1.2 hfits.1.2 hfits.2
    (by simp only [Level.rank] at hd; omega)

theorem parsed_await {s : Span} {value : Expr} (ih : ParsedBelow (sizeOf (Expr.await s value)))
    (hf : (Expr.await s value).fits .plain) : Parsed (.await s value) := by
  have ha := able_parseAt ih
  have hfits := hf
  simp only [Expr.await.sizeOf_spec] at ha
  refine .of_own hf .awaited rfl (by decide) (by decide) (fun c d hd => ?_)
    fun h => by cases h
  exact (ha d).await s (by omega) hfits (by simp only [Level.rank] at hd; omega)

theorem parsed_set {s : Span} {elts : List Expr} (ih : ParsedBelow (sizeOf (Expr.set s elts)))
    (hf : (Expr.set s elts).fits .plain) : Parsed (.set s elts) := by
  have ha := able_parseAt ih
  have hfits := hf
  simp only [Expr.fits, Bool.and_eq_true, Bool.not_eq_true', List.isEmpty_eq_false_iff] at hfits
  simp only [Expr.set.sizeOf_spec] at ha
  exact .of_atom hf rfl rfl fun c d hd =>
    ((ha d).set s (by omega) hfits.1 hfits.2 hd).reaches _

theorem parsed_comp {s : Span} {kind : Collection} {elt : Expr} {clauses : List Clause}
    (ih : ParsedBelow (sizeOf (Expr.comp s kind elt clauses)))
    (hf : (Expr.comp s kind elt clauses).fits .plain) : Parsed (.comp s kind elt clauses) := by
  have ha := able_parseAt ih
  have hfits := hf
  simp only [Expr.fits, Bool.and_eq_true, Bool.not_eq_true', List.isEmpty_eq_false_iff] at hfits
  simp only [Expr.comp.sizeOf_spec] at ha
  exact .of_atom hf rfl rfl fun c d hd =>
    ((ha d).comp s kind (by omega) hfits.1.1 hfits.1.2 hfits.2 hd).reaches _

theorem parsed_dictComp {s : Span} {key value : Expr} {clauses : List Clause}
    (ih : ParsedBelow (sizeOf (Expr.dictComp s key value clauses)))
    (hf : (Expr.dictComp s key value clauses).fits .plain) :
    Parsed (.dictComp s key value clauses) := by
  have ha := able_parseAt ih
  have hfits := hf
  simp only [Expr.fits, Bool.and_eq_true, Bool.not_eq_true', List.isEmpty_eq_false_iff] at hfits
  simp only [Expr.dictComp.sizeOf_spec] at ha
  exact .of_atom hf rfl rfl fun c d hd => ((ha d).dictComp s (by omega) hfits.1.1.1 hfits.1.1.2
    hfits.1.2 hfits.2 hd).reaches _

theorem parsed_call {s : Span} {func : Expr} {args : List Expr} {keywords : List Argument}
    (ih : ParsedBelow (sizeOf (Expr.call s func args keywords)))
    (hf : (Expr.call s func args keywords).fits .plain) : Parsed (.call s func args keywords) := by
  have ha := able_parseAt ih
  have hfits := hf
  simp only [Expr.fits, Bool.and_eq_true] at hfits
  simp only [Expr.call.sizeOf_spec] at ha ih
  have hfunc := ih func (by omega) hfits.1.1.1
  exact .of_atom hf rfl rfl fun c d hd => Able.call (hfunc.primary c d hd) (ha d) s (by omega)
    hfits.1.1.2 hfits.1.2 hfits.2 hd

theorem parsed_attr {s : Span} {value : Expr} {field : String}
    (ih : ParsedBelow (sizeOf (Expr.attr s value field)))
    (hf : (Expr.attr s value field).fits .plain) : Parsed (.attr s value field) := by
  have hfits := hf
  simp only [Expr.fits, Bool.and_eq_true] at hfits
  simp only [Expr.attr.sizeOf_spec] at ih
  have hvalue := ih value (by omega) hfits.1
  exact .of_atom hf rfl rfl fun c d hd => Able.attr (hvalue.primary c d hd) s field

theorem parsed_subscript {s : Span} {value index : Expr}
    (ih : ParsedBelow (sizeOf (Expr.subscript s value index)))
    (hf : (Expr.subscript s value index).fits .plain) : Parsed (.subscript s value index) := by
  have ha := able_parseAt ih
  have hfits := hf
  simp only [Expr.fits, Bool.and_eq_true] at hfits
  simp only [Expr.subscript.sizeOf_spec] at ha ih
  have hvalue := ih value (by omega) hfits.1
  exact .of_atom hf rfl rfl fun c d hd => Able.subscript (hvalue.primary c d hd) (ha d) s
    (by omega) hfits.2 hd

theorem parsed_tuple {s : Span} {elts : List Expr} {parenthesized : Bool}
    (ih : ParsedBelow (sizeOf (Expr.tuple s elts parenthesized)))
    (hf : (Expr.tuple s elts parenthesized).fits .plain) :
    Parsed (.tuple s elts parenthesized) := by
  have ha := able_parseAt ih
  have hfits := hf
  simp only [Expr.tuple.sizeOf_spec] at ha
  cases parenthesized with
  | false => simp [Expr.fits, Slot.plain] at hf
  | true =>
    exact .of_bracketed hf .tuple rfl (by decide) fun c d hd =>
      (ha d).bracketedTuple s (by omega) hfits hd

theorem parsed_yield {s : Span} {value : Option Expr}
    (ih : ParsedBelow (sizeOf (Expr.yield s value))) (hf : (Expr.yield s value).fits .plain) :
    Parsed (.yield s value) := by
  have ha := able_parseAt ih
  have hfits := hf
  simp only [Expr.yield.sizeOf_spec] at ha
  refine .of_bracketed hf .yielded rfl (by decide) fun c d hd =>
    atom_yield ?_ fun a b hab => ?_
  · have hsize := c.size_advance_le
    cases value with
    | none => exact Able.yieldNone
    | some value =>
      simp only [Option.some.sizeOf_spec] at ha
      exact (ha d).yield (by omega) hfits (by omega)
  · cases value <;> (rw [Expr.fragments] at hab; exact hab.head)

theorem parsed_yieldFrom {s : Span} {value : Expr}
    (ih : ParsedBelow (sizeOf (Expr.yieldFrom s value)))
    (hf : (Expr.yieldFrom s value).fits .plain) : Parsed (.yieldFrom s value) := by
  have ha := able_parseAt ih
  have hfits := hf
  simp only [Expr.yieldFrom.sizeOf_spec] at ha
  refine .of_bracketed hf .yielded rfl (by decide) fun c d hd =>
    atom_yield ?_ fun a b hab => hab.head
  have hsize := c.size_advance_le
  exact (ha d).yieldFrom (by omega) hfits (by omega)

theorem parsed (e : Expr) (hf : e.fits .plain) : Parsed e := by
  have ih : ParsedBelow (sizeOf e) := fun x _ hx => parsed x hx
  have ha := able_parseAt ih
  have hfits := hf
  cases e with
  | boolOp s op values => exact parsed_boolOp ih hf
  | named s target value => exact parsed_named ih hf
  | binOp s op left right => exact parsed_binOp ih hf
  | unaryOp s op operand => exact parsed_unaryOp ih hf
  | lambda s params body => exact parsed_lambda ih hf
  | ifElse s test body orelse => exact parsed_ifElse ih hf
  | compare s left links => exact parsed_compare ih hf
  | await s value => exact parsed_await ih hf
  | dict s items =>
    simp only [Expr.dict.sizeOf_spec] at ha
    exact .of_atom hf rfl rfl fun c d hd => ((ha d).dict s (by omega) hfits hd).reaches _
  | set s elts => exact parsed_set ih hf
  | list s elts =>
    simp only [Expr.list.sizeOf_spec] at ha
    exact .of_atom hf rfl rfl fun c d hd => ((ha d).list s (by omega) hfits hd).reaches _
  | comp s kind elt clauses => exact parsed_comp ih hf
  | dictComp s key value clauses => exact parsed_dictComp ih hf
  | constant s value => exact .of_atom hf rfl rfl fun c d _ => (atom_constant s value).reaches _
  | name s id => exact .of_atom hf rfl rfl fun c d _ => (atom_name s id).reaches _
  | str s parts =>
    simp only [Expr.fits, Bool.and_eq_true, Bool.not_eq_true', List.isEmpty_eq_false_iff] at hfits
    exact .of_atom hf rfl rfl fun c d _ => (atom_str s hfits.1).reaches _
  | call s func args keywords => exact parsed_call ih hf
  | attr s value field => exact parsed_attr ih hf
  | subscript s value index => exact parsed_subscript ih hf
  | tuple s elts parenthesized => exact parsed_tuple ih hf
  | yield s value => exact parsed_yield ih hf
  | yieldFrom s value => exact parsed_yieldFrom ih hf
  | starred s value => simp [Expr.fits, Slot.plain] at hf
  | slice s lower upper step => simp [Expr.fits, Slot.plain] at hf
termination_by sizeOf e

theorem takes_expr {level : Level} {ls : List Lexeme} {k : Nat} {e : Expr}
    (h : Takes (parseAt (20 * (c.size + 1)) level) c ls k e) : Takes (expr level) c ls k e := by
  intro c' hp hg
  simpa only [expr] using h c' hp hg

/-- The rules that statements use read every well-formed expression. -/
theorem able_expr (n depth : Nat) : Able expr n depth := by
  have hroom (level : Level) (c : Cursor) : 20 * c.size + 18 ≤ 20 * (c.size + 1) + level.rank := by
    omega
  have ha := able_parseAt (n := n) fun x _ hx => parsed x hx
  refine ⟨fun x level context c hx hf hl hc _ => takes_expr ?_,
    fun x c hx hf _ => takes_expr ?_⟩
  · exact (parsed x hf).take level context c _ hl hc (hroom level c)
  · exact (ha _).tuple x c hx hf (hroom .tuple c)

end AsyncErasure.Grammar
