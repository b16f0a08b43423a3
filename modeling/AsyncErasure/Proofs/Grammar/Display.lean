import AsyncErasure.Proofs.Grammar.Argument

namespace AsyncErasure.Grammar

open Fragment Rule Lexeme

variable {self : Level → Rule Expr} {n depth : Nat} {c c' : Cursor}

theorem atom_constant (s : Span) (value : Constant) :
    Takes (atom self) c (lexemes (Expr.constant s value).fragments) 18 (.constant s value) := by
  intro c' hp _
  simp only [Expr.fragments] at hp
  refine ⟨.constant ⟨c.next.span.start, c'.reached⟩ value, ?_, rfl⟩
  cases value <;>
    (obtain ⟨hl, -, hp⟩ := passes_cons.1 hp
     obtain rfl := passes_nil.1 hp
     simp [atom, hl])

theorem atom_name (s : Span) (id : String) :
    Takes (atom self) c (lexemes (Expr.name s id).fragments) 18 (.name s id) := by
  intro c' hp _
  simp only [Expr.fragments, lexemes_name, lexemes_nil, passes_cons, passes_nil] at hp
  obtain ⟨hl, -, rfl⟩ := hp
  exact ⟨.name ⟨c.next.span.start, c.advance.reached⟩ id, by simp [atom, hl], rfl⟩

theorem atom_str (s : Span) {parts : List String} (hne : parts ≠ []) :
    Takes (atom self) c (lexemes (Expr.str s parts).fragments) 18 (.str s parts) := by
  intro c' hp hg
  have hlex : lexemes (Expr.str s parts).fragments = parts.flatMap fun p => [Lexeme.string p] := by
    have hnil (xs : List (List Lexeme)) : ([] : List Lexeme).intercalate xs = xs.flatten := by
      induction xs with
      | nil => rfl
      | cons x xs ih => cases xs <;> simp_all [List.intercalate]
    rw [Expr.fragments, lexemes_intercalate, List.map_map]
    exact hnil _
  rw [hlex] at hp
  have hstring : stringPart c' = .ok (none, c') := by
    cases hl : c'.next.lexeme with
    | string text => simp [hl, grip] at hg
    | _ => simp [stringPart, hl]
  obtain ⟨ps, hps, hmap⟩ := Repeats.of_passes id id c' (Q := fun _ => True) (p := stringPart)
    hp hstring trivial (fun _ _ _ _ _ => trivial)
    fun p _ a b hab _ _ => by
      simp only [passes_cons, passes_nil] at hab
      obtain ⟨hl, hlater, rfl⟩ := hab
      have hsize := Cursor.size_advance hlater
      exact ⟨by omega, p, by simp [stringPart, hl], rfl⟩
  obtain rfl : ps = parts := by simpa using hmap
  refine ⟨.str ⟨c.next.span.start, c'.reached⟩ ps, ?_, rfl⟩
  obtain ⟨p, ps, rfl⟩ := List.exists_cons_of_ne_nil hne
  have hl : c.next.lexeme = .string p := hp.head
  simp [atom, hl, hps.many]

/-- The elements of a display between its brackets. -/
theorem Able.display (ha : Able self n depth) {b : Bracket} {y : Expr} {ys : List Expr}
    (trailing : Bool) (hn : sizeOf (y :: ys) < n) (hf : Fits.exprs .element (y :: ys))
    (hp : Passes (.symbol (.opening b) :: (listed (Expr.lexemesIn .test) (y :: ys) ++
      (if trailing then [Lexeme.symbol .comma] else []) ++ [Lexeme.symbol (.closing b)])) c c')
    (hroom : 20 * c.size ≤ depth) :
    c.next.lexeme = .symbol (.opening b) ∧
      (startsExpr c.advance.next.lexeme ∧ 2 ≤ c.advance.next.lexeme.opens) ∧
      ∃ v m vs, Grammar.starOr self .named c.advance = .ok (v, m) ∧ EndsElement b m ∧
        (trailing ∨ ys ≠ [] → m.next.lexeme = .symbol .comma) ∧
        displayTail self b v m = .ok (v :: vs, c') ∧
        Shape.exprs (v :: vs) = Shape.exprs (y :: ys) := by
  rw [Fits.exprs_eq_true] at hf
  simp only [passes_cons, passes_append (b := [_]), passes_nil] at hp
  obtain ⟨hl, hlater, k, hitems, hend, -, rfl⟩ := hp
  have hsize := Cursor.size_advance hlater
  have hsizes : ∀ z ∈ y :: ys, sizeOf z < n := fun z hz =>
    Nat.lt_trans (List.sizeOf_lt_of_mem hz) hn
  obtain ⟨v, m, vs, hv, hvs, hm, hmap⟩ := ha.elements hsizes hf hitems hend (by omega)
  have hstart : startsExpr c.advance.next.lexeme ∧ 2 ≤ c.advance.next.lexeme.opens := by
    rw [listed_cons, List.append_assoc, passes_append] at hitems
    obtain ⟨k', hy, -⟩ := hitems
    exact (opens_of_heads (y.begins.item .element (hf y (by simp)) rfl .test (by decide))).head hy
  refine ⟨hl, hstart, v, m, vs, hv, ?_, ?_, by simp [displayTail, hvs, expect_apply _ _ hend], ?_⟩
  · obtain ⟨hm, -⟩ | ⟨rfl, -⟩ := hm
    · exact .inl hm
    · exact .inr hend
  · intro h
    obtain ⟨hm, -⟩ | ⟨-, ht, hys⟩ := hm
    · exact hm
    · simp [ht, hys] at h
  · rw [Shape.exprs_eq_map, Shape.exprs_eq_map, hmap]

theorem Able.list (ha : Able self n depth) (s : Span) {elts : List Expr} (hn : sizeOf elts < n)
    (hf : Fits.exprs .element elts) (hroom : 20 * c.size ≤ depth) :
    Takes (atom self) c (lexemes (Expr.list s elts).fragments) 18 (.list s elts) := by
  intro c' hp _
  rw [Expr.fragments, lexemes_enclose, Spelling.lexemes_exprs] at hp
  cases elts with
  | nil =>
    simp only [listed, List.map_nil, List.intercalate_nil, List.nil_append, passes_cons,
      passes_nil] at hp
    obtain ⟨hl, -, hclose, -, rfl⟩ := hp
    refine ⟨.list ⟨c.next.span.start, c.advance.advance.reached⟩ [], ?_, rfl⟩
    simp [atom, hl, listDisplay, expect_apply _ _ hl, hclose]
  | cons y ys =>
    obtain ⟨hl, ⟨hstart, -⟩, v, m, vs, hv, hm, -, htail, hshape⟩ :=
      ha.display false hn hf (by simpa using hp) hroom
    have hclose : c.advance.next.lexeme ≠ .symbol (.closing .square) := by
      intro h
      rw [h] at hstart
      cases hstart
    refine ⟨.list ⟨c.next.span.start, c'.reached⟩ (v :: vs), ?_, by
      rw [Expr.shape, Expr.shape, hshape]⟩
    simp [atom, hl, listDisplay, expect_apply _ _ hl, hclose, hv, hm.startsClause, htail]

theorem Able.set (ha : Able self n depth) (s : Span) {elts : List Expr} (hn : sizeOf elts < n)
    (hne : elts ≠ []) (hf : Fits.exprs .element elts) (hroom : 20 * c.size ≤ depth) :
    Takes (atom self) c (lexemes (Expr.set s elts).fragments) 18 (.set s elts) := by
  intro c' hp _
  rw [Expr.fragments, lexemes_enclose, Spelling.lexemes_exprs] at hp
  obtain ⟨y, ys, rfl⟩ := List.exists_cons_of_ne_nil hne
  obtain ⟨hl, ⟨hstart, -⟩, v, m, vs, hv, hm, -, htail, hshape⟩ :=
    ha.display false hn hf (by simpa using hp) hroom
  have hne : c.advance.next.lexeme ≠ .symbol (.closing .curly) ∧
      c.advance.next.lexeme ≠ .symbol .doubleStar := by
    constructor <;> intro h <;> rw [h] at hstart <;> cases hstart
  have hcolon : m.next.lexeme ≠ .symbol .colon := by
    obtain h | h := hm <;> simp [h]
  refine ⟨.set ⟨c.next.span.start, c'.reached⟩ (v :: vs), ?_, by
    rw [Expr.shape, Expr.shape, hshape]⟩
  simp [atom, hl, braceDisplay, expect_apply _ _ hl, hne, hv, hcolon, hm.startsClause, htail]

theorem Able.bracketedTuple (ha : Able self n depth) (s : Span) {elts : List Expr}
    (hn : sizeOf elts < n) (hf : Fits.exprs .element elts) (hroom : 20 * c.size ≤ depth) :
    Takes (atom self) c (lexemes (enclose .round (Expr.tuple s elts true).fragments)) 18
      (.tuple s elts true) := by
  intro c' hp _
  rw [lexemes_enclose, Expr.lexemes_tuple] at hp
  cases elts with
  | nil =>
    simp only [listed, List.map_nil, List.intercalate_nil, List.nil_append, List.length_nil,
      Nat.zero_ne_one, if_false, passes_cons, passes_nil] at hp
    obtain ⟨hl, -, hclose, -, rfl⟩ := hp
    refine ⟨.tuple ⟨c.next.span.start, c.advance.advance.reached⟩ [] true, ?_, rfl⟩
    simp [atom, hl, parenthesized, expect_apply _ _ hl, hclose]
  | cons y ys =>
    obtain ⟨hl, ⟨hstart, hopen⟩, v, m, vs, hv, hm, hcomma, htail, hshape⟩ :=
      ha.display (decide (ys = [])) hn hf (by simpa using hp) hroom
    have hcomma := hcomma (by by_cases h : ys = [] <;> simp [h])
    have hclose : c.advance.next.lexeme ≠ .symbol (.closing .round) := by
      intro h
      rw [h] at hstart
      cases hstart
    have hyield : c.advance.next.lexeme ≠ .keyword .yield_ := by
      intro h
      rw [h] at hopen
      exact absurd hopen (by decide)
    refine ⟨.tuple ⟨c.next.span.start, c'.reached⟩ (v :: vs) true, ?_, by
      rw [Expr.shape, Expr.shape, hshape]⟩
    simp [atom, hl, parenthesized, expect_apply _ _ hl, hclose, hyield, hv, hm.startsClause, hcomma,
      htail]

theorem startsClause_clauses {ks : List Clause} (hne : ks ≠ [])
    (hp : Passes (lexemes (Spelling.clauses ks)) c c') :
    startsClause c = .ok (true, c) ∧ c.next.lexeme.grip < 3 := by
  rw [Spelling.lexemes_clauses] at hp
  obtain ⟨k, ks, rfl⟩ := List.exists_cons_of_ne_nil hne
  rw [List.flatMap_cons, passes_append] at hp
  obtain ⟨m, hk, -⟩ := hp
  refine ⟨startsClause_clause hk, ?_⟩
  rw [Clause.lexemes_fragments] at hk
  split at hk <;> rw [hk.head] <;> decide

/-- The element of a comprehension and its clauses between brackets. -/
theorem Able.comprehension (ha : Able self n depth) {b : Bracket} {elt : Expr} {ks : List Clause}
    (hn : sizeOf elt + sizeOf ks < n) (he : elt.fits .element) (hne : ks ≠ [])
    (hf : Fits.clauses ks)
    (hp : Passes (.symbol (.opening b) :: (elt.lexemesIn .test ++ lexemes (Spelling.clauses ks) ++
      [Lexeme.symbol (.closing b)])) c c') (hroom : 20 * c.size ≤ depth) :
    c.next.lexeme = .symbol (.opening b) ∧
      (startsExpr c.advance.next.lexeme ∧ 2 ≤ c.advance.next.lexeme.opens) ∧
      ∃ v m vs k, Grammar.starOr self .named c.advance = .ok (v, m) ∧
        Grammar.startsClause m = .ok (true, m) ∧ m.next.lexeme ≠ .symbol .colon ∧
        Grammar.clauses self m = .ok (vs, k) ∧ k.next.lexeme = .symbol (.closing b) ∧
        k.advance = c' ∧ v.shape = elt.shape ∧ Shape.clauses vs = Shape.clauses ks := by
  simp only [passes_cons, passes_append, passes_nil] at hp
  obtain ⟨hl, hlater, k, ⟨m, helt, hclauses⟩, hend, -, hk⟩ := hp
  have hsize := Cursor.size_advance hlater
  have hmsize := helt.size_eq
  have hhead := (opens_of_heads (elt.begins.item .element he rfl .test (by decide))).head helt
  obtain ⟨hstart, hg⟩ := startsClause_clauses hne hclauses
  have hcolon : m.next.lexeme ≠ .symbol .colon := by
    intro h
    simp [Grammar.startsClause, h] at hstart
  obtain ⟨v, hv, hshape⟩ := ha.starOr .named (by omega) he rfl rfl (Nat.zero_le _)
    (by decide) (by decide) (by omega) m helt hg
  obtain ⟨vs, hvs, hvshape⟩ := ha.clauses (by omega) hf hclauses hend (by omega)
  exact ⟨hl, hhead, v, m, vs, k, hv, hstart, hcolon, hvs, hend, hk, hshape, hvshape⟩

theorem Able.comp (ha : Able self n depth) (s : Span) (kind : Collection) {elt : Expr}
    {ks : List Clause} (hn : sizeOf elt + sizeOf ks < n) (he : elt.fits .element) (hne : ks ≠ [])
    (hf : Fits.clauses ks) (hroom : 20 * c.size ≤ depth) :
    Takes (atom self) c (lexemes (Expr.comp s kind elt ks).fragments) 18 (.comp s kind elt ks) := by
  intro c' hp _
  rw [Expr.fragments, lexemes_enclose, lexemes_append] at hp
  obtain ⟨hl, ⟨hstart, hopen⟩, v, m, vs, k, hv, hclause, hcolon, hvs, hend, rfl, hshape, hvshape⟩ :=
    ha.comprehension hn he hne hf hp hroom
  have hne {l : Lexeme} (h : startsExpr l = false ∨ l.opens < 2) : c.advance.next.lexeme ≠ l := by
    rintro rfl
    obtain h | h := h
    · rw [hstart] at h
      cases h
    · omega
  have hclose (b : Bracket) := hne (l := .symbol (.closing b)) (.inl (by cases b <;> rfl))
  have hyield := hne (l := .keyword .yield_) (.inr (by decide))
  have hdouble := hne (l := .symbol .doubleStar) (.inl rfl)
  refine ⟨.comp ⟨c.next.span.start, k.advance.reached⟩ kind v vs, ?_, by
    rw [Expr.shape, Expr.shape, hshape, hvshape]⟩
  cases kind <;> rw [Collection.bracket] at hl hend
  · simp [atom, hl, listDisplay, expect_apply _ _ hl, hclose, hv, hclause, hvs,
      expect_apply _ _ hend]
  · simp [atom, hl, braceDisplay, expect_apply _ _ hl, hclose, hdouble, hv, hcolon, hclause, hvs,
      expect_apply _ _ hend]
  · simp [atom, hl, parenthesized, expect_apply _ _ hl, hclose, hyield, hv, hclause, hvs,
      expect_apply _ _ hend]

/-- A first entry with a key, up to what comes behind its value. -/
theorem Able.keyed (ha : Able self n depth) {key value : Expr}
    (hn : sizeOf key + sizeOf value < n) (hk : key.fits .plain) (hf : value.fits .plain)
    (hp : Passes (key.lexemesIn .test ++ .symbol .colon :: value.lexemesIn .test) c c')
    (hg : c'.next.lexeme.grip < 3) (hroom : 20 * c.size + 18 ≤ depth) :
    startsExpr c.next.lexeme ∧ ∃ k v m, Grammar.starOr self .named c = .ok (k, m) ∧
      m.next.lexeme = .symbol .colon ∧ self .test m.advance = .ok (v, c') ∧
      k.shape = key.shape ∧ v.shape = value.shape := by
  rw [passes_append] at hp
  obtain ⟨m, hkey, hp⟩ := hp
  obtain ⟨hcolon, hlater, hvalue⟩ := passes_cons.1 hp
  have hsize := Cursor.size_advance hlater
  have hksize := hkey.size_eq
  obtain ⟨k, hk', hkshape⟩ := ha.starOr .named (by omega) hk rfl rfl (Nat.zero_le _)
    (by decide) (by decide) (by omega) m hkey (by rw [hcolon]; decide)
  obtain ⟨v, hv', hvshape⟩ := ha.take value .test .test m.advance (by omega) hf (Nat.le_refl _)
    (by decide) (by omega) c' hvalue hg
  exact ⟨((opens_plain hk .test (by decide)).head hkey).1, k, v, m, hk', hcolon, hv',
    hkshape, hvshape⟩

theorem Able.dict (ha : Able self n depth) (s : Span) {items : List DictItem}
    (hn : sizeOf items < n) (hf : Fits.items items) (hroom : 20 * c.size ≤ depth) :
    Takes (atom self) c (lexemes (Expr.dict s items).fragments) 18 (.dict s items) := by
  intro c' hp _
  rw [Fits.items_eq_true] at hf
  rw [Expr.fragments, lexemes_enclose, Spelling.items_eq_map, lexemes_commas] at hp
  simp only [passes_cons, passes_append, passes_nil] at hp
  obtain ⟨hl, hlater, k, hitems, hend, -, rfl⟩ := hp
  have hsize := Cursor.size_advance hlater
  cases items with
  | nil =>
    obtain rfl := passes_nil.1 hitems
    refine ⟨.dict ⟨c.next.span.start, c.advance.advance.reached⟩ [], ?_, rfl⟩
    simp [atom, hl, braceDisplay, expect_apply _ _ hl, hend]
  | cons i rest =>
    obtain ⟨key, value⟩ := i
    cases key with
    | none =>
      obtain ⟨is, his, hmap⟩ := ha.dictItems hn hf hitems hend (by omega)
      rw [listed_cons] at hitems
      have hstar : c.advance.next.lexeme = .symbol .doubleStar := hitems.head
      refine ⟨.dict ⟨c.next.span.start, k.advance.reached⟩ is, ?_, by
        rw [Expr.shape, Expr.shape, Shape.items_eq_map, Shape.items_eq_map, hmap]⟩
      simp [atom, hl, braceDisplay, expect_apply _ _ hl, hstar, his]
    | some key =>
      have hfirst := hf ⟨some key, value⟩ (by simp)
      simp only [DictItem.fits, Fits.expr?, Bool.and_eq_true] at hfirst
      simp only [List.cons.sizeOf_spec, DictItem.mk.sizeOf_spec, Option.some.sizeOf_spec] at hn
      rw [listed_cons, passes_append] at hitems
      obtain ⟨m, hfirst', hrest⟩ := hitems
      have hlex : lexemes (DictItem.fragments ⟨some key, value⟩) =
          key.lexemesIn .test ++ .symbol .colon :: value.lexemesIn .test := by
        simp [DictItem.fragments, Expr.lexemesIn, Expr.fragmentsIn]
      have hmsize := hfirst'.size_eq
      have hm : EndsElement .curly m := by
        cases rest with
        | nil => exact .inr (passes_nil.1 hrest ▸ hend)
        | cons i is => exact .inl hrest.head
      rw [hlex] at hfirst'
      obtain ⟨hstart, key', value', j, hkey, hcolon, hvalue, hkshape, hvshape⟩ :=
        ha.keyed (by omega) hfirst.1 hfirst.2 hfirst' hm.grip_lt (by omega)
      have hne : c.advance.next.lexeme ≠ .symbol (.closing .curly) ∧
          c.advance.next.lexeme ≠ .symbol .doubleStar := by
        constructor <;> intro h <;> rw [h] at hstart <;> cases hstart
      obtain ⟨is, htail, hmap⟩ : ∃ is, dictTail self ⟨some key', value'⟩ m =
          .ok (⟨some key', value'⟩ :: is, k.advance) ∧
          is.map DictItem.shape = rest.map DictItem.shape := by
        cases rest with
        | nil =>
          obtain rfl := passes_nil.1 hrest
          exact ⟨[], by simp [dictTail, hend, expect_apply _ _ hend], rfl⟩
        | cons i is =>
          rw [List.flatMap_cons, List.cons_append,
            ← listed_cons (f := fun i : DictItem => lexemes i.fragments)] at hrest
          obtain ⟨hcomma, hlater', hrest⟩ := passes_cons.1 hrest
          have hsize' := Cursor.size_advance hlater'
          obtain ⟨is', his, hmap⟩ := ha.dictItems (by omega)
            (fun i hi => hf i (List.mem_cons_of_mem _ hi)) hrest hend (by omega)
          exact ⟨is', by simp [dictTail, hcomma, his], hmap⟩
      refine ⟨.dict ⟨c.next.span.start, k.advance.reached⟩ (⟨some key', value'⟩ :: is), ?_, ?_⟩
      · simp [atom, hl, braceDisplay, expect_apply _ _ hl, hne, hkey, hcolon, hvalue,
          hm.startsClause, htail]
      · simp [Expr.shape, Shape.items_eq_map, DictItem.shape, Shape.expr?, hkshape, hvshape, hmap]

theorem Able.dictComp (ha : Able self n depth) (s : Span) {key value : Expr} {ks : List Clause}
    (hn : sizeOf key + sizeOf value + sizeOf ks < n) (hk : key.fits .plain)
    (hv : value.fits .plain) (hne : ks ≠ []) (hf : Fits.clauses ks) (hroom : 20 * c.size ≤ depth) :
    Takes (atom self) c (lexemes (Expr.dictComp s key value ks).fragments) 18
      (.dictComp s key value ks) := by
  intro c' hp _
  have hlex : lexemes (Expr.dictComp s key value ks).fragments =
      .symbol (.opening .curly) :: (key.lexemesIn .test ++ .symbol .colon ::
        value.lexemesIn .test ++
        lexemes (Spelling.clauses ks) ++ [Lexeme.symbol (.closing .curly)]) := by
    simp [Expr.fragments, lexemes_enclose, Expr.lexemesIn, Expr.fragmentsIn]
  rw [hlex] at hp
  simp only [passes_cons (l := .symbol (.opening _)), passes_append (b := [_]),
    passes_append (b := lexemes _), @passes_cons [], passes_nil] at hp
  obtain ⟨hl, hlater, k, ⟨m, hkeyed, hclauses⟩, hend, -, rfl⟩ := hp
  have hsize := Cursor.size_advance hlater
  have hmsize := hkeyed.size_eq
  obtain ⟨hclause, hg⟩ := startsClause_clauses hne hclauses
  obtain ⟨hstart, key', value', j, hkey, hcolon, hvalue, hkshape, hvshape⟩ :=
    ha.keyed (by omega) hk hv hkeyed hg (by omega)
  obtain ⟨vs, hvs, hshape⟩ := ha.clauses (by omega) hf hclauses hend (by omega)
  have hne : c.advance.next.lexeme ≠ .symbol (.closing .curly) ∧
      c.advance.next.lexeme ≠ .symbol .doubleStar := by
    constructor <;> intro h <;> rw [h] at hstart <;> cases hstart
  refine ⟨.dictComp ⟨c.next.span.start, k.advance.reached⟩ key' value' vs, ?_, by
    rw [Expr.shape, Expr.shape, hkshape, hvshape, hshape]⟩
  simp [atom, hl, braceDisplay, expect_apply _ _ hl, hne, hkey, hcolon, hvalue, hclause, hvs,
    expect_apply _ _ hend]

/-- An expression in round brackets that is no tuple. -/
theorem atom_bracketed {e : Expr} (he : ∀ s elts p, e ≠ .tuple s elts p)
    (h : Takes (self .named) c.advance (lexemes e.fragments) 3 e)
    (hhead : ∀ a b, Passes (lexemes e.fragments) a b → a.next.lexeme ≠ .symbol (.closing .round) ∧
      a.next.lexeme ≠ .keyword .yield_ ∧ a.next.lexeme ≠ .symbol .star) :
    Takes (atom self) c (lexemes (enclose .round e.fragments)) 18 e := by
  intro c' hp _
  rw [lexemes_enclose] at hp
  simp only [passes_cons, passes_append, passes_nil] at hp
  obtain ⟨hl, -, k, hbody, hend, -, rfl⟩ := hp
  obtain ⟨e', he', hshape⟩ := h k hbody (by rw [hend]; decide)
  obtain ⟨hclose, hyield, hstar⟩ := hhead c.advance k hbody
  have hfirst : Grammar.starOr self .named c.advance = .ok (e', k) := by
    simp [Grammar.starOr, hstar, he']
  have hclause : Grammar.startsClause k = .ok (false, k) := by simp [startsClause, hend]
  refine ⟨e', ?_, hshape⟩
  simp only [atom, bind_apply, place_apply, peek_apply, hl, parenthesized, expect_apply _ _ hl]
  cases e' with
  | tuple s elts p =>
    cases e <;> first | cases hshape | exact absurd rfl (he _ _ _)
  | _ => simp [hclose, hyield, hfirst, hclause, hend]

/-- A yield in round brackets. -/
theorem atom_yield {e : Expr} (h : Takes (yieldExpression self) c.advance (lexemes e.fragments) 1 e)
    (hhead : ∀ a b, Passes (lexemes e.fragments) a b → a.next.lexeme = .keyword .yield_) :
    Takes (atom self) c (lexemes (enclose .round e.fragments)) 18 e := by
  intro c' hp _
  rw [lexemes_enclose] at hp
  simp only [passes_cons, passes_append, passes_nil] at hp
  obtain ⟨hl, -, k, hbody, hend, -, rfl⟩ := hp
  obtain ⟨e', he', hshape⟩ := h k hbody (by rw [hend]; decide)
  have hyield := hhead c.advance k hbody
  exact ⟨e', by simp [atom, hl, parenthesized, expect_apply _ _ hl, hyield, he',
    expect_apply _ _ hend], hshape⟩

end AsyncErasure.Grammar
