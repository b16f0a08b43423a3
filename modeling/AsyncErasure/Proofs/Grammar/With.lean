import AsyncErasure.Proofs.Grammar.Compound

namespace AsyncErasure.Grammar

open Fragment Rule Lexeme Cursor Spelling

variable {c c' m : Cursor} {x : Expr}

def Fails {α : Type} (p : Rule α) (c : Cursor) : Prop := ∃ e, p c = .error e

theorem fails_invalid {α : Type} (fault : Fault) (c : Cursor) :
    Fails (Rule.fail fault : Rule α) c := ⟨_, rfl⟩

section Failure

/-- No conditional expression begins with a star or with `yield`. -/
theorem fails_parseAt (h : c.next.lexeme = .symbol .star ∨ c.next.lexeme = .keyword .yield_)
    (d : Nat) {level : Level} (hl : 3 ≤ level.rank) : Fails (parseAt d level) c := by
  induction d generalizing level with
  | zero => exact fails_invalid _ c
  | succ d ih =>
    obtain ⟨e, he⟩ : Fails (parseAt d level.next) c := ih (by rw [Level.rank_next]; omega)
    rw [parseAt]
    cases level with
    | named | yielded | tuple => exact absurd hl (by decide)
    | test =>
      rw [Level.next] at he
      obtain h | h := h <;> exact ⟨e, by simp [parseLevel, expression, h, he]⟩
    | disjunction | conjunction => exact ⟨e, by simp [parseLevel, boolLevel, BoolOp.level, he]⟩
    | negation =>
      rw [Level.next] at he
      obtain h | h := h <;> exact ⟨e, by simp [parseLevel, negation, h, he]⟩
    | comparison =>
      rw [Level.next] at he
      exact ⟨e, by simp [parseLevel, comparison, he]⟩
    | bitOr | bitXor | bitAnd | shift | sum | product =>
      exact ⟨e, by simp [parseLevel, binaryLevel_eq, he]⟩
    | signed =>
      rw [Level.next] at he
      obtain h | h := h <;> exact ⟨e, by simp [parseLevel, signed, signOp, h,
          UnaryOp.ofSymbol?, he]⟩
    | power =>
      rw [Level.next] at he
      exact ⟨e, by simp [parseLevel, power, he]⟩
    | awaited =>
      rw [Level.next] at he
      obtain h | h := h <;> exact ⟨e, by simp [parseLevel, awaited, h, he]⟩
    | atom =>
      obtain h | h := h <;>
        exact ⟨⟨c.next.span.start, .invalid⟩, by simp [parseLevel, primary, atom, h, Rule.fail]⟩

theorem fails_withItem (h : c.next.lexeme = .symbol .star ∨ c.next.lexeme = .keyword .yield_) :
    Fails withItem c := by
  obtain ⟨e, he⟩ := fails_parseAt h (20 * (c.size + 1))
      (show 3 ≤ Level.test.rank from Nat.le_refl 3)
  have he : expr .test c = .error e := he
  exact ⟨e, by simp [withItem, he]⟩

theorem listUpTo_fails {α : Type} {closed : Lexeme → Bool} {p : Rule α}
    (hc : closed c.next.lexeme = false) (hp : Fails p c) : Fails (listUpTo closed p) c := by
  obtain ⟨e, he⟩ := hp
  have hone := c.one_le_size
  obtain ⟨n, hn⟩ : ∃ n, c.size = n + 1 := ⟨c.size - 1, by omega⟩
  exact ⟨e, by simp [listUpTo, hn, listUpTo.go, hc, he]⟩

end Failure

section Items

/-- A context without a target. -/
theorem withItem_plain (hf : x.fits .plain) (hp : Passes (x.lexemesIn .test) c c')
    (hg : c'.next.lexeme.grip < 3) (has : c'.next.lexeme ≠ .keyword .as_) :
    ∃ x', withItem c = .ok (⟨x', none⟩, c') ∧ x'.shape = x.shape := by
  obtain ⟨x', hx', hshape⟩ := take_test hf c' hp hg
  exact ⟨x', by simp [withItem, hx', has], hshape⟩

/-- A name before a walrus is read alone. -/
theorem withItem_walrus {s : Span} {id : String} (hf : (Expr.name s id).fits .plain)
    (hp : Passes [.name id] c c') (hw : c'.next.lexeme = .symbol .walrus) :
    ∃ i, withItem c = .ok (i, c') := by
  obtain ⟨d, hd⟩ : ∃ d, 20 * (c.size + 1) = d + 1 := ⟨20 * (c.size + 1) - 1, by omega⟩
  have ha : Able (parseAt d) (sizeOf (Expr.name s id) + 1) d :=
    able_parseAt (fun x _ hx => parsed x hx) d
  obtain ⟨x, hx, -⟩ := ha.take _ .disjunction .atom c (Nat.lt_succ_self _) hf (by decide)
      (by decide)
    (by omega) c' hp (by rw [hw]; decide)
  have hname := hp.head
  have htest : expr .test c = .ok (x, c') := by
    rw [expr, hd, parseAt]
    simp [parseLevel, expression, hname, hx, hw]
  exact ⟨⟨x, none⟩, by simp [withItem, htest, hw]⟩

/-- The bracket does not hold all the items if something else than the colon follows it. -/
theorem fails_bracketed {items : List WithItem} (hopen : c.next.lexeme = .symbol (.opening .round))
    (hlist : listUpTo (closes .round) withItem c.advance = .ok (items, m))
    (h : m.next.lexeme = .symbol (.closing .round) → m.advance.next.lexeme = .symbol .colon →
      items = []) : Fails bracketedWithItems c := by
  by_cases hclose : m.next.lexeme = .symbol (.closing .round)
  · by_cases hcolon : m.advance.next.lexeme = .symbol .colon
    · obtain rfl := h hclose hcolon
      exact ⟨_, by simp [bracketedWithItems, expect_apply, hopen, hlist, hclose, Rule.fail]; rfl⟩
    · exact ⟨_, by simp [bracketedWithItems, expect_apply, hopen, hlist, hclose, hcolon,
        Rule.fail]; rfl⟩
  · exact ⟨_, by simp [bracketedWithItems, hopen, hlist, expect, hclose, Rule.fail]; rfl⟩

theorem fails_bracketed_of_list (hopen : c.next.lexeme = .symbol (.opening .round))
    (hlist : Fails (listUpTo (closes .round) withItem) c.advance) : Fails bracketedWithItems c := by
  obtain ⟨e, he⟩ := hlist
  exact ⟨e, by simp [bracketedWithItems, expect_apply, hopen, he]⟩

/-- A starred element is no context. -/
theorem fails_starred {elts : List Expr} (hf : ∀ e ∈ elts, e.fits .element)
    (hstar : elts.any Expr.isStarred) {ls : List Lexeme}
    (hp : Passes (listed (Expr.lexemesIn .test) elts ++ ls) c c') :
    Fails (listUpTo (closes .round) withItem) c := by
  suffices hgo : ∀ n, c.size ≤ n → Fails (listUpTo.go (closes .round) withItem n) c from
    hgo _ (Nat.le_refl _)
  induction elts generalizing c with
  | nil => cases hstar
  | cons e es ih =>
    intro n hn
    have hone := c.one_le_size
    obtain ⟨n, rfl⟩ : ∃ j, n = j + 1 := ⟨n - 1, by omega⟩
    rw [listed_cons, List.append_assoc, passes_append] at hp
    obtain ⟨m, he, hrest⟩ := hp
    have hfe := hf e (List.mem_cons_self ..)
    have hclosed := closes_of_startsExpr (startsExpr_element hfe rfl (by decide) he) .round
    cases hs : e.isStarred with
    | true =>
      obtain ⟨s, v, rfl⟩ : ∃ s v, e = .starred s v := by
        cases e <;> first | exact ⟨_, _, rfl⟩ | cases hs
      rw [Expr.lexemesIn_starred] at he
      obtain ⟨err, herr⟩ := fails_withItem (.inl he.head)
      exact ⟨err, by simp [listUpTo.go, hclosed, herr]⟩
    | false =>
      have hplain : e.fits .plain := by
        obtain ⟨s, v, rfl, -⟩ | h := Expr.starred_or_plain hfe rfl rfl
        · cases hs
        · exact h.1
      rw [List.any_cons, hs, Bool.false_or] at hstar
      cases es with
      | nil => cases hstar
      | cons y ys =>
        rw [List.flatMap_cons, List.cons_append, List.cons_append, passes_cons] at hrest
        obtain ⟨hcomma, hlater, hrest⟩ := hrest
        rw [List.append_assoc, ← List.append_assoc, ← listed_cons] at hrest
        have hsize := he.size_eq
        have hsize' := size_advance hlater
        obtain ⟨x', hx', -⟩ := withItem_plain hplain he (by rw [hcomma]; decide) (by simp [hcomma])
        obtain ⟨err, herr⟩ := ih (fun z hz => hf z (List.mem_cons_of_mem _ hz)) hstar hrest n
            (by omega)
        exact ⟨err, by simp [listUpTo.go, hclosed, hx', hcomma, herr]⟩

/-- The elements of a tuple without a starred one are read as contexts. -/
theorem lists_plain {elts : List Expr} (hf : ∀ e ∈ elts, e.fits .plain)
    (hp : Passes (listed (Expr.lexemesIn .test) elts ++
      if elts.length = 1 then [Lexeme.symbol .comma] else []) c c')
    (hclose : c'.next.lexeme = .symbol (.closing .round)) :
    ∃ items, listUpTo (closes .round) withItem c = .ok (items, c') ∧
      items.map WithItem.shape = elts.map fun e => ⟨e.shape, none⟩ := by
  have hend : closes .round c'.next.lexeme := by simp [closes, hclose]
  have hitem (e : Expr) (he : e ∈ elts) (a b : Cursor) (hab : Passes (e.lexemesIn .test) a b)
      (hb : b.next.lexeme = .symbol .comma ∨ closes .round b.next.lexeme) :
      closes .round a.next.lexeme = false ∧
        ∃ i, withItem a = .ok (i, b) ∧ i.shape = ⟨e.shape, none⟩ := by
    have hb : b.next.lexeme = .symbol .comma ∨ b.next.lexeme = .symbol (.closing .round) := by
      simpa [closes] using hb
    obtain ⟨x', hx', hshape⟩ := withItem_plain (hf e he) hab
        (by obtain hb | hb := hb <;> rw [hb] <;> decide)
      (by obtain hb | hb := hb <;> simp [hb])
    exact ⟨closes_of_startsExpr ((opens_plain (hf e he) .test (Nat.le_refl _)).head hab).1 .round,
      _, hx', by rw [WithItem.shape, hshape, Shape.expr?]⟩
  by_cases hlen : elts.length = 1
  · obtain ⟨e, rfl⟩ := List.length_eq_one_iff.1 hlen
    rw [if_pos hlen, listed_cons, List.flatMap_nil, List.append_nil, passes_append] at hp
    obtain ⟨m, he, hcomma⟩ := hp
    simp only [passes_cons, passes_nil] at hcomma
    obtain ⟨hcomma, hlater, rfl⟩ := hcomma
    have hsize := he.size_eq
    have hsize' := size_advance hlater
    obtain ⟨hc, i, hi, hshape⟩ := hitem e (by simp) c m he (.inl hcomma)
    exact ⟨[i], (Lists.item hc hi hcomma (by omega) (.close hend)).listUpTo, by simp [hshape]⟩
  · rw [if_neg hlen, List.append_nil] at hp
    obtain ⟨items, hitems, hshape⟩ := Lists.of_passes WithItem.shape
        (fun e : Expr => ⟨e.shape, none⟩)
      (closes .round) hp rfl hend fun e he a b hab _ hb => hitem e he a b hab hb
    exact ⟨items, hitems.listUpTo, hshape⟩

/-- A tuple that could stand for all the items of a statement. -/
def IsItems : Expr → Prop
  | .tuple _ elts _ => elts ≠ [] ∧ elts.any Expr.isStarred = false
  | _ => False

/-- A bracket around an expression does not hold the items: inside of it stands no list of them,
or else the expression needs the bracket for what follows. -/
theorem fails_enclosed {context : Level} (hf : x.fits .plain)
    (hb : x.needsBrackets context)
    (hp : Passes (.symbol (.opening .round) ::
      (lexemes x.fragments ++ [Lexeme.symbol (.closing .round)])) c c')
    (hcolon : c'.next.lexeme = .symbol .colon → context = .test ∧ ¬IsItems x) :
    Fails bracketedWithItems c := by
  simp only [passes_cons, passes_append, passes_nil] at hp
  obtain ⟨hopen, hlater, m, hp, hclose, -, rfl⟩ := hp
  have hyield (h : c.advance.next.lexeme = .keyword .yield_) : Fails bracketedWithItems c :=
    fails_bracketed_of_list hopen
      (listUpTo_fails (by rw [h]; rfl) (fails_withItem (.inr h)))
  -- An expression that a bracket is put around for its strength is read as a context, but no colon
  -- comes behind the bracket.
  have hstrong (hrank : 3 ≤ x.level.rank) : Fails bracketedWithItems c := by
    have htest := Expr.needsBrackets_of_rank_le hrank .test hrank
    have hlex : x.lexemesIn .test = lexemes x.fragments := by
      rw [Expr.lexemesIn, Expr.fragmentsIn, Expr.enclosed, htest]
      rfl
    rw [← hlex] at hp
    obtain ⟨x', hx', -⟩ := withItem_plain hf hp (by rw [hclose]; decide) (by simp [hclose])
    have hhead := ((opens_plain hf .test (Nat.le_refl _)).head hp).1
    refine fails_bracketed hopen
      (Lists.last (closes_of_startsExpr hhead .round) hx' (by simp [hclose])).listUpTo fun _ h => ?_
    rw [(hcolon h).1, htest] at hb
    cases hb
  cases x with
  -- The elements of a tuple could be items, so here the colon decides.
  | tuple s elts parenthesized =>
    rw [Expr.lexemes_tuple] at hp
    have helts : ∀ e ∈ elts, e.fits .element := by
      cases parenthesized with
      | true => simpa [Expr.fits, Fits.exprs_eq_true] using hf
      | false => simp [Expr.fits, Slot.plain] at hf
    cases hstar : elts.any Expr.isStarred with
    | true => exact fails_bracketed_of_list hopen (fails_starred helts hstar hp)
    | false =>
      have hplain : ∀ e ∈ elts, e.fits .plain := by
        intro e he
        obtain ⟨s, v, rfl, -⟩ | h := Expr.starred_or_plain (helts e he) rfl rfl
        · exact absurd rfl (List.any_eq_false.1 hstar _ he)
        · exact h.1
      by_cases hnil : elts = []
      · subst hnil
        obtain rfl := passes_nil.1 hp
        refine fails_bracketed hopen (Lists.close ?_).listUpTo fun _ _ => rfl
        simp [closes, hclose]
      · obtain ⟨items, hitems, -⟩ := lists_plain hplain hp hclose
        exact fails_bracketed hopen hitems fun _ h => absurd ⟨hnil, hstar⟩ (hcolon h).2
  -- The target is read as a context, and a walrus is not what follows one.
  | named s target value =>
    simp only [Expr.fits, Bool.and_eq_true] at hf
    obtain ⟨t, id, rfl⟩ : ∃ t id, target = .name t id := by
      cases target <;> first | exact ⟨_, _, rfl⟩ | simp [Expr.isName] at hf
    have hlex : lexemes (Expr.named s (.name t id) value).fragments =
        [Lexeme.name id] ++ (.symbol .walrus :: value.lexemesIn .test) := rfl
    rw [hlex, passes_append] at hp
    obtain ⟨m₁, hname, hp⟩ := hp
    obtain ⟨hwalrus, -, -⟩ := passes_cons.1 hp
    obtain ⟨i, hi⟩ := withItem_walrus hf.1.2 hname hwalrus
    refine fails_bracketed hopen
      (Lists.last (by rw [hname.head]; rfl) hi (by simp [hwalrus])).listUpTo fun h => ?_
    rw [hwalrus] at h
    cases h
  | yield s value =>
    cases value with
    | none =>
      rw [Expr.fragments] at hp
      exact hyield hp.head
    | some value =>
      rw [Expr.fragments] at hp
      exact hyield hp.head
  | yieldFrom s value =>
    rw [Expr.fragments] at hp
    exact hyield hp.head
  | starred | slice => simp [Expr.fits, Slot.plain] at hf
  | boolOp s op | binOp s op | unaryOp s op =>
    exact hstrong (by cases op <;> exact Nat.le_of_ble_eq_true rfl)
  | _ => exact hstrong (Nat.le_of_ble_eq_true rfl)

/-- A generator in brackets is no list of items. -/
theorem fails_generator {elt : Expr} {ks : List Clause} (hf : elt.fits .element) (hne : ks ≠ [])
    (hp : Passes (.symbol (.opening .round) :: (elt.lexemesIn .test ++
      lexemes (Spelling.clauses ks) ++ [Lexeme.symbol (.closing .round)])) c c') :
    Fails bracketedWithItems c := by
  simp only [passes_cons, passes_append] at hp
  obtain ⟨hopen, -, k, ⟨m, helt, hclauses⟩, -⟩ := hp
  obtain ⟨s, v, rfl, -⟩ | ⟨hplain, -⟩ := Expr.starred_or_plain hf rfl rfl
  · rw [Expr.lexemesIn_starred] at helt
    exact fails_bracketed_of_list hopen
      (listUpTo_fails (by rw [helt.head]; rfl) (fails_withItem (.inl helt.head)))
  · obtain ⟨hstart, hg⟩ := startsClause_clauses hne hclauses
    have hne {l : Lexeme} (hl : ∀ c : Cursor, c.next.lexeme = l → startsClause c = .ok (false, c)) :
        m.next.lexeme ≠ l := fun h => by simp [hl m h] at hstart
    obtain ⟨x', hx', -⟩ := withItem_plain hplain helt hg (hne fun c h => by simp [startsClause, h])
    refine fails_bracketed hopen (Lists.last
      (closes_of_startsExpr ((opens_plain hplain .test (Nat.le_refl _)).head helt).1 .round) hx'
      (hne fun c h => by simp [startsClause, h])).listUpTo fun h => ?_
    exact absurd h (hne fun c h => by simp [startsClause, h])

/-- The bracket at the start of a context belongs to the context. -/
theorem fails_leading (e : Expr) : ∀ (context : Level) (c c' : Cursor), 3 ≤ context.rank →
    e.fits .plain → Passes (e.lexemesIn context) c c' →
    c.next.lexeme = .symbol (.opening .round) →
    (c'.next.lexeme = .symbol .colon → context = .test ∧ ¬IsItems e) →
    Fails bracketedWithItems c := by
  induction e using Expr.childInduction with
  | step e ih =>
  intro context c c' hc hf hp hopen hcolon
  rw [Expr.lexemesIn, Expr.fragmentsIn, Expr.enclosed] at hp
  cases hb : e.needsBrackets context with
  | true =>
    rw [hb, if_pos rfl, lexemes_enclose] at hp
    exact fails_enclosed hf hb hp hcolon
  | false =>
    rw [hb, if_neg Bool.false_ne_true] at hp
    -- What comes first is in brackets itself, and something else than a colon follows it.
    have hleft {left : Expr} (hmem : left ∈ e.children) (inner : Level) (hi : 3 ≤ inner.rank)
        (hf : left.fits .plain) {l : Lexeme} {ls : List Lexeme} (hl : l ≠ .symbol .colon)
        (hp : Passes (left.lexemesIn inner ++ l :: ls) c c') : Fails bracketedWithItems c := by
      obtain ⟨m, hleft, hrest⟩ := passes_append.1 hp
      refine ih left hmem inner c m hi hf hleft hopen fun h => absurd ?_ hl
      rw [← h, hrest.head]
    have hfirst {l : Lexeme} {ls : List Lexeme} (hp : Passes (l :: ls) c c')
        (hl : l ≠ .symbol (.opening .round)) : Fails bracketedWithItems c :=
      absurd (hp.head.symm.trans hopen) hl
    cases e with
    | boolOp s op values =>
      simp only [Expr.fits, Bool.and_eq_true, decide_eq_true_eq, Fits.exprs_eq_true] at hf
      obtain ⟨v, w, vs, rfl⟩ : ∃ v w vs, values = v :: w :: vs := by
        cases values with
        | nil => simp at hf
        | cons v vs =>
          cases vs with
          | nil => simp at hf
          | cons w vs => exact ⟨v, w, vs, rfl⟩
      rw [Expr.fragments, lexemes_intercalate, exprs_eq_map, List.map_map, lexemes_blank,
        lexemes_word,
        lexemes_blank, lexemes_nil, intercalate_cons, List.flatMap_cons, List.cons_append] at hp
      exact hleft (by simp [Expr.children]) _ (by cases op <;> decide) (hf.2 v (by simp))
        (by simp) hp
    | binOp s op left right =>
      rw [Expr.fragments, lexemes_append] at hp
      simp only [Expr.fits, Bool.and_eq_true] at hf
      exact hleft (by simp [Expr.children]) _ (by cases op <;> decide) hf.1
        (by cases op <;> simp [BinOp.symbol]) hp
    | ifElse s test body orelse =>
      rw [Expr.fragments, lexemes_append] at hp
      simp only [Expr.fits, Bool.and_eq_true] at hf
      exact hleft (by simp [Expr.children]) .disjunction (by decide) hf.1.2 (by simp) hp
    | compare s left links =>
      simp only [Expr.fits, Bool.and_eq_true, Bool.not_eq_true', List.isEmpty_eq_false_iff] at hf
      obtain ⟨⟨op, operand⟩, ls, rfl⟩ := List.exists_cons_of_ne_nil hf.1.2
      rw [Expr.fragments, lexemes_append] at hp
      cases op <;> exact hleft (by simp [Expr.children]) .bitOr (by decide) hf.1.1.2 (by simp) hp
    | call s func args keywords =>
      obtain ⟨fs, hfs⟩ : ∃ fs, (Expr.call s func args keywords).fragments =
          func.fragmentsIn .atom ++ sign (.opening .round) :: fs := by
        cases hlone : Expr.isLoneGenerator args keywords with
        | true =>
          obtain ⟨t, elt, ks, rfl, rfl⟩ := Expr.exists_of_isLoneGenerator hlone
          exact ⟨_, Expr.fragments_call_lone s t func elt ks⟩
        | false => exact ⟨_, Expr.fragments_call s func hlone⟩
      simp only [Expr.fits, Bool.and_eq_true] at hf
      rw [hfs, lexemes_append, lexemes_sign] at hp
      exact hleft (by simp [Expr.children]) .atom (by decide) hf.1.1.1 (by simp) hp
    | attr s value field =>
      simp only [Expr.fits, Bool.and_eq_true] at hf
      have hlex : lexemes (Expr.attr s value field).fragments =
          value.lexemesIn .atom ++ [Lexeme.symbol .dot, .name field] := by
        rw [Expr.fragments, lexemes_append]
        split <;> rfl
      rw [hlex] at hp
      exact hleft (by simp [Expr.children]) .atom (by decide) hf.1 (by simp) hp
    | subscript s value index =>
      rw [Expr.fragments, lexemes_append, lexemes_enclose] at hp
      simp only [Expr.fits, Bool.and_eq_true] at hf
      exact hleft (by simp [Expr.children]) .atom (by decide) hf.1 (by simp) hp
    | comp s kind elt clauses =>
      simp only [Expr.fits, Bool.and_eq_true, Bool.not_eq_true', List.isEmpty_eq_false_iff] at hf
      rw [Expr.fragments, lexemes_enclose, lexemes_append] at hp
      cases kind with
      | generator => exact fails_generator hf.1.1 hf.1.2 hp
      | _ => exact hfirst hp (by simp [Collection.bracket])
    | named | yield | yieldFrom | tuple =>
      rw [Expr.needsBrackets_of_rank_le_two (Nat.le_of_ble_eq_true rfl) hc] at hb
      cases hb
    | unaryOp s op operand =>
      rw [Expr.fragments] at hp
      cases op <;> exact hfirst hp (by simp)
    | constant s value =>
      rw [Expr.fragments] at hp
      cases value <;> exact hfirst hp (by simp)
    | str s parts =>
      simp only [Expr.fits, Bool.and_eq_true, Bool.not_eq_true', List.isEmpty_eq_false_iff] at hf
      obtain ⟨part, parts, rfl⟩ := List.exists_cons_of_ne_nil hf.1
      rw [Expr.fragments] at hp
      cases parts <;> exact hfirst hp (by simp)
    | starred | slice => simp [Expr.fits, Slot.plain] at hf
    | _ =>
      rw [Expr.fragments] at hp
      exact hfirst hp (by simp)

theorem withItem_reads {i : WithItem} (hf : i.fits) (hp : Passes (lexemes i.fragments) c c')
    (hg : c'.next.lexeme.grip < 3) (has : c'.next.lexeme ≠ .keyword .as_) :
    ∃ i', withItem c = .ok (i', c') ∧ i'.shape = i.shape := by
  obtain ⟨context, target⟩ := i
  simp only [WithItem.fits, Bool.and_eq_true] at hf
  rw [WithItem.fragments, lexemes_append, passes_append] at hp
  obtain ⟨m, hcontext, htarget⟩ := hp
  cases target with
  | none =>
    obtain rfl := passes_nil.1 htarget
    obtain ⟨x, hx, hshape⟩ := take_test hf.1 m hcontext hg
    exact ⟨⟨x, none⟩, by simp [withItem, hx, has], by simp [WithItem.shape, hshape]⟩
  | some target =>
    have htarget : Passes (.keyword .as_ :: target.lexemesIn .test) m c' := htarget
    obtain ⟨hl, -, htarget⟩ := passes_cons.1 htarget
    obtain ⟨x, hx, hshape⟩ := take_test hf.1 m hcontext (by rw [hl]; decide)
    obtain ⟨t, ht, hshape'⟩ := take_target hf.2 c' htarget (by omega)
    exact ⟨⟨x, some t⟩, by simp [withItem, hx, hl, ht],
      by simp [WithItem.shape, hshape, Shape.expr?, hshape']⟩

/-- The items up to the colon of the statement. -/
theorem withItems_reads {items : List WithItem} (hf : Fits.withItems items)
    (hp : Passes (lexemes (commas (items.map WithItem.fragments))) c c')
    (hcolon : c'.next.lexeme = .symbol .colon) :
    ∃ items', withItems c = .ok (items', c') ∧
      items'.map WithItem.shape = items.map WithItem.shape := by
  simp only [Fits.withItems, Bool.and_eq_true, Bool.not_eq_true', List.isEmpty_eq_false_iff,
    List.all_eq_true] at hf
  obtain ⟨⟨hne, hfits⟩, hambiguous⟩ := hf
  rw [lexemes_commas] at hp
  obtain ⟨items', hitems, hshape⟩ := exists_commaSeparated WithItem.shape WithItem.shape hne hp
    (by simp [hcolon]) fun i hi a b hab hb => by
      refine withItem_reads (hfits i hi) hab ?_ ?_
      · obtain hb | rfl := hb
        · rw [hb]; decide
        · rw [hcolon]; decide
      · obtain hb | rfl := hb
        · simp [hb]
        · simp [hcolon]
  refine ⟨items', ?_, hshape⟩
  -- A bracket in front is tried as one around all items first, and that has to fail.
  by_cases hopen : c.next.lexeme = .symbol (.opening .round)
  · obtain ⟨i, is, rfl⟩ := List.exists_cons_of_ne_nil hne
    have hi := hfits i (List.mem_cons_self ..)
    simp only [WithItem.fits, Bool.and_eq_true] at hi
    rw [listed_cons, WithItem.fragments, lexemes_append, List.append_assoc, passes_append] at hp
    obtain ⟨m, hcontext, hrest⟩ := hp
    obtain ⟨context, target⟩ := i
    have halone (h : m.next.lexeme = .symbol .colon) : ¬IsItems context := by
      intro hself
      cases target with
      | some target =>
        have hl : m.next.lexeme = .keyword .as_ := hrest.head
        simp [hl] at h
      | none =>
        cases is with
        | cons j js =>
          have hl : m.next.lexeme = .symbol .comma := hrest.head
          simp [hl] at h
        | nil =>
          cases context with
          | tuple s elts parenthesized =>
            rw [Fits.isAmbiguous, hself.2, List.isEmpty_eq_false_iff.2 hself.1] at hambiguous
            cases hambiguous
          | _ => exact hself
    obtain ⟨e, he⟩ := fails_leading context .test c m (Nat.le_refl _) hi.1 hcontext hopen
      fun h => ⟨rfl, halone h⟩
    simp [withItems, hopen, Rule.orElse, he, hitems]
  · simp [withItems, hopen, hitems]

end Items

section Statements

variable {k : Nat}

theorem withBlock_reads {s : Span} {mode : Mode} {items : List WithItem} {body : List Stmt}
    (ih : ∀ x ∈ body, Reads (parseStatements k) k x) :
    Reads (parseStatements (k + 1)) (k + 1) (.withBlock s mode items body) := by
  intro depth line rest c hf hc _ hr hsize h
  have hprints := prints_heading .if_ hf hc
  simp only [Stmt.fits, Bool.and_eq_true] at hf
  rw [Stmt.rows, List.cons_append] at h
  have hcut : heading .if_ (.withBlock s mode items body) =
      lead mode .with_ ++ commas (items.map WithItem.fragments) ++ [sign .colon] := by
    simp [heading]
  obtain ⟨m, body', c', hp, hcolon, hbody, hlt, hm, hmap⟩ :=
    heading_reads hr.closes ih hf.2 hprints hcut hsize h
  obtain ⟨d, hled, hl, hp⟩ := passes_lead hp
  obtain ⟨items', hitems, hshape⟩ := withItems_reads hf.1 hp hcolon
  have hwith : withBlock (parseStatements k) c.next.span.start mode d =
      .ok (.withBlock ⟨c.next.span.start, c'.reached⟩ mode items' body', c') := by
    simp [withBlock, expect_apply, hl, hitems, hbody]
  refine ⟨.withBlock ⟨c.next.span.start, c'.reached⟩ mode items' body', c', ?_, by omega,
    hm, rfl, ?_, ?_⟩
  · obtain ⟨rfl, rfl⟩ | ⟨rfl, hasync, rfl⟩ := hled
    · simp [parseStatements, statement, hl, hwith]
      rfl
    · simp [parseStatements, statement, hasync, asyncStatement, expect_apply, hl, hwith]
      rfl
  · simp [Stmt.shape, Stmt.mapBlocks, shape_block, hshape, hmap.shape]
  · simp [Stmt.shape, Stmt.mapBlocks, shape_settle, hshape, hmap.spacing]

/-- Every statement is read back from its rows. -/
theorem reads_stmt (s : Stmt) : ∀ k, Reads (parseStatements k) k s ∧
    (s.isBranch → ReadsBranch k s) := by
  induction s using Stmt.childInduction with
  | step s ih =>
  intro k
  have hbranch : s.isBranch → ReadsBranch k s := by
    intro hs
    cases s with
    | branch s test body orelse =>
      exact branch_reads (fun x hx => (ih x hx k).1)
        fun x hx => (ih x (List.mem_append_right _ hx) k).2
    | _ => cases hs
  refine ⟨?_, hbranch⟩
  cases k with
  | zero =>
    intro depth line rest c _ _ _ _ hsize
    exact absurd c.one_le_size (by omega)
  | succ k =>
    have ih' : ∀ x ∈ s.children, Reads (parseStatements k) k x := fun x hx => (ih x hx k).1
    cases s with
    | functionDef => exact reads_functionDef ih'
    | classDef => exact reads_classDef ih'
    | forLoop => exact forLoop_reads ih'
    | whileLoop => exact whileLoop_reads ih'
    | branch s test body orelse =>
      exact ReadsBranch.reads (branch_reads ih'
        fun x hx => (ih x (List.mem_append_right _ hx) k).2)
    | withBlock => exact withBlock_reads ih'
    | tryBlock => exact tryBlock_reads ih'
    | comment | blank => exact fun _ _ _ _ _ hc => by cases hc
    | _ => exact fun _ _ _ _ _ _ hs => by cases hs

end Statements

end AsyncErasure.Grammar
