import AsyncErasure.Proofs.Grammar.Strength

namespace AsyncErasure

open Fragment

def Expr.lexemesIn (context : Level) (e : Expr) : List Lexeme := lexemes (e.fragmentsIn context)

theorem Fragment.lexemes_commas {α : Type} (f : α → List Fragment) (xs : List α) :
    lexemes (commas (xs.map f)) = Grammar.Rule.listed (fun x => lexemes (f x)) xs := by
  rw [commas, lexemes_intercalate, List.map_map]
  rfl

theorem Spelling.lexemes_exprs (context : Level) (es : List Expr) :
    lexemes (commas (Spelling.exprs context es)) =
      Grammar.Rule.listed (Expr.lexemesIn context) es := by
  rw [Spelling.exprs_eq_map, lexemes_commas]
  rfl

theorem Fragment.lexemes_enclose (b : Bracket) (fs : List Fragment) :
    lexemes (enclose b fs) =
      .symbol (.opening b) :: (lexemes fs ++ [Lexeme.symbol (.closing b)]) := by
  simp [enclose]

namespace Grammar

open Rule Lexeme

/-- The rules of all levels read every well-formed expression below a size, if the cursor leaves
room below the given depth. -/
structure Able (rules : Level → Rule Expr) (n depth : Nat) : Prop where
  take : ∀ (x : Expr) (level context : Level) (c : Cursor), sizeOf x < n → x.fits .plain →
    level.rank ≤ context.rank → 3 ≤ context.rank → 20 * c.size + 18 ≤ depth + level.rank →
    Takes (rules level) c (x.lexemesIn context) level.limit x
  tuple : ∀ (x : Expr) (c : Cursor), sizeOf x < n → x.fits .elements →
    20 * c.size + 18 ≤ depth + 2 → Takes (rules .tuple) c (x.lexemesIn .tuple) 2 x

variable {self : Level → Rule Expr} {n depth : Nat} {c c' : Cursor} {x : Expr}

theorem opens_plain (hf : x.fits .plain) (context : Level) (hc : 3 ≤ context.rank) :
    Opens context.rank (x.lexemesIn context) := opens_of_heads (x.begins.heads hf context hc)

theorem closes_of_startsExpr {l : Lexeme} (h : startsExpr l) (b : Bracket) :
    closes b l = false := by
  rw [closes, beq_eq_false_iff_ne]
  rintro rfl
  cases b <;> cases h

/-- A first item and those behind it, each behind a comma. -/
theorem exists_items {α β γ : Type} {f : β → List Lexeme} (told : α → γ) (wanted : β → γ)
    (item : Rule α) (closed : Lexeme → Bool) (trailing : Bool) {y : β} {ys : List β}
    (h : Passes (listed f (y :: ys) ++ if trailing then [Lexeme.symbol .comma] else []) c c')
    (hne : c'.next.lexeme ≠ .symbol .comma) (hend : trailing → closed c'.next.lexeme)
    (hitem : ∀ z ∈ y :: ys, ∀ a b, Passes (f z) a b → a.size ≤ c.size →
      b.next.lexeme = .symbol .comma ∨ b = c' →
      closed a.next.lexeme = false ∧ ∃ v, item a = .ok (v, b) ∧ told v = wanted z) :
    ∃ v m vs, item c = .ok (v, m) ∧ listTail closed item m = .ok (vs, c') ∧
      (m.next.lexeme = .symbol .comma ∧ (trailing ∨ ys ≠ []) ∨
        m = c' ∧ trailing = false ∧ ys = []) ∧
      (v :: vs).map told = (y :: ys).map wanted := by
  rw [listed_cons, List.append_assoc, passes_append] at h
  obtain ⟨m, hy, hys⟩ := h
  have hsize := hy.size_eq
  have hm : m.next.lexeme = .symbol .comma ∧ (trailing ∨ ys ≠ []) ∨
      m = c' ∧ trailing = false ∧ ys = [] := by
    cases ys with
    | nil =>
      cases trailing with
      | true =>
        simp only [List.flatMap_nil, List.nil_append, if_true] at hys
        exact .inl ⟨hys.head, .inl rfl⟩
      | false => exact .inr ⟨passes_nil.1 hys, rfl, rfl⟩
    | cons z zs => exact .inl ⟨hys.head, .inr (by simp)⟩
  obtain ⟨-, v, hv, htold⟩ := hitem y (by simp) c m hy (Nat.le_refl _)
    (hm.imp And.left And.left)
  obtain ⟨vs, hvs, hmap⟩ := listTail_of_passes told wanted hys hne hend
    fun z hz a b hab hlt => hitem z (List.mem_cons_of_mem _ hz) a b hab (by omega)
  exact ⟨v, m, vs, hv, hvs, hm, by simp [htold, hmap]⟩

end Grammar

namespace Expr

theorem suits_iff {e : Expr} {slot : Slot} :
    e.suits slot ↔ (slot.operand → e.level.rank ≤ 2 ∨ 8 ≤ e.level.rank) := by
  have ht : Level.tuple < e.level ↔ 2 < e.level.rank := Iff.rfl
  have hb : e.level < .bitOr ↔ e.level.rank < 8 := Iff.rfl
  cases hs : slot.operand <;> simp [suits, hs, ht, hb]

theorem suits_plain (e : Expr) : e.suits .plain := by simp [suits, Slot.plain]

/-- Without a starred operand, a slice or a bare tuple only plain expressions are left. -/
theorem starred_or_plain {e : Expr} {slot : Slot} (hf : e.fits slot) (hb : slot.bare = false)
    (hs : slot.slice = false) :
    (∃ s v, e = .starred s v ∧ v.fits .plain) ∨ e.fits .plain ∧ e.suits slot := by
  cases e with
  | starred s v =>
    simp only [fits, Bool.and_eq_true] at hf
    exact .inl ⟨s, v, rfl, hf.2⟩
  | slice => simp [fits, hs] at hf
  | tuple s elts parenthesized =>
    cases parenthesized with
    | true => exact .inr ⟨by simpa [fits] using hf, suits_iff.2 fun _ => .inl (Nat.le_refl 2)⟩
    | false => simp [fits, hb] at hf
  | boolOp | unaryOp | lambda | ifElse | compare =>
    simp only [fits, suits_plain, Bool.and_eq_true, Bool.true_and] at hf ⊢
    simp_all
  | binOp s op left right =>
    refine .inr ⟨hf, suits_iff.2 fun _ => .inr ?_⟩
    rw [level]
    cases op <;> decide
  | named | yield | yieldFrom =>
    exact .inr ⟨hf, suits_iff.2 fun _ => .inl (Nat.le_of_ble_eq_true rfl)⟩
  | _ => exact .inr ⟨hf, suits_iff.2 fun _ => .inr (Nat.le_of_ble_eq_true rfl)⟩

theorem needsBrackets_of_rank_le_two {e : Expr} (h : e.level.rank ≤ 2) {context : Level}
    (hc : 3 ≤ context.rank) : e.needsBrackets context := by
  have hlt : e.level < context := Nat.lt_of_le_of_lt h hc
  cases e <;> simp_all [needsBrackets, level]

theorem needsBrackets_of_rank_le {e : Expr} (h : 3 ≤ e.level.rank) (context : Level)
    (hc : context.rank ≤ e.level.rank) : e.needsBrackets context = false := by
  have hlt : ¬e.level < context := Nat.not_lt.2 hc
  cases e with
  | tuple => exact absurd h (by rw [level]; decide)
  | _ => simp_all [needsBrackets]

/-- Where only operands may stand, expressions have the brackets of operands. -/
theorem fragmentsIn_of_suits {e : Expr} {slot : Slot} (h : e.suits slot) (hs : slot.operand) :
    e.fragmentsIn .test = e.fragmentsIn .bitOr := by
  have hn : e.needsBrackets .test = e.needsBrackets .bitOr := by
    obtain hle | hge := suits_iff.1 h hs
    · rw [needsBrackets_of_rank_le_two hle (by decide),
        needsBrackets_of_rank_le_two hle (by decide)]
    · have htest : 3 ≤ e.level.rank := Nat.le_trans (by decide) hge
      rw [needsBrackets_of_rank_le htest .test htest,
        needsBrackets_of_rank_le htest .bitOr hge]
  rw [fragmentsIn, fragmentsIn, enclosed, enclosed, hn]

/-- A plain expression has the same brackets in a tuple as in place of one. -/
theorem lexemesIn_tuple {e : Expr} (h : e.fits .plain) :
    e.lexemesIn .tuple = e.lexemesIn .test := by
  have hn : e.needsBrackets .tuple = e.needsBrackets .test := by
    cases e with
    | tuple s elts parenthesized =>
      cases parenthesized with
      | true => simp [needsBrackets]
      | false => simp [fits, Slot.plain] at h
    | boolOp s op | binOp s op | unaryOp s op => cases op <;> rfl
    | _ => rfl
  rw [lexemesIn, lexemesIn, fragmentsIn, fragmentsIn, enclosed, enclosed, hn]

theorem lexemesIn_starred (s : Span) (v : Expr) (context : Level) :
    (starred s v).lexemesIn context = .symbol .star :: v.lexemesIn .bitOr := by
  have hle : ¬Level.atom < context := by cases context <;> decide
  simp [lexemesIn, fragmentsIn, enclosed, needsBrackets, level, hle, fragments]

theorem lexemes_tuple (s : Span) (elts : List Expr) (parenthesized : Bool) :
    lexemes (tuple s elts parenthesized).fragments = Grammar.Rule.listed (lexemesIn .test) elts ++
      if elts.length = 1 then [Lexeme.symbol .comma] else [] := by
  have hlen : (Spelling.exprs .test elts).length = elts.length := by
    rw [Spelling.exprs_eq_map, List.length_map]
  rw [fragments, tupleElements, hlen]
  split <;> simp [Spelling.lexemes_exprs]

/-- The lexemes of a tuple without brackets. -/
theorem lexemesIn_bareTuple (s : Span) {elts : List Expr} (h : elts ≠ []) {context : Level}
    (hc : context.rank ≤ 2) :
    (tuple s elts false).lexemesIn context = lexemes (tuple s elts false).fragments := by
  have hle : ¬Level.tuple < context := Nat.not_lt.2 hc
  have hn : (tuple s elts false).needsBrackets context = false := by
    simp [needsBrackets, hle, h]
  rw [lexemesIn, fragmentsIn, enclosed, hn]
  rfl

/-- A place for bare tuples holds one, or else what may stand among the elements of one. -/
theorem bareTuple_or_fits {e : Expr} {slot : Slot} (hf : e.fits slot) :
    (∃ s elts, e = .tuple s elts false ∧ elts ≠ [] ∧ ∀ z ∈ elts, z.fits slot.inner) ∨
      e.fits slot.inner := by
  cases e with
  | tuple s elts parenthesized =>
    cases parenthesized with
    | true => exact .inr (by simpa [fits] using hf)
    | false =>
      simp only [fits, Bool.and_eq_true, Bool.not_eq_true', List.isEmpty_eq_false_iff,
        Fits.exprs_eq_true] at hf
      exact .inl ⟨s, elts, rfl, hf.1.2, hf.2⟩
  | _ => exact .inr (by simpa [fits, suits, Slot.inner] using hf)

theorem lexemesIn_element {e : Expr} {slot : Slot} (hf : e.fits slot) (hb : slot.bare = false)
    (hs : slot.slice = false) : e.lexemesIn .tuple = e.lexemesIn .test := by
  obtain ⟨s, v, rfl, -⟩ | ⟨hp, -⟩ := starred_or_plain hf hb hs
  · rw [lexemesIn_starred, lexemesIn_starred]
  · exact lexemesIn_tuple hp

theorem lexemesIn_operand {e : Expr} {slot : Slot} (hf : e.fits slot) (hb : slot.bare = false)
    (hs : slot.slice = false) (ho : slot.operand) : e.lexemesIn .test = e.lexemesIn .bitOr := by
  obtain ⟨s, v, rfl, -⟩ | ⟨-, hsuits⟩ := starred_or_plain hf hb hs
  · rw [lexemesIn_starred, lexemesIn_starred]
  · rw [lexemesIn, lexemesIn, fragmentsIn_of_suits hsuits ho]

theorem slice_or_element {e : Expr} (hf : e.fits Slot.index.inner) :
    (∃ s lower upper step, e = .slice s lower upper step) ∨ e.fits .element := by
  cases e with
  | slice => exact .inl ⟨_, _, _, _, rfl⟩
  | tuple s elts parenthesized =>
    cases parenthesized with
    | true => exact .inr (by simpa [fits] using hf)
    | false => simp [fits, Slot.inner] at hf
  | _ => exact .inr (by simpa [fits, suits, Slot.inner, Slot.index, Slot.element] using hf)

end Expr

namespace Grammar

open Rule Lexeme

variable {self : Level → Rule Expr} {n depth : Nat} {c c' : Cursor} {x : Expr}

theorem not_star_of_opens {ls : List Lexeme} (ho : Opens 3 ls) (hp : Passes ls c c') :
    c.next.lexeme ≠ .symbol .star := by
  intro hl
  have hopen := (ho.head hp).2
  rw [hl] at hopen
  exact absurd hopen (by decide)

theorem Able.starOr (ha : Able self n depth) (level : Level) {slot : Slot} (hx : sizeOf x < n)
    (hf : x.fits slot) (hb : slot.bare = false) (hs : slot.slice = false) {context : Level}
    (hl : level.rank ≤ context.rank) (hc : 3 ≤ context.rank) (hlimit : level.limit ≤ 8)
    (hroom : 20 * c.size + 18 ≤ depth + level.rank) :
    Takes (starOr self level) c (x.lexemesIn context) level.limit x := by
  intro c' hp hg
  obtain ⟨s, v, rfl, hv⟩ | ⟨hplain, -⟩ := Expr.starred_or_plain hf hb hs
  · rw [Expr.lexemesIn_starred, passes_cons] at hp
    obtain ⟨hstar, hlater, hp⟩ := hp
    have hsize := Cursor.size_advance hlater
    have hrank : level.rank ≤ 17 := by cases level <;> decide
    simp only [Expr.starred.sizeOf_spec] at hx
    obtain ⟨v', hv', hshape⟩ := ha.take v .bitOr .bitOr c.advance (by omega) hv (Nat.le_refl _)
      (by decide) (by omega) c' hp (Nat.lt_of_lt_of_le hg hlimit)
    exact ⟨.starred ⟨c.next.span.start, c'.reached⟩ v', by simp [Grammar.starOr, hstar, hv'],
      by simp [Expr.shape, hshape]⟩
  · obtain ⟨x', hx', hshape⟩ := ha.take x level context c hx hplain hl hc hroom c' hp hg
    have hne := not_star_of_opens ((opens_plain hplain _ hc).mono hc) hp
    exact ⟨x', by simp [Grammar.starOr, hne, hx'], hshape⟩

/-- An element of a display begins an expression. -/
theorem startsExpr_element {slot : Slot} (hf : x.fits slot) (hs : slot.slice = false)
    {context : Level} (hc : 2 ≤ context.rank) (hp : Passes (x.lexemesIn context) c c') :
    startsExpr c.next.lexeme :=
  ((opens_of_heads (x.begins.item slot hf hs context hc)).head hp).1

/-- The elements of a display, from the first one to the closing bracket. -/
theorem Able.elements (ha : Able self n depth) {y : Expr} {ys : List Expr} {b : Bracket}
    {trailing : Bool} (hn : ∀ z ∈ y :: ys, sizeOf z < n) (hf : ∀ z ∈ y :: ys, z.fits .element)
    (h : Passes (listed (Expr.lexemesIn .test) (y :: ys) ++
      if trailing then [Lexeme.symbol .comma] else []) c c')
    (hend : c'.next.lexeme = .symbol (.closing b)) (hroom : 20 * c.size + 18 ≤ depth) :
    ∃ v m vs, Grammar.starOr self .named c = .ok (v, m) ∧
      listTail (closes b) (Grammar.starOr self .named) m = .ok (vs, c') ∧
      (m.next.lexeme = .symbol .comma ∧ (trailing ∨ ys ≠ []) ∨
        m = c' ∧ trailing = false ∧ ys = []) ∧
      (v :: vs).map Expr.shape = (y :: ys).map Expr.shape := by
  refine exists_items Expr.shape Expr.shape _ _ _ h (by simp [hend]) (by simp [hend, closes])
    fun z hz a m hp hs hm => ?_
  refine ⟨closes_of_startsExpr (startsExpr_element (hf z hz) rfl (by decide) hp) b, ?_⟩
  have hg : m.next.lexeme.grip < 3 := by
    obtain hm | rfl := hm
    · rw [hm]
      decide
    · rw [hend]
      cases b <;> decide
  exact ha.starOr .named (hn z hz) (hf z hz) rfl rfl (Nat.zero_le _) (by decide)
    (by decide) (by omega) m hp hg

/-- A tuple without brackets. -/
theorem itemOrTuple_takes {item : Rule Expr} {closed : Lexeme → Bool} {s : Span}
    {elts : List Expr} (hne : elts ≠ [])
    (h : Passes ((Expr.tuple s elts false).lexemesIn .tuple) c c')
    (hcomma : c'.next.lexeme ≠ .symbol .comma) (hend : closed c'.next.lexeme)
    (hitem : ∀ z ∈ elts, ∀ a b, Passes (z.lexemesIn .test) a b → a.size ≤ c.size →
      b.next.lexeme = .symbol .comma ∨ b = c' →
      closed a.next.lexeme = false ∧ ∃ v, item a = .ok (v, b) ∧ v.shape = z.shape) :
    ∃ e', itemOrTuple closed item c = .ok (e', c') ∧
      e'.shape = (Expr.tuple s elts false).shape := by
  rw [Expr.lexemesIn_bareTuple s hne (by decide), Expr.lexemes_tuple] at h
  match elts, hne with
  | y :: ys, _ =>
    obtain ⟨v, m, vs, hv, hvs, hm, hmap⟩ := exists_items Expr.shape Expr.shape item closed
      (decide (ys = []))
      (by simpa using h) hcomma (fun _ => hend) hitem
    have hcomma : m.next.lexeme = .symbol .comma := by
      obtain ⟨hm, -⟩ | ⟨-, ht, hys⟩ := hm
      · exact hm
      · simp [hys] at ht
    refine ⟨.tuple ⟨c.next.span.start, c'.reached⟩ (v :: vs) false,
      by simp [itemOrTuple, hv, hcomma, hvs], ?_⟩
    rw [Expr.shape, Expr.shape, Shape.exprs_eq_map, Shape.exprs_eq_map, hmap]

/-- A tuple without brackets or one element alone. -/
theorem Able.starExpressions (ha : Able self n depth) (hx : sizeOf x < n) (hf : x.fits .elements)
    (hroom : 20 * c.size + 18 ≤ depth + 3) :
    Takes (starExpressions self) c (x.lexemesIn .tuple) 2 x := by
  intro c' hp hg
  have hcomma := ne_of_grip_lt hg (m := .symbol .comma) (by decide)
  obtain ⟨s, elts, rfl, hne, helts⟩ | hf := Expr.bareTuple_or_fits hf
  · refine itemOrTuple_takes hne hp hcomma (by simp [startsExpr_of_grip_lt hg])
      fun z hz a b hab hs hb => ?_
    have hlt : sizeOf z < sizeOf elts := List.sizeOf_lt_of_mem hz
    have hstart := startsExpr_element (helts z hz) rfl (by decide) hab
    simp only [Expr.tuple.sizeOf_spec] at hx
    refine ⟨by simp [hstart], ha.starOr .test (by omega) (helts z hz) rfl rfl
      (Nat.le_refl _) (by decide) (by decide) (by simp only [Level.rank]; omega) b hab ?_⟩
    obtain hb | rfl := hb
    · rw [hb]
      decide
    · exact Nat.lt_trans hg (by decide)
  · rw [Expr.lexemesIn_element hf rfl rfl] at hp
    obtain ⟨x', hx', hshape⟩ := ha.starOr .test hx hf rfl rfl (Nat.le_refl _)
      (by decide) (by decide) hroom c' hp (Nat.lt_trans hg (by decide))
    exact ⟨x', by simp [Grammar.starExpressions, itemOrTuple, hx', hcomma], hshape⟩

/-- The targets of a loop, up to its `in`. -/
theorem Able.targetList (ha : Able self n depth) (hx : sizeOf x < n) (hf : x.fits .targets)
    (hroom : 20 * c.size + 18 ≤ depth) (hp : Passes (x.lexemesIn .tuple) c c')
    (hend : c'.next.lexeme = .keyword .in_) :
    ∃ x', targetList self c = .ok (x', c') ∧ x'.shape = x.shape := by
  have hroom' : 20 * c.size + 18 ≤ depth + Level.bitOr.rank := by omega
  have hg : c'.next.lexeme.grip < 8 := by
    rw [hend]
    decide
  obtain ⟨s, elts, rfl, hne, helts⟩ | hf := Expr.bareTuple_or_fits hf
  · refine itemOrTuple_takes hne hp (by simp [hend]) (by simp [hend]) fun z hz a b hab hs hb => ?_
    have hlt : sizeOf z < sizeOf elts := List.sizeOf_lt_of_mem hz
    have hstart := startsExpr_element (helts z hz) rfl (by decide) hab
    simp only [Expr.tuple.sizeOf_spec] at hx
    rw [Expr.lexemesIn_operand (helts z hz) rfl rfl rfl] at hab
    refine ⟨?_, ha.starOr .bitOr (by omega) (helts z hz) rfl rfl (Nat.le_refl _)
      (by decide) (by decide) (by omega) b hab ?_⟩
    · simp only [Bool.or_eq_false_iff, beq_eq_false_iff_ne]
      constructor <;> intro hl <;> rw [hl] at hstart <;> cases hstart
    · obtain hb | rfl := hb
      · rw [hb]
        decide
      · exact hg
  · rw [Expr.lexemesIn_element hf rfl rfl, Expr.lexemesIn_operand hf rfl rfl rfl] at hp
    obtain ⟨x', hx', hshape⟩ := ha.starOr .bitOr hx hf rfl rfl (Nat.le_refl _)
      (by decide) (by decide) hroom' c' hp hg
    exact ⟨x', by simp [Grammar.targetList, itemOrTuple, hx', hend], hshape⟩

def EndsItem (c : Cursor) : Prop :=
  c.next.lexeme = .symbol .comma ∨ c.next.lexeme = .symbol (.closing .square)

theorem EndsItem.grip_lt (h : EndsItem c) : c.next.lexeme.grip < 3 := by
  obtain h | h := h <;> rw [h] <;> decide

theorem EndsItem.not_colon (h : EndsItem c) : c.next.lexeme ≠ .symbol .colon := by
  obtain h | h := h <;> simp [h]

theorem EndsItem.endsBound (h : EndsItem c) : endsBound c.next.lexeme := by
  obtain h | h := h <;> simp [Grammar.endsBound, closes, h]

theorem endsBound_of_startsExpr {l : Lexeme} (h : startsExpr l) : endsBound l = false := by
  simp only [endsBound, Bool.or_eq_false_iff, beq_eq_false_iff_ne]
  refine ⟨⟨?_, ?_⟩, closes_of_startsExpr h .square⟩ <;> rintro rfl <;> cases h

/-- An expression that may be missing, behind what leads to it. -/
theorem lexemes_behind (lead : List Fragment) (context : Level) (e : Option Expr) :
    lexemes (Spelling.behind lead context e) =
      e.elim [] fun x => lexemes lead ++ x.lexemesIn context := by
  cases e <;> simp [Spelling.behind, Expr.lexemesIn, Expr.fragmentsIn]

/-- A bound of a slice, read or left out. -/
theorem Able.bound (ha : Able self n depth) {e : Option Expr} (hf : Fits.expr? .plain e)
    (hn : sizeOf e < n) (level : Level) (hl : level.rank ≤ 3) (hlimit : level.limit = 3)
    (hroom : 20 * c.size + 18 ≤ depth) (hg : c'.next.lexeme.grip < 3)
    (hp : Passes (e.elim [] (Expr.lexemesIn .test)) c c') :
    ∃ e', Shape.expr? e' = Shape.expr? e ∧ (e' = none ∧ c = c' ∨ ∃ x', e' = some x' ∧
      startsExpr c.next.lexeme ∧ c.next.lexeme ≠ .symbol .star ∧ self level c = .ok (x', c')) := by
  cases e with
  | none => exact ⟨none, rfl, .inl ⟨rfl, passes_nil.1 hp⟩⟩
  | some x =>
    have ho := opens_plain hf .test (by decide)
    simp only [Option.some.sizeOf_spec] at hn
    obtain ⟨x', hx', hshape⟩ := ha.take x level .test c (by omega) hf hl (by decide)
        (by omega) c' hp
      (hlimit ▸ hg)
    exact ⟨some x', by simp [Shape.expr?, hshape],
      .inr ⟨x', rfl, (ho.head hp).1, not_star_of_opens ho hp, hx'⟩⟩

theorem Able.slice (ha : Able self n depth) {s : Span} {lower upper step : Option Expr}
    (hx : sizeOf (Expr.slice s lower upper step) < n)
    (hl : Fits.expr? .plain lower) (hu : Fits.expr? .plain upper) (hs : Fits.expr? .plain step)
    (hroom : 20 * c.size + 18 ≤ depth)
    (hp : Passes ((Expr.slice s lower upper step).lexemesIn .test) c c') (hend : EndsItem c') :
    closes .square c.next.lexeme = false ∧ ∃ x', sliceItem self c = .ok (x', c') ∧
      x'.shape = (Expr.slice s lower upper step).shape := by
  simp only [Expr.slice.sizeOf_spec] at hx
  have hlex : (Expr.slice s lower upper step).lexemesIn .test =
      lower.elim [] (Expr.lexemesIn .test) ++ (.symbol .colon ::
        (upper.elim [] (Expr.lexemesIn .test) ++
          step.elim [] fun x => .symbol .colon :: x.lexemesIn .test)) := by
    have hn : (Expr.slice s lower upper step).needsBrackets .test = false := rfl
    rw [Expr.lexemesIn, Expr.fragmentsIn, Expr.enclosed, hn]
    simp [Expr.fragments, lexemes_behind]
  rw [hlex] at hp
  simp only [passes_append, passes_cons] at hp
  obtain ⟨m, hlower, hcolon, hlater, k, hupper, hstep⟩ := hp
  have hmsize := hlower.size_eq
  have hasize := Cursor.size_advance hlater
  have hksize := hupper.size_eq
  have hk : endsBound k.next.lexeme ∧ k.next.lexeme.grip < 3 := by
    cases step with
    | none =>
      obtain rfl := passes_nil.1 hstep
      exact ⟨hend.endsBound, hend.grip_lt⟩
    | some x =>
      rw [hstep.head]
      decide
  obtain ⟨lower', hlshape, hlower⟩ := ha.bound hl (by omega) .named (by decide) rfl
    hroom (by rw [hcolon]; decide) hlower
  obtain ⟨upper', hushape, hupper⟩ := ha.bound hu (by omega) .test (by decide) rfl
    (by omega) hk.2 hupper
  obtain ⟨step', hsshape, hstep⟩ : ∃ step', Shape.expr? step' = Shape.expr? step ∧
      (step' = none ∧ k = c' ∨ ∃ x', step' = some x' ∧ k.next.lexeme = .symbol .colon ∧
        startsExpr k.advance.next.lexeme ∧ self .test k.advance = .ok (x', c')) := by
    cases step with
    | none => exact ⟨none, rfl, .inl ⟨rfl, passes_nil.1 hstep⟩⟩
    | some x =>
      obtain ⟨hcolon', hlater', hstep⟩ := passes_cons.1 hstep
      have hsize := Cursor.size_advance hlater'
      obtain ⟨step', hshape, ⟨rfl, -⟩ | ⟨x', rfl, hstart, -, hself⟩⟩ := ha.bound hs (by omega)
        .test (by decide) rfl (by omega) hend.grip_lt hstep
      · cases hshape
      · exact ⟨some x', hshape, .inr ⟨x', rfl, hcolon', hstart, hself⟩⟩
  have hne := hend.not_colon
  have hbound {l : Lexeme} (h : startsExpr l) : l ≠ .symbol .colon ∧ endsBound l = false ∧
      l ≠ .symbol .comma ∧ closes .square l = false := by
    refine ⟨?_, endsBound_of_startsExpr h, ?_, closes_of_startsExpr h .square⟩ <;> rintro rfl <;>
      cases h
  refine ⟨?_, .slice ⟨c.next.span.start, c'.reached⟩ lower' upper' step', ?_,
    by simp [Expr.shape, hlshape, hushape, hsshape]⟩
  · obtain ⟨-, rfl⟩ | ⟨x', -, hxs, -⟩ := hlower
    · simp [hcolon, closes]
    · exact closes_of_startsExpr hxs .square
  -- Each bound may be missing on its own, and the rule looks for each where the one before ended.
  obtain ⟨rfl, rfl⟩ | ⟨x', rfl, hxs, hxstar, hx'⟩ := hlower
  · obtain ⟨rfl, rfl⟩ | ⟨y', rfl, hys, -, hy'⟩ := hupper <;>
      obtain ⟨rfl, rfl⟩ | ⟨z', rfl, hzcolon, hzs, hz'⟩ := hstep
    · simp [sliceItem, hcolon, hne, hk.1]
    · simp [sliceItem, endsBound, hcolon, hzcolon, hbound hzs, hz']
    · simp [sliceItem, hcolon, hbound hys, hy', hne]
    · simp [sliceItem, hcolon, hbound hys, hy', hzcolon, hbound hzs, hz']
  · obtain ⟨rfl, rfl⟩ | ⟨y', rfl, hys, -, hy'⟩ := hupper <;>
      obtain ⟨rfl, rfl⟩ | ⟨z', rfl, hzcolon, hzs, hz'⟩ := hstep
    · simp [sliceItem, hxstar, hbound hxs, hx', hcolon, hne, hk.1]
    · simp [sliceItem, endsBound, hxstar, hbound hxs, hx', hcolon, hzcolon, hbound hzs, hz']
    · simp [sliceItem, hxstar, hbound hxs, hx', hcolon, hbound hys, hy', hne]
    · simp [sliceItem, hxstar, hbound hxs, hx', hcolon, hbound hys, hy', hzcolon, hbound hzs, hz']

theorem Able.sliceItem (ha : Able self n depth) (hx : sizeOf x < n) (hf : x.fits Slot.index.inner)
    (hroom : 20 * c.size + 18 ≤ depth) (hp : Passes (x.lexemesIn .test) c c') (hend : EndsItem c') :
    closes .square c.next.lexeme = false ∧
      ∃ x', sliceItem self c = .ok (x', c') ∧ x'.shape = x.shape := by
  obtain ⟨s, lower, upper, step, rfl⟩ | hf' := Expr.slice_or_element hf
  · simp only [Expr.fits, Bool.and_eq_true] at hf
    exact ha.slice hx hf.1.1.2 hf.1.2 hf.2 hroom hp hend
  refine ⟨closes_of_startsExpr (startsExpr_element hf' rfl (by decide) hp) .square, ?_⟩
  obtain ⟨s, v, rfl, -⟩ | ⟨hplain, -⟩ := Expr.starred_or_plain hf' rfl rfl
  · have hstar : c.next.lexeme = .symbol .star := by
      rw [Expr.lexemesIn_starred] at hp
      exact hp.head
    obtain ⟨x', hx', hshape⟩ := ha.starOr .test hx hf' rfl rfl (Nat.le_refl _)
      (by decide) (by decide) (by omega) c' hp hend.grip_lt
    exact ⟨x', by simp [Grammar.sliceItem, hstar, hx'], hshape⟩
  · have ho := opens_plain hplain .test (by decide)
    have hcolon : c.next.lexeme ≠ .symbol .colon := by
      intro hl
      have hstart := (ho.head hp).1
      rw [hl] at hstart
      cases hstart
    obtain ⟨x', hx', hshape⟩ := ha.take x .named .test c hx hplain (Nat.zero_le _) (by decide)
      (by omega) c' hp hend.grip_lt
    exact ⟨x', by simp [Grammar.sliceItem, not_star_of_opens ho hp, hcolon, hx', hend.not_colon],
      hshape⟩

/-- What stands in the brackets of a subscript. -/
theorem Able.slices (ha : Able self n depth) (hx : sizeOf x < n) (hf : x.fits .index)
    (hroom : 20 * c.size + 18 ≤ depth) (hp : Passes (x.lexemesIn .tuple) c c')
    (hend : c'.next.lexeme = .symbol (.closing .square)) :
    ∃ x', slices self c = .ok (x', c') ∧ x'.shape = x.shape := by
  obtain ⟨s, elts, rfl, hne, helts⟩ | hf := Expr.bareTuple_or_fits hf
  · refine itemOrTuple_takes hne hp (by simp [hend]) (by simp [hend, closes])
      fun z hz a b hab hs hb => ?_
    have hlt : sizeOf z < sizeOf elts := List.sizeOf_lt_of_mem hz
    simp only [Expr.tuple.sizeOf_spec] at hx
    exact ha.sliceItem (by omega) (helts z hz) (by omega) hab (by
      obtain hb | rfl := hb
      · exact .inl hb
      · exact .inr hend)
  · have hlex : x.lexemesIn .tuple = x.lexemesIn .test := by
      obtain ⟨s, lower, upper, step, rfl⟩ | hf' := Expr.slice_or_element hf
      · rfl
      · exact Expr.lexemesIn_element hf' rfl rfl
    rw [hlex] at hp
    obtain ⟨-, x', hx', hshape⟩ := ha.sliceItem hx hf hroom hp (.inr hend)
    exact ⟨x', by simp [Grammar.slices, itemOrTuple, hx', hend], hshape⟩

/-- An assignment inside an expression. -/
theorem Able.named (ha : Able self n depth) {s t : Span} {id : String} {value : Expr}
    (hx : sizeOf value < n) (hf : value.fits .plain) (hroom : 20 * c.size ≤ depth) :
    Takes (namedExpression self) c (lexemes (Expr.named s (.name t id) value).fragments) 3
      (.named s (.name t id) value) := by
  intro c' hp hg
  have hlex : lexemes (Expr.named s (.name t id) value).fragments =
      .name id :: .symbol .walrus :: value.lexemesIn .test := by
    simp [Expr.fragments, Expr.enclosed, Expr.needsBrackets, Expr.level, Expr.lexemesIn,
      Expr.fragmentsIn]
    rfl
  rw [hlex, passes_cons, passes_cons] at hp
  obtain ⟨hname, hlater, hwalrus, hlater', hp⟩ := hp
  have hsize := Cursor.size_advance hlater
  have hsize' := Cursor.size_advance hlater'
  obtain ⟨v, hv, hshape⟩ := ha.take value .test .test c.advance.advance hx hf (Nat.le_refl _)
    (by decide) (by omega) c' hp hg
  have hsecond : c.second.lexeme = .symbol .walrus := by rw [second_of_later hlater, hwalrus]
  refine ⟨.named ⟨c.next.span.start, c'.reached⟩
    (.name ⟨c.next.span.start, c.advance.reached⟩ id) v, ?_, by simp [Expr.shape, hshape]⟩
  simp [namedExpression, hname, hsecond, hv]

theorem Able.yieldNone {s : Span} : Takes (yieldExpression self) c
    (lexemes (Expr.yield s none).fragments) 1 (.yield s none) := by
  intro c' hp hg
  simp only [Expr.fragments, lexemes_word, lexemes_nil, passes_cons, passes_nil] at hp
  obtain ⟨hyield, -, rfl⟩ := hp
  refine ⟨.yield ⟨c.next.span.start, c.advance.reached⟩ none, ?_, rfl⟩
  simp [yieldExpression, expect_apply _ _ hyield,
    ne_of_grip_lt hg (m := .keyword .from_) (by decide),
    startsExpr_of_grip_lt (Nat.lt_trans hg (by decide))]

theorem Able.yield (ha : Able self n depth) {s : Span} {value : Expr} (hx : sizeOf value < n)
    (hf : value.fits .elements) (hroom : 20 * c.size ≤ depth) :
    Takes (yieldExpression self) c (lexemes (Expr.yield s (some value)).fragments) 1
      (.yield s (some value)) := by
  intro c' hp hg
  have hlex : lexemes (Expr.yield s (some value)).fragments =
      .keyword .yield_ :: value.lexemesIn .tuple := by
    simp [Expr.fragments, Expr.lexemesIn, Expr.fragmentsIn]
  rw [hlex, passes_cons] at hp
  obtain ⟨hyield, hlater, hp⟩ := hp
  have hsize := Cursor.size_advance hlater
  have hstart := startsExpr_element hf rfl (by decide) hp
  have hfrom : c.advance.next.lexeme ≠ .keyword .from_ := by
    intro hl
    rw [hl] at hstart
    cases hstart
  obtain ⟨v, hv, hshape⟩ := ha.tuple value c.advance hx hf (by omega) c' hp
    (Nat.lt_trans hg (by decide))
  refine ⟨.yield ⟨c.next.span.start, c'.reached⟩ (some v), ?_,
    by simp [Expr.shape, Shape.expr?, hshape]⟩
  simp [yieldExpression, expect_apply _ _ hyield, hfrom, hstart, hv]

theorem Able.yieldFrom (ha : Able self n depth) {s : Span} {value : Expr} (hx : sizeOf value < n)
    (hf : value.fits .plain) (hroom : 20 * c.size ≤ depth) :
    Takes (yieldExpression self) c (lexemes (Expr.yieldFrom s value).fragments) 1
      (.yieldFrom s value) := by
  intro c' hp hg
  have hlex : lexemes (Expr.yieldFrom s value).fragments =
      .keyword .yield_ :: .keyword .from_ :: value.lexemesIn .test := by
    simp [Expr.fragments, Expr.lexemesIn, Expr.fragmentsIn]
  rw [hlex, passes_cons, passes_cons] at hp
  obtain ⟨hyield, hlater, hfrom, hlater', hp⟩ := hp
  have hsize := Cursor.size_advance hlater
  have hsize' := Cursor.size_advance hlater'
  obtain ⟨v, hv, hshape⟩ := ha.take value .test .test c.advance.advance hx hf (Nat.le_refl _)
    (by decide) (by omega) c' hp (Nat.lt_trans hg (by decide))
  refine ⟨.yieldFrom ⟨c.next.span.start, c'.reached⟩ v, ?_, by simp [Expr.shape, hshape]⟩
  simp [yieldExpression, expect_apply _ _ hyield, hfrom, hv]

end Grammar

end AsyncErasure
