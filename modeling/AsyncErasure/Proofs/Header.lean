import AsyncErasure.Proofs.Guard
import AsyncErasure.Proofs.Render.Shape
import AsyncErasure.Proofs.RoundTrip
import AsyncErasure.Proofs.Source

namespace AsyncErasure

open Fragment Grammar Rule Cursor Spelling

mutual

/-- Targets made of names, attributes, subscripts, lists and tuples. An attribute or a subscript may
belong to any expression. -/
def Expr.isTarget : Expr → Bool
  | .name .. => true
  | .attr _ value _ => value.isTarget || value.fits .plain
  | .subscript _ value index =>
    (value.isTarget || value.fits .plain) && (index.isTarget || index.fits .index)
  | .list _ elts | .tuple _ elts _ => Expr.areTargets elts
  | _ => false

def Expr.areTargets : List Expr → Bool
  | [] => true
  | e :: es => e.isTarget && Expr.areTargets es

end

namespace Expr

theorem areTargets_eq_true {es : List Expr} : areTargets es ↔ ∀ e ∈ es, e.isTarget := by
  induction es with
  | nil => simp [areTargets]
  | cons e es ih => simp [areTargets, ih]

/-- A formed target fits where a bare tuple may stand if it is one. -/
theorem fits_of_isTarget {slot slot' : Slot} (h : slot.Admits slot') {e : Expr}
    (he : e.isFormed slot)
    (ht : e.isTarget) : e.fits slot' := by
  induction e using Expr.childInduction generalizing slot slot' with
  | step e ih =>
  have helts {elts : List Expr} (hmem : ∀ x ∈ elts, x ∈ e.children) {slot slot' : Slot}
      (h : slot.Admits slot') (hf : Formed.exprs slot elts) (ht : areTargets elts) :
      Fits.exprs slot' elts := by
    rw [Formed.exprs_eq_true] at hf
    rw [areTargets_eq_true] at ht
    rw [Fits.exprs_eq_true]
    exact fun x hx => ih x (hmem x hx) h (hf x hx) (ht x hx)
  have hvalue {value : Expr} (hmem : value ∈ e.children) {slot : Slot} (hf : value.isFormed slot)
      (ht : value.isTarget || value.fits slot) : value.fits slot := by
    obtain ht | ht := Bool.or_eq_true_iff.1 ht
    · exact ih value hmem ⟨id, id⟩ hf ht
    · exact ht
  cases e with
  | name => exact he
  | attr s value field =>
    simp only [isFormed, isTarget, fits, Bool.and_eq_true] at he ht ⊢
    exact ⟨hvalue (by simp [children]) he.1 ht, he.2⟩
  | subscript s value index =>
    simp only [isFormed, isTarget, fits, Bool.and_eq_true] at he ht ⊢
    exact ⟨hvalue (by simp [children]) he.1 ht.1, hvalue (by simp [children]) he.2 ht.2⟩
  | list s elts => exact helts (fun x hx => hx) (Slot.plain_admits _) he ht
  | tuple s elts bracketed =>
    cases bracketed with
    | true => exact helts (fun x hx => hx) (Slot.plain_admits _) he ht
    | false =>
      simp only [isFormed, fits, Bool.and_eq_true] at he ⊢
      exact ⟨⟨h.bare he.1.1, he.1.2⟩, helts (fun x hx => hx) h.inner he.2 ht⟩
  | _ => cases ht

end Expr

theorem WithItem.fits_of_isFormed {i : WithItem} (h : i.isFormed) (hc : i.context.fits .plain)
    (ht : ∀ t ∈ i.target, t.isTarget) : i.fits := by
  rw [isFormed, Bool.and_eq_true] at h
  refine Bool.and_eq_true_iff.2 ⟨hc, Fits.expr?_eq_true.2 fun t htarget => ?_⟩
  exact Expr.fits_of_isTarget (Slot.plain_admits _) (Formed.expr?_eq_true.1 h.2 t htarget)
    (ht t htarget)

def Stmt.items? (mode : Mode) : Stmt → Option (List WithItem)
  | .withBlock _ mode' items _ => if mode' = mode then some items else none
  | _ => none

theorem Stmt.items?_eq_some {mode : Mode} {items : List WithItem} {s : Stmt}
    (h : s.items? mode = some items) : ∃ span body, s = .withBlock span mode items body := by
  cases s with
  | withBlock span mode' items' body =>
    rw [items?] at h
    split at h
    · subst mode'
      cases h
      exact ⟨span, body, rfl⟩
    · cases h
  | _ => cases h

namespace Module

def header (mode : Mode) (items : List WithItem) : Module :=
  ⟨[.withBlock .nowhere mode items [.pass .nowhere]]⟩

section Reading

variable {mode : Mode} {items : List WithItem}

theorem rows_header : (header mode items).rows =
    [.code 0 (heading .if_ (.withBlock .nowhere mode items [])), .code 1 [word .pass_]] := rfl

theorem prints_header (hf : ∀ i ∈ items, i.fits) {body : List Stmt} :
    Prints (heading .if_ (.withBlock .nowhere mode items body)) :=
  prints_lead mode .with_ (spelled_commas fun i hi => spelled_withItem (hf i hi)).colon

theorem scan_header (mode : Mode) (hf : ∀ i ∈ items, i.fits) :
    ∃ tokens, Token.scan (header mode items).render = .ok tokens ∧
      tokens.map Token.mark = Token.marks false 0 0 (header mode items).rows := by
  have hsound : Row.Sound false 0 (header mode items).rows :=
    ⟨Nat.zero_le _, (prints_header hf).isCode, Nat.le_refl _,
      Prints.isCode ⟨⟨_, _, rfl⟩, .word .pass_⟩, trivial⟩
  have hpieces : (Stmt.withBlock .nowhere mode items [.pass .nowhere]).pieces "if " 0 =
      (header mode items).rows.map Row.piece := by
    rw [rows_header]
    exact Rows.pieces_withBlock (fun s _ => Rows.told s) .if_ 0 rfl
  have hrender : (header mode items).render =
      Piece.assemble ((header mode items).rows.map Row.piece) := by
    rw [← hpieces, ← List.append_nil (Stmt.pieces ..)]
    rfl
  obtain ⟨k, hk⟩ := Piece.toList_assemble hsound (head_rows_ne_gap _)
  exact Token.exists_scan k hsound (hrender ▸ hk)

/-- A header is read as soon as the items of its text are. -/
theorem parse_header {shapes : List WithItem} (hf : ∀ i ∈ items, i.fits)
    (hitems : ∀ c c' : Cursor, Passes (lexemes (commas (items.map WithItem.fragments))) c c' →
      c'.next.lexeme = .symbol .colon →
      ∃ items', withItems c = .ok (items', c') ∧ items'.map WithItem.shape = shapes) :
    ∃ m', Module.parse (header mode items).render = .ok m' ∧
      m'.shape = header mode shapes := by
  obtain ⟨tokens, htokens, hmarks⟩ := scan_header mode hf
  have hne : tokens ≠ [] := by
    rintro rfl
    exact marks_rows_ne_nil _ _ _ _ hmarks.symm
  rw [← marks_ofTokens hne, rows_header] at hmarks
  -- The statement is all of the module: one unit, behind which the end marker comes.
  generalize hc : Cursor.ofTokens tokens = c at hmarks
  have hone := c.one_le_size
  obtain ⟨n, hn⟩ : ∃ n, c.size = n + 1 := ⟨_, (Nat.sub_add_cancel hone).symm⟩
  have hpass : ∀ s ∈ [Stmt.pass .nowhere], Reads (parseStatements n) n s :=
    fun s _ => (reads_stmt s n).1
  obtain ⟨m, body', c', hp, hcolon, hblock, hlt, hm, hall⟩ :=
    heading_reads (show Row.Closes 0 [] from trivial)
    hpass rfl (prints_header hf) (List.append_assoc ..).symm (by omega) hmarks
  obtain ⟨d, hled, hl, hp⟩ := passes_lead hp
  obtain ⟨items', hitems, hshape⟩ := hitems _ _ hp hcolon
  have hwith : withBlock (parseStatements n) c.next.span.start mode d =
      .ok (.withBlock ⟨c.next.span.start, c'.reached⟩ mode items' body', c') := by
    simp [withBlock, expect_apply, hl, hitems, hblock]
  have hstmt : c.next.lexeme.isLayout = false ∧ parseStatements (n + 1) c =
      .ok ([.withBlock ⟨c.next.span.start, c'.reached⟩ mode items' body'], c') := by
    obtain ⟨rfl, rfl⟩ | ⟨rfl, hasync, rfl⟩ := hled
    · refine ⟨by rw [hl]; rfl, ?_⟩
      simp [parseStatements, statement, hl, hwith]
      rfl
    · refine ⟨by rw [hasync]; rfl, ?_⟩
      simp [parseStatements, statement, hasync, asyncStatement, expect_apply, hl, hwith]
      rfl
  have hend : c'.next.lexeme = .endMarker := next_of_marks hm (by simp [Token.Mark.layout])
  have hclosed (l : Lexeme) (h : l == .endMarker) : l.isLayout := by
    rw [eq_of_beq h]
    rfl
  have hunits : Repeats (unit (parseStatements c.size) (· == .endMarker)) c
      [[.withBlock ⟨c.next.span.start, c'.reached⟩ mode items' body']] c' := by
    rw [hn]
    exact .item (unit_apply hclosed hstmt.1 hstmt.2) hlt (.done (by simp [unit, hend]))
  refine ⟨⟨[.withBlock ⟨c.next.span.start, c'.reached⟩ mode items' body']⟩, ?_, ?_⟩
  · rw [Module.parse, htokens]
    simp [ofTokens, hc, wholeModule, statementsUpTo_eq, hunits.many, Except.map]
  · simp [shape, Shape.stmts, Stmt.shape, hshape, hall.shape, header, tidied, Stmt.isBlank,
      Stmt.mapBlocks]

/-- A bracket around contexts that stands alone before the colon. -/
theorem bracketedWithItems_reads {c c' : Cursor} {s : Span} {elts : List Expr} (hne : elts ≠ [])
    (hf : ∀ e ∈ elts, e.fits .plain) (hp : Passes ((Expr.tuple s elts true).lexemesIn .test) c c')
    (hcolon : c'.next.lexeme = .symbol .colon) :
    ∃ items', c.next.lexeme = .symbol (.opening .round) ∧ bracketedWithItems c = .ok (items', c') ∧
      items'.map WithItem.shape = elts.map fun e => ⟨e.shape, none⟩ := by
  have hbrackets : (Expr.tuple s elts true).needsBrackets .test = true :=
    Expr.needsBrackets_of_rank_le_two (Nat.le_of_ble_eq_true rfl) (Nat.le_refl _)
  rw [Expr.lexemesIn, Expr.fragmentsIn, Expr.enclosed, hbrackets, if_pos rfl, lexemes_enclose,
    Expr.lexemes_tuple] at hp
  simp only [passes_cons, passes_append, passes_nil] at hp
  obtain ⟨hopen, -, m, hp, hclose, -, rfl⟩ := hp
  obtain ⟨items', hitems, hshape⟩ := lists_plain hf (passes_append.2 hp) hclose
  have hsome : items' ≠ [] := by
    rintro rfl
    exact hne (List.map_eq_nil_iff.1 hshape.symm)
  refine ⟨items', hopen, ?_, hshape⟩
  simp [bracketedWithItems, expect_apply, hopen, hitems, hclose, hcolon, hsome]

end Reading

variable {mode : Mode} {items : List WithItem}

/-- The elements of a tuple that is the only item come back as the items. -/
theorem parse_header_tuple (mode : Mode) {s : Span} {elts : List Expr}
    (hf : (Expr.tuple s elts true).fits .plain) (hne : elts ≠ [])
    (hstar : elts.any Expr.isStarred = false) :
    ∃ m', Module.parse (header mode [⟨.tuple s elts true, none⟩]).render = .ok m' ∧
      m'.shape = header mode (elts.map fun e => ⟨e.shape, none⟩) := by
  have hplain : ∀ e ∈ elts, e.fits .plain := by
    intro e he
    obtain ⟨s, v, rfl, -⟩ | h := Expr.starred_or_plain (Fits.exprs_eq_true.1 hf e he) rfl rfl
    · exact absurd rfl (List.any_eq_false.1 hstar _ he)
    · exact h.1
  apply parse_header
  · exact List.forall_mem_singleton.2 (Bool.and_eq_true_iff.2 ⟨hf, rfl⟩)
  · intro c c' hp hcolon
    have hp : Passes ((Expr.tuple s elts true).lexemesIn .test) c c' := by
      rw [lexemes_commas, listed_cons] at hp
      simpa [WithItem.fragments, behind, Expr.lexemesIn] using hp
    obtain ⟨items', hopen, hitems, hshape⟩ := bracketedWithItems_reads hne hplain hp hcolon
    exact ⟨items', by simp [withItems, hopen, Rule.orElse, hitems], hshape⟩

/-- No tuple is its own only element. -/
theorem header_elements_ne {s : Span} {elts : List Expr} :
    header mode (elts.map fun e => ⟨e.shape, none⟩) ≠
      (header mode [⟨.tuple s elts true, none⟩]).shape := by
  intro h
  have hitems : elts.map (fun e => (⟨e.shape, none⟩ : WithItem)) =
      [⟨.tuple .nowhere (elts.map Expr.shape) true, none⟩] := by
    simpa [header, shape, Shape.stmts, Stmt.shape, WithItem.shape, Expr.shape, Shape.expr?,
      Shape.exprs_eq_map] using h
  obtain ⟨e, rfl, he⟩ := List.map_eq_singleton_iff.1 hitems
  have hself : e.shape = .tuple .nowhere [e.shape] true := congrArg WithItem.context he
  have hsize := congrArg sizeOf hself
  simp only [Expr.tuple.sizeOf_spec, List.cons.sizeOf_spec] at hsize
  omega

/-- A header comes back from its text unless its only item is a tuple whose elements could be the
items. -/
theorem header_survives_iff {source : String} {m : Module} (hm : Module.parse source = .ok m)
    {span : Span} {body : List Stmt} (hs : .withBlock span mode items body ∈ m.statements)
    (hc : ∀ i ∈ items, i.context.fits .plain) (ht : ∀ i ∈ items, ∀ t ∈ i.target, t.isTarget) :
    (∃ m', Module.parse (header mode items).render = .ok m' ∧
      m'.shape = (header mode items).shape) ↔
      Fits.isAmbiguous items = false := by
  have hformed : m.statements.all Stmt.isFormed := by
    rw [Guard.all_statements]
    exact (formed_of_parse hm).all_deep fun _ => id
  have hitems := List.all_eq_true.1 hformed _ hs
  simp only [Stmt.isFormed, Bool.and_eq_true, List.all_eq_true] at hitems
  have hf : ∀ i ∈ items, i.fits := fun i hi =>
    WithItem.fits_of_isFormed (hitems.1.2 i hi) (hc i hi) (ht i hi)
  constructor
  · rintro ⟨m', hm', hshape⟩
    by_contra hambiguous
    rw [Bool.not_eq_false] at hambiguous
    obtain ⟨s, elts, bracketed, rfl⟩ :
        ∃ s elts bracketed, items = [⟨.tuple s elts bracketed, none⟩] := by
      unfold Fits.isAmbiguous at hambiguous
      split at hambiguous
      · exact ⟨_, _, _, rfl⟩
      · cases hambiguous
    simp only [Fits.isAmbiguous, Bool.and_eq_true, Bool.not_eq_true',
      List.isEmpty_eq_false_iff] at hambiguous
    have htuple := hc _ (List.mem_singleton_self _)
    cases bracketed with
    | false => cases htuple
    | true =>
      obtain ⟨m'', hm'', hshape'⟩ := parse_header_tuple mode htuple hambiguous.1 hambiguous.2
      obtain rfl : m' = m'' := Except.ok.inj (hm'.symm.trans hm'')
      exact header_elements_ne (hshape'.symm.trans hshape)
  · intro hambiguous
    have hfits : Fits.withItems items := by
      simp only [Fits.withItems, Bool.and_eq_true, List.all_eq_true, hambiguous, Bool.not_false]
      exact ⟨⟨hitems.1.1, hf⟩, trivial⟩
    obtain ⟨m', hm', hshape⟩ := parse_header hf fun c c' hp hcolon =>
        withItems_reads hfits hp hcolon
    exact ⟨m', hm', hshape⟩

theorem exists_header {m : Module} (h : m.statements.findSome? (Stmt.items? mode) = some items) :
    ∃ span body, .withBlock span mode items body ∈ m.statements := by
  obtain ⟨s, hs, hitems⟩ := List.exists_of_findSome?_eq_some h
  obtain ⟨span, body, rfl⟩ := Stmt.items?_eq_some hitems
  exact ⟨span, body, hs⟩

/-- A context that begins with a bracket, and a target of two names. -/
theorem header_survives_iff_pool : ∃ m span body items,
    Module.parse "async with (a, b)[0] as (c, d.e):\n    pass\n" = .ok m ∧
      .withBlock span .async items body ∈ m.statements ∧
      ∃ m', Module.parse (header .async items).render = .ok m' ∧
      m'.shape = (header .async items).shape := by
  have h : (Module.parse "async with (a, b)[0] as (c, d.e):\n    pass\n").toOption.any fun m =>
      (m.statements.findSome? (Stmt.items? .async)).any fun items =>
        items.all (fun i => i.context.fits .plain && i.target.all Expr.isTarget) &&
          !Fits.isAmbiguous items := by decide +kernel
  obtain ⟨m, hm, h⟩ := parse_of_any h
  obtain ⟨items, hitems, h⟩ := (Option.any_eq_true _ _).1 h
  obtain ⟨span, body, hs⟩ := exists_header hitems
  simp only [Bool.and_eq_true, List.all_eq_true, Bool.not_eq_true', Option.all_eq_true] at h
  exact ⟨m, span, body, items, hm, hs, (header_survives_iff hm hs (fun i hi => (h.1 i hi).1)
    fun i hi t => (h.1 i hi).2 t).2 h.2⟩

/-- A tuple in brackets is one context, and on the page its brackets are those of two. -/
theorem header_splits_tuple : ∃ m span items body,
    Module.parse "with ((a, b)):\n    pass\n" = .ok m ∧
      .withBlock span .sync items body ∈ m.statements ∧ (∀ i ∈ items, i.fits) ∧
      (header .sync items).render = "with (a, b):\n    pass" ∧
      ¬∃ m', Module.parse (header .sync items).render = .ok m' ∧
        m'.shape = (header .sync items).shape := by
  have h : (Module.parse "with ((a, b)):\n    pass\n").toOption.any fun m =>
      (m.statements.findSome? (Stmt.items? .sync)).any fun items =>
        items.all WithItem.fits && (header .sync items).render == "with (a, b):\n    pass" &&
          (Module.parse (header .sync items).render).toOption.all
            (·.render == "with a, b:\n    pass") := by decide +kernel
  obtain ⟨m, hm, h⟩ := parse_of_any h
  obtain ⟨items, hitems, h⟩ := (Option.any_eq_true _ _).1 h
  obtain ⟨span, body, hs⟩ := exists_header hitems
  simp only [Bool.and_eq_true, List.all_eq_true, beq_iff_eq] at h
  refine ⟨m, span, items, body, hm, hs, h.1.1, h.1.2, ?_⟩
  rintro ⟨m', hm', hshape⟩
  have htext : m'.render = (header .sync items).render := by
    rw [← render_shape, hshape, render_shape]
  rw [hm', Except.toOption, Option.all_some, beq_iff_eq, htext, h.1.2] at h
  exact absurd h.2 (by decide)

end Module

end AsyncErasure
