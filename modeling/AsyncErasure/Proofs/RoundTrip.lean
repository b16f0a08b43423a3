import AsyncErasure.Grammar.Module
import AsyncErasure.Proofs.Grammar.With

namespace AsyncErasure

open Grammar Rule Cursor

namespace Grammar

variable {tokens : List Token}

theorem marks_ofTokens (h : tokens ≠ []) :
    (Cursor.ofTokens tokens).marks = tokens.map Token.mark := by
  cases tokens with
  | nil => exact absurd rfl h
  | cons t ts => rfl

def notes (texts : List String) : List Stmt := texts.map (Stmt.comment .nowhere · false)

/-- The loop over the statements of a module below some comments. -/
theorem repeats_module {k : Nat} {texts : List String} {ss : List Stmt} {b begun : Bool}
    {line : Nat} {c : Cursor} (hf : Fits.stmts b false ss) (hsize : c.size ≤ k)
    (h : c.marks = Token.marks false 0 line
      (texts.map (Row.comment 0) ++ Rows.stmts 0 (begun || !texts.isEmpty) false ss)) :
    ∃ units c' r', Repeats (unit (parseStatements k) (· == .endMarker)) c units c' ∧
      r'.stmts = [] ∧ Retrieves ⟨line, begun, false, notes texts ++ ss⟩ units.flatten r' := by
  have hclosed (l : Lexeme) (hl : (l == .endMarker) = true) : l.isLayout := by
    rw [eq_of_beq hl]
    rfl
  induction texts generalizing begun line c with
  | nil =>
    have hend (c : Cursor) (line : Nat) (h : c.marks = Token.marks false 0 line []) :
        (c.next.lexeme == .endMarker) = true := by
      rw [next_of_marks h (by simp [Token.Mark.layout])]
      rfl
    have hrest : Row.Clear 0 [] := trivial
    rw [List.isEmpty_nil, Bool.not_true, Bool.or_false] at h
    obtain ⟨units, c', r', hunits, -, -, hnil, hall, -⟩ := repeats_stmts hclosed hrest hend ss
      (fun s _ => (reads_stmt s k).1) hf hsize (by rwa [List.append_nil])
    exact ⟨units, c', r', hunits, hnil, hall⟩
  | cons text texts ih =>
    have h : c.marks = ⟨.comment text false, line + 1, line + 1⟩ :: Token.marks false 0 (line + 1)
        (texts.map (Row.comment 0) ++ Rows.stmts 0 (true || !texts.isEmpty) false ss) := by
      simpa [Token.marks, Token.lineEnd] using h
    have hl : c.next.lexeme = .comment text false := next_of_marks h (by simp)
    obtain ⟨hlater, hm⟩ := marks_advance h (marks_rows_ne_nil _ _ _ _)
    have hlt := size_advance hlater
    have hspan := span_next h rfl
    obtain ⟨units, c', r', hunits, hnil, hall⟩ := ih (by omega) hm
    have hone := c.one_le_size
    obtain ⟨n, rfl⟩ : ∃ n, k = n + 1 := ⟨k - 1, by omega⟩
    have hself : parseStatements (n + 1) c =
        .ok ([.comment c.next.span text false], c.advance) := by
      simp [parseStatements, statement, hl, comment, commentIf]
    refine ⟨[.comment c.next.span text false] :: units, c', r',
      .item (unit_apply hclosed (by rw [hl]; rfl) hself) (by omega) hunits, hnil, ?_⟩
    exact .note hspan.1 (by rwa [hspan.2])

/-- The tokens of the rows of statements are read as those statements. -/
theorem wholeModule_reads {texts : List String} {ss : List Stmt} (hf : Fits.stmts false false ss)
    {c : Cursor} (h : c.marks = Token.marks false 0 0
      (texts.map (Row.comment 0) ++ Rows.stmts 0 (!texts.isEmpty) false ss)) :
    ∃ body c', wholeModule c = .ok (⟨body⟩, c') ∧ RestoresAll (notes texts ++ ss) body := by
  obtain ⟨units, c', r', hunits, hnil, hall⟩ := repeats_module hf (Nat.le_refl c.size)
    (by rwa [Bool.false_or])
  refine ⟨units.flatten, c', ?_, hall.restoresAll hnil⟩
  simp [wholeModule, statementsUpTo_eq, hunits.many]

theorem ofTokens_reads {texts : List String} {ss : List Stmt} (hf : Fits.stmts false false ss)
    (h : tokens.map Token.mark = Token.marks false 0 0
      (texts.map (Row.comment 0) ++ Rows.stmts 0 (!texts.isEmpty) false ss)) :
    ∃ body, Module.ofTokens tokens = .ok ⟨body⟩ ∧ RestoresAll (notes texts ++ ss) body := by
  have hne : tokens ≠ [] := by
    rintro rfl
    exact marks_rows_ne_nil _ _ _ _ h.symm
  obtain ⟨body, c', hbody, hall⟩ := wholeModule_reads hf ((marks_ofTokens hne).trans h)
  exact ⟨body, by simp [Module.ofTokens, hbody, Except.map], hall⟩

end Grammar

/-- The text of a well-formed module is read as statements that restore those of the module. -/
theorem Module.parse_restores {m : Module} (h : m.WellFormed) :
    ∃ body, Module.parse m.render = .ok ⟨body⟩ ∧ RestoresAll m.body body := by
  obtain ⟨tokens, htokens, hmarks⟩ := m.scan_render h
  obtain ⟨body, hbody, hall⟩ := @ofTokens_reads tokens [] m.body h hmarks
  exact ⟨body, by rw [parse, htokens]; exact hbody, hall⟩

/-- Rendering and reading back gives the module without its blank markers, up to spans. -/
theorem Module.parse_render {m : Module} (h : m.WellFormed) :
    ∃ m', Module.parse m.render = .ok m' ∧
      m'.shape = (m.mapBlocks (List.filter fun s => !s.isBlank)).shape := by
  obtain ⟨body, hbody, hall⟩ := parse_restores h
  refine ⟨⟨body⟩, hbody, ?_⟩
  rw [shape, shape, mapBlocks, shape_block, hall.shape]

def Module.poller : Module :=
  let named (id : String) : Expr := .name .nowhere id
  ⟨[.comment .nowhere "# polls" false,
    .functionDef .nowhere .async "poll"
      ⟨[], [⟨"q", none, none⟩], none, [⟨"n", none, some (named "q")⟩], none⟩
      none [.call .nowhere (named "cached") [named "q"] []]
      [.comment .nowhere "# loops" true,
        .withBlock .nowhere .async
          [⟨.tuple .nowhere [.starred .nowhere (named "q")] true, none⟩,
            ⟨named "r", some (named "f")⟩]
          [.branch .nowhere (.named .nowhere (named "k") (.await .nowhere (named "q")))
            [.ret .nowhere (some (.str .nowhere ["'a'", "'b'"]))]
            [.branch .nowhere (named "n") [.pass .nowhere] []]],
        .blank .nowhere,
        .tryBlock .nowhere [.expr .nowhere (.await .nowhere (.yield .nowhere none))]
          [⟨some (named "E"), some "e", [.raise .nowhere (some (named "e")) none]⟩] []
          [.delete .nowhere [named "q", named "n"]] true]]⟩

theorem Module.parse_render_poller : Module.poller.WellFormed ∧
    ∃ m', Module.parse Module.poller.render = .ok m' ∧
      m'.shape = (Module.poller.mapBlocks (List.filter fun s => !s.isBlank)).shape :=
  ⟨by decide +kernel, Module.parse_render (by decide +kernel)⟩

end AsyncErasure
