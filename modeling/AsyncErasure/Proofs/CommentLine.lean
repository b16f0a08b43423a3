import AsyncErasure.Proofs.Grammar.Abreast
import AsyncErasure.Proofs.Source

namespace AsyncErasure

open Grammar

namespace Grammar.Cursor

/-- The tokens of a text, from the first one on. -/
theorem streams_ofTokens {source : String} {tokens : List Token}
    (h : Token.scan source = .ok tokens) :
    (ofTokens tokens).tokens = tokens ∧ (ofTokens tokens).Streams := by
  have hclosed := Token.scan_closed h
  have hne : tokens ≠ [] := by
    obtain ⟨inner, stop, rfl, -⟩ := hclosed
    simp
  have htokens := tokens_ofTokens hne
  refine ⟨htokens, ?_, .start, ?_⟩
  · rwa [Scanned, htokens]
  · rw [htokens]
    exact Token.run_of_pageReads (Token.pageReads_of_lines h) (by simp)

end Grammar.Cursor

namespace Module

/-- Tokens that differ in comments alone give modules that do. -/
theorem ofTokens_follows {tokens tokens' : List Token} {m : Module}
    (h : (Cursor.ofTokens tokens).Along (.ofTokens tokens')) (hm : ofTokens tokens = .ok m)
    (hfinals : Block.holdFinals m.body) :
    ∃ m', ofTokens tokens' = .ok m' ∧ Block.essence m.body = Block.essence m'.body := by
  unfold ofTokens at hm ⊢
  cases hwhole : wholeModule (.ofTokens tokens) with
  | error e =>
    rw [hwhole] at hm
    cases hm
  | ok r =>
    rw [hwhole] at hm
    cases hm
    obtain ⟨m', c', hwhole', hessence, -⟩ := wholeModule_follows h r.1 r.2 hwhole hfinals
    exact ⟨m', by rw [hwhole']; rfl, hessence⟩

/-- A comment line in place of an empty one, at any column, leaves a module as it is but for
comments, if each final block that guards a body alone holds code. -/
theorem parse_commentLine {before margin body behind : String} {m : Module}
    (hbegins : Token.BeginsLine before ("\n" ++ behind))
    (hmargin : ∀ c ∈ margin.toList, Token.isMargin c)
    (hbody : '\n' ∉ body.toList) (hparse : Module.parse (before ++ ("\n" ++ behind)) = .ok m)
    (hfinals : ∀ s ∈ m.statements, s.holdsFinal) :
    ∃ m', Module.parse (before ++ (margin ++ "#" ++ body ++ "\n" ++ behind)) = .ok m' ∧
      (m.mapBlocks Block.withoutComments).shape = (m'.mapBlocks Block.withoutComments).shape := by
  obtain ⟨tokens, hscan, hm⟩ := parse_eq_ok hparse
  obtain ⟨tokens', hscan', hcode⟩ := Token.scan_commentLine hbegins hmargin hbody hscan
  obtain ⟨htokens, hstreams⟩ := Cursor.streams_ofTokens hscan
  obtain ⟨htokens', hstreams'⟩ := Cursor.streams_ofTokens hscan'
  -- But for comments of their own and for places, the tokens are the same.
  have halong : (Cursor.ofTokens tokens).Along (.ofTokens tokens') :=
    ⟨by rw [htokens, htokens', hcode], hstreams, hstreams'⟩
  have hholds : Block.holdFinals m.body := by
    rw [Block.holdFinals, ← Guard.all_statements]
    exact List.all_eq_true.2 hfinals
  obtain ⟨m', hm', hessence⟩ := ofTokens_follows halong hm hholds
  refine ⟨m', by rw [Module.parse, hscan']; exact hm', ?_⟩
  show Module.mk (Block.essence m.body) = Module.mk (Block.essence m'.body)
  rw [hessence]

/-- A comment between a body and the final block that guards it, at a column of neither. -/
theorem parse_commentLine_finally : ∃ m m',
    Module.parse "try:\n    a()\n\nfinally:\n    b()\n" = .ok m ∧
    (∀ s ∈ m.statements, s.holdsFinal) ∧
      Module.parse "try:\n    a()\n  # c\nfinally:\n    b()\n" = .ok m' ∧
      (m.mapBlocks Block.withoutComments).shape = (m'.mapBlocks Block.withoutComments).shape := by
  have hplain : "try:\n    a()\n" ++ ("\n" ++ "finally:\n    b()\n") =
      "try:\n    a()\n\nfinally:\n    b()\n" := by
    decide +kernel
  have hcommented : "try:\n    a()\n" ++ ("  " ++ "#" ++ " c" ++ "\n" ++ "finally:\n    b()\n") =
      "try:\n    a()\n  # c\nfinally:\n    b()\n" := by
    decide +kernel
  have hread : (Token.LineStart.readTimes 2 (.ofSource "try:\n    a()\n\nfinally:\n    b()\n")).any
      fun r => r.2.text == Token.unifyLineEnds ("\n" ++ "finally:\n    b()\n").toList := by
    decide +kernel
  have hparse : (Module.parse "try:\n    a()\n\nfinally:\n    b()\n").toOption.any
      fun m => m.statements.all Stmt.holdsFinal := by
    decide +kernel
  obtain ⟨⟨front, s⟩, hsome, htext⟩ := (Option.any_eq_true ..).1 hread
  obtain ⟨m, hm, hfinals⟩ := parse_of_any hparse
  have hfinals : ∀ s ∈ m.statements, s.holdsFinal := List.all_eq_true.1 hfinals
  have hends : "try:\n    a()\n".toList.getLast? = some '\n' := by decide +kernel
  have hbegins : Token.BeginsLine "try:\n    a()\n" ("\n" ++ "finally:\n    b()\n") := by
    refine ⟨fun d hd => (Option.some.inj (hends.symm.trans hd)).symm, front, s, ?_, eq_of_beq htext⟩
    rw [hplain]
    exact Token.LineStart.reads_of_readTimes hsome
  rw [← hplain] at hm
  have hmargin : ∀ c ∈ "  ".toList, Token.isMargin c := by simp [Token.isMargin]
  have hbody : '\n' ∉ " c".toList := by simp
  obtain ⟨m', hm', hshape⟩ := parse_commentLine hbegins hmargin hbody hm hfinals
  exact ⟨m, m', hplain ▸ hm, hfinals, hcommented ▸ hm', hshape⟩

/-- A comment line in place of an empty one closes a final block that holds a comment alone, and the
text cannot be read any more. -/
theorem comment_line_empties_final_block :
    (Module.parse "try:\n    x\nfinally:\n    \\\n\n\n    # c2\ny\n").isOk ∧
      (Module.parse "try:\n    x\nfinally:\n    \\\n\n#\n    # c2\ny\n").isOk = false := by
  decide +kernel

end Module

end AsyncErasure
