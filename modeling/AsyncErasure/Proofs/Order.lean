import AsyncErasure.Proofs.Grammar.Position
import AsyncErasure.Proofs.Source

namespace AsyncErasure

open Token

namespace Grammar

/-- A module is laid from the first line on. -/
theorem laid_ofTokens {tokens : List Token} {m : Module} (h : Closed tokens)
    (hdown : GoesDown 1 tokens) (hbare : bareDecorators .opening tokens)
    (hm : Module.ofTokens tokens = .ok m) : ∃ hi, Laid 1 hi m.body := by
  obtain ⟨htokens, hs, c', hbody, -⟩ := statementsUpTo_of_ofTokens h hm
  have hreached : (Cursor.ofTokens tokens).reached = .origin := by cases tokens <;> rfl
  have hready : (Cursor.ofTokens tokens).Ready .opening 1 :=
    ⟨hs, hreached ▸ Nat.le_refl 1, htokens.symm ▸ hreached ▸ hdown, htokens.symm ▸ hbare⟩
  obtain ⟨hi, -, -, hlaid⟩ :=
    statementsUpTo_lays (parseStatements_lays _) 1 _ _ hready m.body c' hbody
  exact ⟨hi, hlaid⟩

end Grammar

namespace Module

variable {source : String} {tokens : List Token} {m : Module}

/-- The statements of each block stand in order, and within the statement that the block belongs
to. -/
theorem ordered_of_parse (ht : scan source = .ok tokens) (hm : Module.parse source = .ok m)
    (hbare : bareDecorators .opening tokens) :
    (m.body.IsChain fun a b => a.span.endLine ≤ b.span.line) ∧
      ∀ p ∈ m.statements, p.span.line ≤ p.span.endLine ∧
        ∀ body ∈ p.blocks, (body.IsChain fun a b => a.span.endLine ≤ b.span.line) ∧
          ∀ s ∈ body, p.span.line ≤ s.span.line ∧ s.span.endLine ≤ p.span.endLine := by
  obtain ⟨tokens', ht', hm'⟩ := parse_eq_ok hm
  obtain rfl : tokens = tokens' := Except.ok.inj (ht.symm.trans ht')
  obtain ⟨hi, hlaid⟩ := Grammar.laid_ofTokens (scan_closed ht) (goesDown_of_scan ht) hbare hm'
  have hnested : m.statements.all Stmt.isNested := by
    rw [Guard.all_statements]
    exact List.all_eq_true.2 hlaid.nested
  refine ⟨Block.isChain_of_inOrder hlaid.inOrder, fun p hp => ?_⟩
  obtain ⟨hline, hblocks⟩ := Stmt.isNested_iff.1 (List.all_eq_true.1 hnested p hp)
  refine ⟨hline, fun body hbody => ?_⟩
  have hbody := hblocks body hbody
  exact ⟨Block.isChain_of_inOrder hbody, Block.bounds_of_inOrder hbody⟩

def staged : String :=
  "@a\n@b(1)\nasync def f(x):  # c\n    if x:\n        y = [  # d\n            1]\n    # e\n" ++
  "    elif z: pass  # f\n    try:\n        g()\n        # h\n    # i\n    finally:\n" ++
  "        k(  # l\n        )\nclass C: pass\n"

theorem ordered_of_parse_staged : ∃ tokens m, scan staged = .ok tokens ∧
    Module.parse staged = .ok m ∧ bareDecorators .opening tokens ∧
      (m.body.map fun s => (s.span.line, s.span.endLine)) = [(1, 15), (16, 16)] ∧
      (m.body.IsChain fun a b => a.span.endLine ≤ b.span.line) ∧
      ∀ p ∈ m.statements, p.span.line ≤ p.span.endLine ∧
        ∀ body ∈ p.blocks, (body.IsChain fun a b => a.span.endLine ≤ b.span.line) ∧
          ∀ s ∈ body, p.span.line ≤ s.span.line ∧ s.span.endLine ≤ p.span.endLine := by
  have htokens : (scan staged).toOption.any (bareDecorators .opening) := by decide +kernel
  have hmodule : (Module.parse staged).toOption.any fun m =>
      (m.body.map fun s => (s.span.line, s.span.endLine)) == [(1, 15), (16, 16)] := by
    decide +kernel
  obtain ⟨tokens, ht, hbare⟩ := scan_of_any htokens
  obtain ⟨m, hm, hlines⟩ := parse_of_any hmodule
  exact ⟨tokens, m, ht, hm, hbare, eq_of_beq hlines, ordered_of_parse ht hm hbare⟩

/-- A comment below a decorator is put before the definition, which begins above it. -/
example : (Module.parse "@a\n# c\ndef f(): pass\n").toOption.any fun m =>
    (m.body.map fun s => (s.span.line, s.span.endLine)) == [(2, 2), (1, 3)] := by
  decide +kernel

end Module

end AsyncErasure
