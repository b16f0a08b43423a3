import AsyncErasure.Convention
import AsyncErasure.Proofs.Grammar.Conservation
import AsyncErasure.Proofs.Spacing

namespace AsyncErasure

namespace Grammar

theorem Cursor.tokens_ofTokens {tokens : List Token} (h : tokens ≠ []) :
    (Cursor.ofTokens tokens).tokens = tokens := by
  cases tokens with
  | nil => exact absurd rfl h
  | cons t ts => rfl

/-- The statements of a module are read from its tokens up to the end marker, which is the last
token. -/
theorem statementsUpTo_of_ofTokens {tokens : List Token} {m : Module} (h : Token.Closed tokens)
    (hm : Module.ofTokens tokens = .ok m) :
    (Cursor.ofTokens tokens).tokens = tokens ∧ (Cursor.ofTokens tokens).Scanned ∧
      ∃ c', statementsUpTo (parseStatements (Cursor.ofTokens tokens).size) (· == .endMarker)
          (.ofTokens tokens) = .ok (m.body, c') ∧
        ∀ read, (Cursor.ofTokens tokens).Moves read c' →
          ∃ stop : Token, tokens = read ++ [stop] ∧ stop.lexeme = .endMarker := by
  have hne : tokens ≠ [] := by
    obtain ⟨inner, stop, rfl, -⟩ := h
    simp
  have htokens := Cursor.tokens_ofTokens hne
  have hs : (Cursor.ofTokens tokens).Scanned := htokens ▸ h
  refine ⟨htokens, hs, ?_⟩
  unfold Module.ofTokens at hm
  cases hw : wholeModule (.ofTokens tokens) with
  | error e =>
    rw [hw] at hm
    cases hm
  | ok r =>
    obtain ⟨m', c''⟩ := r
    rw [hw] at hm
    cases hm
    rw [wholeModule, map_eq_pure_bind] at hw
    obtain ⟨body, c', hbody, hdone⟩ := eq_ok_of_bind hw
    cases hdone
    have hself (c : Cursor) := parseStatements_tells (Cursor.ofTokens tokens).size c
    -- The loop has stopped at the end marker, and nothing stands behind it.
    have hend : c''.next.lexeme = .endMarker :=
      eq_of_beq (closed_of_statementsUpTo hself (Cursor.ofTokens tokens) hs hbody)
    refine ⟨c'', hbody, fun read hmoves => ⟨c''.next, ?_, hend⟩⟩
    rw [← (hs.rest hmoves).later_eq_nil hend, ← Cursor.tokens, ← hmoves.tokens_eq, htokens]

/-- A module holds the comments of the tokens it is read from. -/
theorem kept_wholeModule {tokens : List Token} {m : Module} (h : Token.Closed tokens)
    (hm : Module.ofTokens tokens = .ok m) : Kept (heard tokens) m.body := by
  obtain ⟨-, hs, c', hbody, hrest⟩ := statementsUpTo_of_ofTokens h hm
  obtain ⟨read, hmoves, -, hkept⟩ :=
    statementsUpTo_tells (parseStatements_tells _) _ _ hs m.body c' hbody
  obtain ⟨stop, htokens, hend⟩ := hrest read hmoves
  have hstop : heard [stop] = [] := by simp [heard, Token.comment?, hend]
  rw [htokens, heard_append, hstop, List.append_nil]
  exact hkept

end Grammar

namespace Module

variable {source : String} {m : Module}

theorem parse_eq_ok (h : Module.parse source = .ok m) :
    ∃ tokens, Token.scan source = .ok tokens ∧ ofTokens tokens = .ok m := by
  unfold parse at h
  split at h
  · cases h
  · rename_i tokens htokens
    exact ⟨tokens, htokens, h⟩

theorem formed_of_parse (h : Module.parse source = .ok m) : m.IsFormed := by
  obtain ⟨tokens, ht, hm⟩ := parse_eq_ok h
  exact (Grammar.kept_wholeModule (Token.scan_closed ht) hm).stmts

/-- What every formed statement has, every statement of a formed module has. -/
theorem IsFormed.all_deep {p : Stmt → Bool} (h : m.IsFormed) (hp : ∀ s, s.isFormed → p s) :
    m.body.all (Guard.deep p) :=
  List.all_eq_true.2 fun s hs =>
    Guard.deep_of_inherited (fun _ => Stmt.isFormed_children) hp s (Formed.stmts_eq_true.1 h s hs)

/-- No source has blank markers. -/
theorem unmarked_of_parse (h : Module.parse source = .ok m) :
    m.body.all (Guard.deep fun s => !s.isBlank) := by
  refine (formed_of_parse h).all_deep fun s hs => ?_
  cases s with
  | blank => cases hs
  | _ => rfl

/-- The comments of a source are those of its module, each where it was written. -/
theorem walk_comments_of_parse {tokens : List Token} (ht : Token.scan source = .ok tokens)
    (hm : Module.parse source = .ok m) :
    m.walk.filterMap Node.comment? = tokens.filterMap Token.comment? := by
  obtain ⟨tokens', ht', hm'⟩ := parse_eq_ok hm
  obtain rfl : tokens = tokens' := Except.ok.inj (ht.symm.trans ht')
  have hkept := Grammar.kept_wholeModule (Token.scan_closed ht) hm'
  rw [show tokens.filterMap Token.comment? = _ from hkept.comments, ← Walk.comments_stmts]
  rfl

def remarked : String :=
  "@d  # a\n# b\ndef f():\n    try:\n        x = [  # c\n        1]\n    # d\n    finally: pass\n"

theorem walk_comments_of_parse_remarked : ∃ tokens m,
    Token.scan remarked = .ok tokens ∧ Module.parse remarked = .ok m ∧
      m.walk.filterMap Node.comment? = tokens.filterMap Token.comment? ∧
      tokens.filterMap Token.comment? =
        [⟨"# a", true, 1⟩, ⟨"# b", false, 2⟩, ⟨"# c", false, 5⟩, ⟨"# d", false, 7⟩] := by
  have h : (Module.parse remarked).toOption.any fun m => m.walk.filterMap Node.comment? ==
      [⟨"# a", true, 1⟩, ⟨"# b", false, 2⟩, ⟨"# c", false, 5⟩, ⟨"# d", false, 7⟩] := by
    decide +kernel
  obtain ⟨m, hm, h⟩ := parse_of_any h
  obtain ⟨tokens, ht, -⟩ := parse_eq_ok hm
  have hcomments := walk_comments_of_parse ht hm
  exact ⟨tokens, m, ht, hm, hcomments, hcomments.symm.trans (eq_of_beq h)⟩

/-- A module that a text is read as is formed, and so is what erasure and setters make of it. -/
theorem isFormed_of_parse :
    (∀ source m, Module.parse source = .ok m → m.IsFormed) ∧
      ∀ (m : Module) (setters : List (String × String)),
        (∀ setter ∈ setters, isIdentifier setter.2) → m.IsFormed →
          (m.erase.fixSetters setters).IsFormed := by
  constructor
  · intro source m hm
    exact formed_of_parse hm
  · intro m setters hs hm
    exact hm.erase.fixSetters hs

theorem isFormed_of_parse_autocommit : ∃ m,
    Module.parse "async def f(c):\n    await c.set_autocommit(True)\n" = .ok m ∧ m.IsFormed ∧
      (m.erase.fixSetters Convention.standard.setters).IsFormed := by
  have h : (Module.parse "async def f(c):\n    await c.set_autocommit(True)\n").toOption.any
      fun _ => true := by decide +kernel
  obtain ⟨m, hm, -⟩ := parse_of_any h
  have hformed := isFormed_of_parse.1 _ m hm
  exact ⟨m, hm, hformed, isFormed_of_parse.2 m _ (by decide +kernel) hformed⟩

end Module

end AsyncErasure
