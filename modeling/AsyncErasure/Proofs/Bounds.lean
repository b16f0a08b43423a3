import AsyncErasure.Proofs.Grammar.Progress
import AsyncErasure.Proofs.Source

namespace AsyncErasure.Grammar

open Cursor Rule

variable {α : Type} {c : Cursor}

/-- The rule takes a token if it succeeds at the cursor, and if it fails, it does so at a token. -/
def Consumes (p : Rule α) (c : Cursor) : Prop :=
  (∀ a c', p c = .ok (a, c') → ∃ read, c.Moves read c' ∧ read ≠ []) ∧
    ∀ e, p c = .error e → c.Faults e

/-- A round of a loop takes a token, leaves the loop or fails at a token, and more rounds than there
are tokens left come to the same. -/
def Loops (p : Rule (Option α)) (c : Cursor) : Prop :=
  (∀ o c', p c = .ok (o, c') → ∃ read, c.Moves read c' ∧ (o.isSome → read ≠ [])) ∧
    (∀ e, p c = .error e → c.Faults e) ∧ ∀ n, c.size ≤ n → takeItems p n c = many p c

/-- An item of a list takes a token or fails at one, and more items than there are tokens left come
to the same. -/
def Itemizes (closed : Lexeme → Bool) (item : Rule α) (c : Cursor) : Prop :=
  Consumes item c ∧ ∀ n, c.size ≤ n → listUpTo.go closed item n c = listUpTo closed item c

inductive ReadsExpr : Rule Expr → Prop
  | level (level : Level) : ReadsExpr (expr level)
  | starred (level : Level) : ReadsExpr (starOr expr level)
  | targets : ReadsExpr (targetList expr)
  | yielded : ReadsExpr (yieldExpression expr)
  | lambda : ReadsExpr (lambda expr)
  | atom : ReadsExpr (atom expr)
  | parenthesized : ReadsExpr (parenthesized expr)
  | listDisplay : ReadsExpr (listDisplay expr)
  | braceDisplay : ReadsExpr (braceDisplay expr)
  | slice : ReadsExpr (sliceItem expr)
  | slices : ReadsExpr (slices expr)

structure Progresses (tokens : List Token) (c : Cursor) : Prop where
  /-- The cursor stands at an index of the tokens. -/
  index : ∃ i, tokens[i]? = some c.next ∧ tokens.drop (i + 1) = c.later
  /-- It does not go past the end marker. -/
  advance : c.next.lexeme = .endMarker ∧ c.later = [] ∧ c.advance = c ∨
    c.next.lexeme ≠ .endMarker ∧ c.Moves [c.next] c.advance
  statement : ∀ depth, Consumes (parseStatements depth) c
  expression : ∀ p, ReadsExpr p → Consumes p c
  withItem : Consumes withItem c
  param : ∀ annotated, Consumes (param expr annotated) c
  importAlias : Consumes (aliased name) c ∧ Consumes (aliased dottedName) c
  /-- The loops of a module and of a block. -/
  statements : ∀ depth closed, Loops (unit (parseStatements depth) closed) c
  arguments : Itemizes (closes .round) (callArgument expr) c
  parameters : ∀ (close : Symbol) annotated,
    Itemizes (· == close) (paramItem expr close annotated) c
  dictItems : Itemizes (closes .curly) (dictItem expr) c
  clauses : Loops (clauseItem expr) c
  /-- The items of a with statement, in brackets and without. -/
  withItems : Itemizes (closes .round) Grammar.withItem c ∧
    Loops (tailItem (fun _ => false) Grammar.withItem) c
  /-- The rules of expressions are made from themselves, and beyond a depth in proportion to the
  tokens left it does not matter what the rules are. -/
  exprDepth : (∀ level, parseLevel expr level c = expr level c) ∧
    ∀ lost n level, 18 * c.size ≤ n + level.rank → nestAt lost n level c = expr level c
  /-- The rule of statements is made from itself, and beyond the tokens left it does not matter what
  the rule is. -/
  statementDepth : ∀ n, c.size ≤ n → Grammar.statement (parseStatements n) c = parseStatements n c ∧
    ∀ lost, nestStatements lost n c = parseStatements c.size c
  /-- A chain of branches is no longer than the tokens left. -/
  branchDepth : c.next.lexeme ≠ .endMarker → ∀ depth n, c.size ≤ n →
    branch (parseStatements depth) n c = branch (parseStatements depth) c.size c

section Agree

variable {extra : List Token} {p q : Rule α}

theorem Consumes.of_agrees (h : Advances (.closing extra) p q c) (hs : c.Scanned) :
    Consumes p c := by
  obtain ⟨-, hread, hfault⟩ := h hs.upTo
  refine ⟨fun a c' ha => ?_, hfault⟩
  obtain ⟨read, hm, hne⟩ := hread a c' ha
  exact ⟨read, hm, hne trivial⟩

theorem Loops.of_agrees {p : Rule (Option α)} (h : ∀ d, Rounds (.closing []) p p d)
    (hs : c.Scanned) : Loops p c := by
  obtain ⟨-, hread, hfault⟩ := h c hs.upTo
  exact ⟨hread, hfault, fun _ hn => (Agrees.takeItems (fun d _ => h d) (Nat.le_refl _) hn).eq hs⟩

theorem Itemizes.of_agrees {closed : Lexeme → Bool} (h : ∀ d, Advances (.closing []) p p d)
    (hs : c.Scanned) :
    Itemizes closed p c :=
  ⟨.of_agrees (h c) hs, fun _ hn => (Agrees.listGo (fun d _ => h d) (Nat.le_refl _) hn).eq hs⟩

end Agree

theorem consumes_of_readsExpr (hs : c.Scanned) {p : Rule Expr} (hp : ReadsExpr p) :
    Consumes p c := by
  have hself {k : Nat} : AgreeBelow (.closing []) expr expr k := agreeBelow_expr k
  have hlt : c.size < c.size + 1 := Nat.lt_succ_self _
  have hle : c.size ≤ c.size := Nat.le_refl _
  suffices hagrees : Advances (.closing []) p p c from .of_agrees hagrees hs
  cases hp with
  | level level => exact expr_agrees level c
  | starred level => exact starOr_below hself level hlt
  | targets => exact targetList_agrees hself hlt
  | yielded => exact yieldExpression_agrees hself hle
  | lambda => exact lambda_agrees hself hle
  | atom => exact atom_agrees hself hle
  | parenthesized => exact parenthesized_agrees hself hle
  | listDisplay => exact listDisplay_agrees hself hle
  | braceDisplay => exact braceDisplay_agrees hself hle
  | slice => exact sliceItem_agrees hself hlt
  | slices => exact slices_agree hself hlt

/-- A cursor on the tokens of a text goes on to the next one, up to the end marker. -/
theorem Cursor.Scanned.advance_or (hs : c.Scanned) :
    c.next.lexeme = .endMarker ∧ c.later = [] ∧ c.advance = c ∨
      c.next.lexeme ≠ .endMarker ∧ c.Moves [c.next] c.advance := by
  by_cases hend : c.next.lexeme = .endMarker
  · have hlater := hs.later_eq_nil hend
    refine .inl ⟨hend, hlater, ?_⟩
    obtain ⟨next, later, reached⟩ := c
    subst hlater
    simp only at hend
    simp [Cursor.advance, hend, Lexeme.isLayout]
  · exact .inr ⟨hend, hs.moves_advance hend⟩

theorem progresses_of_moves {start : Cursor} {read : List Token} (hs : start.Scanned)
    (hm : start.Moves read c) : Progresses start.tokens c := by
  have hc : c.Scanned := hs.rest hm
  have htokens : start.tokens = read ++ c.next :: c.later := hm.tokens_eq
  have hself {k : Nat} : AgreeBelow (.closing []) expr expr k := agreeBelow_expr k
  have hlt (d : Cursor) : d.size < d.size + 1 := Nat.lt_succ_self _
  have hle (d : Cursor) : d.size ≤ d.size := Nat.le_refl _
  have hstatement (depth : Nat) (d : Cursor) :
      Advances (.closing []) (parseStatements depth) (parseStatements depth) d :=
        parseStatements_agrees depth
  have hitem (d : Cursor) : Advances (.closing []) withItem withItem d := withItem_agrees
  have hpath : Advances (.closing []) dottedName dottedName c := dottedName_agrees
  have hname : Advances (.closing []) name name c := .identifier
  exact {
    index := ⟨read.length, by simp [htokens], by simp [htokens]⟩
    advance := hc.advance_or
    statement := fun depth => .of_agrees (hstatement depth c) hc
    expression := fun p hp => consumes_of_readsExpr hc hp
    withItem := .of_agrees (hitem c) hc
    param := fun annotated => .of_agrees (param_agrees hself annotated (hle c)) hc
    importAlias := ⟨.of_agrees (aliased_agrees hname) hc, .of_agrees (aliased_agrees hpath) hc⟩
    statements := fun depth closed =>
      .of_agrees (fun d => unit_agrees (fun e _ => hstatement depth e) closed (hlt d)) hc
    arguments := .of_agrees (fun d => callArgument_agrees hself (hlt d)) hc
    parameters := fun close annotated =>
      .of_agrees (fun d => paramItem_agrees hself close annotated (hle d)) hc
    dictItems := .of_agrees (fun d => dictItem_agrees hself (hlt d)) hc
    clauses := .of_agrees (fun d => clauseItem_agrees hself (hlt d)) hc
    withItems := ⟨.of_agrees hitem hc, .of_agrees (fun d => .tailItem fun _ => hitem _) hc⟩
    exprDepth := ⟨parseLevel_expr hc, fun _ _ _ hn => (expr_agrees_nestAt hn).eq hc⟩
    statementDepth := fun n hn => ⟨statement_parseStatements hc hn, fun lost => by
      rw [parseStatements_eq_nestStatements]
      exact (nestStatements_agree (hle c) hn).eq hc⟩
    branchDepth := fun hne depth n hn =>
      (branch_agrees (fun d _ => hstatement depth d) hne (hle c) (hle c) hn).eq hc
  }

def moduleOf (self : Rule (List Stmt)) : Rule Module :=
  Module.mk <$> statementsUpTo self (· == .endMarker)

/-- A module comes to the same under any greater depth, with any rule beyond it, and whatever is
behind the end marker. -/
theorem wholeModule_agrees {extra : List Token} {lost : Rule (List Stmt)} {n : Nat}
    (hn : c.size ≤ n) :
    Stays (.closing extra) wholeModule (moduleOf (nestStatements lost n)) c := by
  have hself (d : Cursor) (hd : d.size < c.size + 1) : Advances (.closing extra)
      (nestStatements (fail .invalid) c.size) (nestStatements lost n) d :=
    nestStatements_agree (by omega) (by omega)
  have hmodule : Stays (.closing extra) (moduleOf (nestStatements (fail .invalid) c.size))
      (moduleOf (nestStatements lost n)) c :=
    .map (statementsUpTo_agree hself _ (Nat.lt_succ_self _)) fun _ => id
  refine hmodule.congr ?_ rfl
  rw [← parseStatements_eq_nestStatements]
  rfl

theorem end_of_wholeModule {c' : Cursor} {m : Module} (hs : c.Scanned)
    (h : wholeModule c = .ok (m, c')) : c'.next.lexeme = .endMarker := by
  rw [wholeModule, map_eq_pure_bind] at h
  obtain ⟨body, d, hbody, hdone⟩ := eq_ok_of_bind h
  cases hdone
  exact eq_of_beq (closed_of_statementsUpTo (parseStatements_tells c.size) c hs hbody)

theorem moves_iterate {start : Cursor} (hs : start.Scanned) (n : Nat) :
    ∃ read, start.Moves read (Cursor.advance^[n] start) := by
  induction n generalizing start with
  | zero => exact ⟨[], .stay start⟩
  | succ n ih =>
    rw [Function.iterate_succ_apply]
    obtain ⟨-, -, hstay⟩ | ⟨-, hm⟩ := hs.advance_or
    · rw [hstay]
      exact ih hs
    · obtain ⟨read, hread⟩ := ih (hs.rest hm)
      exact ⟨_, hm.trans hread⟩

/-- The reader of modules on the tokens of a text. However often the cursor goes on, it stays on the
tokens, and wherever it stands on them, rules that succeed take a token. No bound on the depth, or on
the rounds of loops, that allows for the number of tokens makes a difference, nor does what comes
behind the end marker; where the module ends, the cursor stands on the end marker. -/
theorem wholeModule_progresses {source : String} {tokens : List Token}
    (h : Token.scan source = .ok tokens) :
    (∀ n, ∃ read, (Cursor.ofTokens tokens).Moves read (Cursor.advance^[n] (.ofTokens tokens))) ∧
    (∀ read c, (Cursor.ofTokens tokens).Moves read c → Progresses tokens c) ∧
    (∀ extra lost n, tokens.length ≤ n →
      moduleOf (nestStatements lost n) (.ofTokens (tokens ++ extra)) =
        (wholeModule (.ofTokens tokens)).map fun r => (r.1, r.2.before extra)) ∧
    (∀ e, wholeModule (.ofTokens tokens) = .error e → (Cursor.ofTokens tokens).Faults e) ∧
    ∀ m c, wholeModule (.ofTokens tokens) = .ok (m, c) →
      ∃ read, (Cursor.ofTokens tokens).Moves read c ∧ tokens = read ++ [c.next] ∧
        c.next.lexeme = .endMarker := by
  have hclosed := Token.scan_closed h
  have hne : tokens ≠ [] := by
    obtain ⟨inner, stop, rfl, -⟩ := hclosed
    simp
  have htokens := Cursor.tokens_ofTokens hne
  have hs : (Cursor.ofTokens tokens).Scanned := htokens ▸ hclosed
  have hsize : (Cursor.ofTokens tokens).size = tokens.length := congrArg List.length htokens
  have hbefore (extra : List Token) :
      Cursor.ofTokens (tokens ++ extra) = (Cursor.ofTokens tokens).before extra := by
    cases tokens with
    | nil => exact absurd rfl hne
    | cons t ts => rfl
  have hagrees : Stays (.closing []) wholeModule (moduleOf (nestStatements (fail .invalid) _))
      (.ofTokens tokens) :=
    wholeModule_agrees (Nat.le_refl _)
  obtain ⟨-, hread, hfault⟩ := hagrees hs.upTo
  refine ⟨moves_iterate hs, fun read c hm => htokens ▸ progresses_of_moves hs hm, ?_, hfault, ?_⟩
  · intro extra lost n hn
    rw [hbefore]
    exact (wholeModule_agrees (by omega) hs.upTo).1
  · intro m c hm
    obtain ⟨read, hmoves, -⟩ := hread m c hm
    have hend := end_of_wholeModule hs hm
    refine ⟨read, hmoves, ?_, hend⟩
    rw [← (hs.rest hmoves).later_eq_nil hend, ← Cursor.tokens, ← hmoves.tokens_eq, htokens]

/-- The first bracket is read as one around the items until the one behind it comes. -/
def retraced : String := "with (a, *b)[0] as c:\n    if d: e = {**f, g: [h(*i, j=k) for l in m]}"

theorem wholeModule_progresses_retraced : ∃ tokens m c, Token.scan retraced = .ok tokens ∧
    wholeModule (.ofTokens tokens) = .ok (m, c) ∧ c.next.lexeme = .endMarker ∧
    moduleOf (nestStatements (fail .invalid) 100) (.ofTokens (tokens ++ tokens)) =
      .ok (m, c.before tokens) ∧
    Progresses tokens (Cursor.advance^[4] (.ofTokens tokens)) := by
  have hscan : (Token.scan retraced).toOption.any fun tokens =>
      (wholeModule (.ofTokens tokens)).toOption.isSome && tokens.length == 45 := by
    decide +kernel
  obtain ⟨tokens, h, htokens⟩ := Token.scan_of_any hscan
  obtain ⟨hread, hlength⟩ := Bool.and_eq_true_iff.1 htokens
  obtain ⟨hsteps, hprogresses, hbounds, -, hends⟩ := wholeModule_progresses h
  obtain ⟨read, hmoves⟩ := hsteps 4
  cases hm : wholeModule (.ofTokens tokens) with
  | error e =>
    rw [hm] at hread
    cases hread
  | ok r =>
    obtain ⟨m, c⟩ := r
    obtain ⟨-, -, -, hend⟩ := hends m c hm
    have hlonger := hbounds tokens (fail .invalid) 100 (by rw [eq_of_beq hlength]; decide)
    rw [hm] at hlonger
    exact ⟨tokens, m, c, h, hm, hend, hlonger, hprogresses read _ hmoves⟩

end AsyncErasure.Grammar
