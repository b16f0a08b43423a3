import AsyncErasure.Proofs.Grammar.Nesting
import Mathlib.Data.List.TakeWhile

namespace AsyncErasure.Grammar

open Cursor Rule

variable {edge : Edge} {extra : List Token} {c : Cursor}

section Look

variable {α : Type} {G : α → Prop} {f g : Bool → Rule α}

theorem atLineEnd_agrees (h : ∀ b, Agrees edge G (f b) (g b) c) :
    Agrees edge G (atLineEnd >>= f) (atLineEnd >>= g) c := by
  refine .look (fun _ => ?_) fun b _ => h b
  cases hl : c.next.lexeme with
  | comment text inline => cases inline <;> simp [atLineEnd, hl]
  | _ => simp [atLineEnd, hl]

theorem atSimpleEnd_agrees (h : ∀ b, Agrees edge G (f b) (g b) c) :
    Agrees edge G (atSimpleEnd >>= f) (atSimpleEnd >>= g) c := by
  refine .look (fun _ => ?_) fun b _ => h b
  cases hl : c.next.lexeme with
  | comment text inline => cases inline <;> simp [atSimpleEnd, atLineEnd, hl]
  | symbol s => cases s <;> simp [atSimpleEnd, atLineEnd, hl]
  | _ => simp [atSimpleEnd, atLineEnd, hl]

theorem augmentedOp_agrees {f g : Option BinOp → Rule α}
    (hnone : Agrees edge G (f none) (g none) c)
    (hsome : ∀ op, edge.stop c.next.lexeme = false → Agrees edge G (f (some op)) (g (some op)) c) :
    Agrees edge G (augmentedOp >>= f) (augmentedOp >>= g) c := by
  refine .look (fun _ => ?_) fun o ho => ?_
  · cases hl : c.next.lexeme <;> simp [augmentedOp, hl]
  · cases o with
    | none => exact hnone
    | some op =>
      refine hsome op ?_
      cases hl : c.next.lexeme with
      | symbol s => simp
      | _ => simp [augmentedOp, hl] at ho

end Look

theorem newline_agrees : Stays (.closing extra) newline newline c := by
  refine .peek fun l hl => ?_
  cases l with
  | newline written => exact (Agrees.advanced (by simp [hl])).stays
  | endMarker => exact .done
  | _ => exact .fail _

theorem commentIf_agrees (wanted : Bool → Bool) :
    Rounds edge (commentIf wanted) (commentIf wanted) c := by
  refine .get ?_
  dsimp only [next_before]
  split
  · rename_i text inline hl
    exact .ite (fun _ => .advance (by simp [hl]) fun _ => .done) fun _ => .nothing
  · exact .nothing

theorem comment_agrees : Rounds edge comment comment c := commentIf_agrees _

theorem comment_advances {text : String} {inline : Bool}
    (hl : c.next.lexeme = .comment text inline) :
    Advances edge comment comment c := by
  refine .get ?_
  dsimp only [next_before]
  rw [hl]
  exact .advance (by simp [hl]) fun _ => .done

theorem comments_agree : Stays edge (many comment) (many comment) c :=
  .many fun _ _ => comment_agrees

theorem inlineComment_agrees : Stays edge inlineComment inlineComment c :=
  .next (commentIf_agrees id) fun _ _ _ => .done

/-- The end marker is no comment, so what comes behind the comments is in front of it or is it. -/
theorem commentsBefore_agrees (words : List Keyword) :
    Stays (.closing extra) (commentsBefore words) (commentsBefore words) c := by
  refine .scanned fun hs => .get ?_
  rw [Edge.extra_closing]
  have hhead : (((c.before extra).next :: (c.before extra).later).dropWhile
      (·.lexeme.isComment)).head? =
      ((c.next :: c.later).dropWhile (·.lexeme.isComment)).head? := by
    obtain ⟨inner, stop, htokens, hstop, -⟩ := hs
    have hin : ∃ t ∈ c.tokens, !t.lexeme.isComment :=
      ⟨stop, by simp [htokens], by rw [eq_of_beq hstop]; rfl⟩
    obtain ⟨t, ht⟩ := Option.isSome_iff_exists.1 (List.find?_isSome.2 hin)
    have hfind : (c.tokens ++ extra).find? (fun t => !t.lexeme.isComment) = some t := by
      rw [List.find?_append, ht]
      rfl
    rw [← List.find?_not_eq_head?_dropWhile, ← List.find?_not_eq_head?_dropWhile]
    exact hfind.trans ht.symm
  rw [hhead]
  split
  · exact .ite (fun _ => comments_agree) fun _ => .done
  · exact .done

theorem dottedName_agrees : Advances edge dottedName dottedName c := by
  refine .bind .identifier fun first c' _ => ?_
  exact .next (.many fun d _ => .after (by simp) fun _ => .identifier) fun _ _ _ => .done

theorem aliased_agrees {path : Rule String} (hp : Advances edge path path c) :
    Advances edge (aliased path) (aliased path) c :=
  .bind hp fun _ _ _ => .next (.after (by simp) fun _ => .identifier) fun _ _ _ => .done

theorem commaSeparated_agrees {α : Type} {item : Rule α}
    (hitem : ∀ c', c'.size ≤ c.size → Advances edge item item c') :
    Advances edge (commaSeparated item) (commaSeparated item) c := by
  refine .bind (hitem c (Nat.le_refl _)) fun first c' hlt => ?_
  exact .next (.listTail fun d hd => hitem d (by omega)) fun _ _ _ => .done

theorem dots_agrees : Rounds edge dots dots c := by
  refine .peek fun l hl => ?_
  cases l with
  | symbol s =>
    cases s with
    | dot | ellipsis => exact .advance (by simp [hl]) fun _ => .done
    | _ => exact .nothing
  | _ => exact .nothing

theorem importedNames_agrees : Advances edge importedNames importedNames c := by
  refine .accept (by simp) (fun _ _ => .done) fun _ => .accept (by simp) (fun _ hlt => ?_)
    fun _ => ?_
  · refine .next (.listUpTo fun d _ => aliased_agrees .identifier) fun names c' _ => ?_
    exact .expect (by simp) fun _ _ => .done
  · exact commaSeparated_agrees fun d _ => aliased_agrees .identifier

theorem importFrom_agrees (start : Place) (hne : edge.stop c.next.lexeme = false) :
    Advances edge (importFrom start) (importFrom start) c := by
  refine .advance hne fun hlt => .next (.many fun _ _ => dots_agrees) fun levels d _ => ?_
  refine .sees (fun _ => .known ?_) fun _ => .next dottedName_agrees.given fun path e _ => ?_
  all_goals
    refine .ite (fun _ => .fail _) fun _ => .expect (by simp) fun _ _ => ?_
    exact .next importedNames_agrees fun _ _ _ => .ite (fun _ => .fail _) fun _ => .spanned

theorem starOr_expr_agrees (level : Level) :
    Advances edge (starOr expr level) (starOr expr level) c :=
  starOr_below (agreeBelow_expr _) level (Nat.lt_succ_self _)

/-- What may follow a separator. -/
theorem after_expr_agrees {l : Lexeme} (hl : edge.stop l = false) (level : Level) :
    Rounds edge (after l (expr level)) (after l (expr level)) c :=
  .after hl fun _ => expr_agrees level _

theorem expressionStatement_agrees (start : Place) :
    Advances edge (expressionStatement start) (expressionStatement start) c := by
  refine .look (fun _ => ⟨_, rfl, rfl⟩) fun bracketed _ => .bind (expr_agrees _ c)
    fun first c' _ => ?_
  refine .accept (by simp) (fun _ _ => ?_) fun _ => augmentedOp_agrees ?_ fun op hne => ?_
  · refine .next (expr_agrees _ _) fun hint d _ => ?_
    exact .next (after_expr_agrees (by simp) _) fun _ _ _ => .spanned
  · refine .next (.many fun d _ => after_expr_agrees (by simp) _) fun rest d _ => ?_
    cases rest.getLast? <;> exact .spanned
  · exact .advance hne fun _ => .next (expr_agrees _ _) fun _ _ _ => .spanned

theorem simpleStatement_agrees : Advances edge simpleStatement simpleStatement c := by
  refine .place fun start => .peek fun l hl => ?_
  cases l with
  | keyword k =>
    have hne : edge.stop c.next.lexeme = false := by simp [hl]
    cases k with
    | pass_ | break_ | continue_ => exact .advance hne fun _ => .spanned
    | return_ =>
      refine .advance hne fun _ => atSimpleEnd_agrees fun ends => .ite (fun _ => .known .spanned)
        fun _ => ?_
      exact .next (expr_agrees _ _).given fun _ _ _ => .spanned
    | raise_ =>
      refine .advance hne fun _ => atSimpleEnd_agrees fun ends => .ite (fun _ => .spanned)
        fun _ => ?_
      refine .next (expr_agrees _ _) fun exc d _ => ?_
      exact .next (after_expr_agrees (by simp) _) fun _ _ _ => .spanned
    | assert_ =>
      refine .advance hne fun _ => .next (expr_agrees _ _) fun test d _ => ?_
      exact .next (after_expr_agrees (by simp) _) fun _ _ _ => .spanned
    | del_ =>
      refine .advance hne fun _ => .next (starOr_expr_agrees _) fun first d _ => ?_
      refine .next (.many fun e _ => ?_) fun _ _ _ => .spanned
      refine .accept (by simp) (fun _ _ => atSimpleEnd_agrees fun ends => ?_) fun _ => .nothing
      exact .ite (fun _ => .done) fun _ => .next (starOr_expr_agrees _) fun _ _ _ => .done
    | global_ | nonlocal_ =>
      refine .advance hne fun _ => ?_
      exact .next (commaSeparated_agrees fun _ _ => .identifier) fun _ _ _ => .spanned
    | import_ =>
      refine .advance hne fun _ => ?_
      exact .next (commaSeparated_agrees fun _ _ => aliased_agrees dottedName_agrees)
        fun _ _ _ => .spanned
    | from_ => exact importFrom_agrees start hne
    | _ => exact expressionStatement_agrees start
  | _ => exact expressionStatement_agrees start

def nextSimple : Rule (Option Stmt) := do
  if ← accept Symbol.semicolon then
    if ← atLineEnd then return none else return some (← simpleStatement)
  else return none

theorem nextSimple_agrees : Rounds edge nextSimple nextSimple c := by
  refine .accept (by simp) (fun _ _ => atLineEnd_agrees fun ends => ?_) fun _ => .nothing
  exact .ite (fun _ => .done) fun _ => .next simpleStatement_agrees fun _ _ _ => .done

theorem simpleLine_agrees : Advances (.closing extra) simpleLine simpleLine c :=
  .bind simpleStatement_agrees fun _ _ _ => .next (.many fun _ _ => nextSimple_agrees) fun _ _ _ =>
    .next inlineComment_agrees fun _ _ _ => .next newline_agrees fun _ _ _ => .done

theorem withItem_agrees : Advances edge withItem withItem c := by
  refine .bind (expr_agrees _ c) fun context c' _ => ?_
  exact .next (.after (by simp) fun _ => starOr_expr_agrees _) fun _ _ _ => .done

theorem withItems_agree : Advances edge withItems withItems c := by
  have hplain : Advances edge (commaSeparated withItem) (commaSeparated withItem) c :=
    commaSeparated_agrees fun _ _ => withItem_agrees
  refine .sees (fun _ => .orElse ?_ hplain) fun _ => hplain
  refine .expect (by simp) fun _ _ => .next (.listUpTo fun _ _ => withItem_agrees)
    fun items d _ => ?_
  refine .expect (by simp) fun _ _ => .look (fun _ => ⟨_, rfl, rfl⟩) fun colon _ => ?_
  exact .ite (fun _ => .fail _) fun _ => .done

section

variable {self self' : Rule (List Stmt)} {k : Nat}
  (hself : ∀ d : Cursor, d.size < k → Advances (.closing extra) self self' d)
include hself

theorem unit_agrees (closed : Lexeme → Bool) (hc : c.size < k) :
    Rounds (.closing extra) (unit self closed) (unit self' closed) c := by
  refine .peek fun l hl => .ite (fun _ => .nothing) fun _ => ?_
  cases l with
  | newline written => exact .advance (by simp [hl]) fun _ => .done
  | _ => exact .bind (hself c hc) fun _ _ _ => .done

theorem statementsUpTo_agree (closed : Lexeme → Bool) (hc : c.size < k) :
    Stays (.closing extra) (statementsUpTo self closed) (statementsUpTo self' closed) c :=
  .map (.many fun d hd => unit_agrees hself closed (by omega)) fun _ => False.elim

theorem block_agrees (hc : c.size < k) : Stays (.closing extra) (block self) (block self') c := by
  refine atLineEnd_agrees fun ends => .ite (fun _ => ?_) fun _ => simpleLine_agrees.stays
  refine .next inlineComment_agrees fun trailing d hd => .next newline_agrees fun _ e he => ?_
  refine .next comments_agree fun comments i hi => .peek fun l hl => .ite (fun hindent => ?_)
    fun _ => .fail _
  refine .advance (by simp [hl, eq_of_beq hindent]) fun hlt => ?_
  refine .next (statementsUpTo_agree hself _ (by omega)) fun body j _ => ?_
  exact .next (G := fun _ => False) (.map (.accepted (by simp)) fun _ => id) fun _ _ _ => .done

theorem colonBlock_agrees (hc : c.size < k) :
    Advances (.closing extra) (colonBlock self) (colonBlock self') c :=
  .expect (by simp) fun _ _ => block_agrees hself (by omega)

theorem blockBefore_agrees (words : List Keyword) (hc : c.size < k) :
    Advances (.closing extra) (blockBefore self words) (blockBefore self' words) c :=
  .bind (colonBlock_agrees hself hc) fun _ _ _ => .next (commentsBefore_agrees words)
    fun _ _ _ => .done

theorem clauseBlock_agrees (word : Keyword) (hc : c.size < k) :
    Stays (.closing extra) (clauseBlock self word) (clauseBlock self' word) c :=
  .next (.after (by simp) fun _ => colonBlock_agrees hself (by omega)) fun _ _ _ => .done

theorem functionDef_agrees (start : Place) (mode : Mode) (decorators : List Expr)
    (hc : c.size ≤ k) :
    Advances (.closing extra) (functionDef self start mode decorators)
      (functionDef self' start mode decorators) c := by
  refine .expect (by simp) fun _ _ => .name fun id _ => .expect (by simp) fun _ _ => ?_
  refine .next (parameters_agrees (agreeBelow_expr _) _ _ (Nat.le_refl _)) fun params d _ => ?_
  refine .expect (by simp) fun _ _ => .next (after_expr_agrees (by simp) _) fun returns e _ => ?_
  exact .next (colonBlock_agrees hself (by omega)) fun _ _ _ => .spanned

theorem classDef_agrees (start : Place) (decorators : List Expr) (hc : c.size ≤ k) :
    Advances (.closing extra) (classDef self start decorators)
      (classDef self' start decorators) c := by
  refine .expect (by simp) fun _ _ => .name fun id _ => .accept (by simp) (fun _ _ => ?_)
    fun _ => ?_
  · refine .next (callArguments_agree (agreeBelow_expr _) (Nat.lt_succ_self _))
      fun arguments d _ => ?_
    refine .expect (by simp) fun _ _ => .known ?_
    exact .next (colonBlock_agrees hself (by omega)) fun _ _ _ => .spanned
  · exact .known (.next (colonBlock_agrees hself (by omega)) fun _ _ _ => .spanned)

def branchWith (self : Rule (List Stmt)) (nested : Rule Stmt) : Rule Stmt := do
  let start ← place
  advance
  let test ← expr .named
  let body ← blockBefore self [.elif_, .else_]
  let orelse ← if ← sees Keyword.elif_ then List.singleton <$> nested else clauseBlock self .else_
  return .branch (← spanFrom start) test body orelse

omit hself in
theorem branch_succ (n : Nat) : branch self (n + 1) = branchWith self (branch self n) := rfl

theorem branchWith_agrees {nested nested' : Rule Stmt} (hne : c.next.lexeme ≠ .endMarker)
    (hc : c.size ≤ k)
    (hnested : ∀ d : Cursor, d.size < c.size → d.next.lexeme ≠ .endMarker →
      Advances (.closing extra) nested nested' d) :
    Advances (.closing extra) (branchWith self nested) (branchWith self' nested') c := by
  refine .place fun start => .advance (by simpa using hne) fun hlt => .next (expr_agrees _ _)
    fun test d _ => ?_
  refine .next (blockBefore_agrees hself _ (by omega)) fun body e _ => .sees (fun helif => ?_)
    fun _ => ?_
  · have hnested := hnested e (by omega) (by simp [helif])
    exact .next (G := fun _ => True) (.map hnested fun _ => id) fun _ _ _ => .spanned
  · exact .next (clauseBlock_agrees hself _ (by omega)) fun _ _ _ => .spanned

/-- Every branch of a chain takes its keyword. -/
theorem branch_agrees {n m : Nat} (hne : c.next.lexeme ≠ .endMarker) (hc : c.size ≤ k)
    (hn : c.size ≤ n) (hm : c.size ≤ m) :
    Advances (.closing extra) (branch self n) (branch self' m) c := by
  induction n generalizing c m with
  | zero => exact absurd c.one_le_size (by omega)
  | succ n ih =>
    obtain ⟨m, rfl⟩ := Nat.exists_eq_add_of_le' (c.one_le_size.trans hm)
    rw [branch_succ, branch_succ]
    exact branchWith_agrees hself hne hc fun d hd hne => ih hne (by omega) (by omega) (by omega)

theorem whileLoop_agrees (start : Place) (hc : c.size ≤ k) :
    Advances (.closing extra) (whileLoop self start) (whileLoop self' start) c := by
  refine .expect (by simp) fun _ _ => .next (expr_agrees _ _) fun test d _ => ?_
  refine .next (blockBefore_agrees hself _ (by omega)) fun body e _ => ?_
  exact .next (clauseBlock_agrees hself _ (by omega)) fun _ _ _ => .spanned

theorem forLoop_agrees (start : Place) (mode : Mode) (hc : c.size ≤ k) :
    Advances (.closing extra) (forLoop self start mode) (forLoop self' start mode) c := by
  refine .expect (by simp) fun _ _ => ?_
  refine .next (targetList_agrees (agreeBelow_expr _) (Nat.lt_succ_self _)) fun target d _ => ?_
  refine .expect (by simp) fun _ _ => .next (expr_agrees _ _) fun iter e _ => ?_
  refine .next (blockBefore_agrees hself _ (by omega)) fun body i _ => ?_
  exact .next (clauseBlock_agrees hself _ (by omega)) fun _ _ _ => .spanned

theorem withBlock_agrees (start : Place) (mode : Mode) (hc : c.size ≤ k) :
    Advances (.closing extra) (withBlock self start mode) (withBlock self' start mode) c := by
  refine .expect (by simp) fun _ _ => .next withItems_agree fun items d _ => ?_
  exact .next (colonBlock_agrees hself (by omega)) fun _ _ _ => .spanned

theorem handler_agrees (hc : c.size ≤ k) :
    Advances (.closing extra) (handler self) (handler self') c := by
  refine .expect (by simp) fun _ _ => .next (.accepted (by simp)) fun star d _ => ?_
  refine .sees (fun _ => .known ?_) fun _ => .next (expr_agrees _ _) fun type e _ => ?_
  · exact .next (blockBefore_agrees hself _ (by omega)) fun _ _ _ => .done
  · refine .next (.after (by simp) fun _ => .identifier) fun name i _ => .known ?_
    exact .next (blockBefore_agrees hself _ (by omega)) fun _ _ _ => .done

def nextHandler (self : Rule (List Stmt)) : Rule (Option (Bool × Handler)) := do
  if ← sees Keyword.except_ then return some (← handler self) else return none

theorem nextHandler_agrees (hc : c.size ≤ k) :
    Rounds (.closing extra) (nextHandler self) (nextHandler self') c :=
  .sees (fun _ => .bind (handler_agrees hself hc) fun _ _ _ => .done) fun _ => .nothing

theorem tryBlock_agrees (start : Place) (hc : c.size ≤ k) :
    Advances (.closing extra) (tryBlock self start) (tryBlock self' start) c := by
  refine .expect (by simp) fun _ _ => .next (blockBefore_agrees hself _ (by omega))
    fun body d _ => ?_
  refine .next (.many fun e _ => nextHandler_agrees hself (by omega)) fun handlers e _ => ?_
  refine .next (clauseBlock_agrees hself _ (by omega)) fun orelse i _ => ?_
  refine .next (commentsBefore_agrees _) fun comments j _ => ?_
  refine .next (clauseBlock_agrees hself _ (by omega)) fun final l _ => ?_
  exact .ite (fun _ => .fail _) fun _ => .spanned

theorem asyncStatement_agrees (start : Place) (decorators : List Expr) (hc : c.size ≤ k) :
    Advances (.closing extra) (asyncStatement self start decorators)
      (asyncStatement self' start decorators) c := by
  refine .expect (by simp) fun _ _ => .peek fun l hl => ?_
  cases l with
  | keyword word =>
    cases word with
    | def_ => exact (functionDef_agrees hself start _ _ (by omega)).stays
    | for_ => exact .ite (fun _ => (forLoop_agrees hself start _ (by omega)).stays) fun _ => .fail _
    | with_ =>
      exact .ite (fun _ => (withBlock_agrees hself start _ (by omega)).stays) fun _ => .fail _
    | _ => exact .fail _
  | _ => exact .fail _

omit hself in
theorem decorator_agrees : Rounds (.closing extra) decorator decorator c := by
  refine .accept (by simp) (fun _ _ => ?_) fun _ => .nothing
  refine .next (expr_agrees _ _) fun value d _ => .next inlineComment_agrees fun trailing e _ => ?_
  exact .next newline_agrees fun _ _ _ => .next comments_agree fun _ _ _ => .done

theorem decorated_agrees (hc : c.size ≤ k) :
    Advances (.closing extra) (decorated self) (decorated self') c := by
  refine .place fun start => .next (.many fun _ _ => decorator_agrees) fun lines d hd => ?_
  refine .peek fun l hl => ?_
  cases l with
  | keyword word =>
    cases word with
    | def_ => exact .bind (functionDef_agrees hself start _ _ (by omega)) fun _ _ _ => .done
    | class_ => exact .bind (classDef_agrees hself start _ (by omega)) fun _ _ _ => .done
    | async_ => exact .bind (asyncStatement_agrees hself start _ (by omega)) fun _ _ _ => .done
    | _ => exact .fail _
  | _ => exact .fail _

theorem statement_agrees (hc : c.size ≤ k) :
    Advances (.closing extra) (statement self) (statement self') c := by
  refine .place fun start => .peek fun l hl => ?_
  cases l with
  | comment text inline => exact .bind (comment_advances hl) fun _ _ _ => .done
  | indent => exact .fail _
  | symbol s =>
    cases s with
    | atSign => exact decorated_agrees hself hc
    | _ => exact simpleLine_agrees
  | keyword word =>
    cases word with
    | def_ => exact .map (functionDef_agrees hself start _ _ hc) fun _ => id
    | class_ => exact .map (classDef_agrees hself start _ hc) fun _ => id
    | if_ =>
      have hbranch := branch_agrees hself (by simp [hl]) hc (Nat.le_refl _) (c.size_le_before extra)
      exact .map (hbranch.congr rfl rfl) fun _ => id
    | while_ => exact .map (whileLoop_agrees hself start hc) fun _ => id
    | for_ => exact .map (forLoop_agrees hself start _ hc) fun _ => id
    | try_ => exact .map (tryBlock_agrees hself start hc) fun _ => id
    | with_ => exact .map (withBlock_agrees hself start _ hc) fun _ => id
    | async_ => exact .map (asyncStatement_agrees hself start _ hc) fun _ => id
    | _ => exact simpleLine_agrees
  | _ => exact simpleLine_agrees

end

def nestStatements (lost : Rule (List Stmt)) : Nat → Rule (List Stmt)
  | 0 => lost
  | depth + 1 => statement (nestStatements lost depth)

theorem parseStatements_eq_nestStatements (depth : Nat) :
    parseStatements depth = nestStatements (fail .invalid) depth := by
  induction depth with
  | zero => rfl
  | succ depth ih => exact congrArg statement ih

/-- A statement takes a token before it asks for one inside it. -/
theorem nestStatements_agree {lost lost' : Rule (List Stmt)} {n m : Nat} (hn : c.size ≤ n)
    (hm : c.size ≤ m) : Advances (.closing extra) (nestStatements lost n)
    (nestStatements lost' m) c := by
  induction n generalizing m c with
  | zero => exact absurd c.one_le_size (by omega)
  | succ n ih =>
    obtain ⟨m, rfl⟩ := Nat.exists_eq_add_of_le' (c.one_le_size.trans hm)
    exact statement_agrees (fun d hd => ih (by omega) (by omega)) (Nat.le_refl c.size)

theorem parseStatements_agrees (depth : Nat) :
    Advances (.closing extra) (parseStatements depth) (parseStatements depth) c := by
  induction depth generalizing c with
  | zero => exact .fail _
  | succ depth ih => exact statement_agrees (fun d _ => ih) (Nat.le_refl c.size)

/-- The knot is tied: the rule of a statement is made from itself. -/
theorem statement_parseStatements (hs : c.Scanned) {depth : Nat} (hd : c.size ≤ depth) :
    statement (parseStatements depth) c = parseStatements depth c := by
  have hnext : Advances (.closing []) (nestStatements (fail .invalid) depth)
      (nestStatements (fail .invalid) (depth + 1)) c := nestStatements_agree hd (by omega)
  rw [← parseStatements_eq_nestStatements, ← parseStatements_eq_nestStatements] at hnext
  exact hnext.eq hs

end AsyncErasure.Grammar
