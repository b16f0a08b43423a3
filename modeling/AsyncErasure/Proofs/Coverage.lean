import AsyncErasure.Proofs.Grammar.Gathering
import AsyncErasure.Proofs.Source

namespace AsyncErasure

namespace Leaf

section Total

variable {α β : Type} (L M : α → Multiset Lexeme)

@[simp] theorem total_zero (as : List α) : total (fun _ => 0) as = 0 := by simp [total]

theorem total_map (f : β → α) (bs : List β) : total L (bs.map f) = total (fun b => L (f b)) bs := by
  simp [total, Function.comp_def]

theorem total_add (as : List α) : total (fun a => L a + M a) as = total L as + total M as := by
  induction as with
  | nil => rfl
  | cons a as ih =>
    simp only [total_cons, ih]
    abel

end Total

theorem names_flatMap {β : Type} (f : β → List String) (bs : List β) :
    names (bs.flatMap f) = total (fun b => names (f b)) bs := total_flatMap ..

end Leaf

namespace Grammar

open Rule Cursor Leaf

variable {α β : Type} {p : Rule α} {f : α → Rule β}

section Simple

theorem pathNames_intercalate {ids : List String} (hne : ids ≠ [])
    (h : ∀ id ∈ ids, isIdentifier id) : pathNames (".".intercalate ids) = ids := by
  rw [pathNames, Token.splitOn_intercalate hne h, List.map_map]
  simp [Function.comp_def]

theorem newline_gathers (c : Cursor) : Gathers 0 (fun _ => 0) newline c := by
  refine .peek ?_
  split
  · rename_i written hl
    exact bind_pure Rule.advance ▸ .advance (by rw [hl]; rfl) (.pure rfl)
  · exact .pure rfl
  · exact .fail _

theorem dottedName_gathers (c : Cursor) :
    Gathers 0 (fun path => names (pathNames path)) dottedName c := by
  refine .knowing .identifier .identifier fun first c hfirst => ?_
  have hdots (c : Cursor) : Obtains false (fun o => ∀ id ∈ o, isIdentifier id)
      (Rule.after Symbol.dot Rule.name) c := .after rfl fun c => .identifier
  refine .knowing (Obtains.many hdots c)
    (Gathers.many (fun c => .after rfl fun c => .identifier) c).alone fun rest c hrest => .pure ?_
  rw [pathNames_intercalate (List.cons_ne_nil _ _) (List.forall_mem_cons.2 ⟨hfirst, hrest⟩)]
  simp [names]

/-- A path with the name that it is known by. -/
theorem aliased_gathers {split : String → List String} {path : Rule String}
    (hpath : ∀ c, Gathers 0 (fun id => names (split id)) path c) (c : Cursor) :
    Gathers 0 (fun a => names (split a.name ++ a.asName.toList)) (aliased path) c := by
  refine (hpath c).bind fun id c => ?_
  refine (Gathers.after rfl fun c => .identifier).bind fun asName c => .pure ?_
  simp [names]

theorem commaSeparated_gathers {L : α → Multiset Lexeme} {item : Rule α}
    (hitem : ∀ c, Gathers 0 L item c) (c : Cursor) :
    Gathers 0 (total L) (commaSeparated item) c := by
  refine (hitem c).bind fun first c => (Gathers.listTail hitem c).bind fun rest c => .pure ?_
  simp

theorem dots_gathers (c : Cursor) : Gathers 0 (fun _ => 0) dots c := by
  refine .peek ?_
  split
  · rename_i hl
    exact .advance (by rw [hl]; rfl) (.pure rfl)
  · rename_i hl
    exact .advance (by rw [hl]; rfl) (.pure rfl)
  · exact .pure rfl

theorem importedNames_gathers (c : Cursor) :
    Gathers 0 (total fun a => names a.names) importedNames c := by
  have hname (c : Cursor) :
      Gathers 0 (fun id => names (if id = "*" then [] else [id])) Rule.name c := by
    refine bind_pure Rule.name ▸ .knowing .identifier .identifier fun id c hid => .pure ?_
    have hstar : id ≠ "*" := by
      rintro rfl
      exact absurd hid (by decide)
    simp [hstar, names]
  have hitem (c : Cursor) : Gathers 0 (fun a => names a.names) (aliased Rule.name) c :=
    aliased_gathers hname c
  refine .accept rfl (fun _ => .pure rfl) fun _ => .accept rfl (fun _ => ?_) fun _ => ?_
  · exact (Gathers.listUpTo hitem _).bind fun as c => .expect rfl fun _ _ => .pure (zero_add _)
  · exact commaSeparated_gathers hitem c

/-- A statement, with the leaves of its parts. -/
theorem Gathers.stmt {before : Multiset Lexeme} {start : Place} {make : Span → Stmt} {c : Cursor}
    (h : ∀ span, before = stmtParts (make span)) :
    Gathers before ofStmt (Rule.spanFrom start >>= fun span => Pure.pure (make span)) c :=
  .spanned fun span => (h span).trans (ofStmt_eq _).symm

theorem importFrom_gathers {c : Cursor} (start : Place) (hl : silent c.next.lexeme) :
    Gathers 0 ofStmt (importFrom start) c := by
  have hdots (c : Cursor) : Gathers 0 (fun o => total (fun _ => 0) o.toList) dots c :=
    (dots_gathers c).weaken fun o => (total_zero _).symm
  refine .advance hl ((Gathers.many hdots _).bind fun levels c => .sees ?_)
  refine (dottedName_gathers c).optional _ fun path c => ?_
  rw [total_zero, zero_add, zero_add]
  dsimp only
  split
  · exact .fail _
  · refine .expect rfl fun _ _ => (importedNames_gathers _).bind fun as c => ?_
    split
    · exact .fail _
    · exact .stmt fun _ => by rw [stmtParts, names_flatMap, names_flatMap]

theorem expressionStatement_gathers (start : Place) (c : Cursor) :
    Gathers 0 ofStmt (expressionStatement start) c := by
  refine .sees ((expr_gathers .yielded c).bind fun first c => .accept rfl (fun _ => ?_) fun _ => ?_)
  · refine (expr_gathers .test _).bind fun hint c => ?_
    refine (Gathers.after rfl fun c => expr_gathers .yielded c).bind fun value c => ?_
    refine .stmt fun _ => ?_
    rw [stmtParts, zero_add, add_assoc]
  refine .look (augmentedOp_looks c) fun op hop => ?_
  cases op with
  | some op =>
    refine .advance (silent_of_symbol (hop rfl)) ((expr_gathers .yielded _).bind fun value c => ?_)
    exact .stmt fun _ => by rw [stmtParts, zero_add]
  | none =>
    refine (Gathers.many (fun c => .after rfl fun c => expr_gathers .yielded c) c).bind
      fun rest c => ?_
    split
    · rename_i hnone
      refine .stmt fun _ => ?_
      simp [List.getLast?_eq_none_iff.1 hnone, stmtParts]
    · rename_i value hlast
      obtain ⟨init, rfl⟩ := List.getLast?_eq_some_iff.1 hlast
      refine .stmt fun _ => ?_
      simp [stmtParts, add_assoc]

theorem simpleStatement_gathers (c : Cursor) : Gathers 0 ofStmt simpleStatement c := by
  have hwords {make : Span → List String → Stmt} (hl : silent c.next.lexeme)
      (hmake : ∀ span ids, stmtParts (make span ids) = names ids) (start : Place) :
      Gathers 0 ofStmt (do
        advance
        let ids ← commaSeparated Rule.name
        return make (← spanFrom start) ids) c := by
    refine .advance hl ((commaSeparated_gathers (fun c => .identifier) _).bind fun ids c => ?_)
    exact .stmt fun span => by rw [hmake, names, zero_add]
  refine .place fun start => .peek ?_
  split
  -- `pass`, `break` and `continue`
  iterate 3
    · rename_i hl
      exact .advance (by rw [hl]; rfl) (.stmt fun _ => rfl)
  -- `return`
  · rename_i hl
    refine .advance (by rw [hl]; rfl) (.look (atSimpleEnd_looks _) fun ends _ => ?_)
    exact (expr_gathers .tuple _).optional ends fun value c => .stmt fun _ => zero_add _
  -- `raise`
  · rename_i hl
    refine .advance (by rw [hl]; rfl) (.look (atSimpleEnd_looks _) fun ends _ => ?_)
    split
    · exact .stmt fun _ => rfl
    · refine (expr_gathers .test _).bind fun exc c => ?_
      refine (Gathers.after rfl fun c => expr_gathers .test c).bind fun cause c => .stmt fun _ => ?_
      simp [stmtParts]
  -- `assert`
  · rename_i hl
    refine .advance (by rw [hl]; rfl) ((expr_gathers .test _).bind fun test c => ?_)
    refine (Gathers.after rfl fun c => expr_gathers .test c).bind fun msg c => .stmt fun _ => ?_
    rw [stmtParts, zero_add]
  -- `del`
  · rename_i hl
    have htarget (c : Cursor) : Gathers 0 ofExpr (starOr expr .bitOr) c :=
      starOr_gathers expr_gathers c .bitOr
    refine .advance (by rw [hl]; rfl) ((htarget _).bind fun first c => ?_)
    refine Gathers.bind (L := total ofExpr) (Gathers.many (fun c => ?_) c) fun rest c =>
      .stmt fun _ => ?_
    · refine .accept rfl (fun _ => .look (atSimpleEnd_looks _) fun ends _ => ?_) fun _ => .pure rfl
      split
      · exact .pure rfl
      · exact (htarget _).bind fun e c => .pure (by simp)
    · simp [stmtParts]
  -- `global` and `nonlocal`
  iterate 2
    · rename_i hl
      exact hwords (by rw [hl]; rfl) (fun _ _ => rfl) start
  -- `import`
  · rename_i hl
    refine .advance (by rw [hl]; rfl) ?_
    refine (commaSeparated_gathers (aliased_gathers dottedName_gathers) _).bind fun as c => ?_
    exact .stmt fun _ => by rw [stmtParts, names_flatMap, zero_add]; rfl
  · rename_i hl
    exact importFrom_gathers start (by rw [hl]; rfl)
  · exact expressionStatement_gathers start c

end Simple

section Blocks

theorem commentIf_gathers (wanted : Bool → Bool) (c : Cursor) :
    Gathers 0 (fun o => total ofStmt o.toList) (commentIf wanted) c := by
  refine .get ?_
  dsimp only
  split
  · rename_i text inline hl
    split
    · exact .advance (by rw [hl]; rfl) (.pure (by simp [ofStmt_eq, stmtParts]))
    · exact .pure rfl
  · exact .pure rfl

theorem inlineComment_gathers (c : Cursor) : Gathers 0 (total ofStmt) inlineComment c :=
  (commentIf_gathers id c).bind fun _ _ => .pure (zero_add _)

theorem comments_gathers (c : Cursor) : Gathers 0 (total ofStmt) (Rule.many comment) c :=
  .many (commentIf_gathers _) c

theorem commentsBefore_gathers (words : List Keyword) (c : Cursor) :
    Gathers 0 (total ofStmt) (commentsBefore words) c := by
  refine .get ?_
  split
  · split
    · exact comments_gathers c
    · exact .pure rfl
  · exact .pure rfl

theorem simpleLine_gathers (c : Cursor) : Gathers 0 (total ofStmt) simpleLine c := by
  refine (simpleStatement_gathers c).bind fun first c => ?_
  refine Gathers.bind (L := total ofStmt) (Gathers.many (fun c => ?_) c) fun rest c => ?_
  · refine .accept rfl (fun _ => .look (atLineEnd_looks _) fun ends _ => ?_) fun _ => .pure rfl
    split
    · exact .pure rfl
    · exact (simpleStatement_gathers _).bind fun s c => .pure (by simp)
  · refine (inlineComment_gathers c).bind fun trailing c => (newline_gathers c).bind fun _ c => ?_
    exact .pure (by simp [add_assoc])

def Guarded.leaves (g : Guarded) : Multiset Lexeme :=
  total ofStmt g.body + (total ofHandler g.handlers + total ofStmt g.orelse)

theorem Guarded.leaves_append (g : Guarded) (cs : List Stmt) :
    (g.append cs).leaves = g.leaves + total ofStmt cs := by
  unfold Guarded.append
  split
  · rename_i hempty
    rw [List.isEmpty_iff] at hempty
    split
    · rename_i h hlast
      obtain ⟨hs, hsplit⟩ := List.getLast?_eq_some_iff.1 hlast
      simp only [leaves, hempty, hsplit, List.dropLast_concat, total_append, total_cons, total_nil,
        ofHandler]
      abel
    · rename_i hnone
      simp only [leaves, hempty, List.getLast?_eq_none_iff.1 hnone, total_append, total_nil]
      abel
  · simp only [leaves, total_append]
    abel

section Compound

variable {self : Rule (List Stmt)} (hself : ∀ c, Gathers 0 (total ofStmt) self c) (c : Cursor)
include hself

theorem statementsUpTo_gathers (closed : Lexeme → Bool) :
    Gathers 0 (total ofStmt) (statementsUpTo self closed) c := by
  refine Gathers.map (Gathers.many (L := total ofStmt) (fun c => .peek ?_) c) fun units => ?_
  · split
    · exact .pure rfl
    · split
      · rename_i written hl
        exact .advance (by rw [hl]; rfl) (.pure rfl)
      · exact (hself c).bind fun ss c => .pure (by simp)
  · induction units with
    | nil => rfl
    | cons ss units ih => simp [ih]

theorem block_gathers : Gathers 0 (total ofStmt) (block self) c := by
  refine .look (atLineEnd_looks c) fun ends _ => ?_
  split
  · refine (inlineComment_gathers c).bind fun trailing c => (newline_gathers c).bind fun _ c => ?_
    refine (comments_gathers c).bind fun comments c => .peek ?_
    split
    · rename_i hindent
      refine .advance (by rw [eq_of_beq hindent]; rfl) ?_
      refine (statementsUpTo_gathers hself _ _).bind fun body c => ?_
      refine Gathers.bind (L := fun _ => 0) ((Gathers.accepted rfl).map fun _ => rfl) fun _ c => ?_
      exact .pure (by simp [add_assoc])
    · exact .fail _
  · exact simpleLine_gathers c

theorem colonBlock_gathers : Gathers 0 (total ofStmt) (colonBlock self) c :=
  .expect rfl fun _ _ => block_gathers hself _

theorem blockBefore_gathers (words : List Keyword) :
    Gathers 0 (total ofStmt) (blockBefore self words) c := by
  refine (colonBlock_gathers hself c).bind fun body c => ?_
  exact (commentsBefore_gathers words c).bind fun comments c => .pure (by simp)

theorem clauseBlock_gathers (word : Keyword) :
    Gathers 0 (total ofStmt) (clauseBlock self word) c := by
  refine (Gathers.after rfl fun c => colonBlock_gathers hself c).bind fun o c => .pure ?_
  cases o <;> simp

theorem functionDef_gathers (start : Place) (mode : Mode) (decorators : List Expr) :
    Gathers (total ofExpr decorators) ofStmt (functionDef self start mode decorators) c := by
  intro hlists
  refine (Gathers.expect rfl fun hd ht => .name fun name hn ht' => .expect rfl fun hb ht'' => ?_ :
    Gathers _ ofStmt _ c) hlists
  refine (parameters_gathers expr_gathers _ fun items c' hitems => ?_).bind fun params c => ?_
  · -- the list stands behind the three tokens that were read for the header
    refine hlists items ?_
    rw [ht, ht', ht'']
    exact ParameterList.function [] hd hn hb hitems
  refine .expect rfl fun _ _ => ?_
  refine (Gathers.after rfl fun c => expr_gathers .test c).bind fun returns c => ?_
  refine (colonBlock_gathers hself c).bind fun body c => .stmt fun _ => ?_
  rw [stmtParts]
  abel

theorem classDef_gathers (start : Place) (decorators : List Expr) :
    Gathers (total ofExpr decorators) ofStmt (classDef self start decorators) c := by
  refine .expect rfl fun _ _ => .name fun name _ _ => ?_
  have hbody (bases : List Expr) (keywords : List Argument) (c : Cursor) :
      Gathers (total ofExpr decorators + {.name name} +
          (total ofExpr bases + total ofArgument keywords)) ofStmt (do
          let body ← colonBlock self
          return .classDef (← spanFrom start) name bases keywords decorators body) c := by
    refine (colonBlock_gathers hself c).bind fun body c => .stmt fun _ => ?_
    rw [stmtParts]
    abel
  refine .accept rfl (fun _ => ?_) fun _ => ?_
  · refine (callArguments_gathers expr_gathers _).bind fun args c => .expect rfl fun _ _ => ?_
    exact hbody args.1 args.2 _
  · simpa using hbody [] [] _

/-- A block and the alternative behind it. -/
theorem branch_gathers (n : Nat) (hl : silent c.next.lexeme) :
    Gathers 0 ofStmt (branch self n) c := by
  induction n generalizing c with
  | zero => exact .fail _
  | succ n ih =>
    refine .place fun start => .advance hl ((expr_gathers .named _).bind fun test c => ?_)
    refine (blockBefore_gathers hself c _).bind fun body c => .sees ?_
    have hdone (orelse : List Stmt) (c : Cursor) :
        Gathers (0 + ofExpr test + total ofStmt body + total ofStmt orelse) ofStmt
          (spanFrom start >>= fun span => pure (.branch span test body orelse)) c :=
      .stmt fun _ => by rw [stmtParts, zero_add, add_assoc]
    split
    · rename_i helif
      have helse := ih c (by rw [eq_of_beq helif]; rfl)
      refine Gathers.bind (L := total ofStmt) (helse.map fun s => ?_) fun orelse c =>
        hdone orelse c
      simp [List.singleton]
    · exact (clauseBlock_gathers hself c _).bind fun orelse c => hdone orelse c

theorem whileLoop_gathers (start : Place) : Gathers 0 ofStmt (whileLoop self start) c := by
  refine .expect rfl fun _ _ => (expr_gathers .named _).bind fun test c => ?_
  refine (blockBefore_gathers hself c _).bind fun body c => ?_
  refine (clauseBlock_gathers hself c _).bind fun orelse c => .stmt fun _ => ?_
  rw [stmtParts, zero_add, add_assoc]

theorem forLoop_gathers (start : Place) (mode : Mode) :
    Gathers 0 ofStmt (forLoop self start mode) c := by
  refine .expect rfl fun _ _ => (targetList_gathers expr_gathers _).bind fun target c => ?_
  refine .expect rfl fun _ _ => (expr_gathers .tuple _).bind fun iter c => ?_
  refine (blockBefore_gathers hself c _).bind fun body c => ?_
  refine (clauseBlock_gathers hself c _).bind fun orelse c => .stmt fun _ => ?_
  rw [stmtParts, zero_add, add_assoc, add_assoc]

omit hself in
theorem withItem_gathers : Gathers 0 ofWithItem withItem c := by
  refine (expr_gathers .test c).bind fun context c => ?_
  refine (Gathers.after rfl fun c => starOr_gathers expr_gathers c .bitOr).bind fun target c => ?_
  exact .pure (by rw [ofWithItem, zero_add])

omit hself in
/-- The tokens of a header that was read in vain are read again, and counted only then. -/
theorem withItems_gathers : Gathers 0 (total ofWithItem) withItems c := by
  refine .sees ?_
  split
  · refine .orElse (.expect rfl fun _ _ => ?_) (commaSeparated_gathers withItem_gathers c)
    refine (Gathers.listUpTo withItem_gathers _).bind fun is c => .expect rfl fun _ _ => .sees ?_
    split
    · exact .fail _
    · exact .pure (zero_add _)
  · exact commaSeparated_gathers withItem_gathers c

theorem withBlock_gathers (start : Place) (mode : Mode) :
    Gathers 0 ofStmt (withBlock self start mode) c := by
  refine .expect rfl fun _ _ => (withItems_gathers _).bind fun is c => ?_
  refine (colonBlock_gathers hself c).bind fun body c => .stmt fun _ => ?_
  rw [stmtParts, zero_add]

theorem handler_gathers : Gathers 0 (fun h => ofHandler h.2) (handler self) c := by
  have hbody (star : Bool) (type : Option Expr) (name : Option String) (c : Cursor) :
      Gathers (total ofExpr type.toList + names name.toList) (fun h => ofHandler h.2) (do
        let body ← blockBefore self [.except_, .else_, .finally_]
        return (star, ⟨type, name, body⟩)) c := by
    refine (blockBefore_gathers hself c _).bind fun body c => .pure ?_
    rw [ofHandler]
    abel
  refine .expect rfl fun _ _ => .accept rfl (fun _ => .sees ?_) fun _ => .sees ?_
  all_goals
    dsimp only
    split
    · exact hbody _ none none _
    · refine (expr_gathers .test _).bind fun type c => ?_
      refine (Gathers.after rfl fun c => .identifier).bind fun name c => ?_
      simpa [names] using hbody _ (some type) name c

theorem tryBlock_gathers (start : Place) : Gathers 0 ofStmt (tryBlock self start) c := by
  refine .expect rfl fun _ _ => (blockBefore_gathers hself _ _).bind fun body c => ?_
  refine (Gathers.many (L := fun h => ofHandler h.2) (fun c => .sees ?_) c).bind
    fun handlers c => ?_
  · split
    · exact (handler_gathers hself c).bind fun h c => .pure (by simp)
    · exact .pure rfl
  refine (clauseBlock_gathers hself c _).bind fun orelse c => ?_
  refine (commentsBefore_gathers _ c).bind fun cs c => ?_
  refine (clauseBlock_gathers hself c _).bind fun final c => ?_
  dsimp only
  split
  · exact .fail _
  · refine .stmt fun _ => ?_
    let g : Guarded := ⟨body, handlers.map Prod.snd, orelse⟩
    calc
      _ = g.leaves + total ofStmt cs + total ofStmt final := by
        simp only [g, Guarded.leaves, total_map]
        abel
      _ = (g.append cs).leaves + total ofStmt final := by rw [Guarded.leaves_append]
      _ = _ := by
        rw [stmtParts, Guarded.leaves]
        abel

theorem asyncStatement_gathers (start : Place) (decorators : List Expr) :
    Gathers (total ofExpr decorators) ofStmt (asyncStatement self start decorators) c := by
  refine .expect rfl fun _ _ => .peek ?_
  split
  · exact functionDef_gathers hself _ start .async decorators
  · split
    · rename_i hnone
      rw [List.isEmpty_iff.1 hnone]
      exact forLoop_gathers hself _ start .async
    · exact .fail _
  · split
    · rename_i hnone
      rw [List.isEmpty_iff.1 hnone]
      exact withBlock_gathers hself _ start .async
    · exact .fail _
  · exact .fail _

omit hself in
theorem decorator_gathers : Gathers 0
    (fun o => total (fun line => ofExpr line.1 + total ofStmt line.2) o.toList) decorator c := by
  refine .accept rfl (fun _ => (expr_gathers .named _).bind fun value c => ?_) fun _ => .pure rfl
  refine (inlineComment_gathers c).bind fun trailing c => (newline_gathers c).bind fun _ c => ?_
  exact (comments_gathers c).bind fun comments c => .pure (by simp [add_assoc])

theorem decorated_gathers : Gathers 0 (total ofStmt) (decorated self) c := by
  refine .place fun start => (Gathers.many decorator_gathers c).bind fun lines c => .peek ?_
  rw [zero_add, total_add, ← total_map ofExpr, ← total_flatMap, add_comm]
  have hdone {p : Rule Stmt} (hp : Gathers (total ofExpr (lines.map Prod.fst)) ofStmt p c) :
      Gathers (total ofStmt (lines.flatMap Prod.snd) + total ofExpr (lines.map Prod.fst))
        (total ofStmt) (do
          let definition ← p
          return lines.flatMap Prod.snd ++ [definition]) c :=
    (hp.frame _).next fun definition c => .pure (by simp)
  dsimp only
  split
  · exact hdone (functionDef_gathers hself c start .sync _)
  · exact hdone (classDef_gathers hself c start _)
  · exact hdone (asyncStatement_gathers hself c start _)
  · exact hdone (.fail _)

theorem statement_gathers : Gathers 0 (total ofStmt) (statement self) c := by
  have hone {p : Rule Stmt} (hp : Gathers 0 ofStmt p c) :
      Gathers 0 (total ofStmt) (List.singleton <$> p) c := hp.map fun _ => by simp [List.singleton]
  refine .place fun start => .peek ?_
  split
  · exact (commentIf_gathers _ c).bind fun o c => .pure (zero_add _)
  · exact .fail _
  · exact decorated_gathers hself c
  · exact hone (functionDef_gathers hself c start .sync [])
  · exact hone (classDef_gathers hself c start [])
  · rename_i hl
    exact hone ((branch_gathers hself c c.size (by rw [hl]; rfl)).congr rfl)
  · exact hone (whileLoop_gathers hself c start)
  · exact hone (forLoop_gathers hself c start .sync)
  · exact hone (tryBlock_gathers hself c start)
  · exact hone (withBlock_gathers hself c start .sync)
  · exact hone (asyncStatement_gathers hself c start [])
  · exact simpleLine_gathers c

end Compound

theorem parseStatements_gathers (depth : Nat) (c : Cursor) :
    Gathers 0 (total ofStmt) (parseStatements depth) c := by
  induction depth generalizing c with
  | zero => exact .fail _
  | succ depth ih => exact statement_gathers ih c

end Blocks

/-- A module has the leaves of the tokens it is read from. -/
theorem gathered_wholeModule {tokens : List Token} {m : Module} (h : Token.Closed tokens)
    (hlists : SingleLists tokens) (hm : Module.ofTokens tokens = .ok m) :
    gathered tokens = total ofStmt m.body := by
  obtain ⟨hstart, hs, c', hbody, hrest⟩ := statementsUpTo_of_ofTokens h hm
  obtain ⟨read, hmoves, hread⟩ := statementsUpTo_gathers (parseStatements_gathers _) _ _
    (hstart.symm ▸ hlists) hs m.body c' hbody
  obtain ⟨stop, htokens, hend⟩ := hrest read hmoves
  have hstop : gathered [stop] = 0 := by simp [gathered, hend, Lexeme.isLeaf]
  rw [htokens, gathered_append, hstop, add_zero, ← hread, zero_add]

section Marks

open scoped List

/-- The symbol that an item begins with, if another item may not begin with the same. -/
def ParamItem.mark? : ParamItem → Option Symbol
  | .slash => some .slash
  | .star (some _) => some .star
  | .doubleStar _ => some .doubleStar
  | .star none | .plain _ => none

def symbol? (t : Token) : Option Symbol :=
  match t.lexeme with
  | .symbol s => some s
  | _ => none

theorem areSingle_iff (items : List ParamItem) : ParamItem.areSingle items ↔
    ∀ s ∈ [Symbol.slash, .star, .doubleStar], (items.filterMap ParamItem.mark?).count s ≤ 1 := by
  have hcount (s : Symbol) (kind : ParamItem → Bool)
      (h : ∀ item, kind item = (item.mark? == some s)) :
      (items.filterMap ParamItem.mark?).count s = items.countP kind := by
    rw [List.count, List.countP_filterMap]
    refine List.countP_congr fun item _ => ?_
    rw [h]
    cases item.mark? <;> simp
  have hslash := hcount .slash ParamItem.isSlash fun item => by
    rcases item with _ | (_ | _) | _ | _ <;> rfl
  have hstar := hcount .star ParamItem.isVararg fun item => by
    rcases item with _ | (_ | _) | _ | _ <;> rfl
  have hdouble := hcount .doubleStar ParamItem.isKwarg fun item => by
    rcases item with _ | (_ | _) | _ | _ <;> rfl
  simp [ParamItem.areSingle, hslash, hstar, hdouble, and_assoc]

variable {self : Level → Rule Expr} (hself : ∀ level c, Forms level.slot (self level) c)
  (close : Symbol) (annotated : Bool)
include hself

theorem marks_paramItem (c : Cursor) :
    Accounts (fun read item => item.mark?.toList <+ read.filterMap symbol?)
      (paramItem self close annotated) c := by
  have hparam (make : Param → ParamItem) (read : List Token)
      (hmake : ∀ p, (make p).mark?.toList <+ read.filterMap symbol?) (c : Cursor) :
      Accounts (fun more item => item.mark?.toList <+ (read ++ more).filterMap symbol?)
        (do return make (← param self annotated)) c := by
    refine Accounts.bind (param_forms hself c annotated) fun p more _ _ _ => .pure ?_
    rw [List.append_nil, List.filterMap_append]
    exact (hmake p).trans (List.sublist_append_left ..)
  have hmark {t : Token} {s : Symbol} (ht : t.lexeme = .symbol s) :
      [s] <+ [t].filterMap symbol? := by
    simp [symbol?, ht]
  refine .accept nofun (fun h => .pure (hmark h)) fun _ => ?_
  refine .accept nofun (fun h => hparam .doubleStar _ (fun _ => hmark h) _) fun _ => ?_
  refine .accept nofun (fun h => ?_) fun _ => hparam .plain [] (fun _ => .refl _) c
  refine .sees (.sees ?_)
  split
  · exact .pure (List.nil_sublist _)
  · exact hparam (fun p => .star (some p)) _ (fun _ => hmark h) _

/-- The items of a list begin with symbols that were read for it, in order. -/
theorem marks_paramItems (c : Cursor) :
    Accounts (fun read items => items.filterMap ParamItem.mark? <+ read.filterMap symbol?)
      (paramItems self close annotated) c := by
  have hcons (item : ParamItem) (items : List ParamItem) :
      (item :: items).filterMap ParamItem.mark? =
        item.mark?.toList ++ items.filterMap ParamItem.mark? := by
    rw [List.filterMap_cons]
    cases item.mark? <;> rfl
  refine Accounts.listUpTo (marks_paramItem hself close annotated) (.refl _) ?_ ?_
  · intro read item h
    simpa [hcons] using h
  · intro read t more item items h ht hmore
    rw [hcons, List.filterMap_append]
    exact h.append (hmore.trans ((List.sublist_cons_self t more).filterMap symbol?))

omit hself in
theorem areSingle_of_count (before : List Token) {c c' : Cursor} {items : List ParamItem}
    {tokens : List Token} (hself : ∀ level c, Forms level.slot (self level) c)
    (h : Token.Closed tokens) (htokens : tokens = before ++ c.tokens)
    (hcount : ∀ s ∈ [Symbol.slash, .star, .doubleStar], (tokens.filterMap symbol?).count s ≤ 1)
    (hitems : paramItems self close annotated c = .ok (items, c')) : ParamItem.areSingle items := by
  have hs : c.Scanned := (htokens ▸ h).rest c.tokens_ne_nil
  obtain ⟨read, hmoves, hmarks⟩ := marks_paramItems hself close annotated c hs items c' hitems
  have hread : read <+ tokens := by
    rw [htokens, hmoves.tokens_eq]
    exact (List.sublist_append_left ..).trans (List.sublist_append_right ..)
  exact (areSingle_iff items).2 fun s hs =>
    ((hmarks.trans (hread.filterMap symbol?)).count_le s).trans (hcount s hs)

omit hself in
/-- Where each of the three symbols stands once at most, no parameter list has two of them. -/
theorem singleLists_of_count {tokens : List Token} (h : Token.Closed tokens)
    (hcount : ∀ s ∈ [Symbol.slash, .star, .doubleStar], (tokens.filterMap symbol?).count s ≤ 1) :
    SingleLists tokens := by
  intro items hlist
  cases hlist with
  | @function before d n b id c c' items hd hn hb hitems =>
    exact areSingle_of_count _ _ (before ++ [d, n, b]) expr_forms h (by simp) hcount hitems
  | @lambda before t depth c c' items ht hitems =>
    exact areSingle_of_count _ _ (before ++ [t]) (parseAt_forms depth) h (by simp) hcount hitems

end Marks

end Grammar

namespace Module

open Grammar
open scoped List

/-- The names, numbers and strings of a source are those of its module, each as often, if no
parameter list of the source drops a parameter. -/
theorem leaves_of_parse {source : String} {tokens : List Token} {m : Module}
    (ht : Token.scan source = .ok tokens) (hm : Module.parse source = .ok m)
    (hlists : SingleLists tokens) :
    (tokens.map Token.lexeme).filter Lexeme.isLeaf ~ m.walk.flatMap Node.leaves := by
  obtain ⟨tokens', ht', hm'⟩ := parse_eq_ok hm
  obtain rfl : tokens = tokens' := Except.ok.inj (ht.symm.trans ht')
  rw [← Multiset.coe_eq_coe]
  exact (gathered_wholeModule (Token.scan_closed ht) hlists hm').trans (Leaf.onWalk_module m).symm

def covered : String :=
  "import os.path as p\ndef f(a, /, b: int=1, *c, **d):\n    with (p.q as e, c):\n" ++
    "        g(k='s', b)\n"

def coveredLeaves : List Lexeme :=
  [.name "os", .name "path", .name "p", .name "f", .name "a", .name "b", .name "int",
    .number "1", .name "c", .name "d", .name "p", .name "q", .name "e", .name "c", .name "g",
    .name "k", .string "'s'", .name "b"]

theorem leaves_of_parse_covered : ∃ tokens m,
    Token.scan covered = .ok tokens ∧ Module.parse covered = .ok m ∧
      (tokens.map Token.lexeme).filter Lexeme.isLeaf = coveredLeaves ∧
      (tokens.map Token.lexeme).filter Lexeme.isLeaf ~ m.walk.flatMap Node.leaves := by
  have h : (Module.parse covered).toOption.any fun _ =>
      (Token.scan covered).toOption.any fun tokens =>
        (tokens.map Token.lexeme).filter Lexeme.isLeaf = coveredLeaves ∧
      ∀ s ∈ [Symbol.slash, .star, .doubleStar], (tokens.filterMap symbol?).count s ≤ 1 := by
    decide +kernel
  obtain ⟨m, hm, h⟩ := parse_of_any h
  obtain ⟨tokens, ht, -⟩ := parse_eq_ok hm
  rw [ht] at h
  obtain ⟨hleaves, hcount⟩ := of_decide_eq_true h
  have hlists := singleLists_of_count (Token.scan_closed ht) hcount
  exact ⟨tokens, m, ht, hm, hleaves, leaves_of_parse ht hm hlists⟩

end Module

end AsyncErasure
