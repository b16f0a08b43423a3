import AsyncErasure.Proofs.Synchrony
import AsyncErasure.Tree.Block

namespace AsyncErasure

open Node (enter)
open Synchrony (everywhere)

def Node.literals : Node → List String
  | .expr (.str _ parts) => parts
  | _ => []

/-- The string literals of a module: literals that stand side by side are several. -/
def Module.literals (m : Module) : List String := m.walk.flatMap Node.literals

namespace Literals

def onWalk (nodes : List Node) : List String := nodes.flatMap Node.literals

@[simp] theorem onWalk_nil : onWalk [] = [] := rfl

@[simp] theorem onWalk_append (a b : List Node) : onWalk (a ++ b) = onWalk a ++ onWalk b :=
  List.flatMap_append

theorem onWalk_enter (n : Node) (inside : List Node) :
    onWalk (enter everywhere n inside) = n.literals ++ onWalk inside := by
  simp [onWalk, enter]

def ofExpr (e : Expr) : List String := (Node.expr e).literals ++ onWalk (e.inside everywhere)

def ofStmt (s : Stmt) : List String := onWalk (s.inside everywhere)

@[simp] theorem onWalk_expr (e : Expr) :
    onWalk (enter everywhere (.expr e) (e.inside everywhere)) = ofExpr e := rfl

@[simp] theorem onWalk_stmt (s : Stmt) :
    onWalk (enter everywhere (.stmt s) (s.inside everywhere)) = ofStmt s := rfl

@[simp] theorem onWalk_parameters (p : Parameters) (inside : List Node) :
    onWalk (enter everywhere (.parameters p) inside) = onWalk inside := rfl

@[simp] theorem onWalk_param (p : Param) (inside : List Node) :
    onWalk (enter everywhere (.param p) inside) = onWalk inside := rfl

@[simp] theorem onWalk_argument (a : Argument) (inside : List Node) :
    onWalk (enter everywhere (.argument a) inside) = onWalk inside := rfl

@[simp] theorem onWalk_clause (c : Clause) (inside : List Node) :
    onWalk (enter everywhere (.clause c) inside) = onWalk inside := rfl

@[simp] theorem onWalk_block (body : List Stmt) (inside : List Node) :
    onWalk (enter everywhere (.block body) inside) = onWalk inside := rfl

@[simp] theorem onWalk_stmts (body : List Stmt) :
    onWalk (Walk.stmts everywhere body) = body.flatMap ofStmt := by
  induction body with
  | nil => rfl
  | cons s body ih => simp [Walk.stmts, ih]

theorem module_eq (m : Module) : m.literals = m.body.flatMap ofStmt := onWalk_stmts m.body

theorem ofStmt_str (s t : Span) (parts : List String) :
    ofStmt (.expr s (.str t parts)) = parts := by
  have hexpr : ofExpr (.str t parts) = parts := by
    rw [ofExpr, Expr.inside, onWalk_nil, List.append_nil]
    rfl
  rw [ofStmt, Stmt.inside, Walk.exprs, onWalk_append, onWalk_expr, hexpr, Walk.exprs, onWalk_nil,
    List.append_nil]

section Substitution

def KeepsAwaited (r : Substitution) : Prop := ∀ s e, ofExpr (r.await s e) = ofExpr e

variable {r : Substitution}

mutual

theorem expr (h : KeepsAwaited r) (e : Expr) : ofExpr (e.subst r) = (ofExpr e).map r.literal := by
  cases e with
  | await s value => exact (h s _).trans (expr h value)
  | str => simp [Expr.subst, ofExpr, Node.literals, Expr.inside]
  | _ =>
    simp only [Expr.subst, ofExpr, Node.literals, Expr.inside]
    simp [expr h, exprs h, expr? h, parameters h, arguments h, items h, links h, clauses h]

theorem exprs (h : KeepsAwaited r) (es : List Expr) :
    onWalk (Walk.exprs everywhere (Substitution.exprs r es)) =
      (onWalk (Walk.exprs everywhere es)).map r.literal := by
  cases es <;> simp [Substitution.exprs, Walk.exprs, expr h, exprs h]

theorem expr? (h : KeepsAwaited r) (e : Option Expr) :
    onWalk (Walk.expr? everywhere (Substitution.expr? r e)) =
      (onWalk (Walk.expr? everywhere e)).map r.literal := by
  cases e <;> simp [Substitution.expr?, Walk.expr?, expr h]

theorem param (h : KeepsAwaited r) (p : Param) : onWalk ((p.subst r).inside everywhere) =
    (onWalk (p.inside everywhere)).map r.literal := by
  cases p; simp [Param.subst, Param.inside, expr? h]

theorem params (h : KeepsAwaited r) (ps : List Param) :
    onWalk (Walk.params everywhere (Substitution.params r ps)) =
      (onWalk (Walk.params everywhere ps)).map r.literal := by
  cases ps <;> simp [Substitution.params, Walk.params, param h, params h]

theorem param? (h : KeepsAwaited r) (p : Option Param) :
    onWalk (Walk.param? everywhere (Substitution.param? r p)) =
      (onWalk (Walk.param? everywhere p)).map r.literal := by
  cases p <;> simp [Substitution.param?, Walk.param?, param h]

theorem parameters (h : KeepsAwaited r) (p : Parameters) : onWalk ((p.subst r).inside everywhere) =
    (onWalk (p.inside everywhere)).map r.literal := by
  cases p; simp [Parameters.subst, Parameters.inside, params h, param? h]

theorem argument (h : KeepsAwaited r) (a : Argument) : onWalk ((a.subst r).inside everywhere) =
    (onWalk (a.inside everywhere)).map r.literal := by
  cases a; simp [Argument.subst, Argument.inside, expr h]

theorem arguments (h : KeepsAwaited r) (as : List Argument) :
    onWalk (Walk.arguments everywhere (Substitution.arguments r as)) =
      (onWalk (Walk.arguments everywhere as)).map r.literal := by
  cases as <;> simp [Substitution.arguments, Walk.arguments, argument h, arguments h]

theorem item (h : KeepsAwaited r) (i : DictItem) : onWalk ((i.subst r).inside everywhere) =
    (onWalk (i.inside everywhere)).map r.literal := by
  cases i; simp [DictItem.subst, DictItem.inside, expr h, expr? h]

theorem items (h : KeepsAwaited r) (is : List DictItem) :
    onWalk (Walk.items everywhere (Substitution.items r is)) =
      (onWalk (Walk.items everywhere is)).map r.literal := by
  cases is <;> simp [Substitution.items, Walk.items, item h, items h]

theorem link (h : KeepsAwaited r) (c : Comparison) : onWalk ((c.subst r).inside everywhere) =
    (onWalk (c.inside everywhere)).map r.literal := by
  cases c; simp [Comparison.subst, Comparison.inside, expr h]

theorem links (h : KeepsAwaited r) (cs : List Comparison) :
    onWalk (Walk.links everywhere (Substitution.links r cs)) =
      (onWalk (Walk.links everywhere cs)).map r.literal := by
  cases cs <;> simp [Substitution.links, Walk.links, link h, links h]

theorem clause (h : KeepsAwaited r) (c : Clause) : onWalk ((c.subst r).inside everywhere) =
    (onWalk (c.inside everywhere)).map r.literal := by
  cases c; simp [Clause.subst, Clause.inside, expr h, exprs h]

theorem clauses (h : KeepsAwaited r) (cs : List Clause) :
    onWalk (Walk.clauses everywhere (Substitution.clauses r cs)) =
      (onWalk (Walk.clauses everywhere cs)).map r.literal := by
  cases cs <;> simp [Substitution.clauses, Walk.clauses, clause h, clauses h]

end

theorem withItems (h : KeepsAwaited r) (is : List WithItem) :
    onWalk ((is.map (WithItem.subst r)).flatMap (WithItem.inside everywhere)) =
      (onWalk (is.flatMap (WithItem.inside everywhere))).map r.literal := by
  induction is with
  | nil => rfl
  | cons i is ih =>
    simp [WithItem.subst, WithItem.inside, Walk.exprs, expr h, expr? h, ih]

mutual

theorem stmt (h : KeepsAwaited r) (s : Stmt) : ofStmt (s.subst r) = (ofStmt s).map r.literal := by
  cases s
  all_goals
    simp only [Stmt.subst, ofStmt, Stmt.inside]
    simp [expr h, exprs h, expr? h, parameters h, arguments h, Walk.exprs, withItems h, stmts h,
      handlers h]

theorem stmts (h : KeepsAwaited r) (ss : List Stmt) :
    (Substitution.stmts r ss).flatMap ofStmt = (ss.flatMap ofStmt).map r.literal := by
  cases ss <;> simp [Substitution.stmts, stmt h, stmts h]

theorem handler (h : KeepsAwaited r) (x : Handler) : onWalk ((x.subst r).inside everywhere) =
    (onWalk (x.inside everywhere)).map r.literal := by
  cases x; simp [Handler.subst, Handler.inside, expr? h, stmts h]

theorem handlers (h : KeepsAwaited r) (xs : List Handler) :
    onWalk (Walk.handlers everywhere (Substitution.handlers r xs)) =
      (onWalk (Walk.handlers everywhere xs)).map r.literal := by
  cases xs <;> simp [Substitution.handlers, Walk.handlers, handler h, handlers h]

end

/-- A substitution that keeps the literals of what is awaited changes every literal in place. -/
theorem module_subst (h : KeepsAwaited r) (m : Module) :
    (m.subst r).literals = m.literals.map r.literal := by
  rw [module_eq, module_eq]
  exact stmts h m.body

end Substitution

section Blocks

abbrev KeepsBlocks (f : List Stmt → List Stmt) : Prop :=
  ∀ body, (f body).flatMap ofStmt = body.flatMap ofStmt

variable {f : List Stmt → List Stmt}

mutual

theorem mapBlocks (h : KeepsBlocks f) (s : Stmt) : ofStmt (s.mapBlocks f) = ofStmt s := by
  cases s <;> simp [Stmt.mapBlocks, ofStmt, Stmt.inside, h, mapInside h, mapHandlers h]

theorem mapInside (h : KeepsBlocks f) (ss : List Stmt) :
    (Block.mapInside f ss).flatMap ofStmt = ss.flatMap ofStmt := by
  cases ss <;> simp [Block.mapInside, mapBlocks h, mapInside h]

theorem mapHandler (h : KeepsBlocks f) (x : Handler) :
    onWalk ((x.mapBlocks f).inside everywhere) = onWalk (x.inside everywhere) := by
  cases x; simp [Handler.mapBlocks, Handler.inside, h, mapInside h]

theorem mapHandlers (h : KeepsBlocks f) (xs : List Handler) :
    onWalk (Walk.handlers everywhere (Block.mapHandlers f xs)) =
      onWalk (Walk.handlers everywhere xs) := by
  cases xs <;> simp [Block.mapHandlers, Walk.handlers, mapHandler h, mapHandlers h]

end

theorem module_mapBlocks (h : KeepsBlocks f) (m : Module) :
    (m.mapBlocks f).literals = m.literals := by
  rw [module_eq, module_eq, Module.mapBlocks, h, mapInside h]

end Blocks

end Literals

end AsyncErasure
