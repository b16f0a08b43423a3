import AsyncErasure.Erasure
import AsyncErasure.Proofs.Tree.Shape
import AsyncErasure.Tree.Walk

namespace AsyncErasure

open Node (enter)

def Node.isSync : Node → Bool
  | .stmt (.functionDef _ mode ..) | .stmt (.forLoop _ mode ..) | .stmt (.withBlock _ mode ..) =>
    mode = .sync
  | .expr (.await ..) => false
  | .clause c => c.mode = .sync
  | _ => true

/-- No node of a module waits, in any position. -/
def Module.IsSync (m : Module) : Prop := ∀ n ∈ m.walk, n.isSync

namespace Synchrony

abbrev everywhere : Node → Bool := fun _ => false

def sync (nodes : List Node) : Bool := nodes.all Node.isSync

@[simp] theorem sync_nil : sync [] = true := rfl

@[simp] theorem sync_append (a b : List Node) : sync (a ++ b) = (sync a && sync b) :=
  List.all_append

def syncExpr (e : Expr) : Bool := (Node.expr e).isSync && sync (e.inside everywhere)

def syncStmt (s : Stmt) : Bool := (Node.stmt s).isSync && sync (s.inside everywhere)

@[simp] theorem sync_expr (e : Expr) :
    sync (enter everywhere (.expr e) (e.inside everywhere)) = syncExpr e := rfl

@[simp] theorem sync_stmt (s : Stmt) :
    sync (enter everywhere (.stmt s) (s.inside everywhere)) = syncStmt s := rfl

@[simp] theorem sync_parameters (p : Parameters) (inside : List Node) :
    sync (enter everywhere (.parameters p) inside) = sync inside := rfl

@[simp] theorem sync_param (p : Param) (inside : List Node) :
    sync (enter everywhere (.param p) inside) = sync inside := rfl

@[simp] theorem sync_argument (a : Argument) (inside : List Node) :
    sync (enter everywhere (.argument a) inside) = sync inside := rfl

@[simp] theorem sync_block (body : List Stmt) (inside : List Node) :
    sync (enter everywhere (.block body) inside) = sync inside := rfl

@[simp] theorem sync_clause (c : Clause) (inside : List Node) :
    sync (enter everywhere (.clause c) inside) = (decide (c.mode = .sync) && sync inside) := rfl

@[simp] theorem erasure_name : Substitution.erasure.name = id := rfl

@[simp] theorem erasure_literal : Substitution.erasure.literal = id := rfl

@[simp] theorem erasure_mode (mode : Mode) : Substitution.erasure.mode mode = .sync := rfl

mutual

theorem erase_expr (e : Expr) : syncExpr (e.subst .erasure) := by
  cases e with
  | await s value => exact erase_expr value
  | _ =>
    simp only [Expr.subst, syncExpr, Node.isSync, Expr.inside]
    simp [erase_expr, erase_exprs, erase_expr?, erase_parameters, erase_arguments, erase_items,
      erase_links, erase_clauses]

theorem erase_exprs (es : List Expr) :
    sync (Walk.exprs everywhere (Substitution.exprs .erasure es)) := by
  cases es <;> simp [Substitution.exprs, Walk.exprs, erase_expr, erase_exprs]

theorem erase_expr? (e : Option Expr) :
    sync (Walk.expr? everywhere (Substitution.expr? .erasure e)) := by
  cases e <;> simp [Substitution.expr?, Walk.expr?, erase_expr]

theorem erase_param (p : Param) : sync ((p.subst .erasure).inside everywhere) := by
  cases p; simp [Param.subst, Param.inside, erase_expr?]

theorem erase_params (ps : List Param) :
    sync (Walk.params everywhere (Substitution.params .erasure ps)) := by
  cases ps <;> simp [Substitution.params, Walk.params, erase_param, erase_params]

theorem erase_param? (p : Option Param) :
    sync (Walk.param? everywhere (Substitution.param? .erasure p)) := by
  cases p <;> simp [Substitution.param?, Walk.param?, erase_param]

theorem erase_parameters (p : Parameters) : sync ((p.subst .erasure).inside everywhere) := by
  cases p; simp [Parameters.subst, Parameters.inside, erase_params, erase_param?]

theorem erase_argument (a : Argument) : sync ((a.subst .erasure).inside everywhere) := by
  cases a; simp [Argument.subst, Argument.inside, erase_expr]

theorem erase_arguments (as : List Argument) :
    sync (Walk.arguments everywhere (Substitution.arguments .erasure as)) := by
  cases as <;> simp [Substitution.arguments, Walk.arguments, erase_argument, erase_arguments]

theorem erase_item (i : DictItem) : sync ((i.subst .erasure).inside everywhere) := by
  cases i; simp [DictItem.subst, DictItem.inside, erase_expr, erase_expr?]

theorem erase_items (is : List DictItem) :
    sync (Walk.items everywhere (Substitution.items .erasure is)) := by
  cases is <;> simp [Substitution.items, Walk.items, erase_item, erase_items]

theorem erase_link (c : Comparison) : sync ((c.subst .erasure).inside everywhere) := by
  cases c; simp [Comparison.subst, Comparison.inside, erase_expr]

theorem erase_links (cs : List Comparison) :
    sync (Walk.links everywhere (Substitution.links .erasure cs)) := by
  cases cs <;> simp [Substitution.links, Walk.links, erase_link, erase_links]

theorem erase_clause (c : Clause) :
    (c.subst .erasure).mode = .sync ∧ sync ((c.subst .erasure).inside everywhere) := by
  cases c; simp [Clause.subst, Clause.inside, erase_expr, erase_exprs]

theorem erase_clauses (cs : List Clause) :
    sync (Walk.clauses everywhere (Substitution.clauses .erasure cs)) := by
  cases cs <;> simp [Substitution.clauses, Walk.clauses, erase_clause, erase_clauses]

end

theorem erase_withItems (is : List WithItem) :
    sync ((is.map (WithItem.subst .erasure)).flatMap (WithItem.inside everywhere)) := by
  induction is with
  | nil => rfl
  | cons i is ih =>
    simp [WithItem.subst, WithItem.inside, Walk.exprs, erase_expr, erase_expr?, ih]

mutual

theorem erase_stmt (s : Stmt) : syncStmt (s.subst .erasure) := by
  cases s
  all_goals
    simp only [Stmt.subst, syncStmt, Node.isSync, Stmt.inside]
    simp [erase_expr, erase_exprs, erase_expr?, erase_parameters, erase_arguments, Walk.exprs,
      erase_withItems, erase_stmts, erase_handlers]

theorem erase_stmts (ss : List Stmt) :
    sync (Walk.stmts everywhere (Substitution.stmts .erasure ss)) := by
  cases ss <;> simp [Substitution.stmts, Walk.stmts, erase_stmt, erase_stmts]

theorem erase_handler (h : Handler) : sync ((h.subst .erasure).inside everywhere) := by
  cases h; simp [Handler.subst, Handler.inside, erase_expr?, erase_stmts]

theorem erase_handlers (hs : List Handler) :
    sync (Walk.handlers everywhere (Substitution.handlers .erasure hs)) := by
  cases hs <;> simp [Substitution.handlers, Walk.handlers, erase_handler, erase_handlers]

end

mutual

theorem expr_of_sync (e : Expr) (h : syncExpr e) : e.subst .erasure = e := by
  cases e
  all_goals
    simp only [syncExpr, Node.isSync, Expr.inside] at h
    simp_all [Expr.subst, expr_of_sync, exprs_of_sync, expr?_of_sync, parameters_of_sync,
      arguments_of_sync, items_of_sync, links_of_sync, clauses_of_sync]

theorem exprs_of_sync (es : List Expr) (h : sync (Walk.exprs everywhere es)) :
    Substitution.exprs .erasure es = es := by
  cases es <;> simp_all [Substitution.exprs, Walk.exprs, expr_of_sync, exprs_of_sync]

theorem expr?_of_sync (e : Option Expr) (h : sync (Walk.expr? everywhere e)) :
    Substitution.expr? .erasure e = e := by
  cases e <;> simp_all [Substitution.expr?, Walk.expr?, expr_of_sync]

theorem param_of_sync (p : Param) (h : sync (p.inside everywhere)) : p.subst .erasure = p := by
  cases p; simp_all [Param.subst, Param.inside, expr?_of_sync]

theorem params_of_sync (ps : List Param) (h : sync (Walk.params everywhere ps)) :
    Substitution.params .erasure ps = ps := by
  cases ps <;> simp_all [Substitution.params, Walk.params, param_of_sync, params_of_sync]

theorem param?_of_sync (p : Option Param) (h : sync (Walk.param? everywhere p)) :
    Substitution.param? .erasure p = p := by
  cases p <;> simp_all [Substitution.param?, Walk.param?, param_of_sync]

theorem parameters_of_sync (p : Parameters) (h : sync (p.inside everywhere)) :
    p.subst .erasure = p := by
  cases p; simp_all [Parameters.subst, Parameters.inside, params_of_sync, param?_of_sync]

theorem argument_of_sync (a : Argument) (h : sync (a.inside everywhere)) :
    a.subst .erasure = a := by
  cases a; simp_all [Argument.subst, Argument.inside, expr_of_sync]

theorem arguments_of_sync (as : List Argument) (h : sync (Walk.arguments everywhere as)) :
    Substitution.arguments .erasure as = as := by
  cases as <;>
    simp_all [Substitution.arguments, Walk.arguments, argument_of_sync, arguments_of_sync]

theorem item_of_sync (i : DictItem) (h : sync (i.inside everywhere)) : i.subst .erasure = i := by
  cases i; simp_all [DictItem.subst, DictItem.inside, expr_of_sync, expr?_of_sync]

theorem items_of_sync (is : List DictItem) (h : sync (Walk.items everywhere is)) :
    Substitution.items .erasure is = is := by
  cases is <;> simp_all [Substitution.items, Walk.items, item_of_sync, items_of_sync]

theorem link_of_sync (c : Comparison) (h : sync (c.inside everywhere)) : c.subst .erasure = c := by
  cases c; simp_all [Comparison.subst, Comparison.inside, expr_of_sync]

theorem links_of_sync (cs : List Comparison) (h : sync (Walk.links everywhere cs)) :
    Substitution.links .erasure cs = cs := by
  cases cs <;> simp_all [Substitution.links, Walk.links, link_of_sync, links_of_sync]

theorem clause_of_sync (c : Clause) (hm : c.mode = .sync) (h : sync (c.inside everywhere)) :
    c.subst .erasure = c := by
  cases c; simp_all [Clause.subst, Clause.inside, expr_of_sync, exprs_of_sync]

theorem clauses_of_sync (cs : List Clause) (h : sync (Walk.clauses everywhere cs)) :
    Substitution.clauses .erasure cs = cs := by
  cases cs <;> simp_all [Substitution.clauses, Walk.clauses, clause_of_sync, clauses_of_sync]

end

theorem withItems_of_sync (is : List WithItem)
    (h : sync (is.flatMap (WithItem.inside everywhere))) :
    is.map (WithItem.subst .erasure) = is := by
  induction is with
  | nil => rfl
  | cons i is ih =>
    simp_all [WithItem.subst, WithItem.inside, Walk.exprs, expr_of_sync, expr?_of_sync]

@[simp] theorem substModule_erasure : Alias.substModule .erasure = id := by
  funext a; simp [Alias.substModule]

@[simp] theorem substName_erasure : Alias.substName .erasure = id := by
  funext a; simp [Alias.substName]

mutual

theorem stmt_of_sync (s : Stmt) (h : syncStmt s) : s.subst .erasure = s := by
  cases s
  all_goals
    simp only [syncStmt, Node.isSync, Stmt.inside] at h
    simp_all [Stmt.subst, Walk.exprs, expr_of_sync, exprs_of_sync, expr?_of_sync,
      parameters_of_sync, arguments_of_sync, withItems_of_sync, stmts_of_sync, handlers_of_sync]

theorem stmts_of_sync (ss : List Stmt) (h : sync (Walk.stmts everywhere ss)) :
    Substitution.stmts .erasure ss = ss := by
  cases ss <;> simp_all [Substitution.stmts, Walk.stmts, stmt_of_sync, stmts_of_sync]

theorem handler_of_sync (h : Handler) (hs : sync (h.inside everywhere)) : h.subst .erasure = h := by
  cases h; simp_all [Handler.subst, Handler.inside, expr?_of_sync, stmts_of_sync]

theorem handlers_of_sync (hs : List Handler) (h : sync (Walk.handlers everywhere hs)) :
    Substitution.handlers .erasure hs = hs := by
  cases hs <;> simp_all [Substitution.handlers, Walk.handlers, handler_of_sync, handlers_of_sync]

end

end Synchrony

open Synchrony

theorem Module.isSync_iff (m : Module) : m.IsSync ↔ sync (Walk.stmts everywhere m.body) := by
  simp [Module.IsSync, Module.walk, Module.walkUntil, enter, Node.isSync, sync]

theorem Module.erase_isSync (m : Module) : m.erase.IsSync := by
  rw [isSync_iff]
  exact erase_stmts m.body

theorem Module.erase_eq_self_iff (m : Module) : m.erase = m ↔ m.IsSync := by
  constructor
  · intro h
    rw [← h]
    exact m.erase_isSync
  · intro h
    rw [isSync_iff] at h
    exact congrArg Module.mk (stmts_of_sync m.body h)

namespace Synchrony

mutual

theorem syncExpr_shape (e : Expr) : syncExpr e.shape = syncExpr e := by
  cases e <;> simp only [Expr.shape, syncExpr, Node.isSync, Expr.inside] <;>
    simp [syncExpr_shape, exprs_shape, expr?_shape, parameters_shape, arguments_shape, items_shape,
      links_shape, clauses_shape]

theorem exprs_shape (es : List Expr) :
    sync (Walk.exprs everywhere (Shape.exprs es)) = sync (Walk.exprs everywhere es) := by
  cases es <;> simp [Shape.exprs, Walk.exprs, syncExpr_shape, exprs_shape]

theorem expr?_shape (e : Option Expr) :
    sync (Walk.expr? everywhere (Shape.expr? e)) = sync (Walk.expr? everywhere e) := by
  cases e <;> simp [Shape.expr?, Walk.expr?, syncExpr_shape]

theorem param_shape (p : Param) : sync (p.shape.inside everywhere) =
    sync (p.inside everywhere) := by
  cases p; simp [Param.shape, Param.inside, expr?_shape]

theorem params_shape (ps : List Param) :
    sync (Walk.params everywhere (Shape.params ps)) = sync (Walk.params everywhere ps) := by
  cases ps <;> simp [Shape.params, Walk.params, param_shape, params_shape]

theorem param?_shape (p : Option Param) :
    sync (Walk.param? everywhere (Shape.param? p)) = sync (Walk.param? everywhere p) := by
  cases p <;> simp [Shape.param?, Walk.param?, param_shape]

theorem parameters_shape (p : Parameters) :
    sync (p.shape.inside everywhere) = sync (p.inside everywhere) := by
  cases p; simp [Parameters.shape, Parameters.inside, params_shape, param?_shape]

theorem argument_shape (a : Argument) :
    sync (a.shape.inside everywhere) = sync (a.inside everywhere) := by
  cases a; simp [Argument.shape, Argument.inside, syncExpr_shape]

theorem arguments_shape (as : List Argument) :
    sync (Walk.arguments everywhere (Shape.arguments as)) =
      sync (Walk.arguments everywhere as) := by
  cases as <;> simp [Shape.arguments, Walk.arguments, argument_shape, arguments_shape]

theorem item_shape (i : DictItem) :
    sync (i.shape.inside everywhere) = sync (i.inside everywhere) := by
  cases i; simp [DictItem.shape, DictItem.inside, syncExpr_shape, expr?_shape]

theorem items_shape (is : List DictItem) :
    sync (Walk.items everywhere (Shape.items is)) = sync (Walk.items everywhere is) := by
  cases is <;> simp [Shape.items, Walk.items, item_shape, items_shape]

theorem link_shape (c : Comparison) :
    sync (c.shape.inside everywhere) = sync (c.inside everywhere) := by
  cases c; simp [Comparison.shape, Comparison.inside, syncExpr_shape]

theorem links_shape (cs : List Comparison) :
    sync (Walk.links everywhere (Shape.links cs)) = sync (Walk.links everywhere cs) := by
  cases cs <;> simp [Shape.links, Walk.links, link_shape, links_shape]

theorem clause_shape (c : Clause) : c.shape.mode = c.mode ∧
    sync (c.shape.inside everywhere) = sync (c.inside everywhere) := by
  cases c; simp [Clause.shape, Clause.inside, syncExpr_shape, exprs_shape]

theorem clauses_shape (cs : List Clause) :
    sync (Walk.clauses everywhere (Shape.clauses cs)) = sync (Walk.clauses everywhere cs) := by
  cases cs <;> simp [Shape.clauses, Walk.clauses, clause_shape, clauses_shape]

end

theorem withItems_shape (is : List WithItem) :
    sync ((is.map WithItem.shape).flatMap (WithItem.inside everywhere)) =
      sync (is.flatMap (WithItem.inside everywhere)) := by
  induction is with
  | nil => rfl
  | cons i is ih =>
    simp [WithItem.shape, WithItem.inside, Walk.exprs, syncExpr_shape, expr?_shape, ih]

mutual

theorem syncStmt_shape (s : Stmt) : syncStmt s.shape = syncStmt s := by
  cases s <;> simp only [Stmt.shape, syncStmt, Node.isSync, Stmt.inside] <;>
    simp [syncExpr_shape, exprs_shape, expr?_shape, parameters_shape, arguments_shape, Walk.exprs,
      withItems_shape, stmts_shape, handlers_shape]

theorem stmts_shape (ss : List Stmt) :
    sync (Walk.stmts everywhere (Shape.stmts ss)) = sync (Walk.stmts everywhere ss) := by
  cases ss <;> simp [Shape.stmts, Walk.stmts, syncStmt_shape, stmts_shape]

theorem handler_shape (h : Handler) :
    sync (h.shape.inside everywhere) = sync (h.inside everywhere) := by
  cases h; simp [Handler.shape, Handler.inside, expr?_shape, stmts_shape]

theorem handlers_shape (hs : List Handler) :
    sync (Walk.handlers everywhere (Shape.handlers hs)) = sync (Walk.handlers everywhere hs) := by
  cases hs <;> simp [Shape.handlers, Walk.handlers, handler_shape, handlers_shape]

end

end Synchrony

theorem Module.isSync_shape (m : Module) : m.shape.IsSync ↔ m.IsSync := by
  rw [isSync_iff, isSync_iff, shape, stmts_shape]

end AsyncErasure
