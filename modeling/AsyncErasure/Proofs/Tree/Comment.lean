import AsyncErasure.Proofs.Synchrony
import AsyncErasure.Proofs.Tree.Child
import AsyncErasure.Token.Basic

namespace AsyncErasure

structure Comment where
  text : String
  inline : Bool
  line : Nat
deriving DecidableEq, Repr

def Token.comment? (t : Token) : Option Comment :=
  match t.lexeme with
  | .comment text inline => some ⟨text, inline, t.span.line⟩
  | _ => none

open Node (enter)

def Node.comment? : Node → Option Comment
  | .stmt (.comment s text inline) => some ⟨text, inline, s.line⟩
  | _ => none

namespace Walk

def comments (nodes : List Node) : List Comment := nodes.filterMap Node.comment?

@[simp] theorem comments_nil : comments [] = [] := rfl

@[simp] theorem comments_append (a b : List Node) : comments (a ++ b) = comments a ++ comments b :=
  List.filterMap_append

section

variable {stop : Node → Bool}

/-- A node that is no comment and holds none. -/
theorem comments_enter {n : Node} {inside : List Node} (hn : n.comment? = none)
    (h : comments inside = []) : comments (enter stop n inside) = [] := by
  unfold comments at h ⊢
  rw [enter, List.filterMap_cons_none hn]
  split
  · rfl
  · exact h

mutual

theorem comments_expr (e : Expr) : comments (e.inside stop) = [] := by
  have hstep (x : Expr) (h : comments (x.inside stop) = []) :
    comments (enter stop (.expr x) (x.inside stop)) = [] := comments_enter rfl h
  cases e with
  | lambda s params body =>
    simp [Expr.inside, hstep _ (comments_expr body),
      comments_enter (n := .parameters params) rfl (comments_parameters params)]
  | _ =>
    simp [Expr.inside, hstep, comments_expr, comments_exprs, comments_expr?, comments_arguments,
      comments_items, comments_links, comments_clauses]

theorem comments_exprs (es : List Expr) : comments (exprs stop es) = [] := by
  cases es with
  | nil => rfl
  | cons e es =>
    simp [exprs, comments_enter (n := .expr e) rfl (comments_expr e), comments_exprs es]

theorem comments_expr? (e : Option Expr) : comments (expr? stop e) = [] := by
  cases e with
  | none => rfl
  | some e => exact comments_enter rfl (comments_expr e)

theorem comments_param (p : Param) : comments (p.inside stop) = [] := by
  cases p; simp [Param.inside, comments_expr?]

theorem comments_params (ps : List Param) : comments (params stop ps) = [] := by
  cases ps with
  | nil => rfl
  | cons p ps =>
    simp [params, comments_enter (n := .param p) rfl (comments_param p), comments_params ps]

theorem comments_param? (p : Option Param) : comments (param? stop p) = [] := by
  cases p with
  | none => rfl
  | some p => exact comments_enter rfl (comments_param p)

theorem comments_parameters (p : Parameters) : comments (p.inside stop) = [] := by
  cases p; simp [Parameters.inside, comments_params, comments_param?]

theorem comments_argument (a : Argument) : comments (a.inside stop) = [] := by
  cases a with
  | mk name value => exact comments_enter rfl (comments_expr value)

theorem comments_arguments (as : List Argument) : comments (arguments stop as) = [] := by
  cases as with
  | nil => rfl
  | cons a as =>
    simp [arguments, comments_enter (n := .argument a) rfl (comments_argument a),
      comments_arguments as]

theorem comments_item (i : DictItem) : comments (i.inside stop) = [] := by
  cases i with
  | mk key value =>
    simp [DictItem.inside, comments_expr? key,
      comments_enter (n := .expr value) rfl (comments_expr value)]

theorem comments_items (is : List DictItem) : comments (items stop is) = [] := by
  cases is <;> simp [items, comments_item, comments_items]

theorem comments_link (c : Comparison) : comments (c.inside stop) = [] := by
  cases c with
  | mk op operand => exact comments_enter rfl (comments_expr operand)

theorem comments_links (cs : List Comparison) : comments (links stop cs) = [] := by
  cases cs <;> simp [links, comments_link, comments_links]

theorem comments_clause (c : Clause) : comments (c.inside stop) = [] := by
  cases c with
  | mk mode target iter conditions =>
    simp [Clause.inside, comments_enter (n := .expr target) rfl (comments_expr target),
      comments_enter (n := .expr iter) rfl (comments_expr iter), comments_exprs]

theorem comments_clauses (cs : List Clause) : comments (clauses stop cs) = [] := by
  cases cs with
  | nil => rfl
  | cons c cs =>
    simp [clauses, comments_enter (n := .clause c) rfl (comments_clause c), comments_clauses cs]

end

variable (stop : Node → Bool)

theorem comments_withItems (is : List WithItem) :
    comments (is.flatMap (WithItem.inside stop)) = [] := by
  induction is with
  | nil => rfl
  | cons i is ih => simp [WithItem.inside, comments_exprs, comments_expr?, ih]

end

section Statements

open Synchrony (everywhere)

/-- The comments of a statement, its own before those inside it. -/
def ofStmt (s : Stmt) : List Comment := comments (enter everywhere (.stmt s) (s.inside everywhere))

@[simp] theorem comments_block (body : List Stmt) (inside : List Node) :
    comments (enter everywhere (.block body) inside) = comments inside := rfl

@[simp] theorem comments_enter_parameters (p : Parameters) :
    comments (enter everywhere (.parameters p) (p.inside everywhere)) = [] :=
  comments_enter rfl (comments_parameters p)

@[simp] theorem comments_stmts (ss : List Stmt) :
    comments (stmts everywhere ss) = ss.flatMap ofStmt := by
  induction ss with
  | nil => rfl
  | cons s ss ih => rw [stmts, comments_append, ih, List.flatMap_cons, ofStmt]

@[simp] theorem comments_handlers (hs : List Handler) :
    comments (handlers everywhere hs) = (hs.flatMap Handler.body).flatMap ofStmt := by
  induction hs with
  | nil => rfl
  | cons h hs ih =>
    obtain ⟨type, name, body⟩ := h
    simp [handlers, Handler.inside, comments_expr?, ih]

theorem ofStmt_eq (s : Stmt) :
    ofStmt s = (Node.stmt s).comment?.toList ++ s.children.flatMap ofStmt := by
  have hinside : comments (s.inside everywhere) = s.children.flatMap ofStmt := by
    cases s <;>
      simp [Stmt.inside, Stmt.children, comments_exprs, comments_expr?, comments_arguments,
        comments_withItems]
  rw [ofStmt, enter, if_neg (by simp), ← hinside]
  cases h : (Node.stmt s).comment? with
  | none => exact List.filterMap_cons_none h
  | some c => exact List.filterMap_cons_some h

end Statements

end Walk

end AsyncErasure
