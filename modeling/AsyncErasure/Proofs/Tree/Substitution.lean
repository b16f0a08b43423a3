import AsyncErasure.Proofs.Tree.Shape
import AsyncErasure.Tree.Substitution

namespace AsyncErasure

/-- The third substitution does what the first two do in turn. -/
structure Substitution.Makes (r q t : Substitution) : Prop where
  name : ∀ id, q.name (r.name id) = t.name id
  literal : ∀ text, q.literal (r.literal text) = t.literal text
  mode : ∀ m, q.mode (r.mode m) = t.mode m
  await : ∀ s e, (r.await s e).subst q = t.await s (e.subst q)

def Substitution.IsShaped (r : Substitution) : Prop :=
  ∀ s e, (r.await s e).shape = r.await .nowhere e.shape

namespace Substitution.Makes

variable {r q t : Substitution}

mutual

theorem expr (h : Makes r q t) (e : Expr) : (e.subst r).subst q = e.subst t := by
  cases e with
  | await s value =>
    show (r.await s (value.subst r)).subst q = t.await s (value.subst t)
    rw [h.await, expr h value]
  | _ =>
    simp [Expr.subst, h.name, h.literal, Function.comp_def, expr h, exprs h, expr? h, parameters h,
      arguments h, items h, links h, clauses h]

theorem exprs (h : Makes r q t) (es : List Expr) :
    Substitution.exprs q (Substitution.exprs r es) = Substitution.exprs t es := by
  cases es <;> simp [Substitution.exprs, expr h, exprs h]

theorem expr? (h : Makes r q t) (e : Option Expr) :
    Substitution.expr? q (Substitution.expr? r e) = Substitution.expr? t e := by
  cases e <;> simp [Substitution.expr?, expr h]

theorem param (h : Makes r q t) (p : Param) : (p.subst r).subst q = p.subst t := by
  cases p; simp [Param.subst, h.name, expr? h]

theorem params (h : Makes r q t) (ps : List Param) :
    Substitution.params q (Substitution.params r ps) = Substitution.params t ps := by
  cases ps <;> simp [Substitution.params, param h, params h]

theorem param? (h : Makes r q t) (p : Option Param) :
    Substitution.param? q (Substitution.param? r p) = Substitution.param? t p := by
  cases p <;> simp [Substitution.param?, param h]

theorem parameters (h : Makes r q t) (p : Parameters) : (p.subst r).subst q = p.subst t := by
  cases p; simp [Parameters.subst, params h, param? h]

theorem argument (h : Makes r q t) (a : Argument) : (a.subst r).subst q = a.subst t := by
  cases a; simp [Argument.subst, h.name, Function.comp_def, expr h]

theorem arguments (h : Makes r q t) (as : List Argument) :
    Substitution.arguments q (Substitution.arguments r as) = Substitution.arguments t as := by
  cases as <;> simp [Substitution.arguments, argument h, arguments h]

theorem item (h : Makes r q t) (i : DictItem) : (i.subst r).subst q = i.subst t := by
  cases i; simp [DictItem.subst, expr h, expr? h]

theorem items (h : Makes r q t) (is : List DictItem) :
    Substitution.items q (Substitution.items r is) = Substitution.items t is := by
  cases is <;> simp [Substitution.items, item h, items h]

theorem link (h : Makes r q t) (c : Comparison) : (c.subst r).subst q = c.subst t := by
  cases c; simp [Comparison.subst, expr h]

theorem links (h : Makes r q t) (cs : List Comparison) :
    Substitution.links q (Substitution.links r cs) = Substitution.links t cs := by
  cases cs <;> simp [Substitution.links, link h, links h]

theorem clause (h : Makes r q t) (c : Clause) : (c.subst r).subst q = c.subst t := by
  cases c; simp [Clause.subst, h.mode, expr h, exprs h]

theorem clauses (h : Makes r q t) (cs : List Clause) :
    Substitution.clauses q (Substitution.clauses r cs) = Substitution.clauses t cs := by
  cases cs <;> simp [Substitution.clauses, clause h, clauses h]

end

theorem withItem (h : Makes r q t) (i : WithItem) : (i.subst r).subst q = i.subst t := by
  simp [WithItem.subst, h.expr, h.expr?]

theorem substModule (h : Makes r q t) (a : Alias) :
    (a.substModule r).substModule q = a.substModule t := by
  simp [Alias.substModule, h.name, Function.comp_def]

theorem substName (h : Makes r q t) (a : Alias) : (a.substName r).substName q = a.substName t := by
  simp [Alias.substName, h.name, Function.comp_def]

mutual

theorem stmt (h : Makes r q t) (s : Stmt) : (s.subst r).subst q = s.subst t := by
  cases s <;>
    simp [Stmt.subst, h.name, h.mode, Function.comp_def, h.expr, h.exprs, h.expr?, h.parameters,
      h.arguments, h.withItem, h.substModule, h.substName, stmts h, handlers h]

theorem stmts (h : Makes r q t) (ss : List Stmt) :
    Substitution.stmts q (Substitution.stmts r ss) = Substitution.stmts t ss := by
  cases ss <;> simp [Substitution.stmts, stmt h, stmts h]

theorem handler (h : Makes r q t) (x : Handler) : (x.subst r).subst q = x.subst t := by
  cases x; simp [Handler.subst, h.name, Function.comp_def, h.expr?, stmts h]

theorem handlers (h : Makes r q t) (xs : List Handler) :
    Substitution.handlers q (Substitution.handlers r xs) = Substitution.handlers t xs := by
  cases xs <;> simp [Substitution.handlers, handler h, handlers h]

end

theorem module (h : Makes r q t) (m : Module) : (m.subst r).subst q = m.subst t :=
  congrArg Module.mk (h.stmts m.body)

end Substitution.Makes

namespace Substitution.IsShaped

variable {r : Substitution}

mutual

theorem expr (h : r.IsShaped) (e : Expr) : (e.subst r).shape = e.shape.subst r := by
  cases e with
  | await s value =>
    show (r.await s (value.subst r)).shape = r.await .nowhere (value.shape.subst r)
    rw [h, expr h value]
  | _ =>
    simp [Expr.subst, Expr.shape, expr h, exprs h, expr? h, parameters h, arguments h, items h,
      links h, clauses h]

theorem exprs (h : r.IsShaped) (es : List Expr) :
    Shape.exprs (Substitution.exprs r es) = Substitution.exprs r (Shape.exprs es) := by
  cases es <;> simp [Substitution.exprs, Shape.exprs, expr h, exprs h]

theorem expr? (h : r.IsShaped) (e : Option Expr) :
    Shape.expr? (Substitution.expr? r e) = Substitution.expr? r (Shape.expr? e) := by
  cases e <;> simp [Substitution.expr?, Shape.expr?, expr h]

theorem param (h : r.IsShaped) (p : Param) : (p.subst r).shape = p.shape.subst r := by
  cases p; simp [Param.subst, Param.shape, expr? h]

theorem params (h : r.IsShaped) (ps : List Param) :
    Shape.params (Substitution.params r ps) = Substitution.params r (Shape.params ps) := by
  cases ps <;> simp [Substitution.params, Shape.params, param h, params h]

theorem param? (h : r.IsShaped) (p : Option Param) :
    Shape.param? (Substitution.param? r p) = Substitution.param? r (Shape.param? p) := by
  cases p <;> simp [Substitution.param?, Shape.param?, param h]

theorem parameters (h : r.IsShaped) (p : Parameters) : (p.subst r).shape = p.shape.subst r := by
  cases p; simp [Parameters.subst, Parameters.shape, params h, param? h]

theorem argument (h : r.IsShaped) (a : Argument) : (a.subst r).shape = a.shape.subst r := by
  cases a; simp [Argument.subst, Argument.shape, expr h]

theorem arguments (h : r.IsShaped) (as : List Argument) :
    Shape.arguments (Substitution.arguments r as) =
      Substitution.arguments r (Shape.arguments as) := by
  cases as <;> simp [Substitution.arguments, Shape.arguments, argument h, arguments h]

theorem item (h : r.IsShaped) (i : DictItem) : (i.subst r).shape = i.shape.subst r := by
  cases i; simp [DictItem.subst, DictItem.shape, expr h, expr? h]

theorem items (h : r.IsShaped) (is : List DictItem) :
    Shape.items (Substitution.items r is) = Substitution.items r (Shape.items is) := by
  cases is <;> simp [Substitution.items, Shape.items, item h, items h]

theorem link (h : r.IsShaped) (c : Comparison) : (c.subst r).shape = c.shape.subst r := by
  cases c; simp [Comparison.subst, Comparison.shape, expr h]

theorem links (h : r.IsShaped) (cs : List Comparison) :
    Shape.links (Substitution.links r cs) = Substitution.links r (Shape.links cs) := by
  cases cs <;> simp [Substitution.links, Shape.links, link h, links h]

theorem clause (h : r.IsShaped) (c : Clause) : (c.subst r).shape = c.shape.subst r := by
  cases c; simp [Clause.subst, Clause.shape, expr h, exprs h]

theorem clauses (h : r.IsShaped) (cs : List Clause) :
    Shape.clauses (Substitution.clauses r cs) = Substitution.clauses r (Shape.clauses cs) := by
  cases cs <;> simp [Substitution.clauses, Shape.clauses, clause h, clauses h]

end

theorem withItem (h : r.IsShaped) (i : WithItem) : (i.subst r).shape = i.shape.subst r := by
  simp [WithItem.subst, WithItem.shape, h.expr, h.expr?]

mutual

theorem stmt (h : r.IsShaped) (s : Stmt) : (s.subst r).shape = s.shape.subst r := by
  cases s <;>
    simp [Stmt.subst, Stmt.shape, h.expr, h.exprs, h.expr?, h.parameters, h.arguments, h.withItem,
      stmts h, handlers h]

theorem stmts (h : r.IsShaped) (ss : List Stmt) :
    Shape.stmts (Substitution.stmts r ss) = Substitution.stmts r (Shape.stmts ss) := by
  cases ss <;> simp [Substitution.stmts, Shape.stmts, stmt h, stmts h]

theorem handler (h : r.IsShaped) (x : Handler) : (x.subst r).shape = x.shape.subst r := by
  cases x; simp [Handler.subst, Handler.shape, h.expr?, stmts h]

theorem handlers (h : r.IsShaped) (xs : List Handler) :
    Shape.handlers (Substitution.handlers r xs) = Substitution.handlers r (Shape.handlers xs) := by
  cases xs <;> simp [Substitution.handlers, Shape.handlers, handler h, handlers h]

end

theorem module (h : r.IsShaped) (m : Module) : (m.subst r).shape = m.shape.subst r :=
  congrArg Module.mk (h.stmts m.body)

end Substitution.IsShaped

end AsyncErasure
