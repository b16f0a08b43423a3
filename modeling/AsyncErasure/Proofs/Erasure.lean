import AsyncErasure.Dump
import AsyncErasure.Proofs.Synchrony

namespace AsyncErasure

namespace Json

def twin (tag : String) : String :=
  if tag = "AsyncFunctionDef" then "FunctionDef"
  else if tag = "AsyncFor" then "For"
  else if tag = "AsyncWith" then "With"
  else tag

/-- What an `await` node waits for; any other document stands for itself. -/
def awaited : Json → Json
  | obj [("kind", obj [("Await", value)]), ("span", _)] => value
  | j => j

mutual

/-- Erasure of a document: tags become those of their twins, `await` nodes give way to what they
wait for, `is_async` is cleared, and nothing else changes. -/
def erase : Json → Json
  | obj fields => awaited (obj (eraseFields fields))
  | arr items => arr (eraseItems items)
  | j => j

def eraseItems : List Json → List Json
  | [] => []
  | item :: items => item.erase :: eraseItems items

def eraseFields : List (String × Json) → List (String × Json)
  | [] => []
  | (key, value) :: fields =>
    (twin key, if key = "is_async" then bool false else value.erase) :: eraseFields fields

end

end Json

namespace Dump

open Json Synchrony

@[simp] theorem seal_payload (e : Expr) : e.seal e.payload = e.dump := rfl

@[simp] theorem seal_stmt_payload (s : Stmt) : s.seal s.payload = s.dump := rfl

@[simp] theorem erase_span (s : Span) : s.dump.erase = s.dump := by
  simp [Span.dump, erase, eraseFields, twin, awaited]

@[simp] theorem erase_optional (text : Option String) : (optional text).erase = optional text := by
  cases text <;> rfl

@[simp] theorem erase_strings (texts : List String) : (strings texts).erase = strings texts := by
  induction texts with
  | nil => rfl
  | cons t ts ih => simp_all [strings, erase, eraseItems]

/-- An expression other than an `await` keeps its tag and its span. -/
theorem erase_dump (e : Expr) (h : e.tag ≠ "Await") :
    e.dump.erase = node e.span (tagged e.tag e.payload.erase) := by
  have ht : twin e.tag = e.tag ∧ e.tag ≠ "is_async" := by
    cases e with
    | comp s shape => cases shape <;> simp [Expr.tag, twin]
    | _ => simp [Expr.tag, twin]
  have hs : twin "kind" = "kind" ∧ twin "span" = "span" := by decide
  simp [Expr.dump, Expr.seal, node, tagged, erase, eraseFields, awaited, ht, hs, h]

theorem erase_await (s : Span) (value : Expr) :
    (Expr.await s value).dump.erase = value.dump.erase := by
  simp [Expr.dump, Expr.seal, Expr.tag, Expr.span, Expr.payload, node, tagged, erase, eraseFields,
    awaited, twin]

@[simp] theorem erase_constant (value : Constant) : value.dump.erase = value.dump := by
  cases value <;> simp [Constant.dump, tagged, erase, eraseFields, awaited, twin]

theorem ops_erase (links : List Comparison) :
    (Substitution.links .erasure links).map Comparison.dumpOp =
      eraseItems (links.map Comparison.dumpOp) := by
  induction links with
  | nil => rfl
  | cons c cs ih =>
    cases c
    simp [Substitution.links, Comparison.subst, Comparison.dumpOp, eraseItems, erase, ih]

mutual

theorem dump_expr (e : Expr) : (e.subst .erasure).dump = e.dump.erase := by
  cases e with
  | await s value =>
    rw [erase_await]
    exact dump_expr value
  | comp s shape elt clauses =>
    rw [erase_dump _ (by cases shape <;> simp [Expr.tag]), Expr.dump, Expr.seal]
    cases shape <;>
      simp [Expr.subst, Expr.tag, Expr.span, Expr.payload, erase, eraseFields, awaited, twin,
        dump_expr, dump_clauses]
  | _ =>
    rw [erase_dump _ (by simp [Expr.tag]), Expr.dump, Expr.seal]
    simp [Expr.subst, Expr.tag, Expr.span, Expr.payload, erase, eraseFields, awaited, twin,
      dump_expr, dump_exprs, dump_expr?, dump_parameters, dump_arguments, dump_items,
      dump_operands, ops_erase, dump_clauses]

theorem dump_exprs (es : List Expr) :
    Dump.exprs (Substitution.exprs .erasure es) = eraseItems (Dump.exprs es) := by
  cases es <;> simp [Substitution.exprs, Dump.exprs, eraseItems, dump_expr, dump_exprs]

theorem dump_expr? (e : Option Expr) :
    Dump.expr? (Substitution.expr? .erasure e) = (Dump.expr? e).erase := by
  cases e <;> simp [Substitution.expr?, Dump.expr?, erase, dump_expr]

theorem dump_param (p : Param) : (p.subst .erasure).dump = p.dump.erase := by
  cases p
  simp [Param.subst, Param.dump, erase, eraseFields, awaited, twin, dump_expr?]

theorem dump_params (ps : List Param) :
    Dump.params (Substitution.params .erasure ps) = eraseItems (Dump.params ps) := by
  cases ps <;> simp [Substitution.params, Dump.params, eraseItems, dump_param, dump_params]

theorem dump_param? (p : Option Param) :
    Dump.param? (Substitution.param? .erasure p) = (Dump.param? p).erase := by
  cases p <;> simp [Substitution.param?, Dump.param?, erase, dump_param]

theorem dump_parameters (p : Parameters) : (p.subst .erasure).dump = p.dump.erase := by
  cases p
  simp [Parameters.subst, Parameters.dump, erase, eraseFields, awaited, twin, dump_params,
    dump_param?]

theorem dump_argument (a : Argument) : (a.subst .erasure).dump = a.dump.erase := by
  cases a
  simp [Argument.subst, Argument.dump, erase, eraseFields, awaited, twin, dump_expr]

theorem dump_arguments (as : List Argument) :
    Dump.arguments (Substitution.arguments .erasure as) = eraseItems (Dump.arguments as) := by
  cases as <;>
    simp [Substitution.arguments, Dump.arguments, eraseItems, dump_argument, dump_arguments]

theorem dump_item (i : DictItem) : (i.subst .erasure).dump = i.dump.erase := by
  cases i
  simp [DictItem.subst, DictItem.dump, erase, eraseFields, awaited, twin, dump_expr, dump_expr?]

theorem dump_items (is : List DictItem) :
    Dump.items (Substitution.items .erasure is) = eraseItems (Dump.items is) := by
  cases is <;> simp [Substitution.items, Dump.items, eraseItems, dump_item, dump_items]

theorem dump_operand (c : Comparison) : (c.subst .erasure).dumpOperand = c.dumpOperand.erase := by
  cases c
  simp [Comparison.subst, Comparison.dumpOperand, dump_expr]

theorem dump_operands (cs : List Comparison) :
    Dump.operands (Substitution.links .erasure cs) = eraseItems (Dump.operands cs) := by
  cases cs <;> simp [Substitution.links, Dump.operands, eraseItems, dump_operand, dump_operands]

theorem dump_clause (c : Clause) : (c.subst .erasure).dump = c.dump.erase := by
  cases c
  simp [Clause.subst, Clause.dump, erase, eraseFields, awaited, twin, dump_expr, dump_exprs]

theorem dump_clauses (cs : List Clause) :
    Dump.clauses (Substitution.clauses .erasure cs) = eraseItems (Dump.clauses cs) := by
  cases cs <;> simp [Substitution.clauses, Dump.clauses, eraseItems, dump_clause, dump_clauses]

end

@[simp] theorem erase_aliases (names : List Alias) :
    eraseItems (names.map Alias.dump) = names.map Alias.dump := by
  induction names with
  | nil => rfl
  | cons a as ih => simp_all [Alias.dump, eraseItems, erase, eraseFields, awaited, twin]

theorem dump_withItems (is : List WithItem) :
    is.map (WithItem.dump ∘ WithItem.subst .erasure) = eraseItems (is.map WithItem.dump) := by
  induction is with
  | nil => rfl
  | cons i is ih =>
    simp_all [WithItem.subst, WithItem.dump, eraseItems, erase, eraseFields, awaited, twin,
      dump_expr, dump_expr?]

theorem erase_tag (s : Stmt) : (s.subst .erasure).tag = twin s.tag := by
  cases s with
  | functionDef s mode => cases mode <;> simp [Stmt.subst, Stmt.tag, twin]
  | forLoop s mode => cases mode <;> simp [Stmt.subst, Stmt.tag, twin]
  | withBlock s mode => cases mode <;> simp [Stmt.subst, Stmt.tag, twin]
  | _ => simp [Stmt.subst, Stmt.tag, twin]

theorem span_subst (r : Substitution) (s : Stmt) : (s.subst r).span = s.span := by
  cases s <;> rfl

/-- A statement keeps its span, and its tag becomes that of its twin. -/
theorem erase_stmt_dump (s : Stmt) :
    s.dump.erase = (s.subst .erasure).seal (s.payload.map erase) := by
  have ht : s.tag ≠ "is_async" ∧ twin s.tag ≠ "Await" := by
    rw [← erase_tag]
    cases s with
    | functionDef s mode => cases mode <;> simp [Stmt.subst, Stmt.tag]
    | forLoop s mode => cases mode <;> simp [Stmt.subst, Stmt.tag]
    | withBlock s mode => cases mode <;> simp [Stmt.subst, Stmt.tag]
    | _ => simp [Stmt.subst, Stmt.tag]
  have hs : twin "kind" = "kind" ∧ twin "span" = "span" := by decide
  rw [Stmt.dump, Stmt.seal, Stmt.seal, span_subst]
  cases hp : s.payload with
  | none =>
    have hn : twin s.tag = s.tag := by cases s <;> simp_all [Stmt.payload, Stmt.tag, twin]
    simp [node, erase, eraseFields, awaited, hs, erase_tag, hn]
  | some payload => simp [node, tagged, erase, eraseFields, awaited, hs, erase_tag, ht]

mutual

theorem dump_stmt (s : Stmt) : (s.subst .erasure).dump = s.dump.erase := by
  rw [erase_stmt_dump, Stmt.dump]
  congr 1
  cases s
  all_goals
    simp [Stmt.subst, Stmt.payload, erase, eraseFields, awaited, twin, dump_expr, dump_exprs,
      dump_expr?, dump_parameters, dump_arguments, dump_withItems, dump_stmts, dump_handlers]

theorem dump_stmts (ss : List Stmt) :
    Dump.stmts (Substitution.stmts .erasure ss) = eraseItems (Dump.stmts ss) := by
  cases ss <;> simp [Substitution.stmts, Dump.stmts, eraseItems, dump_stmt, dump_stmts]

theorem dump_handler (h : Handler) : (h.subst .erasure).dump = h.dump.erase := by
  cases h
  simp [Handler.subst, Handler.dump, erase, eraseFields, awaited, twin, dump_expr?, dump_stmts]

theorem dump_handlers (hs : List Handler) :
    Dump.handlers (Substitution.handlers .erasure hs) = eraseItems (Dump.handlers hs) := by
  cases hs <;> simp [Substitution.handlers, Dump.handlers, eraseItems, dump_handler, dump_handlers]

end

end Dump

theorem Module.dump_erase (m : Module) : m.erase.dump = m.dump.erase := by
  simp [Module.erase, Module.subst, Module.dump, Json.erase, Json.eraseFields, Json.awaited,
    Json.twin, Dump.dump_stmts]

/-- Erasure is the projection onto synchronous modules: what it gives is synchronous and is the
erased document, and it moves exactly the modules that are not synchronous. -/
theorem Module.erase_projection (m : Module) :
    m.erase.IsSync ∧ m.erase.dump = m.dump.erase ∧ (m.erase = m ↔ m.IsSync) := by
  refine ⟨m.erase_isSync, m.dump_erase, m.erase_eq_self_iff⟩

end AsyncErasure
