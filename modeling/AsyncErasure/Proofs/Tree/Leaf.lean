import AsyncErasure.Proofs.Synchrony
import AsyncErasure.Token.Basic
import Mathlib.Algebra.BigOperators.Group.Multiset.Basic
import Mathlib.Tactic.Abel

namespace AsyncErasure

/-- Lexemes that a tree spells out. Keywords and symbols show in its form only. -/
def Lexeme.isLeaf : Lexeme → Bool
  | name _ | number _ | string _ => true
  | _ => false

def pathNames (path : String) : List String := (path.toList.splitOn '.').map String.ofList

/-- The names of an import from a module; the star that imports everything is none. -/
def Alias.names (a : Alias) : List String :=
  (if a.name = "*" then [] else [a.name]) ++ a.asName.toList

def Alias.pathNames (a : Alias) : List String := AsyncErasure.pathNames a.name ++ a.asName.toList

def Parameters.all (p : Parameters) : List Param :=
  p.posonly ++ p.args ++ p.vararg.toList ++ p.kwonly ++ p.kwarg.toList

/-- The identifiers of a statement outside its expressions and blocks. -/
def Stmt.names : Stmt → List String
  | .functionDef _ _ name .. | .classDef _ name .. => [name]
  | .importModules _ as => as.flatMap Alias.pathNames
  | .importFrom _ path as _ => path.toList.flatMap pathNames ++ as.flatMap Alias.names
  | .global _ names | .nonlocal _ names => names
  | .tryBlock _ _ handlers _ _ _ => handlers.flatMap fun h => h.name.toList
  | _ => []

def Node.leaves : Node → List Lexeme
  | .stmt s => s.names.map .name
  | .expr (.name _ id) => [.name id]
  | .expr (.attr _ _ field) => [.name field]
  | .expr (.constant _ (.number text)) => [.number text]
  | .expr (.str _ parts) => parts.map .string
  | .param p => [.name p.name]
  | .argument a => a.name.toList.map .name
  | _ => []

open Node (enter)
open Synchrony (everywhere)

namespace Leaf

def total {α : Type} (leaves : α → Multiset Lexeme) (as : List α) : Multiset Lexeme :=
  (as.map leaves).sum

section Total

variable {α : Type} (leaves : α → Multiset Lexeme)

@[simp] theorem total_nil : total leaves [] = 0 := rfl

@[simp] theorem total_cons (a : α) (as : List α) :
    total leaves (a :: as) = leaves a + total leaves as := by
  simp [total]

@[simp] theorem total_append (as bs : List α) :
    total leaves (as ++ bs) = total leaves as + total leaves bs := by
  simp [total]

theorem total_flatMap {β : Type} (f : β → List α) (bs : List β) :
    total leaves (bs.flatMap f) = total (fun b => total leaves (f b)) bs := by
  induction bs with
  | nil => rfl
  | cons b bs ih => simp [ih]

end Total

def names (ids : List String) : Multiset Lexeme := total (fun id => {.name id}) ids

@[simp] theorem coe_map_name (ids : List String) :
    (ids.map Lexeme.name : Multiset Lexeme) = names ids := by
  induction ids with
  | nil => rfl
  | cons id ids ih =>
    rw [List.map_cons, ← Multiset.cons_coe, ih, names, names, total_cons]
    rfl

@[simp] theorem names_nil : names [] = 0 := rfl

@[simp] theorem names_append (a b : List String) : names (a ++ b) = names a + names b :=
  total_append ..

def onWalk (nodes : List Node) : Multiset Lexeme := nodes.flatMap Node.leaves

@[simp] theorem onWalk_nil : onWalk [] = 0 := rfl

@[simp] theorem onWalk_append (a b : List Node) : onWalk (a ++ b) = onWalk a + onWalk b := by
  simp [onWalk]

theorem onWalk_enter (n : Node) (inside : List Node) :
    onWalk (enter everywhere n inside) = n.leaves + onWalk inside := by
  simp [onWalk, enter]

def ofExpr (e : Expr) : Multiset Lexeme := (Node.expr e).leaves + onWalk (e.inside everywhere)

def ofParam (p : Param) : Multiset Lexeme :=
  {.name p.name} + (total ofExpr p.hint.toList + total ofExpr p.default.toList)

def ofParameters (p : Parameters) : Multiset Lexeme := total ofParam p.all

def ofArgument (a : Argument) : Multiset Lexeme := names a.name.toList + ofExpr a.value

def ofItem (i : DictItem) : Multiset Lexeme := total ofExpr i.key.toList + ofExpr i.value

def ofLink (c : Comparison) : Multiset Lexeme := ofExpr c.operand

def ofClause (c : Clause) : Multiset Lexeme :=
  ofExpr c.target + (ofExpr c.iter + total ofExpr c.conditions)

def ofWithItem (i : WithItem) : Multiset Lexeme := ofExpr i.context + total ofExpr i.target.toList

@[simp] theorem onWalk_expr (e : Expr) :
    onWalk (enter everywhere (.expr e) (e.inside everywhere)) = ofExpr e := onWalk_enter ..

@[simp] theorem onWalk_exprs (es : List Expr) :
    onWalk (Walk.exprs everywhere es) = total ofExpr es := by
  induction es with
  | nil => rfl
  | cons e es ih => rw [Walk.exprs, onWalk_append, onWalk_expr, ih, total_cons]

@[simp] theorem onWalk_expr? (e : Option Expr) :
    onWalk (Walk.expr? everywhere e) = total ofExpr e.toList := by
  cases e with
  | none => rfl
  | some e => simp [Walk.expr?]

@[simp] theorem onWalk_param (p : Param) :
    onWalk (enter everywhere (.param p) (p.inside everywhere)) = ofParam p := by
  obtain ⟨name, hint, default⟩ := p
  simp [onWalk_enter, Param.inside, Node.leaves, ofParam]

@[simp] theorem onWalk_params (ps : List Param) :
    onWalk (Walk.params everywhere ps) = total ofParam ps := by
  induction ps with
  | nil => rfl
  | cons p ps ih => simp [Walk.params, ih]

@[simp] theorem onWalk_param? (p : Option Param) :
    onWalk (Walk.param? everywhere p) = total ofParam p.toList := by
  cases p <;> simp [Walk.param?]

@[simp] theorem onWalk_parameters (p : Parameters) :
    onWalk (enter everywhere (.parameters p) (p.inside everywhere)) = ofParameters p := by
  obtain ⟨posonly, args, vararg, kwonly, kwarg⟩ := p
  simp [onWalk_enter, Parameters.inside, Node.leaves, ofParameters, Parameters.all]

@[simp] theorem onWalk_arguments (as : List Argument) :
    onWalk (Walk.arguments everywhere as) = total ofArgument as := by
  induction as with
  | nil => rfl
  | cons a as ih =>
    obtain ⟨name, value⟩ := a
    simp [onWalk_enter (.argument _), Walk.arguments, Argument.inside, Node.leaves, ofArgument, ih]

@[simp] theorem onWalk_items (is : List DictItem) :
    onWalk (Walk.items everywhere is) = total ofItem is := by
  induction is with
  | nil => rfl
  | cons i is ih =>
    obtain ⟨key, value⟩ := i
    simp [Walk.items, DictItem.inside, ofItem, ih, add_assoc]

@[simp] theorem onWalk_links (cs : List Comparison) :
    onWalk (Walk.links everywhere cs) = total ofLink cs := by
  induction cs with
  | nil => rfl
  | cons c cs ih =>
    obtain ⟨op, operand⟩ := c
    simp [Walk.links, Comparison.inside, ofLink, ih]

@[simp] theorem onWalk_clauses (cs : List Clause) :
    onWalk (Walk.clauses everywhere cs) = total ofClause cs := by
  induction cs with
  | nil => rfl
  | cons c cs ih =>
    obtain ⟨mode, target, iter, conditions⟩ := c
    simp [onWalk_enter (.clause _), Walk.clauses, Clause.inside, ofClause, Node.leaves, ih]

def parts : Expr → Multiset Lexeme
  | .boolOp _ _ es | .set _ es | .list _ es | .tuple _ es _ => total ofExpr es
  | .named _ left right | .binOp _ _ left right | .subscript _ left right =>
    ofExpr left + ofExpr right
  | .unaryOp _ _ e | .await _ e | .yieldFrom _ e | .starred _ e => ofExpr e
  | .lambda _ params body => ofParameters params + ofExpr body
  | .ifElse _ test body orelse => ofExpr test + (ofExpr body + ofExpr orelse)
  | .dict _ items => total ofItem items
  | .comp _ _ elt clauses => total ofClause clauses + ofExpr elt
  | .dictComp _ key value clauses => total ofClause clauses + (ofExpr key + ofExpr value)
  | .yield _ e => total ofExpr e.toList
  | .compare _ left links => ofExpr left + total ofLink links
  | .call _ func args keywords => ofExpr func + (total ofExpr args + total ofArgument keywords)
  | .constant _ (.number text) => {.number text}
  | .constant _ _ => 0
  | .str _ parts => parts.map Lexeme.string
  | .attr _ e field => {.name field} + ofExpr e
  | .name _ id => {.name id}
  | .slice _ lower upper step =>
    total ofExpr lower.toList + (total ofExpr upper.toList + total ofExpr step.toList)

theorem ofExpr_eq (e : Expr) : ofExpr e = parts e := by
  rw [ofExpr]
  cases e with
  | constant s value => cases value <;> rfl
  | _ => simp [Node.leaves, Expr.inside, parts]

section Statements

def ofStmt (s : Stmt) : Multiset Lexeme := (Node.stmt s).leaves + onWalk (s.inside everywhere)

def ofHandler (h : Handler) : Multiset Lexeme :=
  names h.name.toList + (total ofExpr h.type.toList + total ofStmt h.body)

@[simp] theorem onWalk_stmts (ss : List Stmt) :
    onWalk (Walk.stmts everywhere ss) = total ofStmt ss := by
  induction ss with
  | nil => rfl
  | cons s ss ih => rw [Walk.stmts, onWalk_append, onWalk_enter, ih, total_cons, ofStmt]

@[simp] theorem onWalk_block (body : List Stmt) :
    onWalk (enter everywhere (.block body) (Walk.stmts everywhere body)) = total ofStmt body := by
  simp [onWalk_enter, Node.leaves]

@[simp] theorem onWalk_withItems (is : List WithItem) :
    onWalk (is.flatMap (WithItem.inside everywhere)) = total ofWithItem is := by
  induction is with
  | nil => rfl
  | cons i is ih => simp [WithItem.inside, ofWithItem, ih, add_assoc]

/-- The names of handlers belong to their statement. -/
theorem onWalk_handlers (hs : List Handler) :
    names (hs.flatMap fun h => h.name.toList) + onWalk (Walk.handlers everywhere hs) =
      total ofHandler hs := by
  induction hs with
  | nil => rfl
  | cons h hs ih =>
    obtain ⟨type, name, body⟩ := h
    rw [total_cons, ← ih]
    simp only [List.flatMap_cons, names_append, Walk.handlers, Handler.inside, onWalk_append,
      onWalk_expr?, onWalk_block, ofHandler]
    abel

def stmtParts : Stmt → Multiset Lexeme
  | .functionDef _ _ name params returns decorators body =>
    {.name name} + (total ofExpr decorators + (ofParameters params +
      (total ofExpr returns.toList + total ofStmt body)))
  | .classDef _ name bases keywords decorators body =>
    {.name name} + (total ofExpr decorators + (total ofExpr bases + (total ofArgument keywords +
      total ofStmt body)))
  | .ret _ value => total ofExpr value.toList
  | .delete _ targets => total ofExpr targets
  | .assign _ targets value => total ofExpr targets + ofExpr value
  | .augAssign _ target _ value => ofExpr target + ofExpr value
  | .annAssign _ target hint value _ => ofExpr target + (ofExpr hint + total ofExpr value.toList)
  | .forLoop _ _ target iter body orelse =>
    ofExpr target + (ofExpr iter + (total ofStmt body + total ofStmt orelse))
  | .whileLoop _ test body orelse | .branch _ test body orelse =>
    ofExpr test + (total ofStmt body + total ofStmt orelse)
  | .withBlock _ _ items body => total ofWithItem items + total ofStmt body
  | .raise _ exc cause => total ofExpr exc.toList + total ofExpr cause.toList
  | .tryBlock _ body handlers orelse final _ =>
    total ofStmt body + (total ofHandler handlers + (total ofStmt orelse + total ofStmt final))
  | .assert _ test msg => ofExpr test + total ofExpr msg.toList
  | .importModules _ as => names (as.flatMap Alias.pathNames)
  | .importFrom _ path as _ =>
    names (path.toList.flatMap pathNames) + names (as.flatMap Alias.names)
  | .global _ ids | .nonlocal _ ids => names ids
  | .expr _ value => ofExpr value
  | .pass _ | .breakLoop _ | .continueLoop _ | .comment _ _ _ | .blank _ => 0

theorem ofStmt_eq (s : Stmt) : ofStmt s = stmtParts s := by
  rw [ofStmt, Node.leaves, coe_map_name]
  cases s with
  | tryBlock s body handlers orelse final star =>
    rw [stmtParts, ← onWalk_handlers]
    simp only [Stmt.names, Stmt.inside, onWalk_append, onWalk_block]
    abel
  | functionDef | classDef => simp [Stmt.names, Stmt.inside, stmtParts, names]
  | _ => simp [Stmt.names, Stmt.inside, stmtParts, add_assoc]

theorem onWalk_module (m : Module) : onWalk m.walk = total ofStmt m.body := by
  simp [Module.walk, Module.walkUntil, onWalk_enter, Node.leaves]

end Statements

end Leaf

end AsyncErasure
