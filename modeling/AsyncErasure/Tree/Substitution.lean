import AsyncErasure.Tree.Stmt

/-!
Substitution in a tree: every identifier, string literal, mode and `await` is replaced, and the
tree keeps its shape and its spans.
-/

namespace AsyncErasure

structure Substitution where
  /-- What becomes of an identifier. -/
  name : String → String
  /-- What becomes of a string literal. -/
  literal : String → String
  /-- What becomes of the mode of a statement or a clause. -/
  mode : Mode → Mode
  /-- What becomes of an `await` of the given span around an operand that is done. -/
  await : Span → Expr → Expr

mutual

def Expr.subst (r : Substitution) : Expr → Expr
  | .boolOp s op values => .boolOp s op (Substitution.exprs r values)
  | .named s target value => .named s (target.subst r) (value.subst r)
  | .binOp s op left right => .binOp s op (left.subst r) (right.subst r)
  | .unaryOp s op operand => .unaryOp s op (operand.subst r)
  | .lambda s params body => .lambda s (params.subst r) (body.subst r)
  | .ifElse s test body orelse =>
    .ifElse s (test.subst r) (body.subst r) (orelse.subst r)
  | .dict s items => .dict s (Substitution.items r items)
  | .set s elts => .set s (Substitution.exprs r elts)
  | .comp s shape elt clauses => .comp s shape (elt.subst r) (Substitution.clauses r clauses)
  | .dictComp s key value clauses =>
    .dictComp s (key.subst r) (value.subst r) (Substitution.clauses r clauses)
  | .await s value => r.await s (value.subst r)
  | .yield s value => .yield s (Substitution.expr? r value)
  | .yieldFrom s value => .yieldFrom s (value.subst r)
  | .compare s left links => .compare s (left.subst r) (Substitution.links r links)
  | .call s func args keywords =>
    .call s (func.subst r) (Substitution.exprs r args) (Substitution.arguments r keywords)
  | .constant s value => .constant s value
  | .str s parts => .str s (parts.map r.literal)
  | .attr s value field => .attr s (value.subst r) (r.name field)
  | .subscript s value index => .subscript s (value.subst r) (index.subst r)
  | .starred s value => .starred s (value.subst r)
  | .name s id => .name s (r.name id)
  | .list s elts => .list s (Substitution.exprs r elts)
  | .tuple s elts parenthesized => .tuple s (Substitution.exprs r elts) parenthesized
  | .slice s lower upper step =>
    .slice s (Substitution.expr? r lower) (Substitution.expr? r upper) (Substitution.expr? r step)

def Substitution.exprs (r : Substitution) : List Expr → List Expr
  | [] => []
  | e :: es => e.subst r :: Substitution.exprs r es

def Substitution.expr? (r : Substitution) : Option Expr → Option Expr
  | none => none
  | some e => some (e.subst r)

def Param.subst (r : Substitution) : Param → Param
  | ⟨name, hint, default⟩ =>
    ⟨r.name name, Substitution.expr? r hint, Substitution.expr? r default⟩

def Substitution.params (r : Substitution) : List Param → List Param
  | [] => []
  | p :: ps => p.subst r :: Substitution.params r ps

def Substitution.param? (r : Substitution) : Option Param → Option Param
  | none => none
  | some p => some (p.subst r)

def Parameters.subst (r : Substitution) : Parameters → Parameters
  | ⟨posonly, args, vararg, kwonly, kwarg⟩ =>
    ⟨Substitution.params r posonly, Substitution.params r args, Substitution.param? r vararg,
      Substitution.params r kwonly, Substitution.param? r kwarg⟩

def Argument.subst (r : Substitution) : Argument → Argument
  | ⟨name, value⟩ => ⟨name.map r.name, value.subst r⟩

def Substitution.arguments (r : Substitution) : List Argument → List Argument
  | [] => []
  | a :: as => a.subst r :: Substitution.arguments r as

def DictItem.subst (r : Substitution) : DictItem → DictItem
  | ⟨key, value⟩ => ⟨Substitution.expr? r key, value.subst r⟩

def Substitution.items (r : Substitution) : List DictItem → List DictItem
  | [] => []
  | i :: is => i.subst r :: Substitution.items r is

def Comparison.subst (r : Substitution) : Comparison → Comparison
  | ⟨op, operand⟩ => ⟨op, operand.subst r⟩

def Substitution.links (r : Substitution) : List Comparison → List Comparison
  | [] => []
  | c :: cs => c.subst r :: Substitution.links r cs

def Clause.subst (r : Substitution) : Clause → Clause
  | ⟨mode, target, iter, conditions⟩ =>
    ⟨r.mode mode, target.subst r, iter.subst r, Substitution.exprs r conditions⟩

def Substitution.clauses (r : Substitution) : List Clause → List Clause
  | [] => []
  | c :: cs => c.subst r :: Substitution.clauses r cs

end

def WithItem.subst (r : Substitution) (i : WithItem) : WithItem :=
  ⟨i.context.subst r, Substitution.expr? r i.target⟩

/-- The alias of a module: its path stays. -/
def Alias.substModule (r : Substitution) (a : Alias) : Alias := ⟨a.name, a.asName.map r.name⟩

/-- The alias of a name taken from a module. -/
def Alias.substName (r : Substitution) (a : Alias) : Alias := ⟨r.name a.name, a.asName.map r.name⟩

mutual

def Stmt.subst (r : Substitution) : Stmt → Stmt
  | .functionDef s mode name params returns decorators body =>
    .functionDef s (r.mode mode) (r.name name) (params.subst r) (Substitution.expr? r returns)
      (Substitution.exprs r decorators) (Substitution.stmts r body)
  | .classDef s name bases keywords decorators body =>
    .classDef s (r.name name) (Substitution.exprs r bases) (Substitution.arguments r keywords)
      (Substitution.exprs r decorators) (Substitution.stmts r body)
  | .ret s value => .ret s (Substitution.expr? r value)
  | .delete s targets => .delete s (Substitution.exprs r targets)
  | .assign s targets value => .assign s (Substitution.exprs r targets) (value.subst r)
  | .augAssign s target op value => .augAssign s (target.subst r) op (value.subst r)
  | .annAssign s target hint value simple =>
    .annAssign s (target.subst r) (hint.subst r) (Substitution.expr? r value) simple
  | .forLoop s mode target iter body orelse =>
    .forLoop s (r.mode mode) (target.subst r) (iter.subst r) (Substitution.stmts r body)
      (Substitution.stmts r orelse)
  | .whileLoop s test body orelse =>
    .whileLoop s (test.subst r) (Substitution.stmts r body) (Substitution.stmts r orelse)
  | .branch s test body orelse =>
    .branch s (test.subst r) (Substitution.stmts r body) (Substitution.stmts r orelse)
  | .withBlock s mode items body =>
    .withBlock s (r.mode mode) (items.map (WithItem.subst r)) (Substitution.stmts r body)
  | .raise s exc cause => .raise s (Substitution.expr? r exc) (Substitution.expr? r cause)
  | .tryBlock s body handlers orelse final star =>
    .tryBlock s (Substitution.stmts r body) (Substitution.handlers r handlers)
      (Substitution.stmts r orelse) (Substitution.stmts r final) star
  | .assert s test msg => .assert s (test.subst r) (Substitution.expr? r msg)
  | .importModules s names => .importModules s (names.map (Alias.substModule r))
  | .importFrom s path names level => .importFrom s path (names.map (Alias.substName r)) level
  | .global s names => .global s (names.map r.name)
  | .nonlocal s names => .nonlocal s (names.map r.name)
  | .expr s value => .expr s (value.subst r)
  | .pass s => .pass s
  | .breakLoop s => .breakLoop s
  | .continueLoop s => .continueLoop s
  | .comment s text inline => .comment s text inline
  | .blank s => .blank s

def Substitution.stmts (r : Substitution) : List Stmt → List Stmt
  | [] => []
  | s :: ss => s.subst r :: Substitution.stmts r ss

def Handler.subst (r : Substitution) : Handler → Handler
  | ⟨type, name, body⟩ => ⟨Substitution.expr? r type, name.map r.name, Substitution.stmts r body⟩

def Substitution.handlers (r : Substitution) : List Handler → List Handler
  | [] => []
  | h :: hs => h.subst r :: Substitution.handlers r hs

end

def Module.subst (r : Substitution) (m : Module) : Module := ⟨Substitution.stmts r m.body⟩

end AsyncErasure
