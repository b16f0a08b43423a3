import AsyncErasure.Dump

/-!
The nodes of a module in the order of a walk: a node comes before what it holds, and the clauses of
a comprehension before its elements. A walk may stop at some nodes and leave out what they hold.
-/

namespace AsyncErasure

inductive Node where
  | module (m : Module)
  | block (body : List Stmt)
  | stmt (s : Stmt)
  | expr (e : Expr)
  | parameters (p : Parameters)
  | param (p : Param)
  | argument (a : Argument)
  | clause (c : Clause)

namespace Node

def kind : Node → String
  | module _ => "module"
  | block _ => "stmts"
  | stmt _ => "stmt"
  | expr _ => "expr"
  | parameters _ => "parameters"
  | param _ => "param"
  | argument _ => "keyword"
  | clause _ => "comprehension"

def label : Node → String
  | module _ => ""
  | block body => toString body.length
  | stmt s => s.tag
  | expr (.name _ id) => "Name:" ++ id
  | expr e => e.tag
  | parameters p => if p.isEmpty then "empty" else ""
  | param p => p.name
  | argument a => a.name.getD "**"
  | clause c => if c.mode = .async then "async" else "sync"

def describe (n : Node) : String := if n.label.isEmpty then n.kind else n.kind ++ " " ++ n.label

/-- A node with the nodes inside it, unless the walk stops there. -/
def enter (stop : Node → Bool) (n : Node) (inside : List Node) : List Node :=
  n :: if stop n then [] else inside

end Node

open Node (enter)

mutual

def Expr.inside (stop : Node → Bool) : Expr → List Node
  | .boolOp _ _ values => Walk.exprs stop values
  | .named _ target value =>
    enter stop (.expr target) (target.inside stop) ++ enter stop (.expr value) (value.inside stop)
  | .binOp _ _ left right =>
    enter stop (.expr left) (left.inside stop) ++ enter stop (.expr right) (right.inside stop)
  | .unaryOp _ _ operand => enter stop (.expr operand) (operand.inside stop)
  | .lambda _ params body =>
    enter stop (.parameters params) (params.inside stop) ++
      enter stop (.expr body) (body.inside stop)
  | .ifElse _ test body orelse =>
    enter stop (.expr test) (test.inside stop) ++ enter stop (.expr body) (body.inside stop) ++
      enter stop (.expr orelse) (orelse.inside stop)
  | .dict _ items => Walk.items stop items
  | .set _ elts | .list _ elts | .tuple _ elts _ => Walk.exprs stop elts
  | .comp _ _ elt clauses =>
    Walk.clauses stop clauses ++ enter stop (.expr elt) (elt.inside stop)
  | .dictComp _ key value clauses =>
    Walk.clauses stop clauses ++ enter stop (.expr key) (key.inside stop) ++
      enter stop (.expr value) (value.inside stop)
  | .await _ value | .yieldFrom _ value | .starred _ value =>
    enter stop (.expr value) (value.inside stop)
  | .yield _ value => Walk.expr? stop value
  | .compare _ left links =>
    enter stop (.expr left) (left.inside stop) ++ Walk.links stop links
  | .call _ func args keywords =>
    enter stop (.expr func) (func.inside stop) ++ Walk.exprs stop args ++
      Walk.arguments stop keywords
  | .attr _ value _ => enter stop (.expr value) (value.inside stop)
  | .subscript _ value index =>
    enter stop (.expr value) (value.inside stop) ++ enter stop (.expr index) (index.inside stop)
  | .slice _ lower upper step =>
    Walk.expr? stop lower ++ Walk.expr? stop upper ++ Walk.expr? stop step
  | .constant _ _ | .str _ _ | .name _ _ => []

def Walk.exprs (stop : Node → Bool) : List Expr → List Node
  | [] => []
  | e :: es => enter stop (.expr e) (e.inside stop) ++ Walk.exprs stop es

def Walk.expr? (stop : Node → Bool) : Option Expr → List Node
  | none => []
  | some e => enter stop (.expr e) (e.inside stop)

def Param.inside (stop : Node → Bool) : Param → List Node
  | ⟨_, hint, default⟩ => Walk.expr? stop hint ++ Walk.expr? stop default

def Walk.params (stop : Node → Bool) : List Param → List Node
  | [] => []
  | p :: ps => enter stop (.param p) (p.inside stop) ++ Walk.params stop ps

def Walk.param? (stop : Node → Bool) : Option Param → List Node
  | none => []
  | some p => enter stop (.param p) (p.inside stop)

def Parameters.inside (stop : Node → Bool) : Parameters → List Node
  | ⟨posonly, args, vararg, kwonly, kwarg⟩ =>
    Walk.params stop posonly ++ Walk.params stop args ++ Walk.param? stop vararg ++
      Walk.params stop kwonly ++ Walk.param? stop kwarg

def Argument.inside (stop : Node → Bool) : Argument → List Node
  | ⟨_, value⟩ => enter stop (.expr value) (value.inside stop)

def Walk.arguments (stop : Node → Bool) : List Argument → List Node
  | [] => []
  | a :: as => enter stop (.argument a) (a.inside stop) ++ Walk.arguments stop as

def DictItem.inside (stop : Node → Bool) : DictItem → List Node
  | ⟨key, value⟩ => Walk.expr? stop key ++ enter stop (.expr value) (value.inside stop)

def Walk.items (stop : Node → Bool) : List DictItem → List Node
  | [] => []
  | i :: is => i.inside stop ++ Walk.items stop is

def Comparison.inside (stop : Node → Bool) : Comparison → List Node
  | ⟨_, operand⟩ => enter stop (.expr operand) (operand.inside stop)

def Walk.links (stop : Node → Bool) : List Comparison → List Node
  | [] => []
  | c :: cs => c.inside stop ++ Walk.links stop cs

def Clause.inside (stop : Node → Bool) : Clause → List Node
  | ⟨_, target, iter, conditions⟩ =>
    enter stop (.expr target) (target.inside stop) ++ enter stop (.expr iter) (iter.inside stop) ++
      Walk.exprs stop conditions

def Walk.clauses (stop : Node → Bool) : List Clause → List Node
  | [] => []
  | c :: cs => enter stop (.clause c) (c.inside stop) ++ Walk.clauses stop cs

end

def WithItem.inside (stop : Node → Bool) (i : WithItem) : List Node :=
  Walk.exprs stop [i.context] ++ Walk.expr? stop i.target

mutual

def Stmt.inside (stop : Node → Bool) : Stmt → List Node
  | .functionDef _ _ _ params returns decorators body =>
    Walk.exprs stop decorators ++ enter stop (.parameters params) (params.inside stop) ++
      Walk.expr? stop returns ++ enter stop (.block body) (Walk.stmts stop body)
  | .classDef _ _ bases keywords decorators body =>
    Walk.exprs stop decorators ++ Walk.exprs stop bases ++ Walk.arguments stop keywords ++
      enter stop (.block body) (Walk.stmts stop body)
  | .ret _ value => Walk.expr? stop value
  | .delete _ targets => Walk.exprs stop targets
  | .assign _ targets value => Walk.exprs stop targets ++ Walk.exprs stop [value]
  | .augAssign _ target _ value => Walk.exprs stop [target, value]
  | .annAssign _ target hint value _ =>
    Walk.exprs stop [target, hint] ++ Walk.expr? stop value
  | .forLoop _ _ target iter body orelse =>
    Walk.exprs stop [target, iter] ++ enter stop (.block body) (Walk.stmts stop body) ++
      enter stop (.block orelse) (Walk.stmts stop orelse)
  | .whileLoop _ test body orelse | .branch _ test body orelse =>
    Walk.exprs stop [test] ++ enter stop (.block body) (Walk.stmts stop body) ++
      enter stop (.block orelse) (Walk.stmts stop orelse)
  | .withBlock _ _ items body =>
    items.flatMap (WithItem.inside stop) ++ enter stop (.block body) (Walk.stmts stop body)
  | .raise _ exc cause => Walk.expr? stop exc ++ Walk.expr? stop cause
  | .tryBlock _ body handlers orelse final _ =>
    enter stop (.block body) (Walk.stmts stop body) ++ Walk.handlers stop handlers ++
      enter stop (.block orelse) (Walk.stmts stop orelse) ++
      enter stop (.block final) (Walk.stmts stop final)
  | .assert _ test msg => Walk.exprs stop [test] ++ Walk.expr? stop msg
  | .expr _ value => Walk.exprs stop [value]
  | .importModules _ _ | .importFrom _ _ _ _ | .global _ _ | .nonlocal _ _ | .pass _
  | .breakLoop _ | .continueLoop _ | .comment _ _ _ | .blank _ => []

def Walk.stmts (stop : Node → Bool) : List Stmt → List Node
  | [] => []
  | s :: ss => enter stop (.stmt s) (s.inside stop) ++ Walk.stmts stop ss

def Handler.inside (stop : Node → Bool) : Handler → List Node
  | ⟨type, _, body⟩ =>
    Walk.expr? stop type ++ enter stop (.block body) (Walk.stmts stop body)

def Walk.handlers (stop : Node → Bool) : List Handler → List Node
  | [] => []
  | h :: hs => h.inside stop ++ Walk.handlers stop hs

end

namespace Module

/-- The nodes met on a walk that does not go inside the nodes it stops at. -/
def walkUntil (stop : Node → Bool) (m : Module) : List Node :=
  enter stop (.module m) (enter stop (.block m.body) (Walk.stmts stop m.body))

def walk (m : Module) : List Node := m.walkUntil fun _ => false

/-- A walk that stops at the kinds and labels listed. -/
def walkPruned (pruned : List String) (m : Module) : List Node :=
  m.walkUntil fun n => pruned.contains n.kind || pruned.contains n.label

end Module

end AsyncErasure
