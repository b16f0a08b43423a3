import AsyncErasure.Tree.Stmt

namespace AsyncErasure

def Span.nowhere : Span := .point .origin

mutual

def Expr.shape : Expr → Expr
  | .boolOp _ op values => .boolOp .nowhere op (Shape.exprs values)
  | .named _ target value => .named .nowhere target.shape value.shape
  | .binOp _ op left right => .binOp .nowhere op left.shape right.shape
  | .unaryOp _ op operand => .unaryOp .nowhere op operand.shape
  | .lambda _ params body => .lambda .nowhere params.shape body.shape
  | .ifElse _ test body orelse => .ifElse .nowhere test.shape body.shape orelse.shape
  | .dict _ items => .dict .nowhere (Shape.items items)
  | .set _ elts => .set .nowhere (Shape.exprs elts)
  | .comp _ shape elt clauses => .comp .nowhere shape elt.shape (Shape.clauses clauses)
  | .dictComp _ key value clauses =>
    .dictComp .nowhere key.shape value.shape (Shape.clauses clauses)
  | .await _ value => .await .nowhere value.shape
  | .yield _ value => .yield .nowhere (Shape.expr? value)
  | .yieldFrom _ value => .yieldFrom .nowhere value.shape
  | .compare _ left links => .compare .nowhere left.shape (Shape.links links)
  | .call _ func args keywords =>
    .call .nowhere func.shape (Shape.exprs args) (Shape.arguments keywords)
  | .constant _ value => .constant .nowhere value
  | .str _ parts => .str .nowhere parts
  | .attr _ value field => .attr .nowhere value.shape field
  | .subscript _ value index => .subscript .nowhere value.shape index.shape
  | .starred _ value => .starred .nowhere value.shape
  | .name _ id => .name .nowhere id
  | .list _ elts => .list .nowhere (Shape.exprs elts)
  | .tuple _ elts parenthesized => .tuple .nowhere (Shape.exprs elts) parenthesized
  | .slice _ lower upper step =>
    .slice .nowhere (Shape.expr? lower) (Shape.expr? upper) (Shape.expr? step)

def Shape.exprs : List Expr → List Expr
  | [] => []
  | e :: es => e.shape :: Shape.exprs es

def Shape.expr? : Option Expr → Option Expr
  | none => none
  | some e => some e.shape

def Param.shape : Param → Param
  | ⟨name, hint, default⟩ => ⟨name, Shape.expr? hint, Shape.expr? default⟩

def Shape.params : List Param → List Param
  | [] => []
  | p :: ps => p.shape :: Shape.params ps

def Shape.param? : Option Param → Option Param
  | none => none
  | some p => some p.shape

def Parameters.shape : Parameters → Parameters
  | ⟨posonly, args, vararg, kwonly, kwarg⟩ =>
    ⟨Shape.params posonly, Shape.params args, Shape.param? vararg, Shape.params kwonly,
      Shape.param? kwarg⟩

def Argument.shape : Argument → Argument
  | ⟨name, value⟩ => ⟨name, value.shape⟩

def Shape.arguments : List Argument → List Argument
  | [] => []
  | a :: as => a.shape :: Shape.arguments as

def DictItem.shape : DictItem → DictItem
  | ⟨key, value⟩ => ⟨Shape.expr? key, value.shape⟩

def Shape.items : List DictItem → List DictItem
  | [] => []
  | i :: is => i.shape :: Shape.items is

def Comparison.shape : Comparison → Comparison
  | ⟨op, operand⟩ => ⟨op, operand.shape⟩

def Shape.links : List Comparison → List Comparison
  | [] => []
  | c :: cs => c.shape :: Shape.links cs

def Clause.shape : Clause → Clause
  | ⟨mode, target, iter, conditions⟩ => ⟨mode, target.shape, iter.shape, Shape.exprs conditions⟩

def Shape.clauses : List Clause → List Clause
  | [] => []
  | c :: cs => c.shape :: Shape.clauses cs

end

def WithItem.shape (i : WithItem) : WithItem := ⟨i.context.shape, Shape.expr? i.target⟩

mutual

def Stmt.shape : Stmt → Stmt
  | .functionDef _ mode name params returns decorators body =>
    .functionDef .nowhere mode name params.shape (Shape.expr? returns) (Shape.exprs decorators)
      (Shape.stmts body)
  | .classDef _ name bases keywords decorators body =>
    .classDef .nowhere name (Shape.exprs bases) (Shape.arguments keywords)
      (Shape.exprs decorators) (Shape.stmts body)
  | .ret _ value => .ret .nowhere (Shape.expr? value)
  | .delete _ targets => .delete .nowhere (Shape.exprs targets)
  | .assign _ targets value => .assign .nowhere (Shape.exprs targets) value.shape
  | .augAssign _ target op value => .augAssign .nowhere target.shape op value.shape
  | .annAssign _ target hint value simple =>
    .annAssign .nowhere target.shape hint.shape (Shape.expr? value) simple
  | .forLoop _ mode target iter body orelse =>
    .forLoop .nowhere mode target.shape iter.shape (Shape.stmts body) (Shape.stmts orelse)
  | .whileLoop _ test body orelse =>
    .whileLoop .nowhere test.shape (Shape.stmts body) (Shape.stmts orelse)
  | .branch _ test body orelse =>
    .branch .nowhere test.shape (Shape.stmts body) (Shape.stmts orelse)
  | .withBlock _ mode items body =>
    .withBlock .nowhere mode (items.map WithItem.shape) (Shape.stmts body)
  | .raise _ exc cause => .raise .nowhere (Shape.expr? exc) (Shape.expr? cause)
  | .tryBlock _ body handlers orelse final star =>
    .tryBlock .nowhere (Shape.stmts body) (Shape.handlers handlers) (Shape.stmts orelse)
      (Shape.stmts final) star
  | .assert _ test msg => .assert .nowhere test.shape (Shape.expr? msg)
  | .importModules _ names => .importModules .nowhere names
  | .importFrom _ path names level => .importFrom .nowhere path names level
  | .global _ names => .global .nowhere names
  | .nonlocal _ names => .nonlocal .nowhere names
  | .expr _ value => .expr .nowhere value.shape
  | .pass _ => .pass .nowhere
  | .breakLoop _ => .breakLoop .nowhere
  | .continueLoop _ => .continueLoop .nowhere
  | .comment _ text inline => .comment .nowhere text inline
  | .blank _ => .blank .nowhere

def Shape.stmts : List Stmt → List Stmt
  | [] => []
  | s :: ss => s.shape :: Shape.stmts ss

def Handler.shape : Handler → Handler
  | ⟨type, name, body⟩ => ⟨Shape.expr? type, name, Shape.stmts body⟩

def Shape.handlers : List Handler → List Handler
  | [] => []
  | h :: hs => h.shape :: Shape.handlers hs

end

def Module.shape (m : Module) : Module := ⟨Shape.stmts m.body⟩

namespace Shape

theorem exprs_eq_map (es : List Expr) : exprs es = es.map Expr.shape := by
  induction es with
  | nil => rfl
  | cons e es ih => rw [exprs, ih]; rfl

theorem params_eq_map (ps : List Param) : params ps = ps.map Param.shape := by
  induction ps with
  | nil => rfl
  | cons p ps ih => rw [params, ih]; rfl

theorem arguments_eq_map (as : List Argument) : arguments as = as.map Argument.shape := by
  induction as with
  | nil => rfl
  | cons a as ih => rw [arguments, ih]; rfl

theorem items_eq_map (is : List DictItem) : items is = is.map DictItem.shape := by
  induction is with
  | nil => rfl
  | cons i is ih => rw [items, ih]; rfl

theorem links_eq_map (cs : List Comparison) : links cs = cs.map Comparison.shape := by
  induction cs with
  | nil => rfl
  | cons c cs ih => rw [links, ih]; rfl

theorem clauses_eq_map (cs : List Clause) : clauses cs = cs.map Clause.shape := by
  induction cs with
  | nil => rfl
  | cons c cs ih => rw [clauses, ih]; rfl

theorem stmts_eq_map (ss : List Stmt) : stmts ss = ss.map Stmt.shape := by
  induction ss with
  | nil => rfl
  | cons s ss ih => rw [stmts, ih]; rfl

theorem handlers_eq_map (hs : List Handler) : handlers hs = hs.map Handler.shape := by
  induction hs with
  | nil => rfl
  | cons h hs ih => rw [handlers, ih]; rfl

end Shape

end AsyncErasure
