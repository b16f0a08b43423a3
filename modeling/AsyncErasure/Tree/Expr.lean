import AsyncErasure.Span
import AsyncErasure.Tree.Operator

namespace AsyncErasure

/-- Whether a construct waits for its values. -/
inductive Mode where
  | sync
  | async
deriving DecidableEq, Repr

inductive Constant where
  | none
  | true
  | false
  | ellipsis
  /-- A number literal as it was spelled. -/
  | number (text : String)
deriving DecidableEq, Repr

/-- What a comprehension over single elements builds. -/
inductive Collection where
  | list
  | set
  | generator
deriving DecidableEq, Repr

mutual

inductive Expr where
  | boolOp (span : Span) (op : BoolOp) (values : List Expr)
  | named (span : Span) (target value : Expr)
  | binOp (span : Span) (op : BinOp) (left right : Expr)
  | unaryOp (span : Span) (op : UnaryOp) (operand : Expr)
  | lambda (span : Span) (params : Parameters) (body : Expr)
  | ifElse (span : Span) (test body orelse : Expr)
  | dict (span : Span) (items : List DictItem)
  | set (span : Span) (elts : List Expr)
  | comp (span : Span) (shape : Collection) (elt : Expr) (clauses : List Clause)
  | dictComp (span : Span) (key value : Expr) (clauses : List Clause)
  | await (span : Span) (value : Expr)
  | yield (span : Span) (value : Option Expr)
  | yieldFrom (span : Span) (value : Expr)
  | compare (span : Span) (left : Expr) (links : List Comparison)
  | call (span : Span) (func : Expr) (args : List Expr) (keywords : List Argument)
  | constant (span : Span) (value : Constant)
  /-- Adjacent string literals, each with its marks and quotes. -/
  | str (span : Span) (parts : List String)
  | attr (span : Span) (value : Expr) (field : String)
  | subscript (span : Span) (value index : Expr)
  | starred (span : Span) (value : Expr)
  | name (span : Span) (id : String)
  | list (span : Span) (elts : List Expr)
  | tuple (span : Span) (elts : List Expr) (parenthesized : Bool)
  | slice (span : Span) (lower upper step : Option Expr)

structure Param where
  name : String
  hint : Option Expr
  default : Option Expr

structure Parameters where
  posonly : List Param
  args : List Param
  vararg : Option Param
  kwonly : List Param
  kwarg : Option Param

/-- A named argument; without a name it unpacks a mapping. -/
structure Argument where
  name : Option String
  value : Expr

/-- An entry of a dictionary display; without a key it unpacks a mapping. -/
structure DictItem where
  key : Option Expr
  value : Expr

/-- One link of a chain of comparisons. -/
structure Comparison where
  op : CmpOp
  operand : Expr

/-- A loop of a comprehension with its conditions. -/
structure Clause where
  mode : Mode
  target : Expr
  iter : Expr
  conditions : List Expr

end

def Parameters.empty : Parameters := ⟨[], [], none, [], none⟩

def Parameters.isEmpty (p : Parameters) : Bool :=
  p.posonly.isEmpty && p.args.isEmpty && p.vararg.isNone && p.kwonly.isEmpty && p.kwarg.isNone

namespace Expr

def span : Expr → Span
  | boolOp s _ _ | named s _ _ | binOp s _ _ _ | unaryOp s _ _ | lambda s _ _ | ifElse s _ _ _
  | dict s _ | set s _ | comp s _ _ _ | dictComp s _ _ _ | await s _ | yield s _ | yieldFrom s _
  | compare s _ _ | call s _ _ _ | constant s _ | str s _ | attr s _ _ | subscript s _ _
  | starred s _ | name s _ | list s _ | tuple s _ _ | slice s _ _ _ => s

def isName : Expr → Bool
  | name _ _ => true
  | _ => false

def isStarred : Expr → Bool
  | starred _ _ => true
  | _ => false

/-- The binding strength of the outermost form. -/
def level : Expr → Level
  | named .. => .named
  | tuple .. => .tuple
  | yield .. | yieldFrom .. => .yielded
  | lambda .. | ifElse .. => .test
  | boolOp _ op _ => op.level
  | compare .. => .comparison
  | binOp _ op _ _ => op.level
  | unaryOp _ op _ => op.level
  | await .. => .awaited
  | _ => .atom

/-- What stays where an expression was taken away. -/
def hole (e : Expr) : Expr := constant e.span .none

end Expr

end AsyncErasure
