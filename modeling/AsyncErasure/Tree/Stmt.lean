import AsyncErasure.Tree.Expr

namespace AsyncErasure

structure Alias where
  name : String
  asName : Option String
deriving DecidableEq, Repr

structure WithItem where
  context : Expr
  target : Option Expr

mutual

inductive Stmt where
  | functionDef (span : Span) (mode : Mode) (name : String) (params : Parameters)
      (returns : Option Expr) (decorators : List Expr) (body : List Stmt)
  | classDef (span : Span) (name : String) (bases : List Expr) (keywords : List Argument)
      (decorators : List Expr) (body : List Stmt)
  | ret (span : Span) (value : Option Expr)
  | delete (span : Span) (targets : List Expr)
  | assign (span : Span) (targets : List Expr) (value : Expr)
  | augAssign (span : Span) (target : Expr) (op : BinOp) (value : Expr)
  /-- An annotated target; a simple one is a bare name. -/
  | annAssign (span : Span) (target hint : Expr) (value : Option Expr) (simple : Bool)
  | forLoop (span : Span) (mode : Mode) (target iter : Expr) (body orelse : List Stmt)
  | whileLoop (span : Span) (test : Expr) (body orelse : List Stmt)
  | branch (span : Span) (test : Expr) (body orelse : List Stmt)
  | withBlock (span : Span) (mode : Mode) (items : List WithItem) (body : List Stmt)
  | raise (span : Span) (exc cause : Option Expr)
  | tryBlock (span : Span) (body : List Stmt) (handlers : List Handler)
      (orelse final : List Stmt) (star : Bool)
  | assert (span : Span) (test : Expr) (msg : Option Expr)
  | importModules (span : Span) (names : List Alias)
  /-- The level counts the dots before the module path. -/
  | importFrom (span : Span) (path : Option String) (names : List Alias) (level : Nat)
  | global (span : Span) (names : List String)
  | nonlocal (span : Span) (names : List String)
  | expr (span : Span) (value : Expr)
  | pass (span : Span)
  | breakLoop (span : Span)
  | continueLoop (span : Span)
  | comment (span : Span) (text : String) (inline : Bool)
  /-- A blank line kept between two statements. -/
  | blank (span : Span)

structure Handler where
  type : Option Expr
  name : Option String
  body : List Stmt

end

structure Module where
  body : List Stmt

namespace Stmt

def span : Stmt → Span
  | functionDef s .. | classDef s .. | ret s .. | delete s .. | assign s .. | augAssign s ..
  | annAssign s .. | forLoop s .. | whileLoop s .. | branch s .. | withBlock s .. | raise s ..
  | tryBlock s .. | assert s .. | importModules s .. | importFrom s .. | global s ..
  | nonlocal s .. | expr s .. | pass s | breakLoop s | continueLoop s | comment s .. | blank s => s

/-- A blank marker on the given line. -/
def blankAt (line : Nat) : Stmt := blank (.point ⟨line, 0⟩)

def isBlank : Stmt → Bool
  | blank _ => true
  | _ => false

def isBranch : Stmt → Bool
  | branch .. => true
  | _ => false

/-- Statements that carry code, unlike comments and blank markers. -/
def isCode : Stmt → Bool
  | comment .. | blank _ => false
  | _ => true

end Stmt

end AsyncErasure
