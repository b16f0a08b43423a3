import AsyncErasure.Json
import AsyncErasure.Tree.Stmt

/-!
The tree of a module as a document. A node is an object of its kind and its span; a kind is its
name alone, or an object of the name and what the node holds.
-/

namespace AsyncErasure

open Json

def Span.dump (s : Span) : Json :=
  obj [("line", num s.start.line), ("col", num s.start.col),
    ("end_line", num s.stop.line), ("end_col", num s.stop.col)]

namespace Dump

def strings (texts : List String) : Json := arr (texts.map str)

def optional (text : Option String) : Json := text.elim null str

def tagged (tag : String) (payload : Json) : Json := obj [(tag, payload)]

def node (span : Span) (kind : Json) : Json := obj [("kind", kind), ("span", span.dump)]

end Dump

def BoolOp.tag : BoolOp → String
  | and => "And"
  | or => "Or"

def BinOp.tag : BinOp → String
  | add => "Add"
  | sub => "Sub"
  | mul => "Mult"
  | matMul => "MatMult"
  | div => "Div"
  | mod => "Mod"
  | pow => "Pow"
  | shiftLeft => "LShift"
  | shiftRight => "RShift"
  | bitOr => "BitOr"
  | bitXor => "BitXor"
  | bitAnd => "BitAnd"
  | floorDiv => "FloorDiv"

def UnaryOp.tag : UnaryOp → String
  | invert => "Invert"
  | not => "Not"
  | plus => "UAdd"
  | minus => "USub"

def CmpOp.tag : CmpOp → String
  | eq => "Eq"
  | notEq => "NotEq"
  | less => "Lt"
  | lessEq => "LtE"
  | greater => "Gt"
  | greaterEq => "GtE"
  | is => "Is"
  | isNot => "IsNot"
  | isIn => "In"
  | notIn => "NotIn"

def Constant.dump : Constant → Json
  | none => str "None"
  | true => str "True"
  | false => str "False"
  | ellipsis => str "Ellipsis"
  | number text => Dump.tagged "Number" (str text)

/-- The name of the outermost form. -/
def Expr.tag : Expr → String
  | boolOp .. => "BoolOp"
  | named .. => "NamedExpr"
  | binOp .. => "BinOp"
  | unaryOp .. => "UnaryOp"
  | lambda .. => "Lambda"
  | ifElse .. => "IfExp"
  | dict .. => "Dict"
  | set .. => "Set"
  | comp _ .list _ _ => "ListComp"
  | comp _ .set _ _ => "SetComp"
  | comp _ .generator _ _ => "GeneratorExp"
  | dictComp .. => "DictComp"
  | await .. => "Await"
  | yield .. => "Yield"
  | yieldFrom .. => "YieldFrom"
  | compare .. => "Compare"
  | call .. => "Call"
  | constant .. => "Constant"
  | str .. => "Str"
  | attr .. => "Attribute"
  | subscript .. => "Subscript"
  | starred .. => "Starred"
  | name .. => "Name"
  | list .. => "List"
  | tuple .. => "Tuple"
  | slice .. => "Slice"

def Stmt.tag : Stmt → String
  | functionDef _ .sync .. => "FunctionDef"
  | functionDef _ .async .. => "AsyncFunctionDef"
  | classDef .. => "ClassDef"
  | ret .. => "Return"
  | delete .. => "Delete"
  | assign .. => "Assign"
  | augAssign .. => "AugAssign"
  | annAssign .. => "AnnAssign"
  | forLoop _ .sync .. => "For"
  | forLoop _ .async .. => "AsyncFor"
  | whileLoop .. => "While"
  | branch .. => "If"
  | withBlock _ .sync .. => "With"
  | withBlock _ .async .. => "AsyncWith"
  | raise .. => "Raise"
  | tryBlock .. => "Try"
  | assert .. => "Assert"
  | importModules .. => "Import"
  | importFrom .. => "ImportFrom"
  | global .. => "Global"
  | nonlocal .. => "Nonlocal"
  | expr .. => "Expr"
  | pass _ => "Pass"
  | breakLoop _ => "Break"
  | continueLoop _ => "Continue"
  | comment .. => "Comment"
  | blank _ => "Blank"

def Comparison.dumpOp (c : Comparison) : Json := str c.op.tag

/-- A node around what it holds. -/
def Expr.seal (e : Expr) (payload : Json) : Json :=
  Dump.node e.span (Dump.tagged e.tag payload)

mutual

/-- What a node holds beside its span. -/
def Expr.payload : Expr → Json
  | .boolOp _ op values => obj [("op", str op.tag), ("values", arr (Dump.exprs values))]
  | .named _ target value =>
    obj [("target", target.seal target.payload), ("value", value.seal value.payload)]
  | .binOp _ op left right =>
    obj [("left", left.seal left.payload), ("op", str op.tag),
      ("right", right.seal right.payload)]
  | .unaryOp _ op operand => obj [("op", str op.tag), ("operand", operand.seal operand.payload)]
  | .lambda _ params body => obj [("params", params.dump), ("body", body.seal body.payload)]
  | .ifElse _ test body orelse =>
    obj [("test", test.seal test.payload), ("body", body.seal body.payload),
      ("orelse", orelse.seal orelse.payload)]
  | .dict _ items => arr (Dump.items items)
  | .set _ elts => arr (Dump.exprs elts)
  | .comp _ _ elt clauses =>
    obj [("elt", elt.seal elt.payload), ("generators", arr (Dump.clauses clauses))]
  | .dictComp _ key value clauses =>
    obj [("key", key.seal key.payload), ("value", value.seal value.payload),
      ("generators", arr (Dump.clauses clauses))]
  | .await _ value => value.seal value.payload
  | .yield _ value => Dump.expr? value
  | .yieldFrom _ value => value.seal value.payload
  | .compare _ left links =>
    obj [("left", left.seal left.payload), ("ops", arr (links.map Comparison.dumpOp)),
      ("comparators", arr (Dump.operands links))]
  | .call _ func args keywords =>
    obj [("func", func.seal func.payload), ("args", arr (Dump.exprs args)),
      ("keywords", arr (Dump.arguments keywords))]
  | .constant _ value => value.dump
  | .str _ parts => obj [("parts", Dump.strings parts)]
  | .attr _ value field => obj [("value", value.seal value.payload), ("attr", str field)]
  | .subscript _ value index =>
    obj [("value", value.seal value.payload), ("slice", index.seal index.payload)]
  | .starred _ value => value.seal value.payload
  | .name _ id => str id
  | .list _ elts => arr (Dump.exprs elts)
  | .tuple _ elts parenthesized =>
    obj [("elts", arr (Dump.exprs elts)), ("parenthesized", bool parenthesized)]
  | .slice _ lower upper step =>
    obj [("lower", Dump.expr? lower), ("upper", Dump.expr? upper), ("step", Dump.expr? step)]

def Dump.exprs : List Expr → List Json
  | [] => []
  | e :: es => e.seal e.payload :: Dump.exprs es

def Dump.expr? : Option Expr → Json
  | none => null
  | some e => e.seal e.payload

def Param.dump : Param → Json
  | ⟨name, hint, default⟩ =>
    obj [("name", str name), ("annotation", Dump.expr? hint),
      ("default", Dump.expr? default)]

def Dump.params : List Param → List Json
  | [] => []
  | p :: ps => p.dump :: Dump.params ps

def Dump.param? : Option Param → Json
  | none => null
  | some p => p.dump

def Parameters.dump : Parameters → Json
  | ⟨posonly, args, vararg, kwonly, kwarg⟩ =>
    obj [("posonly", arr (Dump.params posonly)), ("args", arr (Dump.params args)),
      ("vararg", Dump.param? vararg), ("kwonly", arr (Dump.params kwonly)),
      ("kwarg", Dump.param? kwarg)]

def Argument.dump : Argument → Json
  | ⟨name, value⟩ => obj [("arg", Dump.optional name), ("value", value.seal value.payload)]

def Dump.arguments : List Argument → List Json
  | [] => []
  | a :: as => a.dump :: Dump.arguments as

def DictItem.dump : DictItem → Json
  | ⟨key, value⟩ => obj [("key", Dump.expr? key), ("value", value.seal value.payload)]

def Dump.items : List DictItem → List Json
  | [] => []
  | i :: is => i.dump :: Dump.items is

def Comparison.dumpOperand : Comparison → Json
  | ⟨_, operand⟩ => operand.seal operand.payload

def Dump.operands : List Comparison → List Json
  | [] => []
  | c :: cs => c.dumpOperand :: Dump.operands cs

def Clause.dump : Clause → Json
  | ⟨mode, target, iter, conditions⟩ =>
    obj [("target", target.seal target.payload), ("iter", iter.seal iter.payload),
      ("ifs", arr (Dump.exprs conditions)), ("is_async", bool (mode == .async))]

def Dump.clauses : List Clause → List Json
  | [] => []
  | c :: cs => c.dump :: Dump.clauses cs

end

def Expr.dump (e : Expr) : Json := e.seal e.payload

def Alias.dump (a : Alias) : Json :=
  obj [("name", str a.name), ("asname", Dump.optional a.asName)]

def WithItem.dump (i : WithItem) : Json :=
  obj [("context_expr", i.context.dump), ("optional_vars", Dump.expr? i.target)]

/-- A statement around what it holds, if it holds anything. -/
def Stmt.seal (s : Stmt) (payload : Option Json) : Json :=
  Dump.node s.span (payload.elim (str s.tag) (Dump.tagged s.tag))

mutual

def Stmt.payload : Stmt → Option Json
  | .functionDef _ _ name params returns decorators body =>
    obj [("name", str name), ("params", params.dump), ("body", arr (Dump.stmts body)),
      ("decorators", arr (Dump.exprs decorators)), ("returns", Dump.expr? returns)]
  | .classDef _ name bases keywords decorators body =>
    obj [("name", str name), ("bases", arr (Dump.exprs bases)),
      ("keywords", arr (Dump.arguments keywords)), ("body", arr (Dump.stmts body)),
      ("decorators", arr (Dump.exprs decorators))]
  | .ret _ value => Dump.expr? value
  | .delete _ targets => arr (Dump.exprs targets)
  | .assign _ targets value =>
    obj [("targets", arr (Dump.exprs targets)), ("value", value.dump)]
  | .augAssign _ target op value =>
    obj [("target", target.dump), ("op", str op.tag), ("value", value.dump)]
  | .annAssign _ target hint value simple =>
    obj [("target", target.dump), ("annotation", hint.dump),
      ("value", Dump.expr? value), ("simple", bool simple)]
  | .forLoop _ _ target iter body orelse =>
    obj [("target", target.dump), ("iter", iter.dump), ("body", arr (Dump.stmts body)),
      ("orelse", arr (Dump.stmts orelse))]
  | .whileLoop _ test body orelse | .branch _ test body orelse =>
    obj [("test", test.dump), ("body", arr (Dump.stmts body)),
      ("orelse", arr (Dump.stmts orelse))]
  | .withBlock _ _ items body =>
    obj [("items", arr (items.map WithItem.dump)), ("body", arr (Dump.stmts body))]
  | .raise _ exc cause => obj [("exc", Dump.expr? exc), ("cause", Dump.expr? cause)]
  | .tryBlock _ body handlers orelse final star =>
    obj [("body", arr (Dump.stmts body)), ("handlers", arr (Dump.handlers handlers)),
      ("orelse", arr (Dump.stmts orelse)), ("finalbody", arr (Dump.stmts final)),
      ("star", bool star)]
  | .assert _ test msg => obj [("test", test.dump), ("msg", Dump.expr? msg)]
  | .importModules _ names => arr (names.map Alias.dump)
  | .importFrom _ path names level =>
    obj [("module", Dump.optional path), ("names", arr (names.map Alias.dump)),
      ("level", num level)]
  | .global _ names | .nonlocal _ names => Dump.strings names
  | .expr _ value => value.dump
  | .comment _ text inline => obj [("text", str text), ("inline", bool inline)]
  | .pass _ | .breakLoop _ | .continueLoop _ | .blank _ => none

def Dump.stmts : List Stmt → List Json
  | [] => []
  | s :: ss => s.seal s.payload :: Dump.stmts ss

def Handler.dump : Handler → Json
  | ⟨type, name, body⟩ =>
    obj [("exc_type", Dump.expr? type), ("name", Dump.optional name),
      ("body", arr (Dump.stmts body))]

def Dump.handlers : List Handler → List Json
  | [] => []
  | h :: hs => h.dump :: Dump.handlers hs

end

def Stmt.dump (s : Stmt) : Json := s.seal s.payload

def Module.dump (m : Module) : Json := obj [("body", arr (Dump.stmts m.body))]

end AsyncErasure
