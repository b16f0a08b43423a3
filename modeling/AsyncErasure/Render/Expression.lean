import AsyncErasure.Tree.Stmt

/-!
The text of expressions. Brackets stand only where the context asks for a stronger level than the
form has; tuples keep the brackets they were written with.
-/

namespace AsyncErasure

def Bracket.enclose (b : Bracket) (text : String) : String :=
  b.opening.toString ++ text ++ b.closing.toString

def Constant.text : Constant → String
  | none => "None"
  | true => "True"
  | false => "False"
  | ellipsis => "..."
  | number text => text

namespace Expr

/-- Whether an expression needs brackets where the given level is asked for. -/
def needsBrackets (context : Level) : Expr → Bool
  | tuple _ elts parenthesized => elts.isEmpty || parenthesized || Level.tuple < context
  | e => e.level < context

/-- The text of an expression in a context, from its text without brackets. -/
def wrap (context : Level) (e : Expr) (bare : String) : String :=
  if e.needsBrackets context then Bracket.round.enclose bare else bare

/-- A number that a dot would go on: digits only. -/
def isPlainInteger : Expr → Bool
  | constant _ (.number text) => text.toList.all fun c => c.isDigit || c == '_'
  | _ => false

end Expr

namespace Render

def commas (texts : List String) : String := ", ".intercalate texts

/-- The elements of a tuple; a single one keeps its comma. -/
def tupleElements (texts : List String) : String :=
  if texts.length = 1 then commas texts ++ "," else commas texts

end Render

open Render (commas tupleElements)

def Collection.bracket : Collection → Bracket
  | list => .square
  | set => .curly
  | generator => .round

mutual

/-- The text of an expression without brackets around it. -/
def Expr.bare : Expr → String
  | .boolOp _ op values =>
    (" " ++ op.text ++ " ").intercalate (Render.exprs op.level.next values)
  | .named _ target value => target.wrap .atom target.bare ++ " := " ++ value.wrap .test value.bare
  | .binOp _ op left right =>
    let (before, behind) :=
      if op = .pow then (op.level.next, op.level) else (op.level, op.level.next)
    left.wrap before left.bare ++ " " ++ op.text ++ " " ++ right.wrap behind right.bare
  | .unaryOp _ op operand => op.text ++ operand.wrap op.level operand.bare
  | .lambda _ params body =>
    let names := params.texts
    "lambda" ++ (if names.isEmpty then "" else " " ++ commas names) ++ ": " ++
      body.wrap .test body.bare
  | .ifElse _ test body orelse =>
    body.wrap .disjunction body.bare ++ " if " ++ test.wrap .disjunction test.bare ++ " else " ++
      orelse.wrap .test orelse.bare
  | .dict _ items => Bracket.curly.enclose (commas (Render.items items))
  | .set _ elts => Bracket.curly.enclose (commas (Render.exprs .test elts))
  | .comp _ shape elt clauses =>
    shape.bracket.enclose (elt.wrap .test elt.bare ++ Render.clauses clauses)
  | .dictComp _ key value clauses =>
    Bracket.curly.enclose
      (key.wrap .test key.bare ++ ": " ++ value.wrap .test value.bare ++ Render.clauses clauses)
  | .await _ value => "await " ++ value.wrap .atom value.bare
  | .yield _ none => "yield"
  | .yield _ (some value) => "yield " ++ value.wrap .tuple value.bare
  | .yieldFrom _ value => "yield from " ++ value.wrap .test value.bare
  | .compare _ left links => left.wrap .bitOr left.bare ++ Render.links links
  | .call _ func [.comp _ .generator elt clauses] [] =>
    func.wrap .atom func.bare ++
      Bracket.round.enclose (elt.wrap .test elt.bare ++ Render.clauses clauses)
  | .call _ func args keywords =>
    func.wrap .atom func.bare ++
      Bracket.round.enclose (commas (Render.exprs .test args ++ Render.arguments keywords))
  | .constant _ value => value.text
  | .str _ parts => " ".intercalate parts
  | .attr _ value field =>
    value.wrap .atom value.bare ++ (if value.isPlainInteger then " ." else ".") ++ field
  | .subscript _ value index =>
    value.wrap .atom value.bare ++ Bracket.square.enclose (index.wrap .tuple index.bare)
  | .starred _ value => "*" ++ value.wrap .bitOr value.bare
  | .name _ id => id
  | .list _ elts => Bracket.square.enclose (commas (Render.exprs .test elts))
  | .tuple _ elts _ => tupleElements (Render.exprs .test elts)
  | .slice _ lower upper step =>
    Render.behind "" .test lower ++ ":" ++ Render.behind "" .test upper ++
      Render.behind ":" .test step

/-- Each expression in the context of the given level. -/
def Render.exprs (context : Level) : List Expr → List String
  | [] => []
  | e :: es => e.wrap context e.bare :: Render.exprs context es

/-- An optional expression behind a lead. -/
def Render.behind (lead : String) (context : Level) : Option Expr → String
  | none => ""
  | some e => lead ++ e.wrap context e.bare

def Param.text : Param → String
  | ⟨name, none, default⟩ => name ++ Render.behind "=" .test default
  | ⟨name, some hint, default⟩ =>
    name ++ ": " ++ hint.wrap .test hint.bare ++ Render.behind " = " .test default

def Render.params : List Param → List String
  | [] => []
  | p :: ps => p.text :: Render.params ps

def Render.starParam (stars : String) : Option Param → List String
  | none => []
  | some p => [stars ++ p.text]

/-- The entries of a parameter list. A slash closes the positional ones, and a bare star opens the
named ones where no other star does. -/
def Parameters.texts : Parameters → List String
  | ⟨posonly, args, vararg, kwonly, kwarg⟩ =>
    Render.params posonly ++ (if posonly.isEmpty then [] else ["/"]) ++ Render.params args ++
      Render.starParam "*" vararg ++
      (if vararg.isNone && !kwonly.isEmpty then ["*"] else []) ++ Render.params kwonly ++
      Render.starParam "**" kwarg

def Argument.text : Argument → String
  | ⟨some name, value⟩ => name ++ "=" ++ value.wrap .test value.bare
  | ⟨none, value⟩ => "**" ++ value.wrap .test value.bare

def Render.arguments : List Argument → List String
  | [] => []
  | a :: as => a.text :: Render.arguments as

def DictItem.text : DictItem → String
  | ⟨some key, value⟩ => key.wrap .test key.bare ++ ": " ++ value.wrap .test value.bare
  | ⟨none, value⟩ => "**" ++ value.wrap .bitOr value.bare

def Render.items : List DictItem → List String
  | [] => []
  | i :: is => i.text :: Render.items is

def Comparison.text : Comparison → String
  | ⟨op, operand⟩ => " " ++ op.text ++ " " ++ operand.wrap .bitOr operand.bare

def Render.links : List Comparison → String
  | [] => ""
  | c :: cs => c.text ++ Render.links cs

def Render.conditions : List Expr → String
  | [] => ""
  | e :: es => " if " ++ e.wrap .disjunction e.bare ++ Render.conditions es

def Clause.text : Clause → String
  | ⟨mode, target, iter, conditions⟩ =>
    (if mode = .async then " async for " else " for ") ++ target.wrap .tuple target.bare ++
      " in " ++ iter.wrap .disjunction iter.bare ++ Render.conditions conditions

def Render.clauses : List Clause → String
  | [] => ""
  | c :: cs => c.text ++ Render.clauses cs

end

/-- The text of an expression where the given level is asked for. -/
def Expr.render (context : Level) (e : Expr) : String := e.wrap context e.bare

end AsyncErasure
