import AsyncErasure.Grammar.Expression

/-!
The grammar of statements. The rules of compound statements take the rule `self` of the statements
inside them, and `parseStatements` ties the knot to a given depth. One line may hold several
statements, so a rule gives a list.
-/

namespace AsyncErasure.Grammar

open Rule

/-- At the end of a line, which a comment may close. -/
def atLineEnd : Rule Bool := do
  match ← peek with
  | .newline _ | .comment _ true => return true
  | _ => return false

/-- At the end of a simple statement. -/
def atSimpleEnd : Rule Bool := do
  if ← atLineEnd then return true
  else
    match ← peek with
    | .symbol .semicolon | .endMarker => return true
    | _ => return false

def newline : Rule Unit := do
  match ← peek with
  | .newline _ => advance
  | .endMarker => return
  | _ => fail .invalid

/-- A comment as a statement, if one comes next that the test accepts. -/
def commentIf (wanted : Bool → Bool) : Rule (Option Stmt) := do
  let token := (← get).next
  match token.lexeme with
  | .comment text inline =>
    if wanted inline then
      advance
      return some (.comment token.span text inline)
    else return none
  | _ => return none

def comment : Rule (Option Stmt) := commentIf fun _ => true

def inlineComment : Rule (List Stmt) := return (← commentIf id).toList

/-- The comments before a keyword that goes on with the statement; none if it does not come. -/
def commentsBefore (words : List Keyword) : Rule (List Stmt) := do
  let c ← get
  match ((c.next :: c.later).dropWhile (·.lexeme.isComment)).head? with
  | some ⟨.keyword k, _⟩ => if words.contains k then many comment else return []
  | _ => return []

def dottedName : Rule String := do
  let first ← name
  let rest ← many (after Symbol.dot name)
  return ".".intercalate (first :: rest)

def aliased (path : Rule String) : Rule Alias := do
  let name ← path
  let asName ← after Keyword.as_ Rule.name
  return ⟨name, asName⟩

/-- One or more items divided by commas. -/
def commaSeparated (item : Rule α) : Rule (List α) := do
  let first ← item
  let rest ← listTail (fun _ => false) item
  return first :: rest

/-- How many dots a single dot or an ellipsis stands for. -/
def dots : Rule (Option Nat) := do
  match ← peek with
  | .symbol .dot =>
    advance
    return some 1
  | .symbol .ellipsis =>
    advance
    return some 3
  | _ => return none

def importedNames : Rule (List Alias) := do
  if ← accept Symbol.star then return [⟨"*", none⟩]
  else if ← accept (Symbol.opening .round) then
    let names ← listUpTo (closes .round) (aliased name)
    expect (Symbol.closing .round)
    return names
  else commaSeparated (aliased name)

def importFrom (start : Place) : Rule Stmt := do
  advance
  let level := (← many dots).foldl (· + ·) 0
  let path ← if ← sees Keyword.import_ then pure none else some <$> dottedName
  if level = 0 ∧ path.isNone then fail .expectedModule
  else
    expect Keyword.import_
    let names ← importedNames
    if names.isEmpty then fail .expectedName
    else return .importFrom (← spanFrom start) path names level

def augmentedOp : Rule (Option BinOp) := do
  match ← peek with
  | .symbol s => return BinOp.ofAssignSymbol? s
  | _ => return none

/-- A statement that begins with an expression: a type hint, an assignment or the expression
alone. -/
def expressionStatement (start : Place) : Rule Stmt := do
  let bracketed ← sees (Symbol.opening .round)
  let first ← expr .yielded
  if ← accept Symbol.colon then
    let hint ← expr .test
    let value ← after Symbol.assign (expr .yielded)
    return .annAssign (← spanFrom start) first hint value (!bracketed && first.isName)
  else
    match ← augmentedOp with
    | some op =>
      advance
      let value ← expr .yielded
      return .augAssign (← spanFrom start) first op value
    | none =>
      let rest ← many (after Symbol.assign (expr .yielded))
      match rest.getLast? with
      | none => return .expr (← spanFrom start) first
      | some value => return .assign (← spanFrom start) (first :: rest.dropLast) value

def simpleStatement : Rule Stmt := do
  let start ← place
  match ← peek with
  | .keyword .pass_ =>
    advance
    return .pass (← spanFrom start)
  | .keyword .break_ =>
    advance
    return .breakLoop (← spanFrom start)
  | .keyword .continue_ =>
    advance
    return .continueLoop (← spanFrom start)
  | .keyword .return_ =>
    advance
    let value ← if ← atSimpleEnd then pure none else some <$> expr .tuple
    return .ret (← spanFrom start) value
  | .keyword .raise_ =>
    advance
    if ← atSimpleEnd then return .raise (← spanFrom start) none none
    else
      let exc ← expr .test
      let cause ← after Keyword.from_ (expr .test)
      return .raise (← spanFrom start) (some exc) cause
  | .keyword .assert_ =>
    advance
    let test ← expr .test
    let msg ← after Symbol.comma (expr .test)
    return .assert (← spanFrom start) test msg
  | .keyword .del_ =>
    advance
    let first ← starOr expr .bitOr
    let rest ← many do
      if ← accept Symbol.comma then
        if ← atSimpleEnd then return none else return some (← starOr expr .bitOr)
      else return none
    return .delete (← spanFrom start) (first :: rest)
  | .keyword .global_ =>
    advance
    let names ← commaSeparated name
    return .global (← spanFrom start) names
  | .keyword .nonlocal_ =>
    advance
    let names ← commaSeparated name
    return .nonlocal (← spanFrom start) names
  | .keyword .import_ =>
    advance
    let names ← commaSeparated (aliased dottedName)
    return .importModules (← spanFrom start) names
  | .keyword .from_ => importFrom start
  | _ => expressionStatement start

/-- Simple statements up to the end of the line, divided by semicolons. -/
def simpleLine : Rule (List Stmt) := do
  let first ← simpleStatement
  let rest ← many do
    if ← accept Symbol.semicolon then
      if ← atLineEnd then return none else return some (← simpleStatement)
    else return none
  let trailing ← inlineComment
  newline
  return first :: rest ++ trailing

/-- The blocks of a try statement before its final one. -/
structure Guarded where
  body : List Stmt
  handlers : List Handler
  orelse : List Stmt

/-- Puts statements at the end of the last block. A block that only holds joined empty lines has no
statements, and an alternative without statements is none. -/
def Guarded.append (g : Guarded) (stmts : List Stmt) : Guarded :=
  if g.orelse.isEmpty then
    match g.handlers.getLast? with
    | some h =>
      { g with handlers := g.handlers.dropLast ++ [{ h with body := h.body ++ stmts }] }
    | none => { g with body := g.body ++ stmts }
  else { g with orelse := g.orelse ++ stmts }

section

variable (self : Rule (List Stmt))

/-- The statements up to a lexeme that the test accepts; stray line ends are passed over. -/
def statementsUpTo (closed : Lexeme → Bool) : Rule (List Stmt) :=
  List.flatten <$> many do
    let next ← peek
    if closed next then return none
    else
      match next with
      | .newline _ =>
        advance
        return some []
      | _ => return some (← self)

/-- What follows the colon of a compound statement: the rest of its line or an indented block. -/
def block : Rule (List Stmt) := do
  if ← atLineEnd then
    let trailing ← inlineComment
    newline
    let comments ← many comment
    if (← peek) == .indent then
      advance
      let body ← statementsUpTo self fun l => l == .dedent || l == .endMarker
      discard (accept .dedent)
      return trailing ++ comments ++ body
    else fail .expectedBlock
  else simpleLine

def colonBlock : Rule (List Stmt) := do
  expect Symbol.colon
  block self

/-- A block with the comments between it and the keyword that goes on with the statement. -/
def blockBefore (words : List Keyword) : Rule (List Stmt) := do
  let body ← colonBlock self
  let comments ← commentsBefore words
  return body ++ comments

/-- A block that a keyword opens, empty if the keyword does not come. -/
def clauseBlock (word : Keyword) : Rule (List Stmt) :=
  return (← after word (colonBlock self)).getD []

def functionDef (start : Place) (mode : Mode) (decorators : List Expr) : Rule Stmt := do
  expect Keyword.def_
  let name ← name
  expect (Symbol.opening .round)
  let params ← parameters expr (.closing .round) true
  expect (Symbol.closing .round)
  let returns ← after Symbol.arrow (expr .test)
  let body ← colonBlock self
  return .functionDef (← spanFrom start) mode name params returns decorators body

def classDef (start : Place) (decorators : List Expr) : Rule Stmt := do
  expect Keyword.class_
  let name ← name
  let (bases, keywords) ← if ← accept (Symbol.opening .round) then
      let arguments ← callArguments expr
      expect (Symbol.closing .round)
      pure arguments
    else pure ([], [])
  let body ← colonBlock self
  return .classDef (← spanFrom start) name bases keywords decorators body

/-- A branch from its keyword on; a chain of branches nests in the alternatives. -/
def branch : Nat → Rule Stmt
  | 0 => fail .invalid
  | n + 1 => do
    let start ← place
    advance
    let test ← expr .named
    let body ← blockBefore self [.elif_, .else_]
    let orelse ← if ← sees Keyword.elif_ then List.singleton <$> branch n
      else clauseBlock self .else_
    return .branch (← spanFrom start) test body orelse

def whileLoop (start : Place) : Rule Stmt := do
  expect Keyword.while_
  let test ← expr .named
  let body ← blockBefore self [.else_]
  let orelse ← clauseBlock self .else_
  return .whileLoop (← spanFrom start) test body orelse

def forLoop (start : Place) (mode : Mode) : Rule Stmt := do
  expect Keyword.for_
  let target ← targetList expr
  expect Keyword.in_
  let iter ← expr .tuple
  let body ← blockBefore self [.else_]
  let orelse ← clauseBlock self .else_
  return .forLoop (← spanFrom start) mode target iter body orelse

def withItem : Rule WithItem := do
  let context ← expr .test
  let target ← after Keyword.as_ (starOr expr .bitOr)
  return ⟨context, target⟩

/-- Items in round brackets, which only the colon of the statement may follow. -/
def bracketedWithItems : Rule (List WithItem) := do
  expect (Symbol.opening .round)
  let items ← listUpTo (closes .round) withItem
  expect (Symbol.closing .round)
  if !(← sees Symbol.colon) || items.isEmpty then fail .invalid else return items

def withItems : Rule (List WithItem) := do
  if ← sees (Symbol.opening .round) then
    -- The bracket may also belong to the first context.
    orElse bracketedWithItems (commaSeparated withItem)
  else commaSeparated withItem

def withBlock (start : Place) (mode : Mode) : Rule Stmt := do
  expect Keyword.with_
  let items ← withItems
  let body ← colonBlock self
  return .withBlock (← spanFrom start) mode items body

/-- A handler, and whether it is starred. -/
def handler : Rule (Bool × Handler) := do
  expect Keyword.except_
  let star ← accept Symbol.star
  let (type, name) ← if ← sees Symbol.colon then pure (none, none)
    else
      let type ← expr .test
      let name ← after Keyword.as_ name
      pure (some type, name)
  let body ← blockBefore self [.except_, .else_, .finally_]
  return (star, ⟨type, name, body⟩)

def tryBlock (start : Place) : Rule Stmt := do
  expect Keyword.try_
  let body ← blockBefore self [.except_, .else_, .finally_]
  let handlers ← many do
    if ← sees Keyword.except_ then return some (← handler self) else return none
  let orelse ← clauseBlock self .else_
  let comments ← commentsBefore [.finally_]
  let guarded := Guarded.append ⟨body, handlers.map Prod.snd, orelse⟩ comments
  let final ← clauseBlock self .finally_
  if handlers.isEmpty && final.isEmpty then fail .expectedHandler
  else
    let star := handlers.any Prod.fst
    return .tryBlock (← spanFrom start) guarded.body guarded.handlers guarded.orelse final star

/-- Only functions can be both asynchronous and decorated. -/
def asyncStatement (start : Place) (decorators : List Expr) : Rule Stmt := do
  expect Keyword.async_
  match ← peek with
  | .keyword .def_ => functionDef self start .async decorators
  | .keyword .for_ => if decorators.isEmpty then forLoop self start .async else fail .invalid
  | .keyword .with_ => if decorators.isEmpty then withBlock self start .async else fail .invalid
  | _ => fail .invalid

/-- A decorator line with the comments behind and below it. -/
def decorator : Rule (Option (Expr × List Stmt)) := do
  if ← accept Symbol.atSign then
    let value ← expr .named
    let trailing ← inlineComment
    newline
    let comments ← many comment
    return some (value, trailing ++ comments)
  else return none

/-- A decorated definition; the comments among its decorators come before it. -/
def decorated : Rule (List Stmt) := do
  let start ← place
  let lines ← many decorator
  let decorators := lines.map Prod.fst
  let definition ← match ← peek with
    | .keyword .def_ => functionDef self start .sync decorators
    | .keyword .class_ => classDef self start decorators
    | .keyword .async_ => asyncStatement self start decorators
    | _ => fail .expectedDefinition
  return lines.flatMap Prod.snd ++ [definition]

/-- A line of statements or one compound statement. -/
def statement : Rule (List Stmt) := do
  let start ← place
  match ← peek with
  | .comment _ _ => return (← comment).toList
  | .indent => fail .unexpectedIndent
  | .symbol .atSign => decorated self
  | .keyword .def_ => List.singleton <$> functionDef self start .sync []
  | .keyword .class_ => List.singleton <$> classDef self start []
  | .keyword .if_ => List.singleton <$> (fun c => branch self c.size c)
  | .keyword .while_ => List.singleton <$> whileLoop self start
  | .keyword .for_ => List.singleton <$> forLoop self start .sync
  | .keyword .try_ => List.singleton <$> tryBlock self start
  | .keyword .with_ => List.singleton <$> withBlock self start .sync
  | .keyword .async_ => List.singleton <$> asyncStatement self start []
  | _ => simpleLine

end

/-- Statements that nest at most to the given depth. -/
def parseStatements : Nat → Rule (List Stmt)
  | 0 => fail .invalid
  | depth + 1 => statement (parseStatements depth)

end AsyncErasure.Grammar
