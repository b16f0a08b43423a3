import AsyncErasure.Grammar.Cursor

/-!
The grammar of expressions, level by level. Every rule takes the family `self` of rules, one for
each level; `parseLevel` is one unfolding of that family, and `parseAt` ties the knot to a given
depth.
-/

namespace AsyncErasure.Grammar

open Rule

def closes (b : Bracket) (lexeme : Lexeme) : Bool := lexeme == Symbol.closing b

def startsExpr : Lexeme → Bool
  | .name _ | .number _ | .string _ => true
  | .keyword k => [.not_, .lambda_, .await_, .none_, .true_, .false_, .yield_].contains k
  | .symbol s =>
    [.opening .round, .opening .square, .opening .curly, .minus, .plus, .tilde, .star,
     .ellipsis].contains s
  | _ => false

/-- What a parameter list is made of. -/
inductive ParamItem where
  | slash
  | star (vararg : Option Param)
  | doubleStar (kwarg : Param)
  | plain (param : Param)

/-- Adds an item to the parameters before it; the flag tells that a star has passed. A slash makes
the arguments so far positional. -/
def ParamItem.add : Parameters × Bool → ParamItem → Parameters × Bool
  | (p, starred), slash => ({ p with posonly := p.args, args := [] }, starred)
  | (p, _), star none => (p, true)
  | (p, _), star (some vararg) => ({ p with vararg := some vararg }, true)
  | (p, starred), doubleStar kwarg => ({ p with kwarg := some kwarg }, starred)
  | (p, true), plain param => ({ p with kwonly := p.kwonly ++ [param] }, true)
  | (p, false), plain param => ({ p with args := p.args ++ [param] }, false)

def ParamItem.collect (items : List ParamItem) : Parameters :=
  (items.foldl ParamItem.add (.empty, false)).1

/-- Positional and named arguments, apart but each in order. -/
def splitArguments (args : List (Expr ⊕ Argument)) : List Expr × List Argument :=
  (args.filterMap Sum.getLeft?, args.filterMap Sum.getRight?)

section

variable (self : Level → Rule Expr)

/-- A starred operand, or else an expression of the given level. -/
def starOr (level : Level) : Rule Expr := do
  if ← sees Symbol.star then
    let start ← place
    advance
    let value ← self .bitOr
    return .starred (← spanFrom start) value
  else self level

/-- One item alone, or an unparenthesized tuple of items. -/
def itemOrTuple (closed : Lexeme → Bool) (item : Rule Expr) : Rule Expr := do
  let start ← place
  let first ← item
  if ← sees Symbol.comma then
    let rest ← listTail closed item
    return .tuple (← spanFrom start) (first :: rest) false
  else return first

def starExpressions : Rule Expr :=
  itemOrTuple (fun l => !startsExpr l) (starOr self .test)

/-- The target of a loop ends before its `in`. -/
def targetList : Rule Expr :=
  itemOrTuple (fun l => l == Keyword.in_ || l == Symbol.assign) (starOr self .bitOr)

def namedExpression : Rule Expr := do
  match ← peek, ← peekSecond with
  | .name id, .symbol .walrus =>
    let start ← place
    advance
    let target := Expr.name (← spanFrom start) id
    advance
    let value ← self .test
    return .named (← spanFrom start) target value
  | _, _ => self .test

def yieldExpression : Rule Expr := do
  let start ← place
  expect Keyword.yield_
  if ← accept Keyword.from_ then
    let value ← self .test
    return .yieldFrom (← spanFrom start) value
  else
    let value ← if startsExpr (← peek) then some <$> self .tuple else pure none
    return .yield (← spanFrom start) value

def param (annotated : Bool) : Rule Param := do
  let name ← name
  let hint ← if annotated then after Symbol.colon (self .test) else pure none
  let default ← after Symbol.assign (self .test)
  return ⟨name, hint, default⟩

def paramItem (close : Symbol) (annotated : Bool) : Rule ParamItem := do
  if ← accept Symbol.slash then return .slash
  else if ← accept Symbol.doubleStar then return .doubleStar (← param self annotated)
  else if ← accept Symbol.star then
    if (← sees Symbol.comma) || (← sees close) then return .star none
    else return .star (some (← param self annotated))
  else return .plain (← param self annotated)

/-- Parameters up to a closing symbol; only those of a function have annotations. -/
def parameters (close : Symbol) (annotated : Bool) : Rule Parameters :=
  ParamItem.collect <$> listUpTo (· == close) (paramItem self close annotated)

def lambda : Rule Expr := do
  let start ← place
  expect Keyword.lambda_
  let params ← parameters self .colon false
  expect Symbol.colon
  let body ← self .test
  return .lambda (← spanFrom start) params body

/-- A conditional expression, a lambda or something stronger. -/
def expression : Rule Expr := do
  if ← sees Keyword.lambda_ then lambda self
  else
    let start ← place
    let body ← self .disjunction
    if ← accept Keyword.if_ then
      let test ← self .disjunction
      expect Keyword.else_
      let orelse ← self .test
      return .ifElse (← spanFrom start) test body orelse
    else return body

def boolLevel (op : BoolOp) : Rule Expr := do
  let start ← place
  let first ← self op.level.next
  if ← sees op.keyword then
    let rest ← many (after op.keyword (self op.level.next))
    return .boolOp (← spanFrom start) op (first :: rest)
  else return first

def negation : Rule Expr := do
  if ← sees Keyword.not_ then
    let start ← place
    advance
    let operand ← self .negation
    return .unaryOp (← spanFrom start) .not operand
  else self .comparison

def comparisonOp : Rule (Option CmpOp) := do
  match ← peek with
  | .symbol s =>
    match CmpOp.ofSymbol? s with
    | some op =>
      advance
      return some op
    | none => return none
  | .keyword .in_ =>
    advance
    return some .isIn
  | .keyword .is_ =>
    advance
    if ← accept Keyword.not_ then return some .isNot else return some .is
  | .keyword .not_ =>
    if (← peekSecond) == Keyword.in_ then
      advance
      advance
      return some .notIn
    else return none
  | _ => return none

def comparison : Rule Expr := do
  let start ← place
  let left ← self .bitOr
  let links ← many do
    match ← comparisonOp with
    | some op => return some ⟨op, ← self .bitOr⟩
    | none => return none
  if links.isEmpty then return left else return .compare (← spanFrom start) left links

/-- The symbols of the operators that the rule of a level groups to the left. -/
def grouped : Level → List Symbol
  | .bitOr => [.bar]
  | .bitXor => [.caret]
  | .bitAnd => [.amp]
  | .shift => [.shiftLeft, .shiftRight]
  | .sum => [.plus, .minus]
  | .product => [.star, .slash, .doubleSlash, .percent, .atSign]
  | _ => []

/-- The operators are grouped at the levels that their text has. -/
theorem symbol_mem_grouped {op : BinOp} {level : Level} :
    op.symbol ∈ grouped level ↔ op.level = level ∧ op ≠ .pow := by
  cases op <;> cases level <;> decide

/-- The operator of the given level that comes next. -/
def binaryOp (level : Level) : Rule (Option BinOp) := do
  match ← peek with
  | .symbol s => return if s ∈ grouped level then BinOp.ofSymbol? s else none
  | _ => return none

/-- Operators of one level group to the left. -/
def binaryLevel (level : Level) : Rule Expr := do
  let start ← place
  let first ← self level.next
  first |> grow fun left => do
    match ← binaryOp level with
    | some op =>
      advance
      let right ← self level.next
      return some (.binOp (← spanFrom start) op left right)
    | none => return none

def signOp : Rule (Option UnaryOp) := do
  match ← peek with
  | .symbol s => return UnaryOp.ofSymbol? s
  | _ => return none

def signed : Rule Expr := do
  match ← signOp with
  | some op =>
    let start ← place
    advance
    let operand ← self .signed
    return .unaryOp (← spanFrom start) op operand
  | none => self .power

/-- A power groups to the right, and its exponent may have a sign. -/
def power : Rule Expr := do
  let start ← place
  let base ← self .awaited
  if ← accept Symbol.doubleStar then
    let exponent ← self .signed
    return .binOp (← spanFrom start) .pow base exponent
  else return base

def awaited : Rule Expr := do
  if ← sees Keyword.await_ then
    let start ← place
    advance
    let value ← self .atom
    return .await (← spanFrom start) value
  else self .atom

def startsClause : Rule Bool := do
  match ← peek with
  | .keyword .for_ => return true
  | .keyword .async_ => return (← peekSecond) == Keyword.for_
  | _ => return false

def clause : Rule Clause := do
  let mode := if ← accept Keyword.async_ then Mode.async else Mode.sync
  expect Keyword.for_
  let target ← targetList self
  expect Keyword.in_
  let iter ← self .disjunction
  let conditions ← many (after Keyword.if_ (self .disjunction))
  return ⟨mode, target, iter, conditions⟩

def clauses : Rule (List Clause) :=
  many do if ← startsClause then return some (← clause self) else return none

/-- The rest of a display after its first element. -/
def displayTail (b : Bracket) (first : Expr) : Rule (List Expr) := do
  let rest ← listTail (closes b) (starOr self .named)
  expect (Symbol.closing b)
  return first :: rest

/-- What stands in round brackets: an empty tuple, a yield, a generator, a tuple or a grouping. -/
def parenthesized : Rule Expr := do
  let start ← place
  expect (Symbol.opening .round)
  if ← accept (Symbol.closing .round) then return .tuple (← spanFrom start) [] true
  else if ← sees Keyword.yield_ then
    let value ← yieldExpression self
    expect (Symbol.closing .round)
    return value
  else
    let first ← starOr self .named
    if ← startsClause then
      let clauses ← clauses self
      expect (Symbol.closing .round)
      return .comp (← spanFrom start) .generator first clauses
    else if ← accept (Symbol.closing .round) then
      match first with
      | .tuple _ elts _ => return .tuple (← spanFrom start) elts true
      | _ => return first
    else
      let elts ← displayTail self .round first
      return .tuple (← spanFrom start) elts true

def listDisplay : Rule Expr := do
  let start ← place
  expect (Symbol.opening .square)
  if ← accept (Symbol.closing .square) then return .list (← spanFrom start) []
  else
    let first ← starOr self .named
    if ← startsClause then
      let clauses ← clauses self
      expect (Symbol.closing .square)
      return .comp (← spanFrom start) .list first clauses
    else
      let elts ← displayTail self .square first
      return .list (← spanFrom start) elts

def dictItem : Rule DictItem := do
  if ← accept Symbol.doubleStar then return ⟨none, ← self .bitOr⟩
  else
    let key ← self .test
    expect Symbol.colon
    return ⟨some key, ← self .test⟩

/-- Entries up to the closing bracket. -/
def dictItems : Rule (List DictItem) := do
  let items ← listUpTo (closes .curly) (dictItem self)
  expect (Symbol.closing .curly)
  return items

/-- The rest of a dictionary display after its first entry. -/
def dictTail (first : DictItem) : Rule (List DictItem) := do
  if ← accept Symbol.comma then return first :: (← dictItems self)
  else
    expect (Symbol.closing .curly)
    return [first]

/-- What stands in curly brackets: a dictionary, a set or a comprehension of either. -/
def braceDisplay : Rule Expr := do
  let start ← place
  expect (Symbol.opening .curly)
  if ← accept (Symbol.closing .curly) then return .dict (← spanFrom start) []
  else if ← sees Symbol.doubleStar then
    let items ← dictItems self
    return .dict (← spanFrom start) items
  else
    let first ← starOr self .named
    if ← accept Symbol.colon then
      let value ← self .test
      if ← startsClause then
        let clauses ← clauses self
        expect (Symbol.closing .curly)
        return .dictComp (← spanFrom start) first value clauses
      else
        let items ← dictTail self ⟨some first, value⟩
        return .dict (← spanFrom start) items
    else if ← startsClause then
      let clauses ← clauses self
      expect (Symbol.closing .curly)
      return .comp (← spanFrom start) .set first clauses
    else
      let elts ← displayTail self .curly first
      return .set (← spanFrom start) elts

def stringPart : Rule (Option String) := do
  match ← peek with
  | .string text =>
    advance
    return some text
  | _ => return none

def atom : Rule Expr := do
  let start ← place
  let constant (value : Constant) : Rule Expr := do
    advance
    return .constant (← spanFrom start) value
  match ← peek with
  | .keyword .none_ => constant .none
  | .keyword .true_ => constant .true
  | .keyword .false_ => constant .false
  | .name id =>
    advance
    return .name (← spanFrom start) id
  | .number text => constant (.number text)
  | .string _ =>
    let parts ← many stringPart
    return .str (← spanFrom start) parts
  | .symbol .ellipsis => constant .ellipsis
  | .symbol (.opening .round) => parenthesized self
  | .symbol (.opening .square) => listDisplay self
  | .symbol (.opening .curly) => braceDisplay self
  | _ => fail .invalid

/-- One argument of a call or of a class header. -/
def callArgument : Rule (Expr ⊕ Argument) := do
  let start ← place
  if ← accept Symbol.doubleStar then return .inr ⟨none, ← self .test⟩
  else if ← accept Symbol.star then
    let value ← self .test
    return .inl (.starred (← spanFrom start) value)
  else if (← peek).isWord && (← peekSecond) == Symbol.assign then
    let arg ← name
    advance
    return .inr ⟨some arg, ← self .test⟩
  else
    let value ← self .named
    if ← startsClause then
      let clauses ← clauses self
      return .inl (.comp (← spanFrom start) .generator value clauses)
    else return .inl value

/-- Arguments up to a closing round bracket. -/
def callArguments : Rule (List Expr × List Argument) :=
  splitArguments <$> listUpTo (closes .round) (callArgument self)

/-- The bounds of a slice end at a colon, a comma or the closing bracket. -/
def endsBound (lexeme : Lexeme) : Bool :=
  lexeme == Symbol.colon || lexeme == Symbol.comma || closes .square lexeme

def sliceItem : Rule Expr := do
  let start ← place
  if ← sees Symbol.star then starOr self .test
  else
    let lower ← if ← sees Symbol.colon then pure none else some <$> self .named
    if ← accept Symbol.colon then
      let upper ← if endsBound (← peek) then pure none else some <$> self .test
      let step ← if ← accept Symbol.colon then
          let next ← peek
          if next == Symbol.comma || closes .square next then pure none else some <$> self .test
        else pure none
      return .slice (← spanFrom start) lower upper step
    else
      match lower with
      | some e => return e
      | none => fail .invalid

def slices : Rule Expr := itemOrTuple (closes .square) (sliceItem self)

/-- An atom with the attributes, calls and subscripts that follow it. -/
def primary : Rule Expr := do
  let start ← place
  let first ← atom self
  first |> grow fun value => do
    if ← accept Symbol.dot then
      let field ← name
      return some (.attr (← spanFrom start) value field)
    else if ← accept (Symbol.opening .round) then
      let (args, keywords) ← callArguments self
      expect (Symbol.closing .round)
      return some (.call (← spanFrom start) value args keywords)
    else if ← accept (Symbol.opening .square) then
      let index ← slices self
      expect (Symbol.closing .square)
      return some (.subscript (← spanFrom start) value index)
    else return none

/-- The rule of each level. -/
def parseLevel : Level → Rule Expr
  | .named => namedExpression self
  | .yielded => do if ← sees Keyword.yield_ then yieldExpression self else self .tuple
  | .tuple => starExpressions self
  | .test => expression self
  | .disjunction => boolLevel self .or
  | .conjunction => boolLevel self .and
  | .negation => negation self
  | .comparison => comparison self
  | .bitOr => binaryLevel self .bitOr
  | .bitXor => binaryLevel self .bitXor
  | .bitAnd => binaryLevel self .bitAnd
  | .shift => binaryLevel self .shift
  | .sum => binaryLevel self .sum
  | .product => binaryLevel self .product
  | .signed => signed self
  | .power => power self
  | .awaited => awaited self
  | .atom => primary self

end

/-- Expressions of a level, with rules nested at most to the given depth. -/
def parseAt : Nat → Level → Rule Expr
  | 0, _ => fail .invalid
  | depth + 1, level => parseLevel (parseAt depth) level

/-- An expression of the given level. Between two tokens read there are at most as many nested
rules as there are levels, so the depth never runs out. -/
def expr (level : Level) : Rule Expr := fun c => parseAt (20 * (c.size + 1)) level c

end AsyncErasure.Grammar
