import AsyncErasure.Proofs.Token.Extent
import AsyncErasure.Tree.Block

namespace AsyncErasure

/-- What may stand at a place beside plain expressions. -/
structure Slot where
  /-- A starred operand. -/
  starred : Bool
  slice : Bool
  /-- A tuple without brackets. -/
  bare : Bool
  /-- Only operands may stand there: an `in` that follows must not belong to a comparison. -/
  operand : Bool
deriving DecidableEq

namespace Slot

def plain : Slot := ⟨false, false, false, false⟩

def element : Slot := ⟨true, false, false, false⟩

/-- Elements with or without brackets around them. -/
def elements : Slot := ⟨true, false, true, false⟩

def index : Slot := ⟨true, true, true, false⟩

def target : Slot := ⟨true, false, false, true⟩

def targets : Slot := ⟨true, false, true, true⟩

def inner (slot : Slot) : Slot := { slot with bare := false }

end Slot

def isIdentifier (id : String) : Bool := (Lexeme.name id).isWhole

def isNumeral (text : String) : Bool := (Lexeme.number text).isWhole

/-- A string literal, which no carriage return may stand in. -/
def isLiteral (text : String) : Bool :=
  (Lexeme.string text).isWhole && !text.toList.contains '\r'

namespace Expr

/-- Where only operands may stand, forms weaker than an operand and stronger than a tuple may not:
they have no brackets there. -/
def suits (slot : Slot) (e : Expr) : Bool :=
  !(slot.operand && decide (.tuple < e.level) && decide (e.level < .bitOr))

/-- A generator that is the only argument of a call has no starred element. -/
def lacksStar : List Expr → List Argument → Bool
  | [.comp _ .generator elt _], [] => !elt.isStarred
  | _, _ => true

end Expr

def Constant.fits : Constant → Bool
  | .number text => isNumeral text
  | _ => .true

mutual

def Expr.fits (slot : Slot) : Expr → Bool
  | e@(.boolOp _ _ values) => e.suits slot && 2 ≤ values.length && Fits.exprs .plain values
  | .named _ target value => target.isName && target.fits .plain && value.fits .plain
  | .binOp _ _ left right => left.fits .plain && right.fits .plain
  | e@(.unaryOp _ _ operand) => e.suits slot && operand.fits .plain
  | e@(.lambda _ params body) =>
    e.suits slot && params.fits false && body.fits .plain
  | e@(.ifElse _ test body orelse) =>
    e.suits slot && test.fits .plain && body.fits .plain && orelse.fits .plain
  | .dict _ items => Fits.items items
  | .set _ elts => !elts.isEmpty && Fits.exprs .element elts
  | .comp _ _ elt clauses => elt.fits .element && !clauses.isEmpty && Fits.clauses clauses
  | .dictComp _ key value clauses =>
    key.fits .plain && value.fits .plain && !clauses.isEmpty && Fits.clauses clauses
  | .await _ value => value.fits .plain
  | .yield _ value => Fits.expr? .elements value
  | .yieldFrom _ value => value.fits .plain
  | e@(.compare _ left links) =>
    e.suits slot && left.fits .plain && !links.isEmpty && Fits.links links
  | .call _ func args keywords =>
    func.fits .plain && Fits.exprs .element args && Fits.arguments keywords &&
      Expr.lacksStar args keywords
  | .constant _ value => value.fits
  | .str _ parts => !parts.isEmpty && parts.all isLiteral
  | .attr _ value field => value.fits .plain && isIdentifier field
  | .subscript _ value index => value.fits .plain && index.fits .index
  | .starred _ value => slot.starred && value.fits .plain
  | .name _ id => isIdentifier id
  | .list _ elts => Fits.exprs .element elts
  | .tuple _ elts true => Fits.exprs .element elts
  | .tuple _ elts false => slot.bare && !elts.isEmpty && Fits.exprs slot.inner elts
  | .slice _ lower upper step =>
    slot.slice && Fits.expr? .plain lower && Fits.expr? .plain upper && Fits.expr? .plain step

def Fits.exprs (slot : Slot) : List Expr → Bool
  | [] => true
  | e :: es => e.fits slot && Fits.exprs slot es

def Fits.expr? (slot : Slot) : Option Expr → Bool
  | none => true
  | some e => e.fits slot

/-- Only the parameters of a function have type hints. -/
def Param.fits (hinted : Bool) : Param → Bool
  | ⟨name, hint, default⟩ =>
    isIdentifier name && (hinted || hint.isNone) && Fits.expr? .plain hint &&
      Fits.expr? .plain default

def Fits.params (hinted : Bool) : List Param → Bool
  | [] => true
  | p :: ps => p.fits hinted && Fits.params hinted ps

def Fits.param? (hinted : Bool) : Option Param → Bool
  | none => true
  | some p => p.fits hinted

def Parameters.fits (hinted : Bool) : Parameters → Bool
  | ⟨posonly, args, vararg, kwonly, kwarg⟩ =>
    Fits.params hinted posonly && Fits.params hinted args && Fits.param? hinted vararg &&
      Fits.params hinted kwonly && Fits.param? hinted kwarg

def Argument.fits : Argument → Bool
  | ⟨name, value⟩ => name.all isIdentifier && value.fits .plain

def Fits.arguments : List Argument → Bool
  | [] => true
  | a :: as => a.fits && Fits.arguments as

def DictItem.fits : DictItem → Bool
  | ⟨key, value⟩ => Fits.expr? .plain key && value.fits .plain

def Fits.items : List DictItem → Bool
  | [] => true
  | i :: is => i.fits && Fits.items is

def Comparison.fits : Comparison → Bool
  | ⟨_, operand⟩ => operand.fits .plain

def Fits.links : List Comparison → Bool
  | [] => true
  | c :: cs => c.fits && Fits.links cs

def Clause.fits : Clause → Bool
  | ⟨_, target, iter, conditions⟩ =>
    target.fits .targets && iter.fits .plain && Fits.exprs .plain conditions

def Fits.clauses : List Clause → Bool
  | [] => true
  | c :: cs => c.fits && Fits.clauses cs

end

def isPath (path : String) : Bool :=
  (path.toList.splitOn '.').all fun id => isIdentifier (String.ofList id)

def isCommentText (text : String) : Bool :=
  match text.toList with
  | '#' :: cs => !cs.contains '\n' && !cs.contains '\r'
  | _ => false

def Alias.fits (isName : String → Bool) (a : Alias) : Bool :=
  isName a.name && a.asName.all isIdentifier

def WithItem.fits (i : WithItem) : Bool := i.context.fits .plain && Fits.expr? .target i.target

namespace Fits

def imported (names : List Alias) : Bool :=
  names == [⟨"*", none⟩] || !names.isEmpty && names.all (Alias.fits isIdentifier)

/-- The brackets of a tuple that stands alone belong to the statement, unless it is empty or has a
starred element. -/
def isAmbiguous : List WithItem → Bool
  | [⟨.tuple _ elts _, none⟩] => !elts.isEmpty && !elts.any Expr.isStarred
  | _ => false

def withItems (items : List WithItem) : Bool :=
  !items.isEmpty && items.all WithItem.fits && !isAmbiguous items

end Fits

namespace Stmt

def isSimple : Stmt → Bool
  | functionDef .. | classDef .. | forLoop .. | whileLoop .. | branch .. | withBlock ..
  | tryBlock .. | comment .. | blank _ => false
  | _ => true

def isRemark : Stmt → Bool
  | comment _ _ inline => inline
  | _ => false

end Stmt

mutual

def Stmt.fits : Stmt → Bool
  | .functionDef _ _ name params returns decorators body =>
    isIdentifier name && params.fits true && Fits.expr? .plain returns &&
      Fits.exprs .plain decorators && Fits.block body
  | .classDef _ name bases keywords decorators body =>
    isIdentifier name && Fits.exprs .element bases && Fits.arguments keywords &&
      Fits.exprs .plain decorators && Fits.block body
  | .ret _ value => Fits.expr? .elements value
  | .delete _ targets => !targets.isEmpty && Fits.exprs .target targets
  | .assign _ targets value =>
    !targets.isEmpty && Fits.exprs .elements targets && value.fits .elements
  | .augAssign _ target _ value => target.fits .elements && value.fits .elements
  | .annAssign _ target hint value simple =>
    target.fits .element && hint.fits .plain && Fits.expr? .elements value &&
      (!simple || target.isName)
  | .forLoop _ _ target iter body orelse =>
    target.fits .targets && iter.fits .elements && Fits.block body && Fits.clause orelse
  | .whileLoop _ test body orelse | .branch _ test body orelse =>
    test.fits .plain && Fits.block body && Fits.clause orelse
  | .withBlock _ _ items body => Fits.withItems items && Fits.block body
  | .raise _ exc cause =>
    Fits.expr? .plain exc && Fits.expr? .plain cause && (exc.isSome || cause.isNone)
  | .tryBlock _ body handlers orelse final star =>
    Fits.block body && Fits.handlers handlers && Fits.clause orelse && Fits.clause final &&
      (!handlers.isEmpty || !final.isEmpty) && (!star || !handlers.isEmpty)
  | .assert _ test msg => test.fits .plain && Fits.expr? .plain msg
  | .importModules _ names => !names.isEmpty && names.all (Alias.fits isPath)
  | .importFrom _ path names level =>
    path.all isPath && (path.isSome || level != 0) && Fits.imported names
  | .global _ names | .nonlocal _ names => !names.isEmpty && names.all isIdentifier
  | .expr _ value => value.fits .elements
  | .pass _ | .breakLoop _ | .continueLoop _ => true
  | .comment _ text _ => isCommentText text
  | .blank _ => true

/-- The statements of a block. A remark stands right behind a simple statement, or first in a block
that has a heading; `begun` tells that a statement came before, `remarkable` that a remark may
come. -/
def Fits.stmts (begun remarkable : Bool) : List Stmt → Bool
  | [] => true
  | s :: ss =>
    if s.isBlank then Fits.stmts begun (remarkable && !begun) ss
    else s.fits && (!s.isRemark || remarkable) && Fits.stmts true s.isSimple ss

/-- A block under a heading holds code: a text cannot do without. -/
def Fits.block : List Stmt → Bool
  | [] => false
  | s :: ss =>
    (s.isCode || ss.any Stmt.isCode) &&
      if s.isBlank then Fits.stmts false true ss
      else s.fits && Fits.stmts true s.isSimple ss

def Fits.clause : List Stmt → Bool
  | [] => true
  | s :: ss =>
    (s.isCode || ss.any Stmt.isCode) &&
      if s.isBlank then Fits.stmts false true ss
      else s.fits && Fits.stmts true s.isSimple ss

def Handler.fits : Handler → Bool
  | ⟨type, name, body⟩ =>
    Fits.expr? .plain type && name.all isIdentifier && (type.isSome || name.isNone) &&
      Fits.block body

def Fits.handlers : List Handler → Bool
  | [] => true
  | h :: hs => h.fits && Fits.handlers hs

end

/-- A module that some text is read as, up to spans and blank lines. -/
def Module.WellFormed (m : Module) : Prop := Fits.stmts false false m.body

instance (m : Module) : Decidable m.WellFormed := inferInstanceAs (Decidable (_ = true))

namespace Fits

theorem exprs_eq_true {slot : Slot} {es : List Expr} :
    exprs slot es ↔ ∀ e ∈ es, e.fits slot := by
  induction es with
  | nil => simp [exprs]
  | cons e es ih => simp [exprs, ih]

theorem expr?_eq_true {slot : Slot} {e : Option Expr} :
    expr? slot e ↔ ∀ x, e = some x → x.fits slot := by
  cases e <;> simp [expr?]

theorem params_eq_true {hinted : Bool} {ps : List Param} :
    params hinted ps ↔ ∀ p ∈ ps, p.fits hinted := by
  induction ps with
  | nil => simp [params]
  | cons p ps ih => simp [params, ih]

theorem param?_eq_true {hinted : Bool} {p : Option Param} :
    param? hinted p ↔ ∀ x, p = some x → x.fits hinted := by
  cases p <;> simp [param?]

theorem arguments_eq_true {as : List Argument} : arguments as ↔ ∀ a ∈ as, a.fits := by
  induction as with
  | nil => simp [arguments]
  | cons a as ih => simp [arguments, ih]

theorem items_eq_true {is : List DictItem} : items is ↔ ∀ i ∈ is, i.fits := by
  induction is with
  | nil => simp [items]
  | cons i is ih => simp [items, ih]

theorem links_eq_true {cs : List Comparison} : links cs ↔ ∀ c ∈ cs, c.fits := by
  induction cs with
  | nil => simp [links]
  | cons c cs ih => simp [links, ih]

theorem clauses_eq_true {cs : List Clause} : clauses cs ↔ ∀ c ∈ cs, c.fits := by
  induction cs with
  | nil => simp [clauses]
  | cons c cs ih => simp [clauses, ih]

theorem block_eq (body : List Stmt) :
    block body = (body.any Stmt.isCode && stmts false true body) := by
  cases body <;> simp [block, stmts]

theorem clause_eq (body : List Stmt) : clause body = (body.isEmpty || block body) := by
  cases body <;> simp [clause, block]

theorem handlers_eq_true {hs : List Handler} : handlers hs ↔ ∀ h ∈ hs, h.fits := by
  induction hs with
  | nil => simp [handlers]
  | cons h hs ih => simp [handlers, ih]

end Fits

end AsyncErasure
