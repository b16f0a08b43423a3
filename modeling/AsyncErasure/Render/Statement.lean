import AsyncErasure.Render.Expression
import AsyncErasure.Render.Page

/-!
The text of modules: one statement to a line, blocks indented. Blank markers in a row make one
empty line, and none at either end of a block; a nested block without code gets a `pass`.
-/

namespace AsyncErasure

def Alias.text (a : Alias) : String := a.name ++ a.asName.elim "" (" as " ++ ·)

def WithItem.text (i : WithItem) : String :=
  i.context.render .test ++ Render.behind " as " .test i.target

def Handler.header (star : Bool) (type : Option Expr) (name : Option String) : String :=
  (if star then "except*" else "except") ++
    match type with
    | none => ":"
    | some e => " " ++ e.render .test ++ name.elim "" (" as " ++ ·) ++ ":"

namespace Render

/-- A condition may be a bare assignment. -/
def condition : Expr → String
  | e@(.named ..) => e.render .named
  | e => e.render .tuple

def lead (mode : Mode) (word : String) : String :=
  if mode = .async then "async " ++ word else word

def decorators (depth : Nat) (exprs : List Expr) : List Piece :=
  exprs.map fun e => .line depth ("@" ++ e.render .test)

def functionHeader (mode : Mode) (name : String) (params : Parameters) (returns : Option Expr) :
    String :=
  lead mode "def " ++ name ++ Bracket.round.enclose (commas params.texts) ++
    behind " -> " .test returns ++ ":"

def classHeader (name : String) (bases : List Expr) (keywords : List Argument) : String :=
  "class " ++ name ++
    (if bases.isEmpty && keywords.isEmpty then ""
     else Bracket.round.enclose (commas (exprs .test bases ++ arguments keywords))) ++ ":"

/-- A bare name in brackets keeps them before a type hint. -/
def annotated (target : Expr) (simple : Bool) : String :=
  if !simple && target.isName then Bracket.round.enclose (target.render .test)
  else target.render .test

/-- The pieces of a block from those of its statements. A blank marker has none and leaves a gap
before the next statement, if a statement came before it. -/
def gapped : (begun pending : Bool) → List (Option (List Piece)) → List Piece
  | _, _, [] => []
  | begun, _, none :: rest => gapped begun begun rest
  | _, pending, some pieces :: rest =>
    (if pending then [.gap] else []) ++ pieces ++ gapped true false rest

def passIfEmpty (depth : Nat) (body : List Stmt) : List Piece :=
  if body.any Stmt.isCode then [] else [.line depth "pass"]

/-- A nested block from the pieces of its statements. -/
def nested (depth : Nat) (body : List Stmt) (pieces : List (Option (List Piece))) : List Piece :=
  gapped false false pieces ++ passIfEmpty (depth + 1) body

end Render

open Render

mutual

/-- The pieces of a statement; `word` opens it if it is a branch. -/
def Stmt.pieces (word : String) (depth : Nat) : Stmt → List Piece
  | .functionDef _ mode name params returns decorators body =>
    Render.decorators depth decorators ++
      .line depth (functionHeader mode name params returns) ::
      nested depth body (Render.stmts (depth + 1) body)
  | .classDef _ name bases keywords decorators body =>
    Render.decorators depth decorators ++
      .line depth (classHeader name bases keywords) ::
      nested depth body (Render.stmts (depth + 1) body)
  | .ret _ value => [.line depth ("return" ++ behind " " .tuple value)]
  | .delete _ targets => [.line depth ("del " ++ commas (exprs .test targets))]
  | .assign _ targets value =>
    [.line depth (String.join ((exprs .tuple targets).map (· ++ " = ")) ++
      value.render .yielded)]
  | .augAssign _ target op value =>
    [.line depth (target.render .tuple ++ " " ++ op.text ++ "= " ++ value.render .yielded)]
  | .annAssign _ target hint value simple =>
    [.line depth (annotated target simple ++ ": " ++ hint.render .test ++
      behind " = " .yielded value)]
  | .forLoop _ mode target iter body orelse =>
    .line depth (lead mode "for " ++ target.render .tuple ++ " in " ++ iter.render .tuple ++ ":") ::
      nested depth body (Render.stmts (depth + 1) body) ++ Render.clause "else:" depth orelse
  | .whileLoop _ test body orelse =>
    .line depth ("while " ++ condition test ++ ":") ::
      nested depth body (Render.stmts (depth + 1) body) ++ Render.clause "else:" depth orelse
  | .branch _ test body orelse =>
    .line depth (word ++ condition test ++ ":") ::
      nested depth body (Render.stmts (depth + 1) body) ++ Render.alternative depth orelse
  | .withBlock _ mode items body =>
    .line depth (lead mode "with " ++ commas (items.map WithItem.text) ++ ":") ::
      nested depth body (Render.stmts (depth + 1) body)
  | .raise _ none _ => [.line depth "raise"]
  | .raise _ (some exc) cause =>
    [.line depth ("raise " ++ exc.render .test ++ behind " from " .test cause)]
  | .tryBlock _ body handlers orelse final star =>
    .line depth "try:" :: nested depth body (Render.stmts (depth + 1) body) ++
      Render.handlers star depth handlers ++ Render.clause "else:" depth orelse ++
      Render.clause "finally:" depth final
  | .assert _ test msg => [.line depth ("assert " ++ test.render .test ++ behind ", " .test msg)]
  | .importModules _ names => [.line depth ("import " ++ commas (names.map Alias.text))]
  | .importFrom _ path names level =>
    [.line depth ("from " ++ "".pushn '.' level ++ path.getD "" ++ " import " ++
      commas (names.map Alias.text))]
  | .global _ names => [.line depth ("global " ++ commas names)]
  | .nonlocal _ names => [.line depth ("nonlocal " ++ commas names)]
  | .expr _ value => [.line depth (value.render .yielded)]
  | .pass _ => [.line depth "pass"]
  | .breakLoop _ => [.line depth "break"]
  | .continueLoop _ => [.line depth "continue"]
  | .comment _ text inline => [if inline then .remark depth text else .line depth text]
  | .blank _ => []

/-- The pieces of each statement, none for a blank marker. -/
def Render.stmts (depth : Nat) : List Stmt → List (Option (List Piece))
  | [] => []
  | s :: ss =>
    (if s.isBlank then none else some (s.pieces "if " depth)) :: Render.stmts depth ss

/-- A block under its own header, left out when it is empty. -/
def Render.clause (header : String) (depth : Nat) : List Stmt → List Piece
  | [] => []
  | s :: ss =>
    .line depth header :: nested depth (s :: ss)
      ((if s.isBlank then none else some (s.pieces "if " (depth + 1))) ::
        Render.stmts (depth + 1) ss)

/-- The alternative of a branch: a branch alone goes on the chain, other statements form a block. -/
def Render.alternative (depth : Nat) : List Stmt → List Piece
  | [] => []
  | s :: ss =>
    if s.isBranch && ss.isEmpty then s.pieces "elif " depth
    else
      .line depth "else:" :: nested depth (s :: ss)
        ((if s.isBlank then none else some (s.pieces "if " (depth + 1))) ::
          Render.stmts (depth + 1) ss)

def Handler.pieces (star : Bool) (depth : Nat) : Handler → List Piece
  | ⟨type, name, body⟩ =>
    .line depth (Handler.header star type name) ::
      nested depth body (Render.stmts (depth + 1) body)

def Render.handlers (star : Bool) (depth : Nat) : List Handler → List Piece
  | [] => []
  | h :: hs => h.pieces star depth ++ Render.handlers star depth hs

end

/-- The text of a module, without a line end behind the last line. -/
def Module.render (m : Module) : String :=
  Piece.assemble (gapped false false (Render.stmts 0 m.body))

end AsyncErasure
