import AsyncErasure.Tree.Stmt

/-!
The blocks of a module: its body, and the bodies and alternatives of its statements. They are
numbered in the order in which they are met from the outside in, empty ones included.
-/

namespace AsyncErasure

mutual

/-- Changes the blocks inside a statement, inner ones first. -/
def Stmt.mapBlocks (f : List Stmt → List Stmt) : Stmt → Stmt
  | .functionDef s mode name params returns decorators body =>
    .functionDef s mode name params returns decorators (f (Block.mapInside f body))
  | .classDef s name bases keywords decorators body =>
    .classDef s name bases keywords decorators (f (Block.mapInside f body))
  | .forLoop s mode target iter body orelse =>
    .forLoop s mode target iter (f (Block.mapInside f body)) (f (Block.mapInside f orelse))
  | .whileLoop s test body orelse =>
    .whileLoop s test (f (Block.mapInside f body)) (f (Block.mapInside f orelse))
  | .branch s test body orelse =>
    .branch s test (f (Block.mapInside f body)) (f (Block.mapInside f orelse))
  | .withBlock s mode items body => .withBlock s mode items (f (Block.mapInside f body))
  | .tryBlock s body handlers orelse final star =>
    .tryBlock s (f (Block.mapInside f body)) (Block.mapHandlers f handlers)
      (f (Block.mapInside f orelse)) (f (Block.mapInside f final)) star
  | stmt => stmt

/-- Changes the blocks inside the statements of a block. -/
def Block.mapInside (f : List Stmt → List Stmt) : List Stmt → List Stmt
  | [] => []
  | s :: ss => s.mapBlocks f :: Block.mapInside f ss

def Handler.mapBlocks (f : List Stmt → List Stmt) : Handler → Handler
  | ⟨type, name, body⟩ => ⟨type, name, f (Block.mapInside f body)⟩

def Block.mapHandlers (f : List Stmt → List Stmt) : List Handler → List Handler
  | [] => []
  | h :: hs => h.mapBlocks f :: Block.mapHandlers f hs

end

/-- Changes every block of a module, inner ones first. -/
def Module.mapBlocks (f : List Stmt → List Stmt) (m : Module) : Module :=
  ⟨f (Block.mapInside f m.body)⟩

mutual

/-- The blocks inside a statement, each after those inside it. -/
def Stmt.blocksInsideOut : Stmt → List (List Stmt)
  | .functionDef _ _ _ _ _ _ body | .classDef _ _ _ _ _ body | .withBlock _ _ _ body =>
    Block.insideOut body ++ [body]
  | .forLoop _ _ _ _ body orelse | .whileLoop _ _ body orelse | .branch _ _ body orelse =>
    Block.insideOut body ++ [body] ++ Block.insideOut orelse ++ [orelse]
  | .tryBlock _ body handlers orelse final _ =>
    Block.insideOut body ++ [body] ++ Block.handlersInsideOut handlers ++
      Block.insideOut orelse ++ [orelse] ++ Block.insideOut final ++ [final]
  | _ => []

/-- The blocks inside the statements of a block. -/
def Block.insideOut : List Stmt → List (List Stmt)
  | [] => []
  | s :: ss => s.blocksInsideOut ++ Block.insideOut ss

def Handler.blocksInsideOut : Handler → List (List Stmt)
  | ⟨_, _, body⟩ => Block.insideOut body ++ [body]

def Block.handlersInsideOut : List Handler → List (List Stmt)
  | [] => []
  | h :: hs => h.blocksInsideOut ++ Block.handlersInsideOut hs

end

/-- Every block of a module, each after those inside it. -/
def Module.blocksInsideOut (m : Module) : List (List Stmt) := Block.insideOut m.body ++ [m.body]

/-- A search for a block by its number. -/
inductive Search (α : Type) where
  /-- The block lies further on, behind so many others. -/
  | ahead (count : Nat)
  /-- The block was found and changed, or could not be changed. -/
  | done (result : Option α)

namespace Search

def map (f : α → β) : Search α → Search β
  | ahead count => ahead count
  | done result => done (result.map f)

def orElse (x : Search α) (rest : Nat → Search α) : Search α :=
  match x with
  | ahead count => rest count
  | done result => done result

/-- The search through a block, from the search through what is inside it. -/
def block (f : List Stmt → Option (List Stmt)) (body : List Stmt)
    (inside : Nat → Search (List Stmt)) : Nat → Search (List Stmt)
  | 0 => done (f body)
  | count + 1 => inside count

end Search

mutual

def Stmt.editBlock (f : List Stmt → Option (List Stmt)) (count : Nat) : Stmt → Search Stmt
  | .functionDef s mode name params returns decorators body =>
    (Search.block f body (fun n => Block.editInside f n body) count).map
      (.functionDef s mode name params returns decorators ·)
  | .classDef s name bases keywords decorators body =>
    (Search.block f body (fun n => Block.editInside f n body) count).map
      (.classDef s name bases keywords decorators ·)
  | .forLoop s mode target iter body orelse =>
    ((Search.block f body (fun n => Block.editInside f n body) count).map
      (.forLoop s mode target iter · orelse)).orElse fun count =>
    (Search.block f orelse (fun n => Block.editInside f n orelse) count).map
      (.forLoop s mode target iter body ·)
  | .whileLoop s test body orelse =>
    ((Search.block f body (fun n => Block.editInside f n body) count).map
      (.whileLoop s test · orelse)).orElse fun count =>
    (Search.block f orelse (fun n => Block.editInside f n orelse) count).map
      (.whileLoop s test body ·)
  | .branch s test body orelse =>
    ((Search.block f body (fun n => Block.editInside f n body) count).map
      (.branch s test · orelse)).orElse fun count =>
    (Search.block f orelse (fun n => Block.editInside f n orelse) count).map
      (.branch s test body ·)
  | .withBlock s mode items body =>
    (Search.block f body (fun n => Block.editInside f n body) count).map
      (.withBlock s mode items ·)
  | .tryBlock s body handlers orelse final star =>
    ((Search.block f body (fun n => Block.editInside f n body) count).map
      (.tryBlock s · handlers orelse final star)).orElse fun count =>
    ((Block.editHandlers f count handlers).map
      (.tryBlock s body · orelse final star)).orElse fun count =>
    ((Search.block f orelse (fun n => Block.editInside f n orelse) count).map
      (.tryBlock s body handlers · final star)).orElse fun count =>
    (Search.block f final (fun n => Block.editInside f n final) count).map
      (.tryBlock s body handlers orelse · star)
  | _ => .ahead count

def Block.editInside (f : List Stmt → Option (List Stmt)) (count : Nat) :
    List Stmt → Search (List Stmt)
  | [] => .ahead count
  | s :: ss =>
    ((s.editBlock f count).map (· :: ss)).orElse fun count =>
    (Block.editInside f count ss).map (s :: ·)

def Handler.editBlock (f : List Stmt → Option (List Stmt)) (count : Nat) :
    Handler → Search Handler
  | ⟨type, name, body⟩ =>
    (Search.block f body (fun n => Block.editInside f n body) count).map (⟨type, name, ·⟩)

def Block.editHandlers (f : List Stmt → Option (List Stmt)) (count : Nat) :
    List Handler → Search (List Handler)
  | [] => .ahead count
  | h :: hs =>
    ((h.editBlock f count).map (· :: hs)).orElse fun count =>
    (Block.editHandlers f count hs).map (h :: ·)

end

/-- Changes the block of the given number, if there is one and it can be changed. -/
def Module.editBlock (f : List Stmt → Option (List Stmt)) (number : Nat) (m : Module) :
    Option Module :=
  match Search.block f m.body (fun n => Block.editInside f n m.body) number with
  | .ahead _ => none
  | .done result => result.map Module.mk

namespace Module

/-- Removes one statement of a block. -/
def removeAt (number index : Nat) (m : Module) : Option Module :=
  m.editBlock (fun body => if index < body.length then some (body.eraseIdx index) else none) number

/-- Inserts a statement into a block. -/
def insertAt (number index : Nat) (stmt : Stmt) (m : Module) : Option Module :=
  m.editBlock
    (fun body => if index ≤ body.length then some (body.insertIdx index stmt) else none) number

end Module

end AsyncErasure
