import AsyncErasure.Convention
import AsyncErasure.Journal
import AsyncErasure.Renaming.FormatString
import AsyncErasure.Tree.Block
import AsyncErasure.Tree.Substitution
import AsyncErasure.Tree.Walk

/-!
Renaming a module by a convention. Every identifier goes through the renames once, the docstring
loses its marker, and imports of names that would hide a builtin are dropped.
-/

namespace AsyncErasure

namespace Convention

def renameLiteral (c : Convention) (literal : String) : String :=
  if Literal.isFormat literal.toList then FormatString.renameFields c.rename literal else literal

def substitution (c : Convention) : Substitution := ⟨c.rename, c.renameLiteral, id, .await⟩

/-- The names that an import keeps: those of the shadow module only if they are not shadowed. -/
def keptNames (c : Convention) (path : Option String) (names : List Alias) : List Alias :=
  if path = some c.shadowModule then names.filter (!c.shadowed.contains ·.name) else names

/-- An import of the shadow module that keeps no name. -/
def drops (c : Convention) : Stmt → Bool
  | .importFrom _ path names _ => path = some c.shadowModule && (c.keptNames path names).isEmpty
  | _ => false

def trimImport (c : Convention) : Stmt → Stmt
  | .importFrom s path names level => .importFrom s path (c.keptNames path names) level
  | s => s

def isRemark : Stmt → Bool
  | .comment _ _ inline => inline
  | _ => false

/-- A comment of its own that begins on the line of the given statement. -/
def standsOnLineOf (stmt : Stmt) : Stmt → Bool
  | .comment s _ inline => !inline && s.line == stmt.span.line
  | _ => false

/-- Drops imports from a block. The remarks behind a dropped import go with it, and so do the
comments just before it that share its line. Statements kept stand last first. -/
def dropImportsFrom (c : Convention) : (kept : List Stmt) → (dropped : Bool) → List Stmt → List Stmt
  | kept, _, [] => kept.reverse
  | kept, dropped, s :: ss =>
    -- A remark belongs to the statement before it.
    if dropped && isRemark s then dropImportsFrom c kept true ss
    else if c.drops s then dropImportsFrom c (kept.dropWhile (standsOnLineOf s)) true ss
    else dropImportsFrom c (c.trimImport s :: kept) false ss

def dropImports (c : Convention) (body : List Stmt) : List Stmt := c.dropImportsFrom [] false body

/-- Takes the marker out of a docstring of plain text. -/
def trimDocstring (c : Convention) : Stmt → Stmt
  | .expr s (.str t parts) =>
    if parts.all fun part => Literal.isPlain part.toList then
      .expr s (.str t (parts.map (Literal.replaceIn c.docstringMarker "")))
    else .expr s (.str t parts)
  | s => s

/-- Changes the first statement that carries code. -/
def onFirstCode (f : Stmt → Stmt) : List Stmt → List Stmt
  | [] => []
  | s :: ss => if s.isCode then f s :: ss else s :: onFirstCode f ss

end Convention

namespace Module

def trimDocstring (c : Convention) (m : Module) : Module :=
  ⟨Convention.onFirstCode c.trimDocstring m.body⟩

def dropImports (c : Convention) (m : Module) : Module := m.mapBlocks c.dropImports

def rename (c : Convention) (m : Module) : Module :=
  ((m.trimDocstring c).dropImports c).subst c.substitution

end Module

namespace Convention

def target : String := "ds_desugar::rename"

/-- The event of renaming one identifier, if it has another name. -/
def renameEvent (c : Convention) (name : String) : List Event :=
  match c.renames.lookup name with
  | some new => [⟨.trace, target, "rename", [("from", .text name), ("to", .text new)]⟩]
  | none => []

def dropEvent (line : Nat) : Event :=
  ⟨.trace, target, "drop shadowing import", [("line", .number line)]⟩

/-- The identifiers that a statement itself holds, in the order in which they are renamed. -/
def ownNames (c : Convention) : Stmt → List String
  | .functionDef _ _ name _ _ _ _ => [name]
  | .classDef _ name _ _ _ _ => [name]
  | .importFrom _ path names _ =>
    (c.keptNames path names).flatMap fun a => a.name :: a.asName.toList
  | .importModules _ names => names.flatMap fun a => a.asName.toList
  | .global _ names => names
  | .nonlocal _ names => names
  | .tryBlock _ _ handlers _ _ _ => handlers.flatMap fun h => h.name.toList
  | _ => []

/-- What is told of a node on the walk through a module. -/
def eventsAt (c : Convention) : Node → List Event
  | .block body => (body.filter c.drops).map fun s => dropEvent s.span.line
  | .stmt s => (c.ownNames s).flatMap c.renameEvent
  | .expr (.name _ id) => c.renameEvent id
  | .expr (.attr _ _ field) => c.renameEvent field
  | .param p => c.renameEvent p.name
  | .argument a => a.name.toList.flatMap c.renameEvent
  | _ => []

end Convention

def Module.renameEvents (c : Convention) (m : Module) : List Event := m.walk.flatMap c.eventsAt

end AsyncErasure
