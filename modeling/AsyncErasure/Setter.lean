import AsyncErasure.Journal
import AsyncErasure.Tree.Block

/-!
Setters. A call statement that passes one value to a setter method becomes an assignment to the
attribute that the method sets.
-/

namespace AsyncErasure

namespace Setter

/-- The assignment for a call, if the call is of that form. -/
def assignment? (setters : List (String × String)) : Stmt → Option Stmt
  | .expr s (.call _ (.attr t object field) [value] []) =>
    if value.isStarred then none
    else (setters.lookup field).map fun property => .assign s [.attr t object property] value
  | _ => none

def fix (setters : List (String × String)) (s : Stmt) : Stmt := (assignment? setters s).getD s

def event? (setters : List (String × String)) (stmt : Stmt) : Option Event :=
  match stmt, assignment? setters stmt with
  | .expr _ (.call s (.attr _ _ field) _ _), some _ =>
    some ⟨.trace, "ds_desugar::setters", "setter to assignment",
      [("setter", .text field), ("line", .number s.line)]⟩
  | _, _ => none

end Setter

def Module.fixSetters (setters : List (String × String)) (m : Module) : Module :=
  m.mapBlocks (List.map (Setter.fix setters))

end AsyncErasure
