import AsyncErasure.Erasure
import AsyncErasure.Renaming
import AsyncErasure.Setter
import AsyncErasure.Spacing

/-!
The conversion of an asynchronous module. Blank lines are marked first, while every statement still
stands where it was written.
-/

namespace AsyncErasure.Module

def convert (c : Convention) (m : Module) : Module :=
  ((m.separate.erase).rename c).fixSetters c.setters

def spacingEvents (m : Module) : List Event :=
  m.markerLines.map fun line =>
    ⟨.trace, "ds_desugar::blanks", "blank marker", [("line", .number line)]⟩

/-- What is told of an asynchronous statement before it is erased. -/
def erasureEvent : Node → List Event
  | .stmt (.functionDef s .async name _ _ _ _) => event "async def" s [("name", .text name)]
  | .stmt (.forLoop s .async _ _ _ _) => event "async for" s []
  | .stmt (.withBlock s .async _ _) => event "async with" s []
  | _ => []
where
  event (message : String) (s : Span) (details : List (String × Detail)) : List Event :=
    [⟨.trace, "ds_desugar::desugar", message, details ++ [("line", .number s.line)]⟩]

def erasureEvents (m : Module) : List Event := m.walk.flatMap erasureEvent

def setterEvents (setters : List (String × String)) (m : Module) : List Event :=
  m.walk.flatMap fun
    | .stmt s => (Setter.event? setters s).toList
    | _ => []

def stageEvent (message : String) : Event := ⟨.debug, "ds_desugar::convert", message, []⟩

/-- The journal of a conversion. -/
def conversionEvents (c : Convention) (m : Module) : List Event :=
  let separated := m.separate
  let erased := separated.erase
  let renamed := erased.rename c
  m.spacingEvents ++ [stageEvent "inserted blank markers"] ++
    separated.erasureEvents ++ [stageEvent "desugared async constructs"] ++
    (erased.trimDocstring c).renameEvents c ++ [stageEvent "renamed async identifiers"] ++
    renamed.setterEvents c.setters ++ [stageEvent "rewrote async setters"]

end AsyncErasure.Module
