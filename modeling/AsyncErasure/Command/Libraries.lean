import AsyncErasure.Command.Job
import AsyncErasure.Journal
import AsyncErasure.Json

namespace AsyncErasure.Command

/-- What the command leaves to libraries. -/
structure Libraries where
  /-- What the arguments behind the name of the program ask for. -/
  intent : List Path → Intent
  help : String
  /-- Whether a filter, as it is written, lets an event through. -/
  passes : String → Event → Bool
  /-- A document over several lines. -/
  pretty : Json → String

/-- What the libraries promise. -/
structure Libraries.AsDocumented (lib : Libraries) : Prop where
  /-- The output is an argument by position, which may be left out. -/
  output : ∀ {args job path}, lib.intent args = .work job → job.output = some path →
    ∃ before after, args = before ++ path :: after ∧
      lib.intent (before ++ after) = .work { job with output := none }

/-- How events are written. -/
inductive LogFormat where
  | text
  | json
deriving DecidableEq, Repr

/-- Without a filter there is no log. -/
structure Settings where
  filter : Option String
  format : LogFormat

namespace Settings

/-- The settings in an environment; the command's own variable wins over the common one. What is no
text counts as unset. -/
def ofVariables (value? : String → Option Path) : Settings where
  filter := (text? "DESYNC_LOG").or (text? "RUST_LOG")
  format :=
    let name := ((text? "DESYNC_LOG_FORMAT").getD "").toList.map Char.toLower
    if name = ['j', 's', 'o', 'n'] then .json else .text
where
  text? (name : String) : Option String := (value? name).bind Path.text?

def keeps (s : Settings) (lib : Libraries) (e : Event) : Bool := s.filter.any (lib.passes · e)

end Settings

end AsyncErasure.Command
