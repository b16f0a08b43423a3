import AsyncErasure.Command.Standard.Arguments
import AsyncErasure.Command.Standard.Log
import AsyncErasure.Command.Work

namespace AsyncErasure.Command

def helpText : String :=
  "Convert an async module to a sync module\n\n" ++
  "Usage: async-to-sync [OPTIONS] <FILE> [OUTPUT]\n\n" ++
  "Arguments:\n" ++
  "  <FILE>    The file to process\n" ++
  "  [OUTPUT]  File where to write (stdout if omitted)\n\n" ++
  "Options:\n" ++
  "      --dump-ast  Dump the parsed tree as JSON instead of converting\n" ++
  "  -h, --help      Print help\n"

/-- The libraries as far as the command needs them. -/
def Libraries.standard : Libraries where
  intent := Intent.ofArguments
  help := helpText
  passes text e := (Filter.parse text).passes e
  pretty := Json.pretty

def Settings.ofEnvironment (value? : String → Option String) : Settings :=
  ofVariables fun name => (value? name).map Path.ofText

def Settings.logLine (s : Settings) (e : Event) : String :=
  match s.format with
  | .text => e.line
  | .json => e.json.compact

/-- Runs the command under a name, with arguments that are texts. -/
def run [Monad m] (files : FileAccess m) (settings : Settings) (program : String)
    (args : List String) : m Outcome :=
  runWith .standard files settings (some (.ofText program)) (args.map .ofText)

end AsyncErasure.Command
