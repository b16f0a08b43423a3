import AsyncErasure.Command.Run

namespace AsyncErasure.Command

def faultOf : IO.Error → FileFault
  | .noFileOrDirectory .. => .notFound
  | .inappropriateType .. => .notDirectory
  | e => .other (toString e)

/-- The files of the system. -/
def systemFiles : FileAccess IO where
  read path := do
    try
      match String.fromUTF8? (← IO.FS.readBinFile path.display) with
      | some text => return .ok text
      | none => return .error .notText
    catch e => return .error (faultOf e)
  write path text := do
    try
      IO.FS.writeBinFile path.display text.toUTF8
      return .ok ()
    catch e => return .error (faultOf e)

def usage : String :=
  "error: invalid arguments\n\nUsage: async-to-sync [OPTIONS] <FILE> [OUTPUT]\n\n" ++
  "For more information, try '--help'.\n"

end AsyncErasure.Command

open AsyncErasure Command

def main (args : List String) : IO UInt32 := do
  let own ← IO.getEnv "DESYNC_LOG"
  let common ← IO.getEnv "RUST_LOG"
  let format ← IO.getEnv "DESYNC_LOG_FORMAT"
  let settings := Settings.ofEnvironment
    ([("DESYNC_LOG", own), ("RUST_LOG", common), ("DESYNC_LOG_FORMAT", format)].lookup · |>.join)
  let program := (← IO.appPath).toString
  let outcome ← run systemFiles settings program args
  for event in outcome.log do
    IO.eprintln (settings.logLine event)
  if let some failure := outcome.failure then
    IO.eprint failure.message
  if outcome.exit = 2 then
    IO.eprint usage
  IO.print outcome.stdout
  return outcome.exit.toUInt32
