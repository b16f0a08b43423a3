import AsyncErasure.Command.Job

namespace AsyncErasure.Command.Intent

def dash : UInt8 := 0x2d

/-- A single dash is a plain argument. -/
def isOption (arg : Path) : Bool := arg.head? = some dash && arg ≠ [dash]

def asksHelp (arg : Path) : Bool := arg = .ofText "--help" || (Path.ofText "-h").isPrefixOf arg

/-- Reads arguments from left to right; the first mistake or call for help decides. -/
def read (ended : Bool) (file output : Option Path) (dumpTree : Bool) : List Path → Intent
  | [] =>
    match file with
    | some file => work ⟨file, output, dumpTree⟩
    | none => misuse
  | arg :: rest =>
    if arg = [] then misuse
    else if !ended && isOption arg then
      if arg = .ofText "--" then read true file output dumpTree rest
      else if asksHelp arg then help
      else if arg = .ofText "--dump-ast" && !dumpTree then read ended file output true rest
      else misuse
    else
      match file, output with
      | none, _ => read ended (some arg) output dumpTree rest
      | some _, none => read ended file (some arg) dumpTree rest
      | some _, some _ => misuse

def ofArguments (args : List Path) : Intent := read false none none false args

end AsyncErasure.Command.Intent
