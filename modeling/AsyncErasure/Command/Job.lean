import AsyncErasure.Command.Path

namespace AsyncErasure.Command

/-- What is to be done with which files. -/
structure Job where
  file : Path
  output : Option Path
  /-- Write the parsed tree instead of converting it. -/
  dumpTree : Bool
deriving DecidableEq, Repr

/-- What a list of arguments asks for. -/
inductive Intent where
  | help
  | misuse
  | work (job : Job)
deriving DecidableEq, Repr

end AsyncErasure.Command
