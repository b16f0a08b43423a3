import AsyncErasure.Command.Path

namespace AsyncErasure.Command

inductive FileFault where
  | notFound
  | notDirectory
  | isDirectory
  | notText
  | other (reason : String)
deriving DecidableEq, Repr

def FileFault.message : FileFault → String
  | notFound => "No such file or directory (os error 2)"
  | notDirectory => "Not a directory (os error 20)"
  | isDirectory => "Is a directory (os error 21)"
  | notText => "stream did not contain valid UTF-8"
  | other reason => reason

/-- Reading and writing whole files by path. -/
structure FileAccess (m : Type → Type) where
  read : Path → m (Except FileFault String)
  write : Path → String → m (Except FileFault Unit)

end AsyncErasure.Command
