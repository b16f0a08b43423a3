import AsyncErasure.Command.FileAccess

/-!
A tree of files with a working directory. A path is followed part by part, from the working
directory or from the root; every part but the last has to be a directory.
-/

namespace AsyncErasure.Command

inductive Entry where
  | file (content : ByteArray)
  | directory

instance : DecidableEq Entry
  | .file a, .file b =>
    @decidable_of_decidable_of_iff (a = b) _ (ByteArray.instDecidableEq a b) (by simp)
  | .directory, .directory => isTrue rfl
  | .file _, .directory => isFalse nofun
  | .directory, .file _ => isFalse nofun

structure FileTree where
  /-- The working directory, from the root on. -/
  home : List Path
  /-- The entries by the parts of their paths from the root on. -/
  entries : List (List Path × Entry)

/-- Where a path leads. -/
inductive Spot where
  | directory (path : List Path)
  | file (path : List Path) (content : ByteArray)
  /-- A name that nothing has yet, in a directory. -/
  | free (path : List Path)

namespace FileTree

/-- Nothing but a working directory. -/
def empty : FileTree := ⟨[.ofText "work"], [([.ofText "work"], .directory)]⟩

def find? (t : FileTree) (path : List Path) : Option Entry := t.entries.lookup path

def put (t : FileTree) (path : List Path) (entry : Entry) : FileTree :=
  ⟨t.home, (path, entry) :: t.entries.filter (·.1 ≠ path)⟩

/-- Follows the parts of a path from a directory on. Above the root lies the root. -/
def follow (t : FileTree) (dir : List Path) : List Path → Except FileFault Spot
  | [] => .ok (.directory dir)
  | part :: rest =>
    if part.isHere then follow t dir rest
    else if part.isUp then follow t dir.dropLast rest
    else
      match t.find? (dir ++ [part]) with
      | some .directory => follow t (dir ++ [part]) rest
      | some (.file content) =>
        if rest.isEmpty then .ok (.file (dir ++ [part]) content) else .error .notDirectory
      | none => if rest.isEmpty then .ok (.free (dir ++ [part])) else .error .notFound

/-- A path that begins with a slash starts at the root. -/
def locate (t : FileTree) (path : Path) : Except FileFault Spot :=
  let parts := path.parts
  t.follow (if parts.length > 1 && parts.head? = some [] then [] else t.home) parts

def read (t : FileTree) (path : Path) : Except FileFault String := do
  match ← t.locate path with
  | .file _ content =>
    match String.fromUTF8? content with
    | some text => return text
    | none => throw .notText
  | .directory _ => throw .isDirectory
  | .free _ => throw .notFound

/-- The directory part of a path that ends in slashes. -/
def aboveSlash? (path : Path) : Option Path :=
  let parts := path.parts.reverse
  match parts.dropWhile (· = []) with
  | last :: above =>
    if parts.head? = some [] && !Path.isHere last && !Path.isUp last then
      some (.ofParts (above.reverse ++ [Path.ofText "."]))
    else none
  | [] => none

/-- A path that ends in a slash names a directory, whether there is one or not. -/
def write (t : FileTree) (path : Path) (text : String) : Except FileFault FileTree := do
  if let some above := aboveSlash? path then
    let _ ← t.locate above
    throw .isDirectory
  match ← t.locate path with
  | .file path _ => return t.put path (.file text.toUTF8)
  | .free path => return t.put path (.file text.toUTF8)
  | .directory _ => throw .isDirectory

/-- Adds an entry with the directories above it. -/
def add (t : FileTree) (path : String) (entry : Entry) : FileTree :=
  let parts := t.home ++ (Path.ofText path).parts.filter fun part => !part.isHere
  let above := (List.range parts.length).tail.map parts.take
  (above.foldl (fun t dir => t.put dir .directory) t).put parts entry

/-- The files below the working directory that another tree lacks or holds with other contents. -/
def changedSince (t before : FileTree) : List (String × ByteArray) :=
  t.entries.filterMap fun (path, entry) =>
    match entry with
    | .file content =>
      if before.find? path = some entry || !t.home.isPrefixOf path then none
      else some ((Path.ofParts (path.drop t.home.length)).display, content)
    | .directory => none

/-- Access to the files of a tree that is at hand. -/
def access : FileAccess (StateM FileTree) where
  read path := return (← get).read path
  write path text := do
    match (← get).write path text with
    | .ok t =>
      set t
      return .ok ()
    | .error fault => return .error fault

end FileTree

end AsyncErasure.Command
