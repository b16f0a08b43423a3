namespace AsyncErasure.Text

/-- The parts of a path that name something; empty parts and single dots do not. -/
def pathParts (path : String) : List String :=
  (path.splitOn "/").filter fun part => part ≠ "" && part ≠ "."

/-- The last part of a path, unless it goes up. -/
def fileName? (path : String) : Option String :=
  (pathParts path).getLast?.filter (· ≠ "..")

end AsyncErasure.Text
