namespace AsyncErasure

/-- How asynchronous and synchronous names correspond. -/
structure Convention where
  /-- Asynchronous identifiers with their synchronous counterparts. -/
  renames : List (String × String)
  /-- Asynchronous setter methods with the attributes they set. -/
  setters : List (String × String)
  /-- What is taken out of the docstring of a module. -/
  docstringMarker : String
  /-- The module whose shadowed names are not imported. -/
  shadowModule : String
  /-- Names that, once renamed, would hide a builtin. -/
  shadowed : List String

namespace Convention

def standard : Convention where
  renames :=
    [("AsyncClientCursor", "ClientCursor"), ("AsyncCursor", "Cursor"),
     ("AsyncRawCursor", "RawCursor"), ("AsyncServerCursor", "ServerCursor"),
     ("aclose", "close"), ("aclosing", "closing"), ("aconn", "conn"), ("aconn_cls", "conn_cls"),
     ("aconn_set", "conn_set"), ("alist", "list"), ("anext", "next")]
  setters :=
    [("set_autocommit", "autocommit"), ("set_read_only", "read_only"),
     ("set_isolation_level", "isolation_level"), ("set_deferrable", "deferrable")]
  docstringMarker := "Async"
  shadowModule := "utils"
  shadowed := ["alist", "anext"]

/-- The synchronous name of an identifier, itself if it has no other. -/
def rename (c : Convention) (name : String) : String := (c.renames.lookup name).getD name

/-- The shadowed names in order, each once. -/
def shadowedNames (c : Convention) : List String :=
  (c.shadowed.mergeSort fun a b => a ≤ b).eraseDups

end Convention

end AsyncErasure
