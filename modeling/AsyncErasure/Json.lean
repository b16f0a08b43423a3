namespace AsyncErasure

/-- A document of nested values; the fields of an object keep their order. -/
inductive Json where
  | null
  | bool (value : Bool)
  | num (value : Nat)
  | str (value : String)
  | arr (items : List Json)
  | obj (fields : List (String × Json))

end AsyncErasure
