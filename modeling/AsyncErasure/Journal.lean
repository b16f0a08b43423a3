namespace AsyncErasure

inductive Severity where
  | trace
  | debug
  | info
  | warn
  | error
deriving DecidableEq, Repr

inductive Detail where
  | text (value : String)
  /-- A text that log lines show in quotes. -/
  | quoted (value : String)
  | number (value : Nat)
deriving DecidableEq, Repr

structure Event where
  severity : Severity
  target : String
  message : String
  details : List (String × Detail)
deriving DecidableEq, Repr

end AsyncErasure
