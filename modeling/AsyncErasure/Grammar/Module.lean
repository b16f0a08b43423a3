import AsyncErasure.Grammar.Statement
import AsyncErasure.Token.Scan

namespace AsyncErasure

/-- A whole module. A nested statement reads a token of its own, so the depth never runs out. -/
def Grammar.wholeModule : Grammar.Rule Module := fun c =>
  (Module.mk <$> statementsUpTo (parseStatements c.size) (· == .endMarker)) c

namespace Module

def ofTokens (tokens : List Token) : Except Grammar.Error Module :=
  (Grammar.wholeModule (.ofTokens tokens)).map Prod.fst

/-- Reads a module from its text. -/
def parse (source : String) : Except Grammar.Error Module :=
  match Token.scan source with
  | .error e => .error (.ofToken e)
  | .ok tokens => ofTokens tokens

/-- A text that is read as a module that passes a check. -/
theorem parse_of_any {source : String} {p : Module → Bool} (h : (parse source).toOption.any p) :
    ∃ m, parse source = .ok m ∧ p m := by
  cases hm : parse source with
  | error e =>
    rw [hm] at h
    cases h
  | ok m =>
    rw [hm] at h
    exact ⟨m, rfl, h⟩

end Module

end AsyncErasure
