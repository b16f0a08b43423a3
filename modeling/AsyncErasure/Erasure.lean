import AsyncErasure.Tree.Substitution

namespace AsyncErasure

/-- Everything becomes synchronous, and an awaited value stands for itself. -/
def Substitution.erasure : Substitution := ⟨id, id, fun _ => .sync, fun _ value => value⟩

/-- The synchronous form of a module. -/
def Module.erase (m : Module) : Module := m.subst .erasure

end AsyncErasure
