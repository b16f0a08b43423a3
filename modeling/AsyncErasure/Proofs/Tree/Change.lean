import AsyncErasure.Proofs.Tree.Shape
import AsyncErasure.Tree.Block
import AsyncErasure.Tree.Substitution

namespace AsyncErasure

namespace Shape

/-- The second change does on shapes what the first one does on trees. -/
abbrev Mirrors (f g : List Stmt → List Stmt) : Prop := ∀ body, stmts (f body) = g (stmts body)

variable {f g : List Stmt → List Stmt}

mutual

theorem mapBlocks (h : Mirrors f g) (s : Stmt) : (s.mapBlocks f).shape = s.shape.mapBlocks g := by
  cases s <;> simp [Stmt.mapBlocks, Stmt.shape, h, mapInside h, mapHandlers h]

theorem mapInside (h : Mirrors f g) (ss : List Stmt) :
    stmts (Block.mapInside f ss) = Block.mapInside g (stmts ss) := by
  cases ss <;> simp [Block.mapInside, stmts, mapBlocks h, mapInside h]

theorem mapHandler (h : Mirrors f g) (x : Handler) :
    (x.mapBlocks f).shape = x.shape.mapBlocks g := by
  cases x; simp [Handler.mapBlocks, Handler.shape, h, mapInside h]

theorem mapHandlers (h : Mirrors f g) (xs : List Handler) :
    handlers (Block.mapHandlers f xs) = Block.mapHandlers g (handlers xs) := by
  cases xs <;> simp [Block.mapHandlers, handlers, mapHandler h, mapHandlers h]

end

/-- Changing the blocks of a module goes with changing those of its shape. -/
theorem module_mapBlocks (h : Mirrors f g) (m : Module) :
    (m.mapBlocks f).shape = m.shape.mapBlocks g := by
  simp [Module.mapBlocks, Module.shape, h, mapInside h]

end Shape

namespace Substitution

abbrev Respects (r : Substitution) (f : List Stmt → List Stmt) : Prop :=
  ∀ body, stmts r body = body → stmts r (f body) = f body

variable {r : Substitution} {f : List Stmt → List Stmt}

mutual

theorem fixes_mapBlocks (h : Respects r f) (s : Stmt) (hs : s.subst r = s) :
    (s.mapBlocks f).subst r = s.mapBlocks f := by
  cases s <;> simp_all [Stmt.mapBlocks, Stmt.subst, fixes_mapInside h, fixes_mapHandlers h]

theorem fixes_mapInside (h : Respects r f) (ss : List Stmt) (hs : stmts r ss = ss) :
    stmts r (Block.mapInside f ss) = Block.mapInside f ss := by
  cases ss <;> simp_all [Block.mapInside, stmts, fixes_mapBlocks h, fixes_mapInside h]

theorem fixes_mapHandler (h : Respects r f) (x : Handler) (hx : x.subst r = x) :
    (x.mapBlocks f).subst r = x.mapBlocks f := by
  cases x; simp_all [Handler.mapBlocks, Handler.subst, fixes_mapInside h]

theorem fixes_mapHandlers (h : Respects r f) (xs : List Handler) (hxs : handlers r xs = xs) :
    handlers r (Block.mapHandlers f xs) = Block.mapHandlers f xs := by
  cases xs <;> simp_all [Block.mapHandlers, handlers, fixes_mapHandler h, fixes_mapHandlers h]

end

/-- A module that a substitution fixes stays so if the change of a block keeps it fixed. -/
theorem fixes_module_mapBlocks (h : Respects r f) {m : Module} (hm : m.subst r = m) :
    (m.mapBlocks f).subst r = m.mapBlocks f := by
  have hbody : stmts r m.body = m.body := congrArg Module.body hm
  rw [Module.subst, Module.mapBlocks, h _ (fixes_mapInside h m.body hbody)]

end Substitution

end AsyncErasure
