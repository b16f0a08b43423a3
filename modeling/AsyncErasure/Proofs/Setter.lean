import AsyncErasure.Proofs.Spacing
import AsyncErasure.Proofs.Tree.Follows
import AsyncErasure.Setter

namespace AsyncErasure

namespace Setter

variable (setters : List (String × String))

/-- A statement that calls a setter with one value, and the assignment of that value to the attribute
that the setter sets. -/
inductive Replaces : Stmt → Stmt → Prop
  | call {s t u : Span} {object value : Expr} {field property : String} :
    setters.lookup field = some property → value.isStarred = false →
    Replaces (.expr s (.call t (.attr u object field) [value] []))
      (.assign s [.attr u object property] value)

/-- What a statement becomes, its blocks aside: a call of a setter its assignment, and any other
statement itself. -/
def Rewrites (s t : Stmt) : Prop :=
  Replaces setters s t ∨ (∀ u, ¬Replaces setters s u) ∧ t.head = s.head

variable {setters} {s t : Stmt}

theorem replaces_iff : Replaces setters s t ↔ assignment? setters s = some t := by
  constructor
  · rintro ⟨hlookup, hvalue⟩
    simp [assignment?, hlookup, hvalue]
  · intro h
    unfold assignment? at h
    split at h
    · split at h
      · cases h
      · rename_i hvalue
        obtain ⟨property, hlookup, rfl⟩ := Option.map_eq_some_iff.1 h
        exact .call hlookup (by simpa using hvalue)
    · cases h

theorem not_replaces_iff : (∀ t, ¬Replaces setters s t) ↔ assignment? setters s = none := by
  simp only [replaces_iff, Option.eq_none_iff_forall_ne_some, ne_eq]

theorem fix_eq_self (h : assignment? setters s = none) : fix setters s = s := by
  rw [fix, h, Option.getD_none]

variable (setters)

theorem assignment?_eq_some {s t : Stmt} (h : assignment? setters s = some t) :
    (∃ e, s = .expr s.span e) ∧ ∃ targets value, t = .assign s.span targets value := by
  obtain ⟨-, -⟩ := replaces_iff.2 h
  exact ⟨⟨_, rfl⟩, _, _, rfl⟩

theorem assignment?_mapBlocks (f : List Stmt → List Stmt) (s : Stmt) :
    assignment? setters (s.mapBlocks f) = assignment? setters s := by
  cases s <;> rfl

theorem assignment?_fix (s : Stmt) : assignment? setters (fix setters s) = none := by
  unfold fix
  cases h : assignment? setters s with
  | none => exact h
  | some t =>
    rcases assignment?_eq_some setters h with ⟨-, targets, value, rfl⟩
    rfl

theorem blocks_fix (s : Stmt) : (fix setters s).blocks = s.blocks := by
  unfold fix
  cases h : assignment? setters s with
  | none => rfl
  | some t =>
    rcases assignment?_eq_some setters h with ⟨⟨e, hs⟩, targets, value, rfl⟩
    rw [hs]
    rfl

theorem head_fix (s : Stmt) : (fix setters s).head = fix setters s.head := by
  unfold fix Stmt.head
  rw [assignment?_mapBlocks]
  cases h : assignment? setters s with
  | none => rfl
  | some t =>
    rcases assignment?_eq_some setters h with ⟨-, targets, value, rfl⟩
    rfl

def fixInside (s : Stmt) : Stmt := fix setters (s.mapBlocks (List.map (fix setters)))

theorem map_mapInside_fix (body : List Stmt) :
    (Block.mapInside (List.map (fix setters)) body).map (fix setters) =
      body.map (fixInside setters) := by
  rw [Block.mapInside_eq_map, List.map_map]
  rfl

theorem blocks_fixInside (s : Stmt) :
    (fixInside setters s).blocks = s.blocks.map (List.map (fixInside setters)) := by
  rw [fixInside, blocks_fix, Stmt.blocks_mapBlocks]
  exact List.map_congr_left fun body _ => map_mapInside_fix setters body

theorem head_fixInside (s : Stmt) : (fixInside setters s).head = fix setters s.head := by
  rw [fixInside, head_fix, Stmt.head_mapBlocks]

theorem rewrites_of_head (h : t.head = fix setters s.head) : Rewrites setters s t := by
  have hhead : assignment? setters s.head = assignment? setters s := assignment?_mapBlocks ..
  unfold fix at h
  rw [hhead] at h
  cases hassign : assignment? setters s with
  | none =>
    rw [hassign] at h
    exact .inr ⟨not_replaces_iff.2 hassign, h⟩
  | some u =>
    rw [hassign] at h
    rcases assignment?_eq_some setters hassign with ⟨-, targets, value, rfl⟩
    -- an assignment has no blocks, so it is its own head
    cases t <;> cases h
    exact .inl (replaces_iff.2 hassign)

/-- No setter is left anywhere in a statement that has been fixed. -/
theorem deep_fixInside (s : Stmt) :
    Guard.deep (fun s => (assignment? setters s).isNone) (fixInside setters s) := by
  induction s using Stmt.childInduction with
  | step s ih =>
    rw [Guard.all_children, Bool.and_eq_true, List.all_eq_true]
    refine ⟨?_, fun x hx => ?_⟩
    · rw [fixInside, assignment?_fix]
      rfl
    · rw [Stmt.children_eq_flatten, blocks_fixInside, ← List.map_flatten,
        ← Stmt.children_eq_flatten] at hx
      obtain ⟨y, hy, rfl⟩ := List.mem_map.1 hx
      exact ih y hy

end Setter

section Module

variable (setters : List (String × String)) (m : Module)

open Setter

theorem body_fixSetters : (m.fixSetters setters).body = m.body.map (fixInside setters) :=
  map_mapInside_fix setters m.body

theorem follows_fixSetters :
    Follows (fun _ => False) (fun s t => t.head = fix setters s.head) m.body
      (m.fixSetters setters).body := by
  rw [body_fixSetters]
  exact follows_map (blocks_fixInside setters) (head_fixInside setters) m.body

theorem all_deep_fixSetters :
    (m.fixSetters setters).body.all (Guard.deep fun s => (assignment? setters s).isNone) := by
  rw [body_fixSetters, List.all_map]
  exact List.all_eq_true.2 fun s _ => deep_fixInside setters s

variable {setters m}

/-- Without a call of a setter there is nothing to fix. -/
theorem fixSetters_eq_self (h : m.body.all (Guard.deep fun s => (assignment? setters s).isNone)) :
    m.fixSetters setters = m := by
  refine congrArg Module.mk (Guard.mapInside_eq_self (fun body hbody => ?_) h)
  refine (List.map_congr_left fun s hs => ?_).trans (List.map_id body)
  exact fix_eq_self (Option.isNone_iff_eq_none.1 (List.all_eq_true.1 hbody s hs))

variable (setters m)

theorem fixSetters_fixSetters : (m.fixSetters setters).fixSetters setters = m.fixSetters setters :=
  fixSetters_eq_self (all_deep_fixSetters setters m)

/-- The setter pass replaces the calls of setters, in every block, and nothing else: what stands in
the place of a call is its assignment, with the object, the value and both places that the call had.
No call of a setter is left, and a second pass changes nothing. -/
theorem Module.fixSetters_exact :
    Follows (fun _ => False) (Rewrites setters) m.body (m.fixSetters setters).body ∧
      (∀ s ∈ (m.fixSetters setters).statements, ∀ t, ¬Replaces setters s t) ∧
      (m.fixSetters setters).fixSetters setters = m.fixSetters setters := by
  refine ⟨?_, fun s hs => ?_, fixSetters_fixSetters setters m⟩
  · exact (follows_fixSetters setters m).imp fun _ _ => rewrites_of_head setters
  · have hall := all_deep_fixSetters setters m
    rw [← Guard.all_statements, List.all_eq_true] at hall
    exact not_replaces_iff.2 (Option.isNone_iff_eq_none.1 (hall s hs))

end Module

end AsyncErasure
