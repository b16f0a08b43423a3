import AsyncErasure.Proofs.Spacing
import AsyncErasure.Proofs.Tree.Gap
import Mathlib.Algebra.GroupWithZero.Nat

namespace AsyncErasure

namespace Block

def size (body : List Stmt) : Nat := (insideOut body ++ [body]).flatten.length

theorem length_blocksInsideOut (s : Stmt) :
    s.blocksInsideOut.flatten.length = (s.blocks.map size).sum := by
  rw [Stmt.blocksInsideOut_eq]
  induction s.blocks with
  | nil => rfl
  | cons body bs ih =>
    rw [List.flatMap_cons, List.flatten_append, List.length_append, ih, List.map_cons,
      List.sum_cons]
    rfl

theorem size_cons (s : Stmt) (body : List Stmt) :
    size (s :: body) = (s.blocks.map size).sum + 1 + size body := by
  rw [← length_blocksInsideOut]
  simp [size, insideOut]
  omega

end Block

section Complete

open Block

variable {gone : Stmt → Prop} {alike : Stmt → Stmt → Prop}

mutual

theorem Follows.size_le {a b : List Stmt} : Follows gone alike a b → size b ≤ size a
  | .nil => Nat.le_refl _
  | .gone _ h => by
    rw [size_cons]
    exact Nat.le_trans h.size_le (Nat.le_add_left ..)
  | .kept _ hblocks h => by
    rw [size_cons, size_cons]
    exact Nat.add_le_add (Nat.succ_le_succ hblocks.size_le) h.size_le

theorem FollowsAll.size_le {as bs : List (List Stmt)} :
    FollowsAll gone alike as bs → (bs.map size).sum ≤ (as.map size).sum
  | .nil => Nat.le_refl _
  | .cons hbody h => by
    simp only [List.map_cons, List.sum_cons]
    exact Nat.add_le_add hbody.size_le h.size_le

end

mutual

/-- Nothing has gone from a block that is as large as before. -/
theorem Follows.complete {a b : List Stmt} :
    Follows gone alike a b → size a ≤ size b → Follows (fun _ => False) alike a b
  | .nil, _ => .nil
  | .gone _ h, hsize => by
    have hle := h.size_le
    rw [size_cons] at hsize
    omega
  | .kept hst hblocks h, hsize => by
    have hle := h.size_le
    have hle' := hblocks.size_le
    rw [size_cons, size_cons] at hsize
    exact .kept hst (hblocks.complete (by omega)) (h.complete (by omega))

theorem FollowsAll.complete {as bs : List (List Stmt)} : FollowsAll gone alike as bs →
    (as.map size).sum ≤ (bs.map size).sum → FollowsAll (fun _ => False) alike as bs
  | .nil, _ => .nil
  | .cons hbody h, hsize => by
    have hle := h.size_le
    have hle' := hbody.size_le
    simp only [List.map_cons, List.sum_cons] at hsize
    exact .cons (hbody.complete (by omega)) (h.complete (by omega))

end

mutual

theorem Follows.size_eq {a b : List Stmt} : Follows (fun _ => False) alike a b → size b = size a
  | .nil => rfl
  | .kept _ hblocks h => by rw [size_cons, size_cons, hblocks.size_eq, h.size_eq]

theorem FollowsAll.size_eq {as bs : List (List Stmt)} :
    FollowsAll (fun _ => False) alike as bs → (bs.map size).sum = (as.map size).sum
  | .nil => rfl
  | .cons hbody h => by simp only [List.map_cons, List.sum_cons, hbody.size_eq, h.size_eq]

end

end Complete

namespace Spacing

mutual

/-- A marker stands between two statements, alone; `begun` tells that a statement came before,
`pending` that a marker did. The blocks inside are tidy too. -/
inductive Tidy : (begun pending : Bool) → List Stmt → Prop
  | nil {begun : Bool} : Tidy begun false []
  | marker {s : Stmt} {ss : List Stmt} : s.isBlank → Tidy true true ss → Tidy true false (s :: ss)
  | stmt {begun pending : Bool} {s : Stmt} {ss : List Stmt} :
    s.isBlank = false → TidyAll s.blocks → Tidy true false ss → Tidy begun pending (s :: ss)

inductive TidyAll : List (List Stmt) → Prop
  | nil : TidyAll []
  | cons {body : List Stmt} {bs : List (List Stmt)} :
    Tidy false false body → TidyAll bs → TidyAll (body :: bs)

end

theorem tidyAll_iff {bs : List (List Stmt)} : TidyAll bs ↔ ∀ body ∈ bs, Tidy false false body := by
  constructor
  · intro h
    induction bs with
    | nil => exact nofun
    | cons body bs ih =>
      cases h with
      | cons hbody h => exact List.forall_mem_cons.2 ⟨hbody, ih h⟩
  · intro h
    induction bs with
    | nil => exact .nil
    | cons body bs ih =>
      rw [List.forall_mem_cons] at h
      exact .cons h.1 (ih h.2)

theorem Tidy.behind {ss : List Stmt} (h : Tidy false false ss) : Tidy true false ss := by
  cases h with
  | nil => exact .nil
  | stmt hs hblocks h => exact .stmt hs hblocks h

theorem tidy_separateFrom {ss : List Stmt} (h : ∀ s ∈ ss, s.isBlank = false ∧ TidyAll s.blocks)
    (line : Nat) : Tidy true false (separateFrom below line ss) := by
  induction ss generalizing line with
  | nil => exact .nil
  | cons s ss ih =>
    rw [List.forall_mem_cons] at h
    rw [separateFrom]
    split
    · exact .marker rfl (.stmt h.1.1 h.1.2 (ih h.2 _))
    · exact .stmt h.1.1 h.1.2 (ih h.2 _)

theorem tidy_separate {ss : List Stmt} (h : ∀ s ∈ ss, s.isBlank = false ∧ TidyAll s.blocks) :
    Tidy false false (separate below ss) := by
  cases ss with
  | nil => exact .nil
  | cons s ss =>
    rw [List.forall_mem_cons] at h
    rw [separate_cons]
    exact .stmt h.1.1 h.1.2 (tidy_separateFrom h.2 _)

/-- Separating leaves a block without markers tidy. -/
theorem tidy_of_unmarked {body : List Stmt} (h : body.all (Guard.deep fun s => !s.isBlank)) :
    Tidy false false (separate below (Block.mapInside (separate below) body)) := by
  have hbody {body : List Stmt} (hb : ∀ s ∈ body, s.isBlank = false)
      (hinside : ∀ s ∈ body, TidyAll (s.mapBlocks (separate below)).blocks) :
      Tidy false false (separate below (Block.mapInside (separate below) body)) := by
    rw [Block.mapInside_eq_map]
    refine tidy_separate (List.forall_mem_map.2 fun s hs => ⟨?_, hinside s hs⟩)
    rw [Stmt.isBlank_mapBlocks, hb s hs]
  have hinside (s : Stmt) (h : Guard.deep (fun s => !s.isBlank) s) :
      s.isBlank = false ∧ TidyAll (s.mapBlocks (separate below)).blocks := by
    induction s using Stmt.childInduction with
    | step s ih =>
      rw [Guard.all_children, Bool.and_eq_true, List.all_eq_true, Bool.not_eq_true'] at h
      refine ⟨h.1, ?_⟩
      rw [Stmt.blocks_mapBlocks, tidyAll_iff, List.forall_mem_map]
      intro body hmem
      have hchild (x : Stmt) (hx : x ∈ body) := ih x (Stmt.mem_children hmem hx)
        (h.2 x (Stmt.mem_children hmem hx))
      exact hbody (fun x hx => (hchild x hx).1) fun x hx => (hchild x hx).2
  rw [List.all_eq_true] at h
  exact hbody (fun s hs => (hinside s (h s hs)).1) fun s hs => (hinside s (h s hs)).2

section Following

variable {alike : Stmt → Stmt → Prop}

mutual

/-- A block that loses no statement stays tidy. -/
theorem Tidy.follows (halike : ∀ s t, alike s t → s.isBlank = t.isBlank) {begun pending : Bool}
    {a b : List Stmt} :
    Tidy begun pending a → Follows (fun _ => False) alike a b → Tidy begun pending b
  | .nil, .nil => .nil
  | .marker hs h, .kept hst _ hab => .marker (halike _ _ hst ▸ hs) (h.follows halike hab)
  | .stmt hs hblocks h, .kept hst hall hab =>
    .stmt (halike _ _ hst ▸ hs) (hblocks.follows halike hall) (h.follows halike hab)

theorem TidyAll.follows (halike : ∀ s t, alike s t → s.isBlank = t.isBlank)
    {as bs : List (List Stmt)} :
    TidyAll as → FollowsAll (fun _ => False) alike as bs → TidyAll bs
  | .nil, .nil => .nil
  | .cons hbody h, .cons hab hall => .cons (hbody.follows halike hab) (h.follows halike hall)

end

end Following

end Spacing

theorem Stmt.shape_mapBlocks_eq {f : List Stmt → List Stmt} {s : Stmt}
    (h : ∀ body ∈ s.blocks, Shape.stmts (f (Block.mapInside f body)) = Shape.stmts body) :
    (s.mapBlocks f).shape = s.shape := by
  cases s with
  | tryBlock s body handlers orelse final star =>
    simp only [blocks, List.forall_mem_cons, List.forall_mem_append, List.forall_mem_map] at h
    rcases h with ⟨hbody, hhandlers, horelse, hfinal, -⟩
    have hall : Shape.handlers (handlers.map (Handler.mapBlocks f)) = Shape.handlers handlers := by
      rw [Shape.handlers_eq_map, Shape.handlers_eq_map, List.map_map]
      refine List.map_congr_left fun handler hmem => ?_
      rw [Function.comp_apply, handler_mapBlocks, Handler.shape, hhandlers handler hmem]
      cases handler
      rfl
    simp only [mapBlocks, shape, hbody, horelse, hfinal, mapHandlers_eq_map, hall]
  | _ => simp_all [blocks, mapBlocks, shape]

namespace Spacing

mutual

/-- Settling takes nothing from a tidy block. -/
theorem Tidy.settled_eq {begun pending : Bool} {ss : List Stmt} : Tidy begun pending ss →
    Grammar.settled begun pending ss = Grammar.gap pending ++ Shape.stmts ss
  | .nil => rfl
  | .marker (s := s) hs h => by
    rw [Grammar.settled_cons_of_blank hs, h.settled_eq, Shape.stmts]
    cases s with
    | blank => rfl
    | _ => cases hs
  | .stmt hs hblocks h => by
    rw [Grammar.settled_cons hs, h.settled_eq, Stmt.shape_mapBlocks_eq hblocks.settled_eq,
      Shape.stmts]
    rfl

theorem TidyAll.settled_eq {bs : List (List Stmt)} : TidyAll bs → ∀ body ∈ bs,
    Shape.stmts (settle false false (Block.mapInside (settle false false) body)) = Shape.stmts body
  | .nil => nofun
  | .cons hbody h => List.forall_mem_cons.2 ⟨hbody.settled_eq, h.settled_eq⟩

end

end Spacing

end AsyncErasure
