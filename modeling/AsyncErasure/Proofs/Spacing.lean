import AsyncErasure.Proofs.Guard
import AsyncErasure.Proofs.Tree.Follows
import AsyncErasure.Spacing

namespace AsyncErasure

namespace Spacing

def withoutMarkers (body : List Stmt) : List Stmt := body.filter fun s => !s.isBlank

def unmark (body : List Stmt) : List Stmt :=
  withoutMarkers (Block.mapInside withoutMarkers body)

theorem unmark_eq_map (body : List Stmt) : unmark body =
    (withoutMarkers body).map (Stmt.mapBlocks withoutMarkers) := by
  rw [unmark, Block.mapInside_eq_map, withoutMarkers, List.filter_map]
  congr 2
  funext s
  simp [Stmt.isBlank_mapBlocks]

theorem unmark_cons (s : Stmt) (body : List Stmt) : unmark (s :: body) =
    if s.isBlank then unmark body
    else s.mapBlocks withoutMarkers :: unmark body := by
  rw [unmark_eq_map, unmark_eq_map]
  unfold withoutMarkers
  cases h : s.isBlank <;> simp [h]

variable {next : Nat → Nat}

/-- The markers are all that separating adds. -/
theorem withoutMarkers_separate (body : List Stmt) :
    withoutMarkers (separate next body) = withoutMarkers body := by
  unfold withoutMarkers
  induction body with
  | nil => rfl
  | cons a rest ih =>
    cases rest with
    | nil => rfl
    | cons b rest =>
      have hmarker : (marker next a).isBlank = true := rfl
      rw [separate]
      split <;> simp only [List.filter_cons, hmarker, ih]
      simp

theorem unmark_separate_of {body : List Stmt}
    (h : ∀ s ∈ body, (s.mapBlocks (separate next)).mapBlocks withoutMarkers =
      s.mapBlocks withoutMarkers) :
    unmark (separate next (Block.mapInside (separate next) body)) = unmark body := by
  rw [unmark_eq_map, withoutMarkers_separate, Block.mapInside_eq_map, withoutMarkers,
    List.filter_map, List.map_map, unmark_eq_map]
  have hblank : (fun s => !s.isBlank) ∘ Stmt.mapBlocks (separate next) = fun s => !s.isBlank := by
    funext s
    simp [Stmt.isBlank_mapBlocks]
  rw [hblank]
  exact List.map_congr_left fun s hs => h s (List.mem_filter.1 hs).1

theorem unmark_separate (body : List Stmt) :
    unmark (separate next (Block.mapInside (separate next) body)) = unmark body := by
  have hinside (s : Stmt) : (s.mapBlocks (separate next)).mapBlocks withoutMarkers =
      s.mapBlocks withoutMarkers := by
    induction s using Stmt.childInduction with
    | step s ih =>
      refine Stmt.mapBlocks_comp fun body hbody => ?_
      exact unmark_separate_of fun x hx => ih x (Stmt.mem_children hbody hx)
  exact unmark_separate_of fun s _ => hinside s

end Spacing

namespace Guard

theorem all_children {p : Stmt → Bool} (s : Stmt) :
    deep p s = (p s && s.children.all (deep p)) := by
  rw [deep, Stmt.blocksInsideOut_eq, Stmt.children_eq_flatten, List.all_flatMap, List.all_flatten]
  simp

/-- A check that passes to the statements inside goes all the way down, and what it implies too. -/
theorem deep_of_inherited {p q : Stmt → Bool} (hinside : ∀ s, p s → ∀ x ∈ s.children, p x)
    (hq : ∀ s, p s → q s) (s : Stmt) (hs : p s) : deep q s := by
  induction s using Stmt.childInduction with
  | step s ih =>
    rw [all_children, Bool.and_eq_true, List.all_eq_true]
    exact ⟨hq s hs, fun x hx => ih x hx (hinside s hs x hx)⟩

/-- A change of blocks leaves those alone whose statements all pass a check, if it does so for
one. -/
theorem mapInside_eq_self {p : Stmt → Bool} {f : List Stmt → List Stmt}
    (hf : ∀ body : List Stmt, body.all p → f body = body) {body : List Stmt}
    (h : body.all (deep p)) : f (Block.mapInside f body) = body := by
  have hbody {body : List Stmt} (h : body.all (deep p)) (hinside : ∀ s ∈ body, s.mapBlocks f = s) :
      f (Block.mapInside f body) = body := by
    have hsame : Block.mapInside f body = body := by
      rw [Block.mapInside_eq_map]
      exact (List.map_congr_left hinside).trans (List.map_id body)
    rw [hsame]
    refine hf body (List.all_eq_true.2 fun s hs => ?_)
    have hs := List.all_eq_true.1 h s hs
    rw [all_children, Bool.and_eq_true] at hs
    exact hs.1
  have hinside (s : Stmt) (h : deep p s) : s.mapBlocks f = s := by
    induction s using Stmt.childInduction with
    | step s ih =>
      rw [all_children, Bool.and_eq_true, List.all_eq_true] at h
      have hchild {b : List Stmt} (hb : b ∈ s.blocks) (x : Stmt) (hx : x ∈ b) :=
        h.2 x (Stmt.mem_children hb hx)
      refine Stmt.mapBlocks_eq_self fun b hb => hbody (List.all_eq_true.2 (hchild hb))
        fun x hx => ?_
      exact ih x (Stmt.mem_children hb hx) (hchild hb x hx)
  exact hbody h fun s hs => hinside s (List.all_eq_true.1 h s hs)

end Guard

/-- Without markers nothing is taken away. -/
theorem Spacing.unmark_eq_self {body : List Stmt} (h : body.all (Guard.deep fun s => !s.isBlank)) :
    unmark body = body := by
  apply Guard.mapInside_eq_self
  · intro body h
    exact List.filter_eq_self.2 (List.all_eq_true.1 h)
  · exact h

def Module.unmarked (m : Module) : Module := m.mapBlocks Spacing.withoutMarkers

section

variable {gone : Stmt → Prop} {alike : Stmt → Stmt → Prop}

mutual

theorem Follows.unmark (hgone : ∀ s, gone s → gone (s.mapBlocks Spacing.withoutMarkers))
    (hblank : ∀ s t, alike s t → s.isBlank = t.isBlank)
    (halike : ∀ s t, alike s t → alike (s.mapBlocks Spacing.withoutMarkers)
      (t.mapBlocks Spacing.withoutMarkers)) {a b : List Stmt} :
    Follows gone alike a b → Follows gone alike (Spacing.unmark a) (Spacing.unmark b)
  | .nil => .nil
  | .gone (s := s) hs h => by
    have ih := Follows.unmark hgone hblank halike h
    rw [Spacing.unmark_cons]
    split
    · exact ih
    · exact .gone (hgone s hs) ih
  | .kept (s := s) (t := t) hst hblocks h => by
    have ih := Follows.unmark hgone hblank halike h
    have hinside := FollowsAll.unmark hgone hblank halike hblocks
    rw [Spacing.unmark_cons, Spacing.unmark_cons, hblank s t hst]
    split
    · exact ih
    · refine .kept (halike s t hst) ?_ ih
      rw [Stmt.blocks_mapBlocks, Stmt.blocks_mapBlocks]
      exact hinside

theorem FollowsAll.unmark
    (hgone : ∀ s, gone s → gone (s.mapBlocks Spacing.withoutMarkers))
    (hblank : ∀ s t, alike s t → s.isBlank = t.isBlank)
    (halike : ∀ s t, alike s t → alike (s.mapBlocks Spacing.withoutMarkers)
      (t.mapBlocks Spacing.withoutMarkers)) {a b : List (List Stmt)} :
    FollowsAll gone alike a b → FollowsAll gone alike (a.map Spacing.unmark) (b.map Spacing.unmark)
  | .nil => .nil
  | .cons hbody h =>
    .cons (Follows.unmark hgone hblank halike hbody) (FollowsAll.unmark hgone hblank halike h)

end

end

end AsyncErasure
