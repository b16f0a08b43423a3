import AsyncErasure.Proofs.Tree.Block
import AsyncErasure.Tree.Substitution

namespace AsyncErasure

section Tracks

variable (gone : Stmt → Prop) (alike : Stmt → Stmt → Prop)

mutual

/-- A block follows another one: some statements have gone, and the others are alike, in order, with
blocks that follow in the same way. -/
inductive Follows : List Stmt → List Stmt → Prop
  | nil : Follows [] []
  | gone {s : Stmt} {ss ts : List Stmt} : gone s → Follows ss ts → Follows (s :: ss) ts
  | kept {s t : Stmt} {ss ts : List Stmt} :
    alike s t → FollowsAll s.blocks t.blocks → Follows ss ts → Follows (s :: ss) (t :: ts)

inductive FollowsAll : List (List Stmt) → List (List Stmt) → Prop
  | nil : FollowsAll [] []
  | cons {body body' : List Stmt} {bs bs' : List (List Stmt)} :
    Follows body body' → FollowsAll bs bs' → FollowsAll (body :: bs) (body' :: bs')

end

end Tracks

section

variable {gone gone₁ gone₂ : Stmt → Prop} {alike alike₁ alike₂ : Stmt → Stmt → Prop}

mutual

theorem Follows.trans (hgone : ∀ s, gone₁ s → gone s) (hthen : ∀ s t, alike₁ s t → gone₂ t → gone s)
    (halike : ∀ s t u, alike₁ s t → alike₂ t u → alike s u) {a b c : List Stmt} :
    Follows gone₁ alike₁ a b → Follows gone₂ alike₂ b c → Follows gone alike a c
  | .nil, .nil => .nil
  | .gone hs hab, hbc => .gone (hgone _ hs) (Follows.trans hgone hthen halike hab hbc)
  | .kept hst _ hab, .gone ht hbc =>
    .gone (hthen _ _ hst ht) (Follows.trans hgone hthen halike hab hbc)
  | .kept hst hblocks hab, .kept htu hblocks' hbc =>
    .kept (halike _ _ _ hst htu) (FollowsAll.trans hgone hthen halike hblocks hblocks')
      (Follows.trans hgone hthen halike hab hbc)

theorem FollowsAll.trans (hgone : ∀ s, gone₁ s → gone s)
    (hthen : ∀ s t, alike₁ s t → gone₂ t → gone s)
    (halike : ∀ s t u, alike₁ s t → alike₂ t u → alike s u) {a b c : List (List Stmt)} :
    FollowsAll gone₁ alike₁ a b → FollowsAll gone₂ alike₂ b c → FollowsAll gone alike a c
  | .nil, .nil => .nil
  | .cons hbody hab, .cons hbody' hbc =>
    .cons (Follows.trans hgone hthen halike hbody hbody')
      (FollowsAll.trans hgone hthen halike hab hbc)

end

mutual

theorem Follows.imp {alike' : Stmt → Stmt → Prop} (h : ∀ s t, alike s t → alike' s t)
    {a b : List Stmt} : Follows gone alike a b → Follows gone alike' a b
  | .nil => .nil
  | .gone hs hab => .gone hs (Follows.imp h hab)
  | .kept hst hblocks hab => .kept (h _ _ hst) (FollowsAll.imp h hblocks) (Follows.imp h hab)

theorem FollowsAll.imp {alike' : Stmt → Stmt → Prop} (h : ∀ s t, alike s t → alike' s t)
    {a b : List (List Stmt)} : FollowsAll gone alike a b → FollowsAll gone alike' a b
  | .nil => .nil
  | .cons hbody hab => .cons (Follows.imp h hbody) (FollowsAll.imp h hab)

end

theorem Follows.remove {before mid rest result : List Stmt} (hmid : ∀ s ∈ mid, gone s)
    (h : Follows gone alike (before ++ rest) result) :
    Follows gone alike (before ++ mid ++ rest) result := by
  induction before generalizing result with
  | nil =>
    rw [List.nil_append] at h ⊢
    induction mid with
    | nil => exact h
    | cons s mid ih =>
      rw [List.forall_mem_cons] at hmid
      exact .gone hmid.1 (ih hmid.2)
  | cons s before ih =>
    cases h with
    | gone hs h => exact .gone hs (ih h)
    | kept hst hblocks h => exact .kept hst hblocks (ih h)

theorem FollowsAll.append {as bs as' bs' : List (List Stmt)} (h : FollowsAll gone alike as as')
    (h' : FollowsAll gone alike bs bs') : FollowsAll gone alike (as ++ bs) (as' ++ bs') := by
  induction as generalizing as' with
  | nil =>
    cases h
    exact h'
  | cons a as ih =>
    cases h with
    | cons hbody h => exact .cons hbody (ih h)

theorem followsAll_map {f : List Stmt → List Stmt} {bs : List (List Stmt)}
    (h : ∀ body ∈ bs, Follows gone alike body (f body)) : FollowsAll gone alike bs (bs.map f) := by
  induction bs with
  | nil => exact .nil
  | cons body bs ih =>
    rw [List.forall_mem_cons] at h
    exact .cons h.1 (ih h.2)

theorem follows_map_of {f : Stmt → Stmt} {body : List Stmt} (halike : ∀ s ∈ body, alike s (f s))
    (hblocks : ∀ s ∈ body, FollowsAll gone alike s.blocks (f s).blocks) :
    Follows gone alike body (body.map f) := by
  induction body with
  | nil => exact .nil
  | cons s body ih =>
    rw [List.forall_mem_cons] at halike hblocks
    exact .kept halike.1 hblocks.1 (ih halike.2 hblocks.2)

end

namespace Substitution

variable (r : Substitution)

theorem stmts_eq_map (ss : List Stmt) : stmts r ss = ss.map (Stmt.subst r) := by
  induction ss with
  | nil => rfl
  | cons s ss ih => rw [stmts, ih, List.map_cons]

theorem handlers_eq_map (hs : List Handler) : handlers r hs = hs.map (Handler.subst r) := by
  induction hs with
  | nil => rfl
  | cons h hs ih => rw [handlers, ih, List.map_cons]

theorem handler_subst (h : Handler) :
    h.subst r = ⟨expr? r h.type, h.name.map r.name, stmts r h.body⟩ := by
  cases h
  rfl

theorem blocks_subst (s : Stmt) : (s.subst r).blocks = s.blocks.map (List.map (Stmt.subst r)) := by
  cases s <;> simp [Stmt.subst, Stmt.blocks, stmts_eq_map, handlers_eq_map, Function.comp_def,
    handler_subst]

theorem head_subst (s : Stmt) : (s.subst r).head = s.head.subst r := by
  cases s <;> simp [Stmt.subst, Stmt.head, Stmt.mapBlocks, stmts, Stmt.mapHandlers_eq_map,
    handlers_eq_map, handler_subst, Stmt.handler_mapBlocks]

end Substitution

section Changes

variable {gone : Stmt → Prop} {alike : Stmt → Stmt → Prop}

/-- A change of every statement, inner ones included, is followed. -/
theorem follows_map {f : Stmt → Stmt} (hblocks : ∀ s, (f s).blocks = s.blocks.map (List.map f))
    (halike : ∀ s, alike s (f s)) (body : List Stmt) : Follows gone alike body (body.map f) := by
  have hinside (s : Stmt) : FollowsAll gone alike s.blocks (f s).blocks := by
    -- the children of a statement are followed, so its blocks are
    induction s using Stmt.childInduction with
    | step s ih =>
      rw [hblocks]
      refine followsAll_map fun body hbody => ?_
      exact follows_map_of (fun x _ => halike x) fun x hx => ih x (Stmt.mem_children hbody hx)
  exact follows_map_of (fun s _ => halike s) fun s _ => hinside s

theorem follows_subst (r : Substitution) (body : List Stmt) :
    Follows (fun _ => False) (fun s t => t.head = s.head.subst r) body
      (Substitution.stmts r body) := by
  rw [Substitution.stmts_eq_map]
  exact follows_map (Substitution.blocks_subst r) (Substitution.head_subst r) body

theorem follows_refl (hrefl : ∀ s, alike s s) (body : List Stmt) :
    Follows gone alike body body := by
  have h : Follows gone alike body (body.map id) := follows_map (fun s => by simp) hrefl body
  rwa [List.map_id] at h

end Changes

end AsyncErasure
