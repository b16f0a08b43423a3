import AsyncErasure.Grammar.Module
import AsyncErasure.Proofs.Tree.Block
import AsyncErasure.Render.Statement
import AsyncErasure.Renaming

namespace AsyncErasure

/-- A try statement has a handler or a final block; any other statement needs none. -/
def Stmt.isGuarded : Stmt → Bool
  | .tryBlock _ _ handlers _ final _ => !handlers.isEmpty || !final.isEmpty
  | _ => true

def Module.statements (m : Module) : List Stmt := m.blocksInsideOut.flatten

namespace Convention

variable (c : Convention)

/-- Imports to be dropped can be taken out of the block one by one, each with the comments just
before it on its line and the remarks behind it, until nothing is left. -/
inductive Vanishes : List Stmt → Prop
  | nil : Vanishes []
  | sweep {stmt : Stmt} {before comments remarks rest : List Stmt} :
    c.drops stmt → (∀ s ∈ comments, standsOnLineOf stmt s) → (∀ s ∈ remarks, isRemark s) →
    Vanishes (before ++ rest) → Vanishes (before ++ comments ++ stmt :: (remarks ++ rest))

def KeepsGuard : Stmt → Prop
  | .tryBlock _ _ handlers _ final _ => handlers ≠ [] ∨ ¬c.Vanishes final
  | _ => True

variable {c}

theorem not_isRemark_of_drops {s : Stmt} (h : c.drops s) : isRemark s = false := by
  cases s <;> simp_all [drops, isRemark]

theorem keptNames_keptNames (path : Option String) (names : List Alias) :
    c.keptNames path (c.keptNames path names) = c.keptNames path names := by
  unfold keptNames
  split <;> simp_all [List.filter_filter]

theorem drops_trimImport (s : Stmt) : c.drops (c.trimImport s) = c.drops s := by
  cases s <;> simp [drops, trimImport, keptNames_keptNames]

theorem trimImport_of_standsOnLineOf {s stmt : Stmt} (h : standsOnLineOf stmt s) :
    c.trimImport s = s ∧ isRemark s = false ∧ c.drops s = false := by
  cases s <;> simp_all [standsOnLineOf, trimImport, isRemark, drops]

section Sweep

variable {kept kept' : List Stmt} {d d' : Bool}

theorem dropImportsFrom_remarks {remarks : List Stmt} (h : ∀ s ∈ remarks, isRemark s)
    (rest : List Stmt) :
    c.dropImportsFrom kept true (remarks ++ rest) = c.dropImportsFrom kept true rest := by
  induction remarks with
  | nil => rfl
  | cons s ss ih =>
    simp only [List.mem_cons, forall_eq_or_imp] at h
    simp [dropImportsFrom, h.1, ih h.2]

theorem dropImportsFrom_comments {stmt : Stmt} {comments : List Stmt}
    (h : ∀ s ∈ comments, standsOnLineOf stmt s) (hd : c.drops stmt) (rest : List Stmt) :
    c.dropImportsFrom kept d (comments ++ stmt :: rest) =
      c.dropImportsFrom (kept.dropWhile (standsOnLineOf stmt)) true rest := by
  induction comments generalizing kept d with
  | nil => simp [dropImportsFrom, not_isRemark_of_drops hd, hd]
  | cons s ss ih =>
    simp only [List.mem_cons, forall_eq_or_imp] at h
    obtain ⟨ht, hr, hs⟩ := trimImport_of_standsOnLineOf (c := c) h.1
    simp only [List.cons_append, dropImportsFrom, hr, hs, ht, Bool.and_false]
    rw [if_neg (by simp), if_neg (by simp), ih h.2, List.dropWhile_cons_of_pos h.1]

/-- What is read first only leaves a state behind. -/
theorem dropImportsFrom_append (kept : List Stmt) (d : Bool) (before : List Stmt) :
    ∃ kept' d', ∀ rest,
      c.dropImportsFrom kept d (before ++ rest) = c.dropImportsFrom kept' d' rest := by
  induction before generalizing kept d with
  | nil => exact ⟨kept, d, fun _ => rfl⟩
  | cons s ss ih =>
    simp only [List.cons_append, dropImportsFrom]
    split
    · exact ih ..
    · split <;> exact ih ..

theorem dropWhile_sublist_dropWhile {p : Stmt → Bool} (h : kept'.Sublist kept) :
    (kept'.dropWhile p).Sublist (kept.dropWhile p) := by
  induction h with
  | slnil => exact .refl _
  | cons a h ih =>
    rw [List.dropWhile_cons]
    split
    · exact ih
    · exact ((List.dropWhile_sublist p).trans h).trans (List.sublist_cons_self _ _)
  | cons_cons a h ih =>
    simp only [List.dropWhile_cons]
    split
    · exact ih
    · exact h.cons_cons a

/-- With fewer statements kept, no more are left in the end. -/
theorem dropImportsFrom_eq_nil_mono (h : kept'.Sublist kept) (hd : d → d') {ss : List Stmt}
    (hs : c.dropImportsFrom kept d ss = []) : c.dropImportsFrom kept' d' ss = [] := by
  induction ss generalizing kept kept' d d' with
  | nil =>
    have hk : kept = [] := List.reverse_eq_nil_iff.1 hs
    rw [hk, List.sublist_nil] at h
    rw [h]
    rfl
  | cons s ss ih =>
    by_cases hdrop : c.drops s
    · simp only [dropImportsFrom, not_isRemark_of_drops hdrop, hdrop, Bool.and_false,
        Bool.false_eq_true, if_false, if_true] at hs ⊢
      exact ih (dropWhile_sublist_dropWhile h) id hs
    · by_cases hr : isRemark s
      · cases d with
        | true =>
          simp only [dropImportsFrom, hr, hd rfl, Bool.and_true, if_true] at hs ⊢
          exact ih h id hs
        | false =>
          simp only [dropImportsFrom, hr, hdrop, Bool.and_true] at hs ⊢
          cases d' with
          | true => exact ih (h.cons _) (by simp) hs
          | false => exact ih (h.cons_cons _) id hs
      · simp only [dropImportsFrom, hr, hdrop, Bool.and_false] at hs ⊢
        exact ih (h.cons_cons _) id hs

theorem dropImports_eq_nil_of_vanishes {body : List Stmt} (h : c.Vanishes body) :
    c.dropImports body = [] := by
  induction h with
  | nil => rfl
  | @sweep stmt before comments remarks rest hd hc hr _ ih =>
    obtain ⟨kept, d, hk⟩ := dropImportsFrom_append (c := c) [] false before
    unfold dropImports at ih ⊢
    rw [hk] at ih
    rw [List.append_assoc, hk, dropImportsFrom_comments hc hd, dropImportsFrom_remarks hr]
    exact dropImportsFrom_eq_nil_mono (List.dropWhile_sublist _) (by simp) ih

theorem Vanishes.trimImport_eq {body : List Stmt} (h : c.Vanishes body) {s : Stmt}
    (hs : c.trimImport s ∈ body) (hd : c.drops s = false) : c.trimImport s = s := by
  induction h with
  | nil => cases hs
  | sweep hdrop hc hr _ ih =>
    simp only [List.append_assoc, List.mem_append, List.mem_cons] at hs ih
    obtain hs | hs | hs | hs | hs := hs
    · exact ih (.inl hs)
    · have := hc _ hs
      cases s <;> simp [trimImport, standsOnLineOf] at this ⊢
    · rw [← hs, drops_trimImport, hd] at hdrop
      cases hdrop
    · have := hr _ hs
      cases s <;> simp [trimImport, isRemark] at this ⊢
    · exact ih (.inr hs)

theorem vanishes_of_dropImportsFrom {ss : List Stmt} (h : c.dropImportsFrom kept d ss = []) :
    c.Vanishes (kept.reverse ++ if d then ss.dropWhile isRemark else ss) := by
  induction ss generalizing kept d with
  | nil =>
    have hk : kept.reverse = [] := h
    cases d <;> simp [hk, Vanishes.nil]
  | cons s ss ih =>
    by_cases hdrop : c.drops s
    · have hr := not_isRemark_of_drops hdrop
      simp only [dropImportsFrom, hr, hdrop, Bool.and_false, Bool.false_eq_true, if_false,
        if_true] at h
      have hv : c.Vanishes ((kept.dropWhile (standsOnLineOf s)).reverse ++
          (kept.takeWhile (standsOnLineOf s)).reverse ++
          s :: (ss.takeWhile isRemark ++ ss.dropWhile isRemark)) := by
        refine .sweep hdrop ?_ ?_ (ih h)
        · intro t ht
          exact List.all_eq_true.1 List.all_takeWhile t (List.mem_reverse.1 ht)
        · intro t ht
          exact List.all_eq_true.1 List.all_takeWhile t ht
      rw [← List.reverse_append, List.takeWhile_append_dropWhile,
        List.takeWhile_append_dropWhile] at hv
      simpa [hr] using hv
    · by_cases hr : (d && isRemark s) = true
      · simp only [dropImportsFrom, hr, if_true] at h
        simp only [Bool.and_eq_true] at hr
        simpa [hr.1, List.dropWhile_cons_of_pos hr.2] using ih h
      · simp only [dropImportsFrom, hr, hdrop] at h
        have hv := ih h
        rw [hv.trimImport_eq (by simp) (by simpa using hdrop)] at hv
        cases d with
        | false => simpa using hv
        | true =>
          have : isRemark s = false := by simpa using hr
          simpa [this] using hv

end Sweep

theorem dropImports_eq_nil_iff {body : List Stmt} :
    c.dropImports body = [] ↔ c.Vanishes body :=
  ⟨fun h => by simpa using vanishes_of_dropImportsFrom h, dropImports_eq_nil_of_vanishes⟩

end Convention

namespace Guard

open Convention

def deep (p : Stmt → Bool) (s : Stmt) : Bool := p s && s.blocksInsideOut.all (·.all p)

variable {p : Stmt → Bool} {c : Convention}

@[simp] theorem all_insideOut (body : List Stmt) :
    ((Block.insideOut body).all (·.all p) && body.all p) = body.all (deep p) := by
  induction body with
  | nil => rfl
  | cons s ss ih =>
    rw [List.all_cons, List.all_cons, ← ih, Block.insideOut, List.all_append, deep]
    grind

@[simp] theorem all_insideOut_and (body : List Stmt) (b : Bool) :
    ((Block.insideOut body).all (·.all p) && (body.all p && b)) = (body.all (deep p) && b) := by
  rw [← Bool.and_assoc, all_insideOut]

/-- Substitution keeps every guard. -/
theorem isGuarded_subst (r : Substitution) (s : Stmt) : (s.subst r).isGuarded = s.isGuarded := by
  cases s with
  | tryBlock s body handlers orelse final star =>
    cases handlers <;> cases final <;> rfl
  | _ => rfl

mutual

theorem deep_subst (r : Substitution) (s : Stmt) :
    deep Stmt.isGuarded (s.subst r) = deep Stmt.isGuarded s := by
  rw [deep, deep, isGuarded_subst]
  congr 1
  cases s <;> simp [Stmt.subst, Stmt.blocksInsideOut, deep_substs, deep_handlers]

theorem deep_substs (r : Substitution) (ss : List Stmt) :
    (Substitution.stmts r ss).all (deep Stmt.isGuarded) = ss.all (deep Stmt.isGuarded) := by
  cases ss <;> simp [Substitution.stmts, deep_subst, deep_substs]

theorem deep_handlers (r : Substitution) (hs : List Handler) :
    (Block.handlersInsideOut (Substitution.handlers r hs)).all (·.all Stmt.isGuarded) =
      (Block.handlersInsideOut hs).all (·.all Stmt.isGuarded) := by
  match hs with
  | [] => rfl
  | ⟨_, _, body⟩ :: hs =>
    simp [Substitution.handlers, Handler.subst, Block.handlersInsideOut, Handler.blocksInsideOut,
      deep_substs, deep_handlers]

end

/-- Comments and imports need no guard and hold no statements. -/
theorem deep_of_drops {s : Stmt} (h : c.drops s) : deep Stmt.isGuarded s := by
  cases s <;> simp_all [drops, deep, Stmt.isGuarded, Stmt.blocksInsideOut]

theorem deep_of_isRemark {s : Stmt} (h : isRemark s) : deep Stmt.isGuarded s := by
  cases s <;> simp_all [isRemark, deep, Stmt.isGuarded, Stmt.blocksInsideOut]

theorem deep_of_standsOnLineOf {s stmt : Stmt} (h : standsOnLineOf stmt s) :
    deep Stmt.isGuarded s := by
  cases s <;> simp_all [standsOnLineOf, deep, Stmt.isGuarded, Stmt.blocksInsideOut]

theorem deep_trimImport (s : Stmt) :
    deep Stmt.isGuarded (c.trimImport s) = deep Stmt.isGuarded s := by
  cases s <;> rfl

theorem all_dropWhile {q : Stmt → Bool} (h : ∀ s, q s → p s) (body : List Stmt) :
    (body.dropWhile q).all p = body.all p := by
  induction body with
  | nil => rfl
  | cons s ss ih =>
    rw [List.dropWhile_cons]
    split
    · simp_all
    · rfl

theorem deep_dropImportsFrom (kept : List Stmt) (d : Bool) (body : List Stmt) :
    (c.dropImportsFrom kept d body).all (deep Stmt.isGuarded) =
      (kept.all (deep Stmt.isGuarded) && body.all (deep Stmt.isGuarded)) := by
  induction body generalizing kept d with
  | nil => simp [dropImportsFrom]
  | cons s ss ih =>
    rw [dropImportsFrom]
    split
    · rename_i h
      simp only [Bool.and_eq_true] at h
      rw [ih, List.all_cons, deep_of_isRemark h.2, Bool.true_and]
    · split
      · rename_i h
        rw [ih, all_dropWhile fun _ => deep_of_standsOnLineOf, List.all_cons, deep_of_drops h,
          Bool.true_and]
      · rw [ih, List.all_cons, List.all_cons, deep_trimImport]
        grind

theorem deep_dropImports (body : List Stmt) :
    (c.dropImports body).all (deep Stmt.isGuarded) = body.all (deep Stmt.isGuarded) := by
  simp [dropImports, deep_dropImportsFrom]

section Inside

variable {f : List Stmt → List Stmt}

theorem drops_mapBlocks (s : Stmt) : c.drops (s.mapBlocks f) = c.drops s := by
  cases s <;> rfl

theorem isRemark_mapBlocks (s : Stmt) : isRemark (s.mapBlocks f) = isRemark s := by
  cases s <;> rfl

theorem standsOnLineOf_mapBlocks (stmt s : Stmt) :
    standsOnLineOf (stmt.mapBlocks f) (s.mapBlocks f) = standsOnLineOf stmt s := by
  cases s <;> simp [Stmt.mapBlocks, standsOnLineOf, Stmt.span_mapBlocks]

theorem trimImport_mapBlocks (s : Stmt) :
    c.trimImport (s.mapBlocks f) = (c.trimImport s).mapBlocks f := by
  cases s <;> rfl

/-- Which statements are dropped does not depend on the blocks inside them. -/
theorem dropImportsFrom_map (kept : List Stmt) (d : Bool) (body : List Stmt) :
    c.dropImportsFrom (kept.map (Stmt.mapBlocks f)) d (body.map (Stmt.mapBlocks f)) =
      (c.dropImportsFrom kept d body).map (Stmt.mapBlocks f) := by
  induction body generalizing kept d with
  | nil => simp [dropImportsFrom]
  | cons s ss ih =>
    have hline : standsOnLineOf (s.mapBlocks f) ∘ Stmt.mapBlocks f = standsOnLineOf s :=
      funext (standsOnLineOf_mapBlocks s)
    simp only [List.map_cons, dropImportsFrom, isRemark_mapBlocks, drops_mapBlocks,
      trimImport_mapBlocks]
    split
    · exact ih ..
    · split
      · rw [List.dropWhile_map, hline, ih]
      · rw [← List.map_cons, ih]

theorem isEmpty_dropImports_mapInside (body : List Stmt) :
    (c.dropImports (Block.mapInside f body)).isEmpty = (c.dropImports body).isEmpty := by
  have h := dropImportsFrom_map (c := c) (f := f) [] false body
  rw [List.map_nil] at h
  rw [Block.mapInside_eq_map, dropImports, dropImports, h, List.isEmpty_map]

end Inside

/-- What is left of the final block decides, on the statement before anything is dropped. -/
def keepsGuard (c : Convention) : Stmt → Bool
  | .tryBlock _ _ handlers _ final _ => !handlers.isEmpty || !(c.dropImports final).isEmpty
  | _ => true

theorem keepsGuard_iff (s : Stmt) : keepsGuard c s ↔ c.KeepsGuard s := by
  cases s <;> simp [keepsGuard, KeepsGuard, ← dropImports_eq_nil_iff]

theorem isGuarded_mapBlocks (s : Stmt) :
    (s.mapBlocks c.dropImports).isGuarded = keepsGuard c s := by
  cases s with
  | tryBlock s body handlers orelse final star =>
    rw [Stmt.mapBlocks, Stmt.isGuarded, keepsGuard, isEmpty_dropImports_mapInside]
    cases handlers <;> rfl
  | _ => rfl

mutual

theorem deep_mapBlocks (s : Stmt) :
    deep Stmt.isGuarded (s.mapBlocks c.dropImports) = deep (keepsGuard c) s := by
  rw [deep, deep, isGuarded_mapBlocks]
  congr 1
  cases s <;>
    simp [Stmt.mapBlocks, Stmt.blocksInsideOut, deep_dropImports, deep_mapInside,
      deep_mapHandlers]

theorem deep_mapInside (body : List Stmt) :
    (Block.mapInside c.dropImports body).all (deep Stmt.isGuarded) =
      body.all (deep (keepsGuard c)) := by
  cases body <;> simp [Block.mapInside, deep_mapBlocks, deep_mapInside]

theorem deep_mapHandlers (hs : List Handler) :
    (Block.handlersInsideOut (Block.mapHandlers c.dropImports hs)).all (·.all Stmt.isGuarded) =
      (Block.handlersInsideOut hs).all (·.all (keepsGuard c)) := by
  match hs with
  | [] => rfl
  | ⟨_, _, body⟩ :: hs =>
    simp [Block.mapHandlers, Handler.mapBlocks, Block.handlersInsideOut, Handler.blocksInsideOut,
      deep_dropImports, deep_mapInside, deep_mapHandlers]

end

theorem deep_trimDocstring (s : Stmt) :
    deep (keepsGuard c) (c.trimDocstring s) = deep (keepsGuard c) s := by
  unfold Convention.trimDocstring
  split
  · split <;> rfl
  · rfl

theorem deep_onFirstCode (body : List Stmt) :
    (onFirstCode c.trimDocstring body).all (deep (keepsGuard c)) =
      body.all (deep (keepsGuard c)) := by
  induction body with
  | nil => rfl
  | cons s ss ih =>
    rw [onFirstCode]
    split
    · rw [List.all_cons, List.all_cons, deep_trimDocstring]
    · rw [List.all_cons, List.all_cons, ih]

theorem all_statements (m : Module) : m.statements.all p = m.body.all (deep p) := by
  simp [Module.statements, Module.blocksInsideOut]

/-- Renaming leaves every guard exactly if no final block that guards a body alone vanishes. -/
theorem forall_rename_isGuarded (c : Convention) (m : Module) :
    (∀ s ∈ (m.rename c).statements, s.isGuarded) ↔ ∀ s ∈ m.statements, c.KeepsGuard s := by
  have h : (m.rename c).statements.all Stmt.isGuarded = m.statements.all (keepsGuard c) := by
    rw [all_statements, all_statements, Module.rename, Module.subst, deep_substs,
      Module.dropImports, Module.mapBlocks, deep_dropImports, deep_mapInside, Module.trimDocstring,
      deep_onFirstCode]
  simp only [← keepsGuard_iff]
  rw [← List.all_eq_true, h, List.all_eq_true]

/-- A final block of one shadowed import is emptied, and what is printed then cannot be read. -/
theorem rename_loses_final_block :
    ∃ m, Module.parse "try:\n    x\nfinally:\n    from utils import alist\n" = .ok m ∧
      ¬(∀ s ∈ (m.rename .standard).statements, s.isGuarded) ∧
      (m.rename .standard).render = "try:\n    x" ∧
      (Module.parse (m.rename .standard).render).isOk = false := by
  have h : (match Module.parse "try:\n    x\nfinally:\n    from utils import alist\n" with
      | .ok m => !(m.rename .standard).statements.all Stmt.isGuarded &&
        (m.rename .standard).render == "try:\n    x" &&
        !(Module.parse (m.rename .standard).render).isOk
      | .error _ => false) = true := by decide +kernel
  split at h
  case h_1 m hm =>
    simp only [Bool.and_eq_true, Bool.not_eq_true', beq_iff_eq, List.all_eq_false] at h
    obtain ⟨⟨⟨s, hs, hguard⟩, hrender⟩, hparse⟩ := h
    exact ⟨m, hm, fun hall => hguard (hall s hs), hrender, hparse⟩
  case h_2 => cases h

end Guard

end AsyncErasure
