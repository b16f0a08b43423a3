import AsyncErasure.Proofs.Spacing
import Mathlib.Data.List.Chain

namespace AsyncErasure

/-- From one line to another, each statement begins no higher than the one before it ends. -/
def Block.inOrder : Nat → Nat → List Stmt → Bool
  | lo, hi, [] => lo ≤ hi
  | lo, hi, s :: ss =>
    lo ≤ s.span.line && s.span.line ≤ s.span.endLine && inOrder s.span.endLine hi ss

/-- The statements of each block stand in order, from the first line of the whole to its last. -/
def Stmt.isNested (s : Stmt) : Bool :=
  s.span.line ≤ s.span.endLine && s.blocks.all (Block.inOrder s.span.line s.span.endLine)

namespace Block

variable {lo lo' hi hi' : Nat} {a b ss : List Stmt} {s : Stmt}

@[simp] theorem inOrder_nil : inOrder lo hi [] ↔ lo ≤ hi := by simp [inOrder]

@[simp] theorem inOrder_cons : inOrder lo hi (s :: ss) ↔
    lo ≤ s.span.line ∧ s.span.line ≤ s.span.endLine ∧ inOrder s.span.endLine hi ss := by
  simp [inOrder, and_assoc]

theorem inOrder_mono (h : inOrder lo hi ss) (hlo : lo' ≤ lo) (hhi : hi ≤ hi') :
    inOrder lo' hi' ss := by
  induction ss generalizing lo lo' with
  | nil => exact inOrder_nil.2 (hlo.trans ((inOrder_nil.1 h).trans hhi))
  | cons s ss ih =>
    obtain ⟨hs, hline, hss⟩ := inOrder_cons.1 h
    exact inOrder_cons.2 ⟨hlo.trans hs, hline, ih hss (Nat.le_refl _)⟩

theorem le_of_inOrder (h : inOrder lo hi ss) : lo ≤ hi := by
  induction ss generalizing lo with
  | nil => exact inOrder_nil.1 h
  | cons s ss ih =>
    obtain ⟨hs, hline, hss⟩ := inOrder_cons.1 h
    exact hs.trans (hline.trans (ih hss))

/-- Two blocks in order meet on a line. -/
theorem inOrder_append :
    inOrder lo hi (a ++ b) ↔ ∃ mid, inOrder lo mid a ∧ inOrder mid hi b := by
  induction a generalizing lo with
  | nil =>
    constructor
    · exact fun h => ⟨lo, inOrder_nil.2 (Nat.le_refl _), h⟩
    · rintro ⟨mid, hlo, h⟩
      exact inOrder_mono h (inOrder_nil.1 hlo) (Nat.le_refl _)
  | cons s a ih => simp only [List.cons_append, inOrder_cons, ih, ← exists_and_left, and_assoc]

theorem inOrder_of_mem {blocks : List (List Stmt)} (h : inOrder lo hi blocks.flatten)
    (ha : a ∈ blocks) : inOrder lo hi a := by
  obtain ⟨before, after, rfl⟩ := List.append_of_mem ha
  rw [List.flatten_append, List.flatten_cons] at h
  obtain ⟨first, hbefore, h⟩ := inOrder_append.1 h
  obtain ⟨last, ha, hafter⟩ := inOrder_append.1 h
  exact inOrder_mono ha (le_of_inOrder hbefore) (le_of_inOrder hafter)

theorem bounds_of_inOrder (h : inOrder lo hi ss) :
    ∀ s ∈ ss, lo ≤ s.span.line ∧ s.span.endLine ≤ hi := by
  intro s hs
  obtain ⟨before, after, rfl⟩ := List.append_of_mem hs
  obtain ⟨mid, hbefore, h⟩ := inOrder_append.1 h
  obtain ⟨hline, -, hafter⟩ := inOrder_cons.1 h
  exact ⟨(le_of_inOrder hbefore).trans hline, le_of_inOrder hafter⟩

theorem isChain_of_inOrder (h : inOrder lo hi ss) :
    ss.IsChain fun a b => a.span.endLine ≤ b.span.line := by
  induction ss generalizing lo with
  | nil => exact .nil
  | cons s ss ih =>
    obtain ⟨-, -, hss⟩ := inOrder_cons.1 h
    cases ss with
    | nil => exact .singleton s
    | cons t ts => exact .cons_cons (inOrder_cons.1 hss).1 (ih hss)

end Block

structure Laid (lo hi : Nat) (ss : List Stmt) : Prop where
  inOrder : Block.inOrder lo hi ss
  nested : ∀ s ∈ ss, Guard.deep Stmt.isNested s

namespace Laid

variable {lo lo' mid hi hi' : Nat} {ss ts : List Stmt} {s : Stmt}

@[simp] theorem nil : Laid lo hi [] ↔ lo ≤ hi :=
  ⟨fun h => Block.inOrder_nil.1 h.inOrder, fun h => ⟨Block.inOrder_nil.2 h, nofun⟩⟩

theorem empty : Laid lo lo [] := nil.2 (Nat.le_refl lo)

theorem append (h : Laid lo mid ss) (h' : Laid mid hi ts) : Laid lo hi (ss ++ ts) :=
  ⟨Block.inOrder_append.2 ⟨mid, h.inOrder, h'.inOrder⟩,
    List.forall_mem_append.2 ⟨h.nested, h'.nested⟩⟩

theorem upTo (h : Laid lo hi ss) (hhi : hi ≤ hi') : Laid lo hi' ss :=
  ⟨Block.inOrder_mono h.inOrder (Nat.le_refl _) hhi, h.nested⟩

theorem downFrom (h : Laid lo hi ss) (hlo : lo' ≤ lo) : Laid lo' hi ss :=
  ⟨Block.inOrder_mono h.inOrder hlo (Nat.le_refl _), h.nested⟩

/-- A statement spans the statements right below it. -/
theorem single {start stop : Place} (hs : s.span = ⟨start, stop⟩) (hlo : lo ≤ start.line)
    (h : Laid start.line stop.line s.children) : Laid lo stop.line [s] := by
  have hline : s.span.line = start.line := congrArg Span.line hs
  have hend : s.span.endLine = stop.line := congrArg Span.endLine hs
  have hle := Block.le_of_inOrder h.inOrder
  refine ⟨?_, List.forall_mem_singleton.2 ?_⟩
  · simp [hline, hend, hlo, hle]
  · rw [Guard.all_children, Bool.and_eq_true, List.all_eq_true]
    refine ⟨?_, h.nested⟩
    rw [Stmt.isNested, hline, hend, Bool.and_eq_true, List.all_eq_true]
    refine ⟨decide_eq_true hle, fun body hbody => ?_⟩
    exact Block.inOrder_of_mem (Stmt.children_eq_flatten s ▸ h.inOrder) hbody

end Laid

/-- What being nested means for a statement. -/
theorem Stmt.isNested_iff {p : Stmt} : p.isNested ↔
    p.span.line ≤ p.span.endLine ∧
      ∀ body ∈ p.blocks, Block.inOrder p.span.line p.span.endLine body := by
  simp [isNested]

end AsyncErasure
