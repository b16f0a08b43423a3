import AsyncErasure.Proofs.Tree.Block
import AsyncErasure.Proofs.Tree.Shape
import AsyncErasure.Spacing

namespace AsyncErasure

namespace Spacing

/-- The block with markers, where some statement ends on the given line before it. -/
def separateFrom (next : Nat → Nat) (line : Nat) : List Stmt → List Stmt
  | [] => []
  | s :: ss =>
    (if next line < s.span.line then [.blankAt (next line)] else []) ++
      s :: separateFrom next s.span.endLine ss

theorem separate_cons (next : Nat → Nat) (s : Stmt) (ss : List Stmt) :
    separate next (s :: ss) = s :: separateFrom next s.span.endLine ss := by
  induction ss generalizing s with
  | nil => rfl
  | cons t ts ih =>
    rw [separate, separateFrom, apart, ih]
    by_cases h : next s.span.endLine < t.span.line
    · rw [if_pos (by simpa using h), if_pos h]
      rfl
    · rw [if_neg (by simpa using h), if_neg h]
      rfl

/-- A block with one marker for those that meet between two statements, and none at its ends;
`begun` tells that a statement came before, `pending` that a marker did. -/
def settle (begun pending : Bool) : List Stmt → List Stmt
  | [] => []
  | s :: ss =>
    if s.isBlank then settle begun begun ss
    else (if pending then [.blankAt 0] else []) ++ s :: settle true false ss

end Spacing

namespace Grammar

open Spacing

/-- The statements that are read back from a block: blank markers are gone. -/
def tidied (body : List Stmt) : List Stmt :=
  (body.filter fun s => !s.isBlank).map fun s =>
    (s.mapBlocks (List.filter fun s => !s.isBlank)).shape

def settled (begun pending : Bool) (body : List Stmt) : List Stmt :=
  Shape.stmts (settle begun pending (Block.mapInside (settle false false) body))

/-- The statements of a block behind a line, with the markers that they stand apart for. -/
def separated (line : Nat) (body : List Stmt) : List Stmt :=
  Shape.stmts (separateFrom below line (Block.mapInside (separate below) body))

def gap (present : Bool) : List Stmt := if present then [.blank .nowhere] else []

variable {s t : Stmt} {ss : List Stmt}

theorem tidied_cons_of_blank (h : s.isBlank) : tidied (s :: ss) = tidied ss := by
  simp [tidied, h]

theorem tidied_cons (h : s.isBlank = false) :
    tidied (s :: ss) = (s.mapBlocks (List.filter fun s => !s.isBlank)).shape :: tidied ss := by
  simp [tidied, h]

theorem shape_block (body : List Stmt) :
    Shape.stmts ((Block.mapInside (List.filter fun s => !s.isBlank) body).filter
      fun s => !s.isBlank) = tidied body := by
  rw [Block.mapInside_eq_map, List.filter_map, Shape.stmts_eq_map, List.map_map, tidied]
  simp [Function.comp_def, Stmt.isBlank_mapBlocks]

theorem shape_settle (body : List Stmt) :
    Shape.stmts (settle false false (Block.mapInside (settle false false) body)) =
      settled false false body := rfl

theorem settled_cons_of_blank {begun pending : Bool} (h : s.isBlank) :
    settled begun pending (s :: ss) = settled begun begun ss := by
  rw [settled, Block.mapInside, settle, Stmt.isBlank_mapBlocks, if_pos h]
  rfl

theorem settled_cons {begun pending : Bool} (h : s.isBlank = false) :
    settled begun pending (s :: ss) =
      gap pending ++ (s.mapBlocks (settle false false)).shape :: settled true false ss := by
  rw [settled, Block.mapInside, settle, Stmt.isBlank_mapBlocks, h, if_neg Bool.false_ne_true]
  cases pending <;> rfl

theorem separated_cons (line : Nat) (s : Stmt) (ss : List Stmt) :
    separated line (s :: ss) = gap (line + 1 < s.span.line) ++
      (s.mapBlocks (separate below)).shape :: separated s.span.endLine ss := by
  rw [separated, Block.mapInside, separateFrom, Stmt.span_mapBlocks]
  by_cases h : line + 1 < s.span.line
  · rw [if_pos h, gap, if_pos (by simpa using h)]
    rfl
  · rw [if_neg h, gap, if_neg (by simpa using h)]
    rfl

structure Restores (s t : Stmt) : Prop where
  shape : t.shape = (s.mapBlocks (List.filter fun s => !s.isBlank)).shape
  spacing : (t.mapBlocks (separate below)).shape = (s.mapBlocks (settle false false)).shape

/-- What is read back from a block. -/
structure RestoresAll (ss ts : List Stmt) : Prop where
  shape : Shape.stmts ts = tidied ss
  spacing : Shape.stmts (separate below (Block.mapInside (separate below) ts)) =
    settled false false ss

theorem head?_settled (ss : List Stmt) :
    (settled false false ss).head? ≠ some (.blank .nowhere) := by
  induction ss with
  | nil => simp [settled, Block.mapInside, settle, Shape.stmts]
  | cons s ss ih =>
    cases h : s.isBlank with
    | true =>
      rw [settled_cons_of_blank h]
      exact ih
    | false =>
      rw [settled_cons h]
      cases s with
      | blank => cases h
      | _ => simp [gap, Stmt.mapBlocks, Stmt.shape]

/-- The statements of a block that are still to be read, behind a line. -/
structure Remainder where
  line : Nat
  /-- A statement of the block came before. -/
  begun : Bool
  /-- A marker came after it. -/
  pending : Bool
  stmts : List Stmt

def Remainder.Fills (r : Remainder) (body : List Stmt) : Prop :=
  separated r.line body = settled r.begun r.pending r.stmts

/-- Some statements are read, and another remainder is left. -/
structure Retrieves (r : Remainder) (taken : List Stmt) (r' : Remainder) : Prop where
  shape : Shape.stmts taken ++ tidied r'.stmts = tidied r.stmts
  fills : ∀ body, r'.Fills body → r.Fills (taken ++ body)

namespace Retrieves

variable {r r' r'' : Remainder} {taken more : List Stmt} {begun pending : Bool} {line line' : Nat}

theorem refl (r : Remainder) : Retrieves r [] r := ⟨rfl, fun _ h => h⟩

theorem trans (h : Retrieves r taken r') (h' : Retrieves r' more r'') :
    Retrieves r (taken ++ more) r'' := by
  refine ⟨?_, fun body hbody => ?_⟩
  · rw [← h.shape, ← h'.shape, Shape.stmts_eq_map, Shape.stmts_eq_map, Shape.stmts_eq_map,
      List.map_append, List.append_assoc]
  · rw [List.append_assoc]
    exact h.fills _ (h'.fills body hbody)

/-- Nothing is read of a marker. -/
theorem blank (hs : s.isBlank) :
    Retrieves ⟨line, begun, pending, s :: ss⟩ [] ⟨line, begun, begun, ss⟩ := by
  refine ⟨(tidied_cons_of_blank hs).symm, fun body hbody => ?_⟩
  rw [Remainder.Fills, settled_cons_of_blank hs]
  exact hbody

/-- A statement stands one line below the statement before it, or two if it stands apart. -/
theorem cons (hs : s.isBlank = false) (hst : Restores s t)
    (hline : t.span.line = line + pending.toNat + 1) :
    Retrieves ⟨line, begun, pending, s :: ss⟩ [t] ⟨t.span.endLine, true, false, ss⟩ := by
  refine ⟨?_, fun body hbody => ?_⟩
  · rw [tidied_cons hs, ← hst.shape]
    rfl
  · have hgap : decide (line + 1 < t.span.line) = pending := by
      rw [hline]
      cases pending <;> simp
    rw [Remainder.Fills, List.singleton_append, separated_cons, settled_cons hs, hgap, hst.spacing]
    exact congrArg (gap pending ++ _ :: ·) hbody

/-- A remark stands on the line that the statement before it ends on. -/
theorem remark {span span' : Span} {text : String} (hline : span'.line = line) :
    Retrieves ⟨line, begun, false, .comment span text true :: ss⟩ [.comment span' text true]
      ⟨span'.endLine, true, false, ss⟩ := by
  refine ⟨?_, fun body hbody => ?_⟩
  · rw [tidied_cons rfl]
    rfl
  · rw [Remainder.Fills, List.singleton_append, separated_cons, settled_cons rfl]
    have hgap : decide (line + 1 < (Stmt.comment span' text true).span.line) = false := by
      simp [Stmt.span, hline]
    rw [hgap]
    exact congrArg (Stmt.comment .nowhere text true :: ·) hbody

/-- The whole of a block is read. Nothing comes before its first statement. -/
theorem restoresAll (h : Retrieves ⟨line, false, false, ss⟩ taken r') (hr : r'.stmts = []) :
    RestoresAll ss taken := by
  have hshape := h.shape
  have hall : separated line (taken ++ []) = settled false false ss := h.fills [] (by
    rw [Remainder.Fills, hr]
    rfl)
  rw [hr] at hshape
  refine ⟨(List.append_nil _).symm.trans hshape, ?_⟩
  rw [List.append_nil] at hall
  rw [← hall]
  cases taken with
  | nil => rfl
  | cons t ts =>
    have hnone := head?_settled ss
    rw [← hall, separated_cons] at hnone
    rw [separated_cons, Block.mapInside, separate_cons, Stmt.span_mapBlocks]
    cases hgap : decide (line + 1 < t.span.line) with
    | true =>
      rw [hgap] at hnone
      exact absurd rfl hnone
    | false => rfl

end Retrieves

/-- A statement without blocks is restored by its shape. -/
theorem Restores.of_shape (hs : ∀ f, s.mapBlocks f = s) (ht : ∀ f, t.mapBlocks f = t)
    (h : t.shape = s.shape) : Restores s t :=
  ⟨by rw [hs, h], by rw [hs, ht, h]⟩

/-- A comment on a line of its own, and what is read behind it. -/
theorem Retrieves.note {begun pending : Bool} {line : Nat} {span span' : Span} {text : String}
    {more : List Stmt} {r : Remainder} (hline : span'.line = line + pending.toNat + 1)
    (h : Retrieves ⟨span'.endLine, true, false, ss⟩ more r) :
    Retrieves ⟨line, begun, pending, .comment span text false :: ss⟩
      (.comment span' text false :: more) r :=
  have hcomment : Retrieves ⟨line, begun, pending, .comment span text false :: ss⟩
      [.comment span' text false] ⟨span'.endLine, true, false, ss⟩ :=
    .cons rfl (.of_shape (fun _ => rfl) (fun _ => rfl) rfl) hline
  hcomment.trans h

end Grammar

end AsyncErasure
