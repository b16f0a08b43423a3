import AsyncErasure.Proofs.Skeleton
import AsyncErasure.Proofs.Tree.Gap
import AsyncErasure.Render.Statement
import Mathlib.Data.List.Chain
import Mathlib.Logic.Function.Iterate

namespace AsyncErasure

namespace Spacing

/-- A block whose markers stand between statements, one where a statement begins further down than on
the line next to the statement before it and none elsewhere, each on that line. -/
structure IsSpaced (next : Nat → Nat) (body : List Stmt) : Prop where
  first : ∀ s ∈ body.head?, s.isBlank = false
  last : ∀ s ∈ body.getLast?, s.isBlank = false
  between {before gap after : List Stmt} {a b : Stmt} : body = before ++ a :: (gap ++ b :: after) →
    a.isBlank = false → b.isBlank = false → (∀ s ∈ gap, s.isBlank) →
    gap = if next a.span.endLine < b.span.line then [.blankAt (next a.span.endLine)] else []

section Blocks

variable {next : Nat → Nat} {line : Nat} {s a b : Stmt} {body before gap after rest : List Stmt}

theorem mem_separateFrom (h : s ∈ separateFrom next line body) :
    s ∈ body ∨ ∃ n, s = .blankAt n := by
  induction body generalizing line with
  | nil => cases h
  | cons t body ih =>
    rw [separateFrom, List.mem_append, List.mem_cons] at h
    rcases h with h | rfl | h
    · split at h <;> simp only [List.mem_singleton, List.not_mem_nil] at h
      exact .inr ⟨_, h⟩
    · exact .inl (List.mem_cons_self ..)
    · exact (ih h).imp_left (List.mem_cons_of_mem _)

theorem mem_separate (h : s ∈ separate next body) : s ∈ body ∨ ∃ n, s = .blankAt n := by
  cases body with
  | nil => cases h
  | cons t body =>
    rw [separate_cons] at h
    rcases List.mem_cons.1 h with rfl | h
    · exact .inl (List.mem_cons_self ..)
    · exact (mem_separateFrom h).imp_left (List.mem_cons_of_mem _)

/-- Behind a statement the block goes on as it does behind the line that the statement ends on. -/
theorem rest_of_separateFrom (hbody : ∀ s ∈ body, s.isBlank = false) (ha : a.isBlank = false)
    (h : separateFrom next line body = before ++ a :: rest) :
    ∃ ss, (∀ s ∈ ss, s.isBlank = false) ∧ rest = separateFrom next a.span.endLine ss := by
  induction body generalizing line before with
  | nil => simp [separateFrom] at h
  | cons s body ih =>
    rw [List.forall_mem_cons] at hbody
    have hfound (before : List Stmt)
        (h : s :: separateFrom next s.span.endLine body = before ++ a :: rest) :
        ∃ ss, (∀ s ∈ ss, s.isBlank = false) ∧ rest = separateFrom next a.span.endLine ss := by
      cases before with
      | nil =>
        obtain ⟨rfl, rfl⟩ := List.cons.inj h
        exact ⟨body, hbody.2, rfl⟩
      | cons x before => exact ih hbody.2 (List.cons.inj h).2
    rw [separateFrom] at h
    split at h
    · cases before with
      | nil =>
        obtain rfl := (List.cons.inj h).1
        cases ha
      | cons x before => exact hfound before (List.cons.inj h).2
    · exact hfound before h

theorem rest_of_separate (hbody : ∀ s ∈ body, s.isBlank = false) (ha : a.isBlank = false)
    (h : separate next body = before ++ a :: rest) :
    ∃ ss, (∀ s ∈ ss, s.isBlank = false) ∧ rest = separateFrom next a.span.endLine ss := by
  cases body with
  | nil => simp [separate] at h
  | cons s body =>
    rw [List.forall_mem_cons] at hbody
    rw [separate_cons] at h
    cases before with
    | nil =>
      obtain ⟨rfl, rfl⟩ := List.cons.inj h
      exact ⟨body, hbody.2, rfl⟩
    | cons x before => exact rest_of_separateFrom hbody.2 ha (List.cons.inj h).2

theorem gap_of_separateFrom (hbody : ∀ s ∈ body, s.isBlank = false) (hb : b.isBlank = false)
    (hgap : ∀ s ∈ gap, s.isBlank) (h : separateFrom next line body = gap ++ b :: after) :
    gap = if next line < b.span.line then [.blankAt (next line)] else [] := by
  cases body with
  | nil => simp [separateFrom] at h
  | cons s body =>
    have hs := hbody s (List.mem_cons_self ..)
    rw [separateFrom] at h
    split at h
    · rcases gap with _ | ⟨x, _ | ⟨y, gap⟩⟩
      · obtain rfl := (List.cons.inj h).1
        cases hb
      · simp only [List.singleton_append, List.cons.injEq] at h
        obtain ⟨rfl, rfl, -⟩ := h
        rw [if_pos ‹_›]
      · obtain rfl := (List.cons.inj (List.cons.inj h).2).1
        simp [hs] at hgap
    · cases gap with
      | nil =>
        obtain rfl := (List.cons.inj h).1
        rw [if_neg ‹_›]
      | cons x gap =>
        obtain rfl := (List.cons.inj h).1
        simp [hs] at hgap

theorem getLast?_separateFrom (hbody : ∀ s ∈ body, s.isBlank = false) :
    ∀ s ∈ (separateFrom next line body).getLast?, s.isBlank = false := by
  induction body generalizing line with
  | nil => simp [separateFrom]
  | cons t body ih =>
    rw [List.forall_mem_cons] at hbody
    intro s hs
    rw [separateFrom, List.getLast?_append_of_ne_nil _ (by simp), List.getLast?_cons] at hs
    cases hlast : (separateFrom next t.span.endLine body).getLast? with
    | none =>
      obtain rfl : t = s := by simpa [hlast] using hs
      exact hbody.1
    | some u =>
      obtain rfl : u = s := by simpa [hlast] using hs
      exact ih hbody.2 u hlast

theorem isSpaced_separate (hbody : ∀ s ∈ body, s.isBlank = false) :
    IsSpaced next (separate next body) := by
  cases body with
  | nil => exact ⟨by simp [separate], by simp [separate], by simp [separate]⟩
  | cons s body =>
    refine ⟨?_, ?_, fun h ha hb hgap => ?_⟩
    · rw [separate_cons]
      simpa using hbody s
    · intro t ht
      rw [separate_cons, List.getLast?_cons] at ht
      rw [List.forall_mem_cons] at hbody
      cases hlast : (separateFrom next s.span.endLine body).getLast? with
      | none =>
        obtain rfl : s = t := by simpa [hlast] using ht
        exact hbody.1
      | some u =>
        obtain rfl : u = t := by simpa [hlast] using ht
        exact getLast?_separateFrom hbody.2 u hlast
    · obtain ⟨ss, hss, hrest⟩ := rest_of_separate hbody ha h
      exact gap_of_separateFrom hss hb hgap hrest.symm

/-- A block inside a separated statement has been separated. -/
theorem exists_of_mem_blocks (h : body ∈ (s.mapBlocks (separate next)).blocksInsideOut) :
    ∃ inner ∈ s.blocksInsideOut, body = separate next (Block.mapInside (separate next) inner) := by
  induction s using Stmt.childInduction generalizing body with
  | step s ih =>
    obtain ⟨own, hown, h⟩ := Stmt.mem_blocksInsideOut.1 h
    rw [Stmt.blocks_mapBlocks] at hown
    obtain ⟨inner, hinner, rfl⟩ := List.mem_map.1 hown
    rcases h with rfl | ⟨x, hx, h⟩
    · exact ⟨inner, Stmt.mem_blocksInsideOut.2 ⟨inner, hinner, .inl rfl⟩, rfl⟩
    rcases mem_separate hx with hx | ⟨n, rfl⟩
    · rw [Block.mapInside_eq_map] at hx
      obtain ⟨y, hy, rfl⟩ := List.mem_map.1 hx
      obtain ⟨inner', hinner', rfl⟩ := ih y (Stmt.mem_children hinner hy) h
      exact ⟨inner', Stmt.mem_blocksInsideOut.2 ⟨inner, hinner, .inr ⟨y, hy, hinner'⟩⟩, rfl⟩
    · cases h

/-- A block of a separated module comes from one of the module itself. -/
theorem exists_of_mem_separate {m : Module} (h : body ∈ (m.separateBy next).blocksInsideOut) :
    ∃ inner ∈ m.blocksInsideOut, body = separate next (Block.mapInside (separate next) inner) := by
  simp only [Module.blocksInsideOut, List.mem_append, List.mem_singleton, Stmt.insideOut_eq,
    List.mem_flatMap] at h ⊢
  rcases h with ⟨x, hx, h⟩ | rfl
  · rcases mem_separate hx with hx | ⟨n, rfl⟩
    · rw [Block.mapInside_eq_map] at hx
      obtain ⟨y, hy, rfl⟩ := List.mem_map.1 hx
      obtain ⟨inner, hinner, rfl⟩ := exists_of_mem_blocks h
      exact ⟨inner, .inl ⟨y, hy, hinner⟩, rfl⟩
    · cases h
  · exact ⟨m.body, .inr rfl, rfl⟩

/-- Separating the blocks inside puts no marker into the block itself. -/
theorem plain_mapInside {m : Module} (h : ∀ s ∈ m.statements, s.isBlank = false)
    (hbody : body ∈ m.blocksInsideOut) :
    ∀ s ∈ Block.mapInside (separate next) body, s.isBlank = false := by
  intro s hs
  rw [Block.mapInside_eq_map] at hs
  obtain ⟨t, ht, rfl⟩ := List.mem_map.1 hs
  rw [Stmt.isBlank_mapBlocks]
  exact h t (List.mem_flatten_of_mem hbody ht)

/-- Numbers of lines that agree where statements end put the same markers. -/
theorem separate_congr {next' : Nat → Nat} {p : Nat → Bool} (hnext : ∀ n, p n → next n = next' n)
    (h : body.all (Guard.deep fun s => p s.span.endLine)) :
    separate next (Block.mapInside (separate next) body) =
      separate next' (Block.mapInside (separate next') body) := by
  have hflat {body : List Stmt} (h : ∀ s ∈ body, p s.span.endLine) :
      separate next body = separate next' body := by
    induction body with
    | nil => rfl
    | cons a body ih =>
      obtain ⟨ha, hbody⟩ := List.forall_mem_cons.1 h
      cases body with
      | nil => rfl
      | cons b body =>
        rw [separate, separate, apart, apart, marker, marker, hnext _ ha, ih hbody]
  have hblock {body : List Stmt} (h : ∀ s ∈ body, p s.span.endLine ∧
      s.mapBlocks (separate next) = s.mapBlocks (separate next')) :
      separate next (Block.mapInside (separate next) body) =
        separate next' (Block.mapInside (separate next') body) := by
    rw [Block.mapInside_eq_map, Block.mapInside_eq_map, List.map_congr_left fun s hs => (h s hs).2]
    refine hflat (List.forall_mem_map.2 fun s hs => ?_)
    rw [Stmt.span_mapBlocks]
    exact (h s hs).1
  have hstmt (s : Stmt) (h : Guard.deep (fun s => p s.span.endLine) s) :
      p s.span.endLine ∧ s.mapBlocks (separate next) = s.mapBlocks (separate next') := by
    induction s using Stmt.childInduction with
    | step s ih =>
      rw [Guard.all_children, Bool.and_eq_true, List.all_eq_true] at h
      refine ⟨h.1, Stmt.mapBlocks_congr fun own hown => hblock fun x hx => ?_⟩
      have hx := Stmt.mem_children hown hx
      exact ih x hx (h.2 x hx)
  exact hblock fun s hs => hstmt s (List.all_eq_true.1 h s hs)

end Blocks

end Spacing

namespace Render

open Spacing

variable {next : Nat → Nat}

structure SameText (body body' : List Stmt) : Prop where
  isEmpty : body'.isEmpty = body.isEmpty
  code : body'.any Stmt.isCode = body.any Stmt.isCode
  stmts (depth : Nat) :
    gapped false false (stmts depth body') = gapped false false (stmts depth body)
  alternative (depth : Nat) : alternative depth body' = alternative depth body

namespace SameText

variable {body body' : List Stmt}

theorem nested (h : SameText body body') (depth : Nat) :
    Render.nested depth body' (Render.stmts (depth + 1) body') =
      Render.nested depth body (Render.stmts (depth + 1) body) := by
  rw [Render.nested, Render.nested, passIfEmpty, passIfEmpty, h.stmts, h.code]

theorem clause (h : SameText body body') (header : String) (depth : Nat) :
    Render.clause header depth body' = Render.clause header depth body := by
  have hempty := h.isEmpty
  have hnested := h.nested depth
  cases body <;> cases body' <;> simp only [List.isEmpty_nil, List.isEmpty_cons,
    reduceCtorEq] at hempty
  · rfl
  · exact congrArg (.line depth header :: ·) hnested

theorem trans {body'' : List Stmt} (h : SameText body body') (h' : SameText body' body'') :
    SameText body body'' where
  isEmpty := h'.isEmpty.trans h.isEmpty
  code := h'.code.trans h.code
  stmts depth := (h'.stmts depth).trans (h.stmts depth)
  alternative depth := (h'.alternative depth).trans (h.alternative depth)

end SameText

variable {f : List Stmt → List Stmt}

end Render

namespace Module

section

variable {next : Nat → Nat}

end

/-- Up to the last line but one, words of 32 bits count lines as they are. -/
theorem separateBy_belowInWord {m : Module} (h : ∀ s ∈ m.statements, s.span.endLine < 4294967295) :
    m.separateBy Spacing.belowInWord = m.separate := by
  have hall : m.statements.all fun s => decide (s.span.endLine < 4294967295) := by simpa using h
  rw [Guard.all_statements] at hall
  have hnext (line : Nat) (hline : decide (line < 4294967295)) :
      Spacing.belowInWord line = Spacing.below line :=
    Nat.mod_eq_of_lt (by have := of_decide_eq_true hline; omega)
  exact congrArg Module.mk (Spacing.separate_congr (p := fun line => line < 4294967295) hnext hall)

end Module

end AsyncErasure
