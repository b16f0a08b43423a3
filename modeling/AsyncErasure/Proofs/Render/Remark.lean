import AsyncErasure.Proofs.Tree.Block
import AsyncErasure.Proofs.WellFormed

namespace AsyncErasure

mutual

/-- The last line of a statement holds no comment. -/
def Stmt.endsBare : Stmt → Bool
  | .functionDef _ _ _ _ _ _ body | .classDef _ _ _ _ _ body | .withBlock _ _ _ body =>
    Block.endsBare true body
  | .forLoop _ _ _ _ body orelse | .whileLoop _ _ body orelse | .branch _ _ body orelse =>
    Block.endsBare (Block.endsBare true body) orelse
  | .tryBlock _ body handlers orelse final _ =>
    Block.endsBare (Block.endsBare (Block.handlersEndBare (Block.endsBare true body) handlers)
      orelse) final
  | .comment .. => false
  | _ => true

/-- An empty block ends with the line `before` it. -/
def Block.endsBare (before : Bool) : List Stmt → Bool
  | [] => before
  | s :: ss => Block.endsBare (if s.isBlank then before else s.endsBare) ss

def Handler.endsBare : Handler → Bool
  | ⟨_, _, body⟩ => Block.endsBare true body

def Block.handlersEndBare (before : Bool) : List Handler → Bool
  | [] => before
  | h :: hs => Block.handlersEndBare h.endsBare hs

end

namespace Block

/-- Each remark of a block stands first in it, or right behind a line that holds no comment. -/
def remarksFit (begun bare : Bool) : List Stmt → Bool
  | [] => true
  | s :: ss =>
    if s.isBlank then remarksFit begun (bare && !begun) ss
    else (!s.isRemark || bare) && remarksFit true s.endsBare ss

end Block

/-- A remark comes on a line of its own, and a list takes the place of the tuple that stands alone
in a header, since the brackets of the tuple would be read as those of the header. -/
def Stmt.detach : Stmt → Stmt
  | .comment s text _ => .comment s text false
  | .withBlock s mode [⟨.tuple t elts true, none⟩] body =>
    .withBlock s mode [⟨.list t elts, none⟩] body
  | s => s

def Block.detach (body : List Stmt) : List Stmt := body.map Stmt.detach

def Stmt.detached (s : Stmt) : Stmt := (s.mapBlocks Block.detach).detach

def Block.detached (body : List Stmt) : List Stmt := detach (mapInside detach body)

/-- With its remarks on lines of their own the module is well-formed, whatever stands alone in its
headers, and each remark finds a line to stand on. -/
structure Module.IsLegible (m : Module) : Prop where
  detached : (m.mapBlocks Block.detach).WellFormed
  remarks : ∀ body ∈ m.blocksInsideOut, Block.remarksFit false true body

instance (m : Module) : Decidable m.IsLegible :=
  decidable_of_iff ((m.mapBlocks Block.detach).WellFormed ∧
      ∀ body ∈ m.blocksInsideOut, Block.remarksFit false true body)
    ⟨fun h => ⟨h.1, h.2⟩, fun h => ⟨h.1, h.2⟩⟩

namespace Stmt

theorem isBlank_detach (s : Stmt) : s.detach.isBlank = s.isBlank := by
  unfold detach
  split <;> rfl

theorem isCode_detach (s : Stmt) : s.detach.isCode = s.isCode := by
  unfold detach
  split <;> rfl

theorem isBlank_detached (s : Stmt) : s.detached.isBlank = s.isBlank := by
  rw [detached, isBlank_detach, isBlank_mapBlocks]

theorem isCode_detached (s : Stmt) : s.detached.isCode = s.isCode := by
  rw [detached, isCode_detach]
  cases s <;> rfl

theorem isRemark_detached (s : Stmt) : s.detached.isRemark = false := by
  rw [detached]
  generalize s.mapBlocks Block.detach = t
  unfold detach
  split
  · rfl
  · rfl
  · rename_i hne _
    cases t with
    | comment s text inline => exact absurd rfl (hne s text inline)
    | _ => rfl

/-- What is asked of the blocks of a statement for the remarks in it. -/
def RemarksFit (s : Stmt) : Prop := ∀ body ∈ s.blocksInsideOut, Block.remarksFit false true body

structure IsLegible (s : Stmt) : Prop where
  detached : s.detached.fits
  remarks : s.RemarksFit

theorem remarksFit_iff {s : Stmt} : s.RemarksFit ↔
    ∀ body ∈ s.blocks, Block.remarksFit false true body ∧ ∀ x ∈ body, x.RemarksFit := by
  constructor
  · intro h body hbody
    exact ⟨h body (mem_blocksInsideOut.2 ⟨body, hbody, .inl rfl⟩), fun x hx inner hinner =>
      h inner (mem_blocksInsideOut.2 ⟨body, hbody, .inr ⟨x, hx, hinner⟩⟩)⟩
  · intro h inner hinner
    obtain ⟨body, hbody, rfl | ⟨x, hx, hinner⟩⟩ := mem_blocksInsideOut.1 hinner
    · exact (h inner hbody).1
    · exact (h body hbody).2 x hx inner hinner

end Stmt

namespace Block

theorem detached_eq_map (body : List Stmt) : detached body = body.map Stmt.detached := by
  rw [detached, detach, mapInside_eq_map, List.map_map]
  rfl

theorem any_isCode_detached (body : List Stmt) :
    (detached body).any Stmt.isCode = body.any Stmt.isCode := by
  simp [detached_eq_map, Function.comp_def, Stmt.isCode_detached]

theorem isEmpty_detached (body : List Stmt) : (detached body).isEmpty = body.isEmpty := by
  simp [detached_eq_map]

theorem isEmpty_mapHandlers (f : List Stmt → List Stmt) (hs : List Handler) :
    (mapHandlers f hs).isEmpty = hs.isEmpty := by
  cases hs <;> rfl

/-- Where no remarks are, nothing but the statements matters. -/
theorem fits_detached {b r : Bool} {body : List Stmt} :
    Fits.stmts b r (detached body) ↔ ∀ s ∈ body, s.detached.fits := by
  rw [detached_eq_map]
  induction body generalizing b r with
  | nil => simp [Fits.stmts]
  | cons s ss ih =>
    rw [List.map_cons, Fits.stmts, List.forall_mem_cons, ← @ih true s.detached.isSimple]
    rw [Stmt.isBlank_detached]
    split
    · rename_i hblank
      have hs : s.detached.fits := by
        cases s with
        | blank => rfl
        | _ => cases hblank
      rw [ih, ← @ih true s.detached.isSimple]
      simp [hs]
    · simp [Stmt.isRemark_detached]

end Block

/-- A list fits wherever a tuple in brackets does. -/
theorem Stmt.fits_of_withBlock {s : Span} {mode : Mode} {items : List WithItem} {body : List Stmt}
    (hf : (withBlock s mode items body).detached.fits) :
    (∀ i ∈ items, i.fits) ∧ Fits.block (Block.detached body) := by
  have hf : (withBlock s mode items (Block.detached body)).detach.fits := hf
  unfold detach at hf
  split at hf
  · rename_i heq
    cases heq
  · rename_i heq
    cases heq
    simp only [Stmt.fits, Fits.withItems, Bool.and_eq_true, List.all_eq_true] at hf
    have hlist := hf.1.1.2 _ (List.mem_singleton_self _)
    exact ⟨fun i hi => List.mem_singleton.1 hi ▸ hlist, hf.2⟩
  · simp only [Stmt.fits, Fits.withItems, Bool.and_eq_true, List.all_eq_true] at hf
    exact ⟨hf.1.1.2, hf.2⟩

namespace Fits

variable {body : List Stmt}

theorem endsBare_of_isSimple {s : Stmt} (h : s.isSimple) : s.endsBare := by
  cases s <;> first | rfl | cases h

/-- Where a remark may stand by the stricter rule it may stand by the other one. -/
theorem remarksFit_of_stmts {b r bare : Bool} (hf : stmts b r body) (h : r → bare) :
    Block.remarksFit b bare body := by
  induction body generalizing b r bare with
  | nil => rfl
  | cons s ss ih =>
    rw [stmts] at hf
    rw [Block.remarksFit]
    split at hf
    · rename_i hblank
      rw [if_pos hblank]
      exact ih hf (by simp_all)
    · rename_i hblank
      simp only [Bool.and_eq_true, Bool.or_eq_true, Bool.not_eq_true'] at hf
      rw [if_neg hblank]
      simp only [Bool.and_eq_true, Bool.or_eq_true, Bool.not_eq_true']
      exact ⟨hf.1.2.imp_right h, ih hf.2 endsBare_of_isSimple⟩

theorem fits_of_stmts {b r : Bool} (hf : stmts b r body) : ∀ s ∈ body, s.fits := by
  induction body generalizing b r with
  | nil => simp
  | cons s ss ih =>
    rw [stmts] at hf
    rw [List.forall_mem_cons]
    split at hf
    · rename_i hblank
      cases s with
      | blank => exact ⟨rfl, ih hf⟩
      | _ => cases hblank
    · simp only [Bool.and_eq_true] at hf
      exact ⟨hf.1.1, ih hf.2⟩

theorem legible_block (ih : ∀ s ∈ body, s.fits → s.IsLegible) (hf : block body) :
    block (Block.detached body) ∧ Block.remarksFit false true body ∧ ∀ s ∈ body, s.RemarksFit := by
  rw [block_eq, Bool.and_eq_true] at hf ⊢
  have hs (s : Stmt) (hs : s ∈ body) : s.IsLegible := ih s hs (fits_of_stmts hf.2 s hs)
  exact ⟨⟨by rw [Block.any_isCode_detached, hf.1], Block.fits_detached.2 fun x hx =>
    (hs x hx).detached⟩, remarksFit_of_stmts hf.2 id, fun x hx => (hs x hx).remarks⟩

theorem legible_clause (ih : ∀ s ∈ body, s.fits → s.IsLegible) (hf : clause body) :
    clause (Block.detached body) ∧ Block.remarksFit false true body ∧ ∀ s ∈ body, s.RemarksFit := by
  cases body with
  | nil => exact ⟨rfl, rfl, nofun⟩
  | cons s ss =>
    rw [clause_eq, List.isEmpty_cons, Bool.false_or] at hf
    obtain ⟨hdetached, hremarks⟩ := legible_block ih hf
    exact ⟨by rw [clause_eq, hdetached, Bool.or_true], hremarks⟩

theorem legible_handlers {hs : List Handler}
    (ih : ∀ s ∈ hs.flatMap Handler.body, s.fits → s.IsLegible)
    (hf : handlers hs) :
    handlers (Block.mapHandlers Block.detach hs) ∧ ∀ body ∈ hs.map Handler.body,
      Block.remarksFit false true body ∧ ∀ s ∈ body, s.RemarksFit := by
  induction hs with
  | nil => exact ⟨rfl, nofun⟩
  | cons h hs ihs =>
    obtain ⟨type, name, body⟩ := h
    simp only [handlers, Handler.fits, Bool.and_eq_true] at hf
    simp only [List.flatMap_cons, List.mem_append] at ih
    obtain ⟨hdetached, hremarks⟩ := legible_block (fun s hs => ih s (.inl hs)) hf.1.2
    obtain ⟨hall, hremarks'⟩ := ihs (fun s hs => ih s (.inr hs)) hf.2
    refine ⟨?_, List.forall_mem_cons.2 ⟨hremarks, hremarks'⟩⟩
    simp only [Block.mapHandlers, Handler.mapBlocks, handlers, Handler.fits, Bool.and_eq_true]
    exact ⟨⟨hf.1.1, hdetached⟩, hall⟩

/-- A header that fits does so with a list in place of its only tuple. -/
theorem detach_withBlock (s : Span) (mode : Mode) {items : List WithItem} (hf : withItems items)
    (body : List Stmt) : ∃ items', (Stmt.withBlock s mode items body).detach =
      .withBlock s mode items' body ∧ withItems items' := by
  unfold Stmt.detach
  split
  · rename_i heq
    cases heq
  · rename_i heq
    cases heq
    refine ⟨_, rfl, ?_⟩
    simp only [withItems, Bool.and_eq_true] at hf ⊢
    exact ⟨hf.1, rfl⟩
  · exact ⟨items, rfl, hf⟩

end Fits

open Fits

/-- A statement that fits is legible. -/
theorem Stmt.isLegible {s : Stmt} (hf : s.fits) : s.IsLegible := by
  induction s using Stmt.childInduction with
  | step s ih =>
  suffices h : s.detached.fits ∧ ∀ body ∈ s.blocks,
      Block.remarksFit false true body ∧ ∀ x ∈ body, x.RemarksFit from
    ⟨h.1, Stmt.remarksFit_iff.2 h.2⟩
  cases s with
  | functionDef | classDef =>
    simp only [Stmt.fits, Bool.and_eq_true] at hf
    simp only [Stmt.children] at ih
    obtain ⟨hdetached, hremarks⟩ := legible_block ih hf.2
    refine ⟨?_, List.forall_mem_singleton.2 hremarks⟩
    simp only [Stmt.detached, Stmt.mapBlocks, Stmt.detach, Stmt.fits, Bool.and_eq_true]
    exact ⟨hf.1, hdetached⟩
  | forLoop | whileLoop | branch =>
    simp only [Stmt.fits, Bool.and_eq_true] at hf
    simp only [Stmt.children, List.mem_append] at ih
    obtain ⟨hbody, hremarks⟩ := legible_block (fun x hx => ih x (.inl hx)) hf.1.2
    obtain ⟨helse, hremarks'⟩ := legible_clause (fun x hx => ih x (.inr hx)) hf.2
    refine ⟨?_, List.forall_mem_cons.2 ⟨hremarks, List.forall_mem_singleton.2 hremarks'⟩⟩
    simp only [Stmt.detached, Stmt.mapBlocks, Stmt.detach, Stmt.fits, Bool.and_eq_true]
    exact ⟨⟨hf.1.1, hbody⟩, helse⟩
  | withBlock s mode items body =>
    simp only [Stmt.fits, Bool.and_eq_true] at hf
    simp only [Stmt.children] at ih
    obtain ⟨hbody, hremarks⟩ := legible_block ih hf.2
    obtain ⟨items', heq, hitems⟩ := detach_withBlock s mode hf.1 (Block.detached body)
    refine ⟨?_, List.forall_mem_singleton.2 hremarks⟩
    have hdetached : (Stmt.withBlock s mode items body).detached =
        .withBlock s mode items' (Block.detached body) := heq
    rw [hdetached, Stmt.fits, hitems, hbody]
    rfl
  | tryBlock =>
    simp only [Stmt.fits, Bool.and_eq_true] at hf
    simp only [Stmt.children, List.mem_append] at ih
    obtain ⟨hbody, hremarks⟩ := legible_block (fun x hx => ih x (.inl hx)) hf.1.1.1.1.1
    obtain ⟨hhandlers, hremarks₁⟩ := legible_handlers (fun x hx => ih x (.inr (.inl hx)))
        hf.1.1.1.1.2
    obtain ⟨helse, hremarks₂⟩ := legible_clause (fun x hx => ih x (.inr (.inr (.inl hx))))
        hf.1.1.1.2
    obtain ⟨hfinal, hremarks₃⟩ := legible_clause (fun x hx => ih x (.inr (.inr (.inr hx)))) hf.1.1.2
    refine ⟨?_, List.forall_mem_cons.2 ⟨hremarks, List.forall_mem_append.2 ⟨hremarks₁,
      List.forall_mem_cons.2 ⟨hremarks₂, List.forall_mem_singleton.2 hremarks₃⟩⟩⟩⟩
    simp only [Stmt.detached, Stmt.mapBlocks, Stmt.detach, Stmt.fits, Bool.and_eq_true]
    refine ⟨⟨⟨⟨⟨hbody, hhandlers⟩, helse⟩, hfinal⟩, ?_⟩, ?_⟩
    · rw [Block.isEmpty_mapHandlers, ← Block.detached, Block.isEmpty_detached]
      exact hf.1.2
    · rw [Block.isEmpty_mapHandlers]
      exact hf.2
  | _ => exact ⟨hf, fun _ h => absurd h List.not_mem_nil⟩

/-- Well-formed modules are legible. -/
theorem Module.WellFormed.isLegible {m : Module} (h : m.WellFormed) : m.IsLegible := by
  have hstmts (s : Stmt) (hs : s ∈ m.body) : s.IsLegible := Stmt.isLegible (fits_of_stmts h s hs)
  refine ⟨Block.fits_detached.2 fun s hs => (hstmts s hs).detached, fun body hbody => ?_⟩
  rw [blocksInsideOut, Stmt.insideOut_eq, List.mem_append, List.mem_flatMap,
    List.mem_singleton] at hbody
  obtain ⟨s, hs, hbody⟩ | rfl := hbody
  · exact (hstmts s hs).remarks body hbody
  · exact remarksFit_of_stmts h nofun

end AsyncErasure
