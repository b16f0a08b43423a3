import AsyncErasure.Proofs.Tree.Child
import AsyncErasure.Tree.Block

namespace AsyncErasure

theorem Block.mapInside_eq_map (f : List Stmt → List Stmt) (body : List Stmt) :
    mapInside f body = body.map (Stmt.mapBlocks f) := by
  induction body with
  | nil => rfl
  | cons s ss ih => rw [mapInside, ih, List.map_cons]

namespace Stmt

def blocks : Stmt → List (List Stmt)
  | functionDef _ _ _ _ _ _ body | classDef _ _ _ _ _ body | withBlock _ _ _ body => [body]
  | forLoop _ _ _ _ body orelse | whileLoop _ _ body orelse | branch _ _ body orelse =>
    [body, orelse]
  | tryBlock _ body handlers orelse final _ =>
    body :: (handlers.map Handler.body ++ [orelse, final])
  | _ => []

def isComment : Stmt → Bool
  | comment .. => true
  | _ => false

/-- A statement without what stands in its blocks. -/
def head (s : Stmt) : Stmt := s.mapBlocks fun _ => []

theorem children_eq_flatten (s : Stmt) : s.children = s.blocks.flatten := by
  cases s <;> simp [children, blocks, List.flatMap_def]

theorem mem_children {s x : Stmt} {body : List Stmt} (hb : body ∈ s.blocks) (hx : x ∈ body) :
    x ∈ s.children := by
  rw [children_eq_flatten]
  exact List.mem_flatten_of_mem hb hx

theorem mapHandlers_eq_map (f : List Stmt → List Stmt) (hs : List Handler) :
    Block.mapHandlers f hs = hs.map (Handler.mapBlocks f) := by
  induction hs with
  | nil => rfl
  | cons h hs ih => rw [Block.mapHandlers, ih, List.map_cons]

theorem handlersInsideOut_eq (hs : List Handler) : Block.handlersInsideOut hs =
    (hs.map Handler.body).flatMap fun body => Block.insideOut body ++ [body] := by
  induction hs with
  | nil => rfl
  | cons h hs ih =>
    cases h
    simp [Block.handlersInsideOut, Handler.blocksInsideOut, ih]

/-- The blocks inside a statement are its own, each behind those inside it. -/
theorem blocksInsideOut_eq (s : Stmt) :
    s.blocksInsideOut = s.blocks.flatMap fun body => Block.insideOut body ++ [body] := by
  cases s <;> simp [blocksInsideOut, blocks, handlersInsideOut_eq]

theorem insideOut_eq (ss : List Stmt) : Block.insideOut ss = ss.flatMap blocksInsideOut := by
  induction ss with
  | nil => rfl
  | cons s ss ih => rw [Block.insideOut, ih, List.flatMap_cons]

/-- A block inside a statement is one of its own or lies inside a statement of one of those. -/
theorem mem_blocksInsideOut {s : Stmt} {body : List Stmt} : body ∈ s.blocksInsideOut ↔
    ∃ own ∈ s.blocks, body = own ∨ ∃ x ∈ own, body ∈ x.blocksInsideOut := by
  rw [blocksInsideOut_eq]
  simp [insideOut_eq, or_comm]

theorem handler_mapBlocks (f : List Stmt → List Stmt) (h : Handler) :
    h.mapBlocks f = ⟨h.type, h.name, f (Block.mapInside f h.body)⟩ := by
  cases h
  rfl

theorem blocks_mapBlocks (f : List Stmt → List Stmt) (s : Stmt) :
    (s.mapBlocks f).blocks = s.blocks.map fun body => f (Block.mapInside f body) := by
  cases s with
  | tryBlock s body handlers orelse final star =>
    simp [mapBlocks, blocks, mapHandlers_eq_map, Function.comp_def, handler_mapBlocks]
  | _ => rfl

theorem head_mapBlocks (f : List Stmt → List Stmt) (s : Stmt) : (s.mapBlocks f).head = s.head := by
  cases s with
  | tryBlock s body handlers orelse final star =>
    simp [head, mapBlocks, mapHandlers_eq_map, handler_mapBlocks]
  | _ => rfl

theorem span_mapBlocks (f : List Stmt → List Stmt) (s : Stmt) : (s.mapBlocks f).span = s.span := by
  cases s <;> rfl

theorem isBlank_mapBlocks (f : List Stmt → List Stmt) (s : Stmt) :
    (s.mapBlocks f).isBlank = s.isBlank := by
  cases s <;> rfl

/-- Two changes of the blocks make a third one if they do so for every block. -/
theorem mapBlocks_comp {f g h : List Stmt → List Stmt} {s : Stmt}
    (hblocks : ∀ body ∈ s.blocks,
      f (Block.mapInside f (g (Block.mapInside g body))) = h (Block.mapInside h body)) :
    (s.mapBlocks g).mapBlocks f = s.mapBlocks h := by
  cases s with
  | tryBlock s body handlers orelse final star =>
    simp only [blocks, List.forall_mem_cons, List.forall_mem_append, List.forall_mem_map] at hblocks
    rcases hblocks with ⟨hbody, hhandlers, horelse, hfinal, -⟩
    simp only [mapBlocks, hbody, horelse, hfinal, mapHandlers_eq_map, List.map_map]
    congr 1
    refine List.map_congr_left fun handler hmem => ?_
    simp only [Function.comp_apply, handler_mapBlocks, hhandlers handler hmem]
  | _ => simp_all [blocks, mapBlocks]

theorem mapBlocks_congr {f g : List Stmt → List Stmt} {s : Stmt}
    (hblocks : ∀ body ∈ s.blocks, f (Block.mapInside f body) = g (Block.mapInside g body)) :
    s.mapBlocks f = s.mapBlocks g := by
  cases s with
  | tryBlock s body handlers orelse final star =>
    simp only [blocks, List.forall_mem_cons, List.forall_mem_append, List.forall_mem_map] at hblocks
    obtain ⟨hbody, hhandlers, horelse, hfinal, -⟩ := hblocks
    simp only [mapBlocks, hbody, horelse, hfinal, mapHandlers_eq_map]
    congr 1
    refine List.map_congr_left fun handler hmem => ?_
    rw [handler_mapBlocks, handler_mapBlocks, hhandlers handler hmem]
  | _ => simp_all [blocks, mapBlocks]

theorem mapBlocks_eq_self {f : List Stmt → List Stmt} {s : Stmt}
    (hblocks : ∀ body ∈ s.blocks, f (Block.mapInside f body) = body) : s.mapBlocks f = s := by
  cases s with
  | tryBlock s body handlers orelse final star =>
    simp only [blocks, List.forall_mem_cons, List.forall_mem_append, List.forall_mem_map] at hblocks
    rcases hblocks with ⟨hbody, hhandlers, horelse, hfinal, -⟩
    simp only [mapBlocks, hbody, horelse, hfinal, mapHandlers_eq_map]
    congr 1
    refine (List.map_congr_left fun handler hmem => ?_).trans (List.map_id handlers)
    rw [handler_mapBlocks, hhandlers handler hmem]
    cases handler
    rfl
  | _ => simp_all [blocks, mapBlocks]

end Stmt

end AsyncErasure
