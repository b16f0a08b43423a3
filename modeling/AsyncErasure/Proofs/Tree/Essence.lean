import AsyncErasure.Proofs.Guard
import AsyncErasure.Proofs.Tree.Shape

namespace AsyncErasure

namespace Block

def withoutComments (body : List Stmt) : List Stmt := body.filter fun s => !s.isComment

/-- What is left of statements without the comments in all blocks and without places. -/
def essence (body : List Stmt) : List Stmt :=
  Shape.stmts (withoutComments (mapInside withoutComments body))

@[simp] theorem essence_nil : essence [] = [] := rfl

theorem essence_eq (body : List Stmt) : essence body =
    (withoutComments body).map fun s => (s.mapBlocks withoutComments).shape := by
  have hkeeps (s : Stmt) : (s.mapBlocks withoutComments).isComment = s.isComment := by
    cases s <;> rfl
  rw [essence, Shape.stmts_eq_map, mapInside_eq_map, withoutComments, withoutComments,
    List.filter_map, List.map_map]
  congr 2
  funext s
  exact congrArg not (hkeeps s)

@[simp] theorem essence_append (a b : List Stmt) : essence (a ++ b) = essence a ++ essence b := by
  simp [essence_eq, withoutComments]

theorem essence_cons (s : Stmt) (body : List Stmt) :
    essence (s :: body) = essence [s] ++ essence body :=
  essence_append [s] body

/-- What tells items apart is found in what is left of them as statements. -/
theorem keys_eq_of_essence {α β : Type} {f : α → Stmt} {key : α → β} (make : β → Stmt)
    (hf : ∀ x, essence [f x] = [make (key x)]) (hmake : ∀ k l, make k = make l → k = l)
    {xs ys : List α}
    (h : essence (xs.map f) = essence (ys.map f)) : xs.map key = ys.map key := by
  have hmap (xs : List α) : essence (xs.map f) = (xs.map key).map make := by
    induction xs with
    | nil => rfl
    | cons x xs ih => rw [List.map_cons, essence_cons, hf, ih]; rfl
  rw [hmap, hmap] at h
  exact (List.map_inj_right hmake).1 h

theorem essence_comments {body : List Stmt} (h : ∀ s ∈ body, s.isComment) : essence body = [] := by
  have hnone : withoutComments body = [] := List.filter_eq_nil_iff.2 fun s hs => by simp [h s hs]
  rw [essence_eq, hnone]
  rfl

/-- Code is not lost. -/
theorem essence_ne_nil {body : List Stmt} (h : body.any Stmt.isCode) : essence body ≠ [] := by
  obtain ⟨s, hs, hcode⟩ := List.any_eq_true.1 h
  have hkept : s ∈ withoutComments body := by
    refine List.mem_filter.2 ⟨hs, ?_⟩
    cases s <;> first | rfl | cases hcode
  rw [essence_eq]
  exact mt List.map_eq_nil_iff.1 (List.ne_nil_of_mem hkept)

end Block

namespace Handler

def alone (star : Bool) (h : Handler) : Stmt := .tryBlock .nowhere [] [h] [] [] star

def essence (h : Handler) : Handler := ⟨Shape.expr? h.type, h.name, Block.essence h.body⟩

theorem shape_mapHandlers (hs : List Handler) :
    Shape.handlers (Block.mapHandlers Block.withoutComments hs) = hs.map essence := by
  rw [Shape.handlers_eq_map, Stmt.mapHandlers_eq_map, List.map_map]
  exact List.map_congr_left fun h _ => by cases h; rfl

end Handler

theorem Block.essence_tryBlock (s : Span) (body : List Stmt) (handlers : List Handler)
    (orelse final : List Stmt) (star : Bool) :
    essence [.tryBlock s body handlers orelse final star] =
      [.tryBlock .nowhere (essence body) (handlers.map Handler.essence) (essence orelse)
        (essence final) star] := by
  rw [← Handler.shape_mapHandlers]
  rfl

/-- The final block holds code where it guards a body alone. -/
def Stmt.holdsFinal : Stmt → Bool
  | tryBlock _ _ handlers _ final _ => !handlers.isEmpty || final.any isCode
  | _ => true

namespace Block

/-- The final blocks among the statements, at any depth, that guard a body alone hold code. -/
def holdFinals (body : List Stmt) : Bool := body.all (Guard.deep Stmt.holdsFinal)

@[simp] theorem holdFinals_nil : holdFinals [] = true := rfl

@[simp] theorem holdFinals_append (a b : List Stmt) :
    holdFinals (a ++ b) = (holdFinals a && holdFinals b) := List.all_append

/-- A statement by itself and by its blocks. -/
theorem holdFinals_singleton (s : Stmt) :
    holdFinals [s] = (s.holdsFinal && s.blocks.all holdFinals) := by
  have hblocks (bodies : List (List Stmt)) :
      (bodies.flatMap fun body => insideOut body ++ [body]).all (·.all Stmt.holdsFinal) =
        bodies.all holdFinals := by
    simp only [List.all_flatMap, List.all_append, List.all_cons, List.all_nil, Bool.and_true,
      Guard.all_insideOut]
    rfl
  rw [holdFinals, List.all_cons, List.all_nil, Bool.and_true, Guard.deep,
    Stmt.blocksInsideOut_eq, hblocks]

theorem holdFinals_of_mem {s : Stmt} {body : List Stmt} (h : holdFinals [s])
    (hb : body ∈ s.blocks) :
    holdFinals body := by
  rw [holdFinals_singleton, Bool.and_eq_true, List.all_eq_true] at h
  exact h.2 body hb

end Block

end AsyncErasure
