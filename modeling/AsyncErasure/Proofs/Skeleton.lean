import AsyncErasure.Conversion
import AsyncErasure.Proofs.Renaming
import AsyncErasure.Proofs.Setter
import AsyncErasure.Proofs.Spacing
import AsyncErasure.Proofs.Tree.Shape
import Mathlib.Data.Option.Basic

namespace AsyncErasure

section Passes

variable {c : Convention}

theorem trimDocstring_eq (s : Stmt) : c.trimDocstring s = s ∨
    ∃ span t parts parts', s = .expr span (.str t parts) ∧
      c.trimDocstring s = .expr span (.str t parts') := by
  unfold Convention.trimDocstring
  split
  · split
    · exact .inr ⟨_, _, _, _, rfl, rfl⟩
    · exact .inl rfl
  · exact .inl rfl

/-- Only one statement changes, and that by its docstring. -/
theorem follows_trimDocstring (m : Module) :
    Follows (fun _ => False) (fun s t => t.head = s.head ∨ t.head = c.trimDocstring s.head) m.body
      (m.trimDocstring c).body := by
  unfold Module.trimDocstring
  generalize m.body = body
  let alike (s t : Stmt) : Prop := t.head = s.head ∨ t.head = c.trimDocstring s.head
  have hrefl (body : List Stmt) : Follows (fun _ => False) alike body body :=
    follows_refl (fun _ => .inl rfl) body
  have hsame (bs : List (List Stmt)) : FollowsAll (fun _ => False) alike bs bs := by
    have h : FollowsAll (fun _ => False) alike bs (bs.map id) :=
      followsAll_map fun body _ => hrefl body
    rwa [List.map_id] at h
  induction body with
  | nil => exact .nil
  | cons s body ih =>
    show Follows _ alike _ (Convention.onFirstCode c.trimDocstring (s :: body))
    unfold Convention.onFirstCode
    split
    · rcases trimDocstring_eq s with h | ⟨span, t, parts, parts', rfl, h⟩
      · rw [h]
        exact hrefl _
      · rw [h]
        exact .kept (.inr h.symm) .nil (hrefl body)
    · exact .kept (.inl rfl) (hsame s.blocks) ih

def Convention.IsThinned (c : Convention) (s : Stmt) : Prop := c.Hides s ∨ s.isComment

def Convention.IsTrimmed (c : Convention) (s t : Stmt) : Prop :=
  ¬c.Hides s ∧ t.head = c.trimImport s.head

theorem isThinned_of_swept {stmt : Stmt} {comments remarks : List Stmt} (hs : c.Hides stmt)
    (hcomments : ∀ s ∈ comments, Convention.standsOnLineOf stmt s)
    (hremarks : ∀ s ∈ remarks, Convention.isRemark s) :
    ∀ s ∈ comments ++ stmt :: remarks, c.IsThinned s := by
  intro s hmem
  rcases List.mem_append.1 hmem with hmem | hmem
  · have h := hcomments s hmem
    cases s <;> first | exact .inr rfl | cases h
  rcases List.mem_cons.1 hmem with rfl | hmem
  · exact .inl hs
  · have h := hremarks s hmem
    cases s <;> first | exact .inr rfl | cases h

mutual

theorem follows_of_thins {body body' : List Stmt} :
    c.Thins body body' → Follows c.IsThinned c.IsTrimmed body body'
  | .nil => .nil
  | .keep hs hinside h =>
    .kept ⟨hs, (heads_of_thinsInside hinside).1⟩ (heads_of_thinsInside hinside).2
      (follows_of_thins h)
  | .sweep hs hcomments hremarks h => by
    have hmid := Follows.remove (isThinned_of_swept hs hcomments hremarks) (follows_of_thins h)
    simpa using hmid

theorem heads_of_thinsInside {s t : Stmt} : c.ThinsInside s t →
    t.head = c.trimImport s.head ∧ FollowsAll c.IsThinned c.IsTrimmed s.blocks t.blocks
  | .plain h => by
    cases s <;> first | exact ⟨rfl, .nil⟩ | exact h.elim
  | .importShadow => by
    refine ⟨?_, .nil⟩
    simp [Stmt.head, Stmt.mapBlocks, Convention.trimImport, Convention.keptNames]
  | .importOther h => by
    refine ⟨?_, .nil⟩
    simp [Stmt.head, Stmt.mapBlocks, Convention.trimImport, Convention.keptNames, h]
  | .functionDef h | .classDef h | .withBlock h => ⟨rfl, .cons (follows_of_thins h) .nil⟩
  | .forLoop h h' | .whileLoop h h' | .branch h h' =>
    ⟨rfl, .cons (follows_of_thins h) (.cons (follows_of_thins h') .nil)⟩
  | .tryBlock hbody hhandlers horelse hfinal => by
    rcases heads_of_thinsHandlers hhandlers with ⟨heads, hbodies⟩
    refine ⟨?_, ?_⟩
    · simp [Stmt.head, Stmt.mapBlocks, Convention.trimImport, heads]
    · exact .cons (follows_of_thins hbody) (hbodies.append
        (.cons (follows_of_thins horelse) (.cons (follows_of_thins hfinal) .nil)))

theorem heads_of_thinsHandlers {hs hs' : List Handler} : c.ThinsHandlers hs hs' →
    Block.mapHandlers (fun _ => []) hs' = Block.mapHandlers (fun _ => []) hs ∧
      FollowsAll c.IsThinned c.IsTrimmed (hs.map Handler.body) (hs'.map Handler.body)
  | .nil => ⟨rfl, .nil⟩
  | .cons h hhandlers => by
    rcases heads_of_thinsHandlers hhandlers with ⟨heads, hbodies⟩
    refine ⟨?_, .cons (follows_of_thins h) hbodies⟩
    simp [Block.mapHandlers, Handler.mapBlocks, heads]

end

end Passes

def Expr.awaited : Expr → Expr
  | .await _ value => value.awaited
  | e => e

/-- The method that an expression calls with a single value, whatever is awaited on the way. -/
def Expr.setter? (e : Expr) : Option String :=
  match e.awaited with
  | .call _ func [value] [] =>
    match func.awaited with
    | .attr _ _ field => if value.awaited.isStarred then none else some field
    | _ => none
  | _ => none

namespace Convention

variable (c : Convention)

/-- The statement is a call of a method that the convention, after renaming, has as a setter. -/
def isSetterCall : Stmt → Bool
  | .expr _ e => (e.setter?.bind fun field => c.setters.lookup (c.rename field)).isSome
  | _ => false

/-- What conversion makes of a statement that stays: one at the same place and of the same kind, but
for asynchronous statements, which become their twins, and calls of setters, which become
assignments. -/
structure Becomes (s t : Stmt) : Prop where
  stays : ¬c.Hides s
  span_eq : t.span = s.span
  tag_eq : t.tag = if c.isSetterCall s then "Assign" else Json.twin s.tag

end Convention

section Heads

variable {c : Convention}

theorem erase_awaited (e : Expr) : e.awaited.subst .erasure = e.subst .erasure := by
  induction e using Expr.childInduction with
  | step e ih =>
    cases e with
    | await s value => exact ih value (by simp [Expr.children])
    | _ => rfl

theorem awaited_ne_await (e : Expr) (s : Span) (value : Expr) : e.awaited ≠ .await s value := by
  induction e using Expr.childInduction with
  | step e ih =>
    cases e with
    | await s value => exact ih value (by simp [Expr.children])
    | _ => simp [Expr.awaited]

/-- An expression once it is erased and renamed. -/
theorem isStarred_converted (e : Expr) :
    ((e.subst .erasure).subst c.substitution).isStarred = e.awaited.isStarred := by
  rw [← erase_awaited]
  cases h : e.awaited with
  | await s value => exact absurd h (awaited_ne_await e s value)
  | _ => rfl

theorem isSome_assignment?_call (s t : Span) (func value : Expr) :
    (Setter.assignment? c.setters (.expr s (.call t ((func.subst .erasure).subst c.substitution)
      [(value.subst .erasure).subst c.substitution] []))).isSome =
      ((match func.awaited with
        | .attr _ _ field => if value.awaited.isStarred then none else some field
        | _ => none).bind fun field => c.setters.lookup (c.rename field)).isSome := by
  rw [← erase_awaited func]
  cases h : func.awaited with
  | await s value => exact absurd h (awaited_ne_await func s value)
  | attr u object field =>
    simp only [Expr.subst, Setter.assignment?, isStarred_converted]
    split
    · rfl
    · rw [Option.isSome_map]
      rfl
  | _ => rfl

theorem assignment?_eq_none {setters : List (String × String)} {s t : Span} {func : Expr}
    {args : List Expr} {keywords : List Argument} (h : args.length ≠ 1 ∨ keywords ≠ []) :
    Setter.assignment? setters (.expr s (.call t func args keywords)) = none := by
  unfold Setter.assignment?
  split
  · rename_i heq
    cases heq
    simp at h
  · rfl

theorem isSome_assignment? (s : Span) (e : Expr) :
    (Setter.assignment? c.setters (.expr s ((e.subst .erasure).subst c.substitution))).isSome =
      c.isSetterCall (.expr s e) := by
  unfold Convention.isSetterCall Expr.setter?
  rw [← erase_awaited]
  cases h : e.awaited with
  | await s value => exact absurd h (awaited_ne_await e s value)
  | call t func args keywords =>
    simp only [h, Expr.subst]
    rcases args with _ | ⟨value, _ | ⟨other, args⟩⟩
    · rw [assignment?_eq_none (.inl (by simp [Substitution.exprs]))]
      rfl
    · cases keywords with
      | nil => exact isSome_assignment?_call s t func value
      | cons a as =>
        rw [assignment?_eq_none (.inr (by simp [Substitution.arguments]))]
        rfl
    · rw [assignment?_eq_none (.inl (by simp [Substitution.exprs]))]
      rfl
  | _ => simp only [h]; rfl

theorem tag_fix (setters : List (String × String)) (s : Stmt) : (Setter.fix setters s).tag =
    if (Setter.assignment? setters s).isSome then "Assign" else s.tag := by
  unfold Setter.fix
  cases h : Setter.assignment? setters s with
  | none => rfl
  | some t =>
    rcases Setter.assignment?_eq_some setters h with ⟨-, targets, value, rfl⟩
    rfl

theorem span_fix (setters : List (String × String)) (s : Stmt) :
    (Setter.fix setters s).span = s.span := by
  unfold Setter.fix
  cases h : Setter.assignment? setters s with
  | none => rfl
  | some t =>
    rcases Setter.assignment?_eq_some setters h with ⟨-, targets, value, rfl⟩
    rfl

theorem span_head (s : Stmt) : s.head.span = s.span := Stmt.span_mapBlocks _ s

theorem tag_mapBlocks (f : List Stmt → List Stmt) (s : Stmt) : (s.mapBlocks f).tag = s.tag := by
  cases s with
  | functionDef s mode => cases mode <;> rfl
  | forLoop s mode => cases mode <;> rfl
  | withBlock s mode => cases mode <;> rfl
  | _ => rfl

theorem hides_mapBlocks (f : List Stmt → List Stmt) (s : Stmt) :
    c.Hides (s.mapBlocks f) ↔ c.Hides s := by
  cases s <;> rfl

theorem isComment_mapBlocks (f : List Stmt → List Stmt) (s : Stmt) :
    (s.mapBlocks f).isComment = s.isComment := by
  cases s <;> rfl

theorem isSetterCall_mapBlocks (f : List Stmt → List Stmt) (s : Stmt) :
    c.isSetterCall (s.mapBlocks f) = c.isSetterCall s := by
  cases s <;> rfl

theorem hides_erase (s : Stmt) : c.Hides (s.subst .erasure) ↔ c.Hides s := by
  cases s with
  | importFrom s path names level =>
    simp [Stmt.subst, Convention.Hides, Alias.substName, Substitution.erasure]
  | _ => rfl

theorem isComment_erase (s : Stmt) : (s.subst .erasure).isComment = s.isComment := by
  cases s <;> rfl

def IsErased (c : Convention) (s t : Stmt) : Prop :=
  t.head = s.head.subst .erasure ∨ t.head = c.trimDocstring (s.head.subst .erasure)

namespace IsErased

variable {s t : Stmt}

/-- Trimming changes the parts of a string and nothing else. -/
theorem cases (h : IsErased c s t) : t.head = s.head.subst .erasure ∨
    ∃ span u parts parts', s.head.subst .erasure = .expr span (.str u parts) ∧
      t.head = .expr span (.str u parts') := by
  rcases h with h | h
  · exact .inl h
  rcases trimDocstring_eq (s.head.subst .erasure) with htrim | ⟨span, u, parts, parts', hs, htrim⟩
  · exact .inl (h.trans htrim)
  · exact .inr ⟨span, u, parts, parts', hs, h.trans htrim⟩

theorem span_eq (h : IsErased c s t) : t.span = s.span := by
  rw [← span_head t, ← span_head s, ← Dump.span_subst .erasure s.head]
  rcases h.cases with h | ⟨span, u, parts, parts', hs, ht⟩
  · rw [h]
  · rw [hs, ht]
    rfl

theorem tag_eq (h : IsErased c s t) : t.tag = Json.twin s.tag := by
  rw [← tag_mapBlocks (fun _ => []) t, ← tag_mapBlocks (fun _ => []) s,
    ← Dump.erase_tag (s.mapBlocks _)]
  rcases h.cases with h | ⟨span, u, parts, parts', hs, ht⟩
  · exact congrArg Stmt.tag h
  · exact (congrArg Stmt.tag ht).trans (congrArg Stmt.tag hs).symm

theorem hides_iff (h : IsErased c s t) : c.Hides t ↔ c.Hides s := by
  rw [← hides_mapBlocks (fun _ => []) t, ← hides_mapBlocks (fun _ => []) s,
    ← hides_erase (s.mapBlocks _)]
  rcases h.cases with h | ⟨span, u, parts, parts', hs, ht⟩
  · exact iff_of_eq (congrArg c.Hides h)
  · exact iff_of_eq ((congrArg c.Hides ht).trans (congrArg c.Hides hs).symm)

theorem isComment_eq (h : IsErased c s t) : t.isComment = s.isComment := by
  rw [← isComment_mapBlocks (fun _ => []) t, ← isComment_mapBlocks (fun _ => []) s,
    ← isComment_erase (s.mapBlocks _)]
  rcases h.cases with h | ⟨span, u, parts, parts', hs, ht⟩
  · exact congrArg Stmt.isComment h
  · exact (congrArg Stmt.isComment ht).trans (congrArg Stmt.isComment hs).symm

theorem isSome_assignment? (h : IsErased c s t) :
    (Setter.assignment? c.setters ((c.trimImport t.head).subst c.substitution)).isSome =
      c.isSetterCall s := by
  have hsame : (Setter.assignment? c.setters
      ((c.trimImport (s.head.subst .erasure)).subst c.substitution)).isSome = c.isSetterCall s := by
    cases s with
    | expr s e => exact AsyncErasure.isSome_assignment? s e
    | _ => rfl
  rw [← hsame]
  rcases h.cases with h | ⟨span, u, parts, parts', hs, ht⟩
  · rw [h]
  · rw [hs, ht]
    rfl

end IsErased

theorem tag_trimImport (s : Stmt) : (c.trimImport s).tag = s.tag := by
  cases s <;> rfl

theorem span_trimImport (s : Stmt) : (c.trimImport s).span = s.span := by
  cases s <;> rfl

theorem Convention.Becomes.of_steps {s t u v : Stmt} (herased : IsErased c s t)
    (htrimmed : c.IsTrimmed t u) (hfixed :
      v.head = Setter.fix c.setters (u.head.subst c.substitution)) :
    c.Becomes s v := by
  rw [htrimmed.2] at hfixed
  refine ⟨mt herased.hides_iff.2 htrimmed.1, ?_, ?_⟩
  · rw [← span_head v, hfixed, span_fix, Dump.span_subst, span_trimImport, span_head,
      herased.span_eq]
  · rw [← tag_mapBlocks (fun _ => []) v, ← Stmt.head, hfixed, tag_fix, herased.isSome_assignment?,
      Dump.stmt_tag_subst, tag_trimImport, Stmt.head, tag_mapBlocks, herased.tag_eq]

/-- What the passes make of a statement, one after the other. -/
theorem follows_passes (m : Module) :
    Follows c.IsThinned (fun s v => ∃ t u, IsErased c s t ∧ c.IsTrimmed t u ∧
      v.head = Setter.fix c.setters (u.head.subst c.substitution)) m.separate.body
        (m.convert c).body := by
  have herase := follows_subst .erasure m.separate.body
  have htrim := follows_trimDocstring (c := c) m.separate.erase
  have hdrop := follows_of_thins (Convention.thins_dropImports (c := c)
    (Convention.thinsInside_of_mem (m.separate.erase.trimDocstring c).body))
  have hrename := follows_subst c.substitution
    ((m.separate.erase.trimDocstring c).dropImports c).body
  have hfix := follows_fixSetters c.setters (m.separate.erase.rename c)
  have herased : Follows (fun _ => False) (IsErased c) m.separate.body
      (m.separate.erase.trimDocstring c).body := by
    refine Follows.trans (fun _ => id) (fun _ _ _ => id) (fun s t u hst htu => ?_) herase htrim
    unfold IsErased
    rwa [← hst]
  have hthinned : Follows c.IsThinned (fun s u => ∃ t, IsErased c s t ∧ c.IsTrimmed t u)
      m.separate.body ((m.separate.erase.trimDocstring c).dropImports c).body := by
    refine Follows.trans (fun _ => False.elim) (fun s t hst ht => ?_)
      (fun s t u hst htu => ⟨t, hst, htu⟩) herased hdrop
    unfold Convention.IsThinned at ht ⊢
    rwa [hst.hides_iff, hst.isComment_eq] at ht
  have hfixed : Follows (fun _ => False)
      (fun u v => v.head = Setter.fix c.setters (u.head.subst c.substitution))
      ((m.separate.erase.trimDocstring c).dropImports c).body (m.convert c).body := by
    refine Follows.trans (fun _ => id) (fun _ _ _ => id) (fun u t v hut htv => ?_) hrename hfix
    rwa [← hut]
  refine Follows.trans (fun _ => id) (fun _ _ _ => False.elim) ?_ hthinned hfixed
  rintro s u v ⟨t, hst, htu⟩ huv
  exact ⟨t, u, hst, htu, huv⟩

/-- The conversion of a module with its markers follows what has markers only. -/
theorem follows_convert (m : Module) :
    Follows c.IsThinned c.Becomes m.separate.body (m.convert c).body := by
  apply (follows_passes m).imp
  rintro s v ⟨t, u, hst, htu, huv⟩
  exact .of_steps hst htu huv

theorem isBlank_iff_tag (s : Stmt) : s.isBlank ↔ s.tag = "Blank" := by
  cases s with
  | functionDef s mode => cases mode <;> simp [Stmt.isBlank, Stmt.tag]
  | forLoop s mode => cases mode <;> simp [Stmt.isBlank, Stmt.tag]
  | withBlock s mode => cases mode <;> simp [Stmt.isBlank, Stmt.tag]
  | _ => simp [Stmt.isBlank, Stmt.tag]

theorem isBlank_of_becomes {s t : Stmt} (h : c.Becomes s t) : s.isBlank = t.isBlank := by
  have htwin : Json.twin s.tag = "Blank" ↔ s.tag = "Blank" := by
    unfold Json.twin
    grind
  rw [Bool.eq_iff_iff, isBlank_iff_tag t, h.tag_eq]
  split
  · rename_i hsetter
    cases s <;> simp [Convention.isSetterCall] at hsetter
    simp [Stmt.isBlank]
  · rw [htwin]
    exact isBlank_iff_tag s

theorem Convention.Becomes.unmark {s t : Stmt} (h : c.Becomes s t) :
    c.Becomes (s.mapBlocks Spacing.withoutMarkers) (t.mapBlocks Spacing.withoutMarkers) := by
  refine ⟨mt (hides_mapBlocks _ s).1 h.stays, ?_, ?_⟩
  · rw [Stmt.span_mapBlocks, Stmt.span_mapBlocks, h.span_eq]
  · rw [tag_mapBlocks, tag_mapBlocks, isSetterCall_mapBlocks, h.tag_eq]

theorem Convention.IsThinned.unmark {s : Stmt} (h : c.IsThinned s) :
    c.IsThinned (s.mapBlocks Spacing.withoutMarkers) := by
  unfold Convention.IsThinned
  rwa [hides_mapBlocks, isComment_mapBlocks]

end Heads

/-- Conversion keeps the skeleton of a module. With the blank markers taken out again every block
follows the block it came from: what is missing hides a builtin or is a comment, and what is left
stands in its order and its place, of its own kind or that of its twin, unless it became an
assignment. -/
theorem Module.convert_follows (c : Convention) {m : Module}
    (h : ∀ s ∈ m.statements, s.isBlank = false) :
    Follows c.IsThinned c.Becomes m.body (m.convert c).unmarked.body := by
  have hunmarked : Spacing.unmark m.separate.body = m.body := by
    have hall : m.statements.all fun s => !s.isBlank := by simpa using h
    rw [Guard.all_statements] at hall
    exact (Spacing.unmark_separate m.body).trans (Spacing.unmark_eq_self hall)
  rw [← hunmarked]
  exact (follows_convert m).unmark (fun _ => .unmark) (fun _ _ => isBlank_of_becomes)
    fun _ _ => .unmark

def Module.session : Module :=
  let named (id : String) : Expr := .name .nowhere id
  ⟨[.comment ⟨⟨1, 0⟩, ⟨1, 3⟩⟩ "# db" false,
    .functionDef ⟨⟨3, 0⟩, ⟨8, 9⟩⟩ .async "open" ⟨[], [], none, [], none⟩ none []
      [.importFrom ⟨⟨4, 4⟩, ⟨4, 27⟩⟩ (some "utils") [⟨"alist", none⟩] 0,
        .comment ⟨⟨4, 29⟩, ⟨4, 32⟩⟩ "# no" true,
        .withBlock ⟨⟨6, 4⟩, ⟨8, 9⟩⟩ .async [⟨named "c", none⟩]
          [.expr ⟨⟨7, 8⟩, ⟨7, 40⟩⟩ (.await .nowhere (.call .nowhere
            (.attr .nowhere (named "c") "set_autocommit") [.constant .nowhere .true] []))]]]⟩

theorem Module.convert_follows_session : (∀ s ∈ Module.session.statements, s.isBlank = false) ∧
    Follows (Convention.IsThinned .standard) (Convention.Becomes .standard) Module.session.body
      (Module.session.convert .standard).unmarked.body :=
  ⟨by decide +kernel, Module.convert_follows .standard (by decide +kernel)⟩

end AsyncErasure
