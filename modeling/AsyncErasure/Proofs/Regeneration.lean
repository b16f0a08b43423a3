import AsyncErasure.Proofs.Docstring
import AsyncErasure.Proofs.Render.Banner
import AsyncErasure.Proofs.Render.Shape
import AsyncErasure.Proofs.Renaming.FormatString
import AsyncErasure.Proofs.Skeleton
import AsyncErasure.Proofs.Source
import AsyncErasure.Proofs.Synchrony
import AsyncErasure.Proofs.Tree.Change
import AsyncErasure.Proofs.Tree.Substitution
import AsyncErasure.Proofs.Tree.Tidy

namespace AsyncErasure

variable {c : Convention} {m : Module}

namespace Guard

theorem children_shape (s : Stmt) : s.shape.children = s.children.map Stmt.shape := by
  cases s with
  | tryBlock s body handlers orelse final star =>
    have hhandlers : (Shape.handlers handlers).flatMap Handler.body =
        (handlers.flatMap Handler.body).map Stmt.shape := by
      induction handlers with
      | nil => rfl
      | cons h hs ih =>
        rcases h with ⟨type, name, body⟩
        rw [Shape.handlers, List.flatMap_cons, ih, List.flatMap_cons, List.map_append,
          Handler.shape, Shape.stmts_eq_map]
    simp [Stmt.shape, Stmt.children, Shape.stmts_eq_map, hhandlers]
  | _ => simp [Stmt.shape, Stmt.children, Shape.stmts_eq_map]

theorem deep_shape {p : Stmt → Bool} (hp : ∀ s, p s.shape = p s) (s : Stmt) :
    deep p s.shape = deep p s := by
  induction s using Stmt.childInduction with
  | step s ih =>
    rw [all_children, all_children s, hp, children_shape, List.all_map, Bool.eq_iff_iff]
    simp only [Bool.and_eq_true, List.all_eq_true, Function.comp_apply]
    exact and_congr_right fun _ => forall₂_congr fun x hx => by rw [ih x hx]

mutual

/-- A check holds of every statement of a block if it holds of whatever may follow. -/
theorem all_of_follows {gone : Stmt → Prop} {alike : Stmt → Stmt → Prop} {p : Stmt → Bool}
    (h : ∀ s t, alike s t → p t) {a b : List Stmt} : Follows gone alike a b → b.all (deep p)
  | .nil => rfl
  | .gone _ hab => all_of_follows h hab
  | .kept (t := t) hst hblocks hab => by
    rw [List.all_cons, all_children, Stmt.children_eq_flatten, List.all_flatten,
      all_of_followsAll h hblocks, all_of_follows h hab, h _ t hst]
    rfl

theorem all_of_followsAll {gone : Stmt → Prop} {alike : Stmt → Stmt → Prop} {p : Stmt → Bool}
    (h : ∀ s t, alike s t → p t) {as bs : List (List Stmt)} :
    FollowsAll gone alike as bs → bs.all (·.all (deep p))
  | .nil => rfl
  | .cons hbody hab => by
    rw [List.all_cons, all_of_follows h hbody, all_of_followsAll h hab]
    rfl

end

end Guard

namespace Convention

def keeps (c : Convention) : Stmt → Bool
  | .importFrom _ path names _ =>
    path != some c.shadowModule || !names.isEmpty && names.all fun a => !c.shadowed.contains a.name
  | _ => true

theorem keeps_shape (s : Stmt) : c.keeps s.shape = c.keeps s := by
  cases s <;> rfl

theorem keeps_mapBlocks (f : List Stmt → List Stmt) (s : Stmt) :
    c.keeps (s.mapBlocks f) = c.keeps s := by
  cases s <;> rfl

theorem dropImports_of_keeps {body : List Stmt} (h : body.all c.keeps) :
    c.dropImports body = body := by
  have hone {s : Stmt} (hs : c.keeps s) : c.drops s = false ∧ c.trimImport s = s := by
    cases s with
    | importFrom s path names level =>
      by_cases hpath : path = some c.shadowModule
      · subst hpath
        simp only [keeps, bne_self_eq_false, Bool.false_or, Bool.and_eq_true,
          List.all_eq_true] at hs
        have hnames : c.keptNames (some c.shadowModule) names = names := by
          rw [keptNames, if_pos rfl, List.filter_eq_self]
          exact hs.2
        simp only [drops, trimImport, hnames, Bool.and_eq_false_iff]
        exact ⟨.inr (by simpa using hs.1), trivial⟩
      · simp [drops, trimImport, keptNames, hpath]
    | _ => exact ⟨rfl, rfl⟩
  suffices hall : ∀ kept, c.dropImportsFrom kept false body = kept.reverse ++ body from hall []
  induction body with
  | nil => simp [dropImportsFrom]
  | cons s ss ih =>
    rw [List.all_cons, Bool.and_eq_true] at h
    intro kept
    rw [dropImportsFrom, Bool.false_and, if_neg Bool.false_ne_true, (hone h.1).1,
      if_neg Bool.false_ne_true, (hone h.1).2, ih h.2, List.reverse_cons, List.append_assoc]
    rfl

theorem keeps_fix (setters : List (String × String)) (s : Stmt) :
    c.keeps (Setter.fix setters s) = c.keeps s := by
  unfold Setter.fix
  cases h : Setter.assignment? setters s with
  | none => rfl
  | some t =>
    rcases Setter.assignment?_eq_some setters h with ⟨⟨e, hs⟩, targets, value, rfl⟩
    rw [hs]
    rfl

/-- No name is shadowed once it is renamed. -/
theorem IsStable.rename_notMem_shadowed (h : c.IsStable) (name : String) :
    c.rename name ∉ c.shadowed := fun hmem =>
  h.shadowed _ hmem (h.rename_rename name)

theorem IsStable.keeps_trimImport (h : c.IsStable) {s : Stmt} (hs : ¬c.Hides s) :
    c.keeps ((c.trimImport s).subst c.substitution) := by
  cases s with
  | importFrom s path names level =>
    by_cases hpath : path = some c.shadowModule
    · have hkept : (c.keptNames path names).isEmpty = false := by
        rw [hides_iff_drops] at hs
        simpa [drops, hpath] using hs
      have hall (a : Alias) : !c.shadowed.contains (a.substName c.substitution).name := by
        have hname := h.rename_notMem_shadowed a.name
        rw [Bool.not_eq_true', ← Bool.not_eq_true, List.contains_iff_mem]
        exact hname
      simp only [trimImport, Stmt.subst, keeps, List.isEmpty_map, hkept, List.all_map]
      exact Bool.or_eq_true_iff.2 (.inr (List.all_eq_true.2 fun a _ => hall a))
    · simp [trimImport, Stmt.subst, keeps, hpath]
  | _ => rfl

end Convention

/-- What the passes leave of an import has no shadowed name, whatever it is renamed to. -/
theorem keeps_convert (h : c.IsStable) : (m.convert c).body.all (Guard.deep c.keeps) := by
  apply Guard.all_of_follows ?_ (follows_passes m)
  rintro s v ⟨t, u, -, ⟨hstays, hu⟩, hv⟩
  rw [← Convention.keeps_mapBlocks (fun _ => []), ← Stmt.head, hv, Convention.keeps_fix, hu]
  exact h.keeps_trimImport (mt (hides_mapBlocks _ t).1 hstays)

section Passes

open Substitution

/-- An `await` around an operand that is already erased is gone, before renaming or behind it. -/
def Substitution.converting (c : Convention) : Substitution :=
  ⟨c.rename, c.renameLiteral, fun _ => .sync, fun _ e => e⟩

theorem erase_subst_comm (m : Module) :
    (m.subst c.substitution).erase = m.erase.subst c.substitution := by
  have hfirst : Makes c.substitution .erasure (.converting c) :=
    ⟨fun _ => rfl, fun _ => rfl, fun _ => rfl, fun _ _ => rfl⟩
  have hlast : Makes .erasure c.substitution (.converting c) :=
    ⟨fun _ => rfl, fun _ => rfl, fun _ => rfl, fun _ _ => rfl⟩
  exact (hfirst.module m).trans (hlast.module m).symm

theorem stmts_eq_self_iff {r : Substitution} {body : List Stmt} :
    stmts r body = body ↔ ∀ s ∈ body, s.subst r = s := by
  induction body with
  | nil => simp [stmts]
  | cons s ss ih => simp [stmts, ih]

theorem erase_trimDocstring (h : m.erase = m) : (m.trimDocstring c).erase = m.trimDocstring c := by
  have htrim {s : Stmt} (hs : s.subst .erasure = s) :
      (c.trimDocstring s).subst .erasure = c.trimDocstring s := by
    rcases trimDocstring_eq s with heq | ⟨span, t, parts, parts', rfl, heq⟩
    · rw [heq, hs]
    · rw [heq]
      simp [Stmt.subst, Expr.subst, Substitution.erasure]
  have hbody : ∀ s ∈ m.body, s.subst .erasure = s := stmts_eq_self_iff.1 (congrArg Module.body h)
  suffices hall : ∀ s ∈ Convention.onFirstCode c.trimDocstring m.body, s.subst .erasure = s from
    congrArg Module.mk (stmts_eq_self_iff.2 hall)
  generalize m.body = body at hbody
  induction body with
  | nil => exact List.forall_mem_nil _
  | cons s ss ih =>
    rw [List.forall_mem_cons] at hbody
    rw [Convention.onFirstCode]
    split
    · exact List.forall_mem_cons.2 ⟨htrim hbody.1, hbody.2⟩
    · exact List.forall_mem_cons.2 ⟨hbody.1, ih hbody.2⟩

theorem mem_dropImports {body : List Stmt} {t : Stmt} (h : t ∈ c.dropImports body) :
    ∃ s ∈ body, c.trimImport s = t := by
  obtain ⟨left, hdrop, hleft, -⟩ := Convention.exists_sweeps (c := c) [] false body (by simp)
  rw [Convention.dropImports, ← List.map_nil, hdrop] at h
  obtain ⟨s, hs, rfl⟩ := List.mem_map.1 h
  exact ⟨s, hleft hs, rfl⟩

theorem erase_dropImports (h : m.erase = m) : (m.dropImports c).erase = m.dropImports c := by
  have htrim {s : Stmt} (hs : s.subst .erasure = s) :
      (c.trimImport s).subst .erasure = c.trimImport s := by
    cases s with
    | importFrom => simp [Convention.trimImport, Stmt.subst, Synchrony.substName_erasure]
    | _ => exact hs
  refine fixes_module_mapBlocks (fun body hbody => stmts_eq_self_iff.2 fun t ht => ?_) h
  obtain ⟨s, hs, rfl⟩ := mem_dropImports ht
  exact htrim (stmts_eq_self_iff.1 hbody s hs)

/-- Setters keep a module that a substitution leaves alone, if it leaves the attributes alone. -/
theorem subst_fixSetters {r : Substitution} {setters : List (String × String)}
    (hr : ∀ p ∈ setters, r.name p.2 = p.2) (h : m.subst r = m) :
    (m.fixSetters setters).subst r = m.fixSetters setters := by
  have hfix {s : Stmt} (hs : s.subst r = s) :
      (Setter.fix setters s).subst r = Setter.fix setters s := by
    unfold Setter.fix
    cases hassign : Setter.assignment? setters s with
    | none => exact hs
    | some t =>
      unfold Setter.assignment? at hassign
      split at hassign
      · split at hassign
        · cases hassign
        · obtain ⟨property, hlookup, rfl⟩ := Option.map_eq_some_iff.1 hassign
          obtain ⟨before, after, hall, -⟩ := List.lookup_eq_some_iff.1 hlookup
          have hname : r.name property = property :=
            hr (_, property) (hall ▸ List.mem_append_right _ (List.mem_cons_self ..))
          simp only [Stmt.subst, Expr.subst, exprs, arguments, Stmt.expr.injEq, Expr.call.injEq,
            Expr.attr.injEq, List.cons.injEq] at hs
          simp [Stmt.subst, Expr.subst, exprs, hname, hs]
      · cases hassign
  refine fixes_module_mapBlocks (fun body hbody => stmts_eq_self_iff.2 fun t ht => ?_) h
  obtain ⟨s, hs, rfl⟩ := List.mem_map.1 ht
  exact hfix (stmts_eq_self_iff.1 hbody s hs)

/-- Nothing asynchronous is left in a converted module. -/
theorem erase_convert (m : Module) : (m.convert c).erase = m.convert c := by
  have herased : m.separate.erase.erase = m.separate.erase :=
    (Module.erase_eq_self_iff _).2 m.separate.erase_isSync
  refine subst_fixSetters (fun _ _ => rfl) ?_
  show (((m.separate.erase.trimDocstring c).dropImports c).subst c.substitution).erase = _
  rw [erase_subst_comm, erase_dropImports (erase_trimDocstring herased)]
  rfl

/-- Every name of a converted module has gone through the renames. -/
theorem subst_convert (h : c.IsStable) (m : Module) :
    (m.convert c).subst c.substitution = m.convert c := by
  have hliteral (text : String) : c.substitution.literal (c.substitution.literal text) =
      c.substitution.literal text := by
    rw [Dump.substitution_literal, h.renameLiteral_renameLiteral]
  have htwice : Makes c.substitution c.substitution c.substitution :=
    ⟨h.rename_rename, hliteral, fun _ => rfl, fun _ _ => rfl⟩
  exact subst_fixSetters h.setters (htwice.module _)

end Passes

section Docstring

theorem replaceFrom_of_not_infix {pattern replacement cs : List Char} (h : ¬pattern <:+: cs) :
    Literal.replaceFrom pattern replacement 0 cs = cs := by
  induction cs with
  | nil => rfl
  | cons d ds ih =>
    have hfirst : ¬pattern.isPrefixOf (d :: ds) := fun hpre =>
      h (List.isPrefixOf_iff_prefix.1 hpre).isInfix
    rw [Literal.replaceFrom, if_neg hfirst, ih fun hin =>
      h (hin.trans (List.suffix_cons d ds).isInfix)]

/-- A pattern that does not occur is not replaced. -/
theorem replaceIn_of_not_infix {pattern replacement text : String}
    (h : ¬pattern.toList <:+: text.toList) : Literal.replaceIn pattern replacement text = text := by
  have hsplit := Literal.split_append text.toList
  have hne : pattern.toList.isEmpty = false := by
    cases hp : pattern.toList with
    | nil => exact absurd (hp ▸ List.nil_infix) h
    | cons => rfl
  have hquoted : ¬pattern.toList <:+: (Literal.split text.toList).2 := fun hin =>
    h (hsplit ▸ hin.trans (List.suffix_append _ _).isInfix)
  rw [Literal.replaceIn, Literal.replaceText, Literal.replaceAll, if_neg (by simp [hne]),
    replaceFrom_of_not_infix hquoted, hsplit, String.ofList_toList]

def Module.LacksMarker (c : Convention) (m : Module) : Prop :=
  ∀ parts, m.docstring? = some parts → (∀ part ∈ parts, Literal.isPlain part.toList) →
    ∀ part ∈ parts, ¬c.docstringMarker.toList <:+: part.toList

theorem Module.LacksMarker.trimDocstring_eq (h : m.LacksMarker c) : m.trimDocstring c = m := by
  have hfirst : ∀ s, m.body.find? Stmt.isCode = some s → c.trimDocstring s = s := by
    intro s hs
    unfold Convention.trimDocstring
    split
    · rename_i span t parts
      split
      · rename_i hplain
        have hparts : m.docstring? = some parts := by rw [docstring?, hs]
        have hsame : parts.map (Literal.replaceIn c.docstringMarker "") = parts := by
          refine (List.map_congr_left fun part hpart => ?_).trans (List.map_id parts)
          exact replaceIn_of_not_infix (h parts hparts (List.all_eq_true.1 hplain) part hpart)
        rw [hsame]
      · rfl
    · rfl
  suffices hall : ∀ body : List Stmt,
      (∀ s, body.find? Stmt.isCode = some s → c.trimDocstring s = s) →
      Convention.onFirstCode c.trimDocstring body = body from
    congrArg Module.mk (hall m.body hfirst)
  intro body hbody
  induction body with
  | nil => rfl
  | cons s ss ih =>
    rw [Convention.onFirstCode]
    split
    · rename_i hs
      rw [hbody s (List.find?_cons_of_pos hs)]
    · rename_i hs
      rw [ih fun t ht => hbody t (by rwa [List.find?_cons_of_neg hs])]

theorem docstring?_shape (m : Module) : m.shape.docstring? = m.docstring? := by
  have hfind : m.shape.body.find? Stmt.isCode = (m.body.find? Stmt.isCode).map Stmt.shape := by
    rw [Module.shape, Shape.stmts_eq_map, List.find?_map]
    congr 2
    exact funext Render.isCode_shape
  unfold Module.docstring?
  rw [hfind]
  cases m.body.find? Stmt.isCode with
  | none => rfl
  | some s =>
    cases s with
    | expr s e => cases e <;> rfl
    | _ => rfl

end Docstring

/-- A module that no pass of the conversion has anything to do in. -/
structure Module.IsConverted (c : Convention) (m : Module) : Prop where
  erase : m.erase = m
  docstring : m.LacksMarker c
  imports : m.body.all (Guard.deep c.keeps)
  names : m.subst c.substitution = m
  setters : m.fixSetters c.setters = m

namespace Module

theorem isConverted_convert (h : c.IsStable) (hd : (m.convert c).LacksMarker c) :
    (m.convert c).IsConverted c :=
  ⟨erase_convert m, hd, keeps_convert h, subst_convert h m, fixSetters_fixSetters _ _⟩

namespace IsConverted

/-- So is the module below some comments. -/
theorem below (h : m.IsConverted c) (texts : List String) :
    IsConverted c ⟨Grammar.notes texts ++ m.body⟩ := by
  have hnote : ∀ s ∈ Grammar.notes texts, ∃ text, s = .comment .nowhere text false := by
    intro s hs
    obtain ⟨text, -, rfl⟩ := List.mem_map.1 hs
    exact ⟨text, rfl⟩
  have hsubst {r : Substitution} (hr : m.subst r = m) :
      Module.subst r ⟨Grammar.notes texts ++ m.body⟩ = ⟨Grammar.notes texts ++ m.body⟩ := by
    refine congrArg Module.mk (stmts_eq_self_iff.2 fun s hs => ?_)
    obtain hs | hs := List.mem_append.1 hs
    · obtain ⟨text, rfl⟩ := hnote s hs
      rfl
    · exact stmts_eq_self_iff.1 (congrArg Module.body hr) s hs
  have hcode : (Grammar.notes texts ++ m.body).find? Stmt.isCode = m.body.find? Stmt.isCode := by
    rw [List.find?_append, List.find?_eq_none.2, Option.none_or]
    intro s hs
    obtain ⟨text, rfl⟩ := hnote s hs
    exact Bool.false_ne_true
  refine ⟨hsubst h.erase, ?_, ?_, hsubst h.names, ?_⟩
  · unfold LacksMarker docstring?
    rw [hcode]
    exact h.docstring
  · rw [List.all_append, h.imports, Bool.and_true, List.all_eq_true]
    intro s hs
    obtain ⟨text, rfl⟩ := hnote s hs
    rfl
  · have hnotes : (Grammar.notes texts).map (Setter.fix c.setters ∘
        Stmt.mapBlocks (List.map (Setter.fix c.setters))) = Grammar.notes texts := by
      refine (List.map_congr_left fun s hs => ?_).trans (List.map_id _)
      obtain ⟨text, rfl⟩ := hnote s hs
      rfl
    have hbody : m.body.map (Setter.fix c.setters ∘
        Stmt.mapBlocks (List.map (Setter.fix c.setters))) = m.body := by
      have hsame : (Block.mapInside (List.map (Setter.fix c.setters)) m.body).map
          (Setter.fix c.setters) = m.body := congrArg Module.body h.setters
      rwa [Block.mapInside_eq_map, List.map_map] at hsame
    rw [fixSetters, mapBlocks, Block.mapInside_eq_map, List.map_map, List.map_append, hnotes, hbody]

/-- Whether a statement calls a setter does not depend on spans. -/
theorem shape_fix (setters : List (String × String)) (s : Stmt) :
    (Setter.fix setters s).shape = Setter.fix setters s.shape := by
  have hstarred (e : Expr) : e.shape.isStarred = e.isStarred := by cases e <;> rfl
  cases s with
  | expr s e =>
    cases e with
    | call t func args keywords =>
      cases func with
      | attr u object field =>
        rcases args with _ | ⟨value, _ | ⟨other, args⟩⟩
        · rfl
        · cases keywords with
          | nil =>
            simp only [Setter.fix, Setter.assignment?, Stmt.shape, Expr.shape, Shape.exprs,
              Shape.arguments, hstarred]
            split
            · rfl
            · cases setters.lookup field <;> rfl
          | cons => rfl
        · rfl
      | _ => rfl
    | _ => rfl
  | _ => rfl

theorem shape_fixSetters (setters : List (String × String)) (m : Module) :
    (m.fixSetters setters).shape = m.shape.fixSetters setters := by
  refine Shape.module_mapBlocks (fun body => ?_) m
  rw [Shape.stmts_eq_map, Shape.stmts_eq_map, List.map_map, List.map_map]
  exact List.map_congr_left fun s _ => shape_fix setters s

/-- Conversion does nothing to a module of that shape but separate it. -/
theorem shape_convert {d : Module} (h : d.IsConverted c) (hm : m.separate.shape = d.shape) :
    (m.convert c).shape = d.shape := by
  have herase : m.separate.erase = m.separate := by
    rw [erase_eq_self_iff, ← isSync_shape, hm, isSync_shape, ← erase_eq_self_iff]
    exact h.erase
  have hmarker : m.separate.LacksMarker c := by
    unfold LacksMarker
    rw [← docstring?_shape, hm, docstring?_shape]
    exact h.docstring
  have hkeeps : m.separate.body.all (Guard.deep c.keeps) := by
    have hshape (m : Module) : m.shape.body.all (Guard.deep c.keeps) =
        m.body.all (Guard.deep c.keeps) := by
      rw [Module.shape, Shape.stmts_eq_map, List.all_map]
      exact congrArg m.body.all (funext (Guard.deep_shape Convention.keeps_shape))
    rw [← hshape, hm, hshape]
    exact h.imports
  have hdrop : m.separate.dropImports c = m.separate :=
    congrArg Module.mk (Guard.mapInside_eq_self (fun _ => Convention.dropImports_of_keeps) hkeeps)
  have hshaped : c.substitution.IsShaped := fun _ _ => rfl
  rw [convert, herase, rename, hmarker.trimDocstring_eq, hdrop, shape_fixSetters,
    hshaped.module, hm, ← hshaped.module, h.names, ← shape_fixSetters, h.setters]

end IsConverted

section Generated

open Spacing

/-- A converted module that no statement was taken from loses no marker on the way through its
text. -/
theorem tidy_convert {source : String} (hm : Module.parse source = .ok m)
    (hkept : (m.separate.erase.rename c).statements.length = m.separate.erase.statements.length) :
    Tidy false false (m.convert c).body := by
  have htidy : Tidy false false m.separate.body := tidy_of_unmarked (unmarked_of_parse hm)
  have hsize : Block.size m.separate.body = Block.size (m.convert c).body :=
    calc Block.size m.separate.body
      _ = Block.size m.separate.erase.body := (follows_subst .erasure m.separate.body).size_eq.symm
      _ = Block.size (m.separate.erase.rename c).body := hkept.symm
      _ = Block.size (m.convert c).body :=
        (follows_fixSetters c.setters (m.separate.erase.rename c)).size_eq.symm
  exact htidy.follows (fun _ _ => isBlank_of_becomes) ((follows_convert m).complete hsize.le)

theorem beginsSolid_of_tidy {body : List Stmt} (h : Tidy false false body) :
    Module.BeginsSolid ⟨body⟩ := by
  intro s hs
  cases h with
  | nil => cases hs
  | stmt hblank =>
    obtain rfl := Option.some.inj hs
    exact hblank

theorem tidy_below {body : List Stmt} (h : Tidy false false body) (texts : List String) :
    Tidy false false (Grammar.notes texts ++ body) := by
  cases texts with
  | nil => exact h
  | cons text texts =>
    refine .stmt rfl .nil ?_
    induction texts with
    | nil => exact h.behind
    | cons text texts ih => exact .stmt rfl .nil ih

/-- Nor is anything asynchronous in what is read of a module without it. -/
theorem isSync_of_restoresAll {ss body : List Stmt} (h : Grammar.RestoresAll ss body)
    (hs : Module.erase ⟨ss⟩ = ⟨ss⟩) : Module.IsSync ⟨body⟩ := by
  have hshape : Module.shape ⟨body⟩ = (Module.unmarked ⟨ss⟩).shape :=
    congrArg Module.mk (h.shape.trans (Grammar.shape_block ss).symm)
  rw [← isSync_shape, hshape, isSync_shape, ← erase_eq_self_iff]
  refine Substitution.fixes_module_mapBlocks (fun body hbody => ?_) hs
  rw [stmts_eq_self_iff] at hbody ⊢
  exact fun s hs => hbody s (List.mem_filter.1 hs).1

/-- A generated file is read, is synchronous, and is generated from itself. -/
theorem parse_renderFile_convert {source path tool : String} (hm : Module.parse source = .ok m)
    (hpath : '\n' ∉ path.toList) (htool : '\n' ∉ tool.toList)
    (hw : (m.convert .standard).WellFormed)
    (hkept : (m.separate.erase.rename .standard).statements.length =
      m.separate.erase.statements.length)
    (hd : (m.convert .standard).LacksMarker .standard) :
    ∃ m', Module.parse ((m.convert .standard).renderFile path tool) = .ok m' ∧ m'.IsSync ∧
      ∃ n, (m.convert .standard).renderFile path tool =
        (m'.convert .standard).render.pushn '\n' n := by
  have htidy := tidy_convert hm hkept
  have hsolid := beginsSolid_of_tidy htidy
  obtain ⟨body, hbody, hall⟩ := parse_renderFile hw hsolid hpath htool
  obtain ⟨n, hn⟩ := renderFile_eq hw hsolid hpath htool
  have hconverted := (isConverted_convert Convention.isStable_standard hd).below
    (bannerLines tool (shownName path))
  have hseparate : (Module.separate ⟨body⟩).shape =
      Module.shape ⟨Grammar.notes (bannerLines tool (shownName path)) ++
        (m.convert .standard).body⟩ :=
    congrArg Module.mk (hall.spacing.trans (tidy_below htidy _).settled_eq)
  refine ⟨⟨body⟩, hbody, ?_, n, ?_⟩
  · exact isSync_of_restoresAll hall hconverted.erase
  · rw [hn, ← render_shape, ← hconverted.shape_convert hseparate, render_shape]

def pool : String :=
  "'The AsyncPool.'\n\nasync def run(aconn):  # once\n    await aconn.set_autocommit(True)\n\n    x\n"

theorem parse_renderFile_convert_pool : ∃ m m', Module.parse pool = .ok m ∧
    Module.parse ((m.convert .standard).renderFile "src/pool.py" "erase") = .ok m' ∧ m'.IsSync ∧
      ∃ n, (m.convert .standard).renderFile "src/pool.py" "erase" =
        (m'.convert .standard).render.pushn '\n' n := by
  have h : (Module.parse pool).toOption.any fun m =>
      decide (m.convert .standard).WellFormed &&
        (m.separate.erase.rename .standard).statements.length ==
          m.separate.erase.statements.length &&
        (m.convert .standard).docstring? == some ["'The Pool.'"] := by decide +kernel
  obtain ⟨m, hm, h⟩ := parse_of_any h
  simp only [Bool.and_eq_true, decide_eq_true_eq, beq_iff_eq] at h
  have hd : (m.convert .standard).LacksMarker .standard := by
    intro parts hparts
    obtain rfl := Option.some.inj (h.2.symm.trans hparts)
    exact fun _ => by decide
  obtain ⟨m', hm', hrest⟩ := parse_renderFile_convert hm (by decide : '\n' ∉ "src/pool.py".toList)
    (by decide : '\n' ∉ "erase".toList) h.1.1 h.1.2 hd
  exact ⟨m, m', hm, hm', hrest⟩

end Generated

end Module

end AsyncErasure
