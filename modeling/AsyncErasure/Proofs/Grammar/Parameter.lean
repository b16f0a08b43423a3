import AsyncErasure.Grammar.Module
import AsyncErasure.Proofs.Grammar.Cursor
import AsyncErasure.Proofs.Tree.Leaf
import Mathlib.Algebra.Order.Group.Multiset
import Mathlib.Tactic.MkIffOfInductiveProp

namespace AsyncErasure

theorem Parameters.coe_all (p : Parameters) : (p.all : Multiset Param) =
    p.posonly + p.args + p.vararg.toList + p.kwonly + p.kwarg.toList := by
  simp only [all, ← Multiset.coe_add]

namespace Grammar

open Rule
open scoped List

namespace ParamItem

def param? : ParamItem → Option Param
  | slash | star none => none
  | star (some p) | doubleStar p | plain p => some p

def isSlash : ParamItem → Bool
  | slash => true
  | _ => false

def isVararg : ParamItem → Bool
  | star (some _) => true
  | _ => false

def isKwarg : ParamItem → Bool
  | doubleStar _ => true
  | _ => false

/-- No argument in front of the first star stands before two slashes. -/
def slashesOnce : List ParamItem → Bool
  | [] | star _ :: _ => true
  | plain _ :: items => items.countP isSlash ≤ 1 && slashesOnce items
  | _ :: items => slashesOnce items

/-- No item takes the place of an earlier one. -/
def keepAll (items : List ParamItem) : Bool :=
  items.countP isVararg ≤ 1 && items.countP isKwarg ≤ 1 && slashesOnce items

/-- At most one slash, one starred and one doubly starred parameter. -/
def areSingle (items : List ParamItem) : Bool :=
  items.countP isSlash ≤ 1 && items.countP isVararg ≤ 1 && items.countP isKwarg ≤ 1

variable {item : ParamItem} {items : List ParamItem}

theorem slashesOnce_of_countP (h : items.countP isSlash ≤ 1) : slashesOnce items := by
  induction items with
  | nil => rfl
  | cons item items ih =>
    have hle : items.countP isSlash ≤ 1 := ((List.sublist_cons_self item items).countP_le).trans h
    cases item with
    | star vararg => rfl
    | plain p => exact Bool.and_eq_true_iff.2 ⟨decide_eq_true hle, ih hle⟩
    | slash | doubleStar p => exact ih hle

theorem keepAll_of_areSingle (h : areSingle items) : keepAll items := by
  simp only [areSingle, keepAll, Bool.and_eq_true, decide_eq_true_eq] at h ⊢
  exact ⟨⟨h.1.2, h.2⟩, slashesOnce_of_countP h.1.1⟩

/-- The parameters whose place the item takes. -/
def displaced (p : Parameters) : ParamItem → List Param
  | slash => p.posonly
  | star (some _) => p.vararg.toList
  | doubleStar _ => p.kwarg.toList
  | star none | plain _ => []

def displacedBy : Parameters × Bool → List ParamItem → List Param
  | _, [] => []
  | acc, item :: items => displaced acc.1 item ++ displacedBy (add acc item) items

/-- An item adds its own parameter and displaces others. -/
theorem all_add (acc : Parameters × Bool) (item : ParamItem) :
    ((add acc item).1.all : Multiset Param) + displaced acc.1 item =
      acc.1.all + item.param?.toList := by
  obtain ⟨⟨posonly, args, vararg, kwonly, kwarg⟩, starred⟩ := acc
  simp only [Parameters.coe_all]
  cases item with
  | slash =>
    simp only [add, displaced, param?, Option.toList_none, Multiset.coe_nil]
    abel
  | star vararg' =>
    cases vararg' with
    | none =>
      simp only [add, displaced, param?, Option.toList_none, Multiset.coe_nil]
    | some p =>
      simp only [add, displaced, param?]
      abel
  | doubleStar p =>
    simp only [add, displaced, param?]
    abel
  | plain p =>
    cases starred <;>
      simp only [add, displaced, param?, ← Multiset.coe_add, Multiset.coe_nil, Option.toList_some]
    · abel
    · abel

theorem all_foldl (acc : Parameters × Bool) (items : List ParamItem) :
    ((items.foldl add acc).1.all : Multiset Param) + displacedBy acc items =
      acc.1.all + items.filterMap param? := by
  induction items generalizing acc with
  | nil => rfl
  | cons item items ih =>
    have hstep := all_add acc item
    have hrest := ih (add acc item)
    have hparams : ((item :: items).filterMap param? : Multiset Param) =
        item.param?.toList + items.filterMap param? := by
      rw [List.filterMap_cons]
      cases item.param? <;> simp
    calc
      _ = ((items.foldl add (add acc item)).1.all + displacedBy (add acc item) items :
          Multiset Param) + displaced acc.1 item := by
        rw [List.foldl_cons, displacedBy, ← Multiset.coe_add]
        abel
      _ = acc.1.all + (item.param?.toList + items.filterMap param?) := by
        rw [hrest, add_right_comm, hstep, add_assoc]
      _ = _ := by rw [hparams]

/-- What no later item may displace, once the parameters so far stand in their places. -/
@[mk_iff] structure Spares (acc : Parameters × Bool) (items : List ParamItem) : Prop where
  vararg : acc.1.vararg.toList.length + items.countP isVararg ≤ 1
  kwarg : acc.1.kwarg.toList.length + items.countP isKwarg ≤ 1
  posonly : acc.1.posonly ≠ [] → items.countP isSlash = 0
  args : acc.1.args ≠ [] → items.countP isSlash ≤ 1
  later : acc.2 = false → slashesOnce items

theorem displacedBy_eq_nil_iff (acc : Parameters × Bool) (items : List ParamItem) :
    displacedBy acc items = [] ↔ Spares acc items := by
  induction items generalizing acc with
  | nil =>
    obtain ⟨⟨posonly, args, vararg, kwonly, kwarg⟩, starred⟩ := acc
    cases vararg <;> cases kwarg <;> simp [displacedBy, spares_iff, slashesOnce]
  | cons item items ih =>
    obtain ⟨⟨posonly, args, vararg, kwonly, kwarg⟩, starred⟩ := acc
    rw [displacedBy, List.append_eq_nil_iff, ih]
    cases item with
    | slash =>
      -- the arguments stand in front of a slash now, where the next slash would displace them
      simp only [spares_iff, displaced, add, slashesOnce, List.countP_cons, isSlash, isVararg,
        isKwarg]
      grind
    | star vararg' =>
      cases vararg' <;> cases vararg <;>
        simp only [spares_iff, displaced, add, slashesOnce, List.countP_cons, isSlash, isVararg,
          isKwarg] <;> grind
    | doubleStar p =>
      cases kwarg <;>
        simp only [spares_iff, displaced, add, slashesOnce, List.countP_cons, isSlash, isVararg,
          isKwarg] <;> grind
    | plain p =>
      have hargs : args ++ [p] ≠ [] := by simp
      cases starred <;>
        simp only [spares_iff, displaced, add, slashesOnce, List.countP_cons, isSlash, isVararg,
          isKwarg, Bool.and_eq_true, decide_eq_true_eq] <;> grind

/-- Items keep all their parameters if and only if none of them takes the place of another. -/
theorem all_collect_iff (items : List ParamItem) :
    (collect items).all ~ items.filterMap param? ↔ keepAll items := by
  have hall := all_foldl (.empty, false) items
  have hspares : displacedBy (.empty, false) items = [] ↔ keepAll items := by
    rw [displacedBy_eq_nil_iff, spares_iff]
    simp [keepAll, Parameters.empty, and_assoc]
  rw [← hspares, ← Multiset.coe_eq_coe, ← Multiset.coe_eq_zero]
  change ((collect items).all : Multiset Param) + _ = 0 + _ at hall
  rw [zero_add] at hall
  constructor
  · intro h
    rwa [h, add_eq_left] at hall
  · intro h
    rwa [h, add_zero] at hall

/-- What is kept was read. -/
theorem all_collect_subperm (items : List ParamItem) :
    (collect items).all <+~ items.filterMap param? := by
  rw [← Multiset.coe_le]
  have hall := all_foldl (.empty, false) items
  change ((collect items).all : Multiset Param) + _ = 0 + _ at hall
  rw [zero_add] at hall
  exact hall ▸ Multiset.le_add_right ..

end ParamItem

open ParamItem

def paramItems (self : Level → Rule Expr) (close : Symbol) (annotated : Bool) :
    Rule (List ParamItem) :=
  listUpTo (· == close) (paramItem self close annotated)

theorem parameters_eq (self : Level → Rule Expr) (close : Symbol) (annotated : Bool) :
    parameters self close annotated = collect <$> paramItems self close annotated := rfl

/-- Every parameter read is kept once, in one of the five places, if and only if no item takes the
place of another; in any case nothing is kept that was not read. -/
theorem parameters_all_iff (self : Level → Rule Expr) (close : Symbol) (annotated : Bool)
    {c c' : Cursor} {ps : Parameters} (h : parameters self close annotated c = .ok (ps, c')) :
    ∃ items, paramItems self close annotated c = .ok (items, c') ∧
      ps.all <+~ items.filterMap param? ∧ (ps.all ~ items.filterMap param? ↔ keepAll items) := by
  rw [parameters_eq, map_apply] at h
  split at h
  · rename_i items m hitems
    cases h
    exact ⟨items, hitems, all_collect_subperm items, all_collect_iff items⟩
  · cases h

theorem eq_ok_of_any {ε α : Type} {x : Except ε α} {p : α → Bool} (h : x.toOption.any p) :
    ∃ a, x = .ok a ∧ p a := by
  cases x with
  | error e => cases h
  | ok a => exact ⟨a, rfl, h⟩

def behindBracket (source : String) : Cursor :=
  .ofTokens ((Token.scan source).toOption.getD [] |>.drop 3)

def mixed : String := "def f(a, b=1, /, c: int=2, *d, e, **g):\n    pass\n"

theorem parameters_all_iff_mixed : ∃ ps c' items,
    parameters expr (.closing .round) true (behindBracket mixed) = .ok (ps, c') ∧
      paramItems expr (.closing .round) true (behindBracket mixed) = .ok (items, c') ∧
      ps.all.map Param.name = ["a", "b", "c", "d", "e", "g"] ∧ ps.all ~ items.filterMap param? := by
  have h : (parameters expr (.closing .round) true (behindBracket mixed)).toOption.any fun r =>
      r.1.all.map Param.name == ["a", "b", "c", "d", "e", "g"] &&
        (paramItems expr (.closing .round) true (behindBracket mixed)).toOption.any fun i =>
          keepAll i.1 := by decide +kernel
  obtain ⟨⟨ps, c'⟩, hps, h⟩ := eq_ok_of_any h
  rw [Bool.and_eq_true, beq_iff_eq] at h
  obtain ⟨items, hitems, -, hiff⟩ := parameters_all_iff expr (.closing .round) true hps
  rw [hitems] at h
  exact ⟨ps, c', items, hps, hitems, h.1, hiff.2 h.2⟩

/-- The second slash takes the place of what stands before the first one. -/
theorem slash_displaces_argument : ∃ ps c' items,
    parameters expr (.closing .round) true (behindBracket "def f(a, /, b, /):\n    pass\n") =
        .ok (ps, c') ∧
      paramItems expr (.closing .round) true (behindBracket "def f(a, /, b, /):\n    pass\n") =
        .ok (items, c') ∧
      (items.filterMap param?).map Param.name = ["a", "b"] ∧ ps.all.map Param.name = ["b"] ∧
      ¬ps.all ~ items.filterMap param? := by
  have h : (paramItems expr (.closing .round) true
      (behindBracket "def f(a, /, b, /):\n    pass\n")).toOption.any fun i =>
        (i.1.filterMap param?).map Param.name == ["a", "b"] &&
          (collect i.1).all.map Param.name == ["b"] := by decide +kernel
  obtain ⟨⟨items, c'⟩, hitems, h⟩ := eq_ok_of_any h
  rw [Bool.and_eq_true, beq_iff_eq, beq_iff_eq] at h
  refine ⟨collect items, c', items, ?_, hitems, h.1, h.2, fun hperm => ?_⟩
  · rw [parameters_eq, map_apply, hitems]
  · have hnames := (hperm.map Param.name).length_eq
    rw [h.1, h.2] at hnames
    cases hnames

end Grammar

end AsyncErasure
