import AsyncErasure.Conversion
import AsyncErasure.Grammar.Module
import AsyncErasure.Proofs.Renaming.Segment
import AsyncErasure.Proofs.Tree.Literal
import AsyncErasure.Render.Statement

namespace AsyncErasure

open Literals (ofExpr ofStmt)

namespace Convention

variable {c : Convention}

theorem literals_of_isRemark {s : Stmt} (h : isRemark s) : ofStmt s = [] := by
  cases s <;> first | rfl | cases h

theorem literals_of_drops {s : Stmt} (h : c.drops s) : ofStmt s = [] := by
  cases s <;> first | rfl | cases h

theorem literals_trimImport (s : Stmt) : ofStmt (c.trimImport s) = ofStmt s := by
  cases s <;> rfl

theorem literals_dropWhile (stmt : Stmt) (kept : List Stmt) :
    (kept.dropWhile (standsOnLineOf stmt)).reverse.flatMap ofStmt =
      kept.reverse.flatMap ofStmt := by
  induction kept with
  | nil => rfl
  | cons s kept ih =>
    rw [List.dropWhile_cons]
    split
    case isTrue hstands =>
      have hnone : ofStmt s = [] := by cases s <;> first | rfl | cases hstands
      rw [ih, List.reverse_cons, List.flatMap_append, List.flatMap_singleton, hnone,
        List.append_nil]
    case isFalse => rfl

/-- What goes with a dropped import holds no literals. -/
theorem literals_dropImportsFrom (kept : List Stmt) (d : Bool) (ss : List Stmt) :
    (c.dropImportsFrom kept d ss).flatMap ofStmt =
      kept.reverse.flatMap ofStmt ++ ss.flatMap ofStmt := by
  fun_induction c.dropImportsFrom kept d ss with
  | case1 => simp
  | case2 kept d s ss hremark ih =>
    rw [ih, List.flatMap_cons, literals_of_isRemark (Bool.and_eq_true_iff.1 hremark).2,
      List.nil_append]
  | case3 kept d s ss _ hdrops ih =>
    rw [ih, literals_dropWhile, List.flatMap_cons, literals_of_drops hdrops, List.nil_append]
  | case4 kept d s ss _ _ ih =>
    rw [ih, List.reverse_cons, List.flatMap_append, List.flatMap_singleton, literals_trimImport,
      List.append_assoc, List.flatMap_cons]

end Convention

theorem Spacing.literals_separate (next : Nat → Nat) (body : List Stmt) :
    (Spacing.separate next body).flatMap ofStmt = body.flatMap ofStmt := by
  fun_induction Spacing.separate next body with
  | case1 a b rest _ ih =>
    rw [List.flatMap_cons, List.flatMap_cons, ih, List.flatMap_cons (x := a)]
    rfl
  | case2 a b rest _ ih => rw [List.flatMap_cons, ih, List.flatMap_cons (x := a)]
  | case3 => rfl

/-- A setter's object and value stand on both sides of the assignment, in the same order. -/
theorem Setter.literals_fix (setters : List (String × String)) (s : Stmt) :
    ofStmt (Setter.fix setters s) = ofStmt s := by
  unfold fix assignment?
  split
  case h_1 s call t object field value =>
    split
    case isTrue => rfl
    case isFalse =>
      cases setters.lookup field with
      | none => rfl
      | some property =>
        simp only [Option.map_some, Option.getD_some, ofStmt, Stmt.inside, Walk.exprs, Expr.inside,
          Walk.arguments, Literals.onWalk_append, Literals.onWalk_enter, List.append_nil,
          List.append_assoc]
        rfl
  case h_2 => rfl

namespace Module

/-- The literals of a converted module are those of the module with its docstring trimmed, each
renamed where it stood. -/
theorem literals_convert (c : Convention) (m : Module) : (m.convert c).literals =
    ((m.separate.erase).trimDocstring c).literals.map c.renameLiteral := by
  have hfix (body : List Stmt) :
      (body.map (Setter.fix c.setters)).flatMap ofStmt = body.flatMap ofStmt := by
    rw [List.flatMap_map]
    exact List.flatMap_congr fun s _ => Setter.literals_fix c.setters s
  have hdrop (body : List Stmt) : (c.dropImports body).flatMap ofStmt = body.flatMap ofStmt := by
    rw [Convention.dropImports, Convention.literals_dropImportsFrom]
    rfl
  rw [convert, fixSetters, Literals.module_mapBlocks hfix, rename, Literals.module_subst,
    dropImports, Literals.module_mapBlocks hdrop]
  · rfl
  · exact fun _ _ => rfl

/-- Neither separating nor erasing changes a literal. -/
theorem literals_erase_separate (m : Module) : m.separate.erase.literals = m.literals := by
  rw [erase, Literals.module_subst fun _ _ => rfl, separate, separateBy,
    Literals.module_mapBlocks (Spacing.literals_separate Spacing.below)]
  exact List.map_id _

open FormatString in
/-- So the only field of this format string keeps its operator. -/
theorem convert_keeps_awaited_field : ∃ m,
    parse "async def f(x):\n    return f'\x7bawait x\x7d'\n" = .ok m ∧
      (m.convert .standard).literals =
        [ofSegments ['f'] ['\''] [.field "await x".toList]] ∧
      "await".toList ∈ pieces "await x".toList ∧
      (m.convert .standard).render = "def f(x):\n    return f'\x7bawait x\x7d'" := by
  have h : (parse "async def f(x):\n    return f'\x7bawait x\x7d'\n").toOption.any fun m =>
      (m.convert .standard).literals ==
          [ofSegments ['f'] ['\''] [.field "await x".toList]] &&
        (m.convert .standard).render == "def f(x):\n    return f'\x7bawait x\x7d'" := by
    decide +kernel
  obtain ⟨m, hm, hall⟩ := parse_of_any h
  rw [Bool.and_eq_true, beq_iff_eq, beq_iff_eq] at hall
  exact ⟨m, hm, hall.1, by decide +kernel, hall.2⟩

end Module

end AsyncErasure
