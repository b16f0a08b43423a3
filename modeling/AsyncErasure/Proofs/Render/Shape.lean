import AsyncErasure.Proofs.Render.Spelling
import AsyncErasure.Proofs.Tree.Shape
import AsyncErasure.Render.Statement

namespace AsyncErasure

namespace Render

@[simp] theorem level_shape (e : Expr) : e.shape.level = e.level := by
  cases e <;> rfl

@[simp] theorem isName_shape (e : Expr) : e.shape.isName = e.isName := by
  cases e <;> rfl

@[simp] theorem isPlainInteger_shape (e : Expr) : e.shape.isPlainInteger = e.isPlainInteger := by
  cases e with
  | constant s value => cases value <;> rfl
  | _ => rfl

theorem isLoneGenerator_shape (args : List Expr) (keywords : List Argument) :
    Expr.isLoneGenerator (Shape.exprs args) (Shape.arguments keywords) =
      Expr.isLoneGenerator args keywords := by
  rcases args with _ | ⟨arg, _ | ⟨other, args⟩⟩
  · rfl
  · cases arg with
    | comp s shape elt clauses => cases shape <;> cases keywords <;> rfl
    | _ => rfl
  · simp [Shape.exprs, Expr.isLoneGenerator]

@[simp] theorem needsBrackets_shape (context : Level) (e : Expr) :
    e.shape.needsBrackets context = e.needsBrackets context := by
  cases e with
  | tuple s elts parenthesized => cases elts <;> rfl
  | _ => rfl

@[simp] theorem wrap_shape (context : Level) (e : Expr) (bare : String) :
    e.shape.wrap context bare = e.wrap context bare := by
  unfold Expr.wrap
  rw [needsBrackets_shape]

mutual

theorem bare_shape (e : Expr) : e.shape.bare = e.bare := by
  cases e with
  | call s func args keywords =>
    have hargs := exprs_shape .test args
    cases h : Expr.isLoneGenerator args keywords with
    | true =>
      rcases Expr.exists_of_isLoneGenerator h with ⟨t, elt, clauses, rfl, rfl⟩
      have helt : (Expr.comp .nowhere .generator elt.shape (Shape.clauses clauses)).bare =
          (Expr.comp t .generator elt clauses).bare := (List.cons.inj hargs).1
      simp [Expr.shape, Shape.exprs, Shape.arguments, Expr.bare_call_lone, bare_shape, helt]
    | false =>
      rw [Expr.shape, Expr.bare_call _ _ (isLoneGenerator_shape args keywords ▸ h),
        Expr.bare_call _ _ h]
      simp [bare_shape, hargs, arguments_shape]
  | yield s value => cases value <;> simp [Expr.shape, Shape.expr?, Expr.bare, bare_shape]
  | _ =>
    simp [Expr.shape, Expr.bare, bare_shape, exprs_shape, behind_shape, texts_shape, items_shape,
      links_shape, clauses_shape]

theorem exprs_shape (context : Level) (es : List Expr) :
    Render.exprs context (Shape.exprs es) = Render.exprs context es := by
  cases es <;> simp [Shape.exprs, Render.exprs, bare_shape, exprs_shape]

theorem behind_shape (lead : String) (context : Level) (e : Option Expr) :
    behind lead context (Shape.expr? e) = behind lead context e := by
  cases e <;> simp [Shape.expr?, behind, bare_shape]

theorem text_shape (p : Param) : p.shape.text = p.text := by
  rcases p with ⟨name, hint, default⟩
  cases hint <;> simp [Param.shape, Shape.expr?, Param.text, bare_shape, behind_shape]

theorem params_shape (ps : List Param) : Render.params (Shape.params ps) = Render.params ps := by
  cases ps <;> simp [Shape.params, Render.params, text_shape, params_shape]

theorem starParam_shape (stars : String) (p : Option Param) :
    starParam stars (Shape.param? p) = starParam stars p := by
  cases p <;> simp [Shape.param?, starParam, text_shape]

theorem texts_shape (p : Parameters) : p.shape.texts = p.texts := by
  rcases p with ⟨posonly, args, vararg, kwonly, kwarg⟩
  have hposonly : (Shape.params posonly).isEmpty = posonly.isEmpty := by cases posonly <;> rfl
  have hkwonly : (Shape.params kwonly).isEmpty = kwonly.isEmpty := by cases kwonly <;> rfl
  have hvararg : (Shape.param? vararg).isNone = vararg.isNone := by cases vararg <;> rfl
  simp only [Parameters.shape, Parameters.texts, params_shape, starParam_shape, hposonly, hkwonly,
    hvararg]

theorem argument_shape (a : Argument) : a.shape.text = a.text := by
  rcases a with ⟨name, value⟩
  cases name <;> simp [Argument.shape, Argument.text, bare_shape]

theorem arguments_shape (as : List Argument) :
    Render.arguments (Shape.arguments as) = Render.arguments as := by
  cases as <;> simp [Shape.arguments, Render.arguments, argument_shape, arguments_shape]

theorem item_shape (i : DictItem) : i.shape.text = i.text := by
  rcases i with ⟨key, value⟩
  cases key <;> simp [DictItem.shape, Shape.expr?, DictItem.text, bare_shape]

theorem items_shape (is : List DictItem) : Render.items (Shape.items is) = Render.items is := by
  cases is <;> simp [Shape.items, Render.items, item_shape, items_shape]

theorem link_shape (c : Comparison) : c.shape.text = c.text := by
  cases c; simp [Comparison.shape, Comparison.text, bare_shape]

theorem links_shape (cs : List Comparison) : Render.links (Shape.links cs) = Render.links cs := by
  cases cs <;> simp [Shape.links, Render.links, link_shape, links_shape]

theorem conditions_shape (es : List Expr) : conditions (Shape.exprs es) = conditions es := by
  cases es <;> simp [Shape.exprs, conditions, bare_shape, conditions_shape]

theorem clause_shape (c : Clause) : c.shape.text = c.text := by
  cases c; simp [Clause.shape, Clause.text, bare_shape, conditions_shape]

theorem clauses_shape (cs : List Clause) :
    Render.clauses (Shape.clauses cs) = Render.clauses cs := by
  cases cs <;> simp [Shape.clauses, Render.clauses, clause_shape, clauses_shape]

end

@[simp] theorem render_shape (context : Level) (e : Expr) :
    e.shape.render context = e.render context := by
  unfold Expr.render
  rw [bare_shape, wrap_shape]

theorem withItem_shape (i : WithItem) : i.shape.text = i.text := by
  simp [WithItem.shape, WithItem.text, behind_shape]

theorem condition_shape (e : Expr) : condition e.shape = condition e := by
  cases e with
  | named s target value => exact render_shape .named (.named s target value)
  | _ => exact render_shape .tuple _

theorem header_shape (star : Bool) (type : Option Expr) (name : Option String) :
    Handler.header star (Shape.expr? type) name = Handler.header star type name := by
  cases type <;> simp [Shape.expr?, Handler.header]

theorem isEmpty_exprs_shape (es : List Expr) : (Shape.exprs es).isEmpty = es.isEmpty := by
  cases es <;> rfl

theorem isEmpty_arguments_shape (as : List Argument) :
    (Shape.arguments as).isEmpty = as.isEmpty := by
  cases as <;> rfl

theorem isBlank_shape (s : Stmt) : s.shape.isBlank = s.isBlank := by
  cases s <;> rfl

theorem isBranch_shape (s : Stmt) : s.shape.isBranch = s.isBranch := by
  cases s <;> rfl

theorem isCode_shape (s : Stmt) : s.shape.isCode = s.isCode := by
  cases s <;> rfl

theorem passIfEmpty_shape (depth : Nat) (body : List Stmt) :
    passIfEmpty depth (Shape.stmts body) = passIfEmpty depth body := by
  have hany : (Shape.stmts body).any Stmt.isCode = body.any Stmt.isCode := by
    rw [Shape.stmts_eq_map, List.any_map]
    exact congrArg body.any (funext isCode_shape)
  unfold passIfEmpty
  rw [hany]

theorem nested_shape (depth : Nat) (body : List Stmt) (pieces : List (Option (List Piece))) :
    nested depth (Shape.stmts body) pieces = nested depth body pieces := by
  unfold nested
  rw [passIfEmpty_shape]

theorem decorators_shape (depth : Nat) (es : List Expr) :
    Render.decorators depth (Shape.exprs es) = Render.decorators depth es := by
  rw [Shape.exprs_eq_map, Render.decorators, Render.decorators, List.map_map]
  simp [Function.comp_def]

mutual

theorem pieces_shape (word : String) (depth : Nat) (s : Stmt) :
    s.shape.pieces word depth = s.pieces word depth := by
  cases s with
  | raise s exc cause => cases exc <;> simp [Stmt.shape, Shape.expr?, Stmt.pieces, behind_shape]
  | _ =>
    simp [Stmt.shape, Stmt.pieces, functionHeader, classHeader, annotated, Function.comp_def,
      decorators_shape, texts_shape, behind_shape, exprs_shape, arguments_shape, withItem_shape,
      condition_shape, isEmpty_exprs_shape, isEmpty_arguments_shape, nested_shape, stmts_shape,
      clause_stmts_shape, alternative_shape, handlers_shape]

theorem stmts_shape (depth : Nat) (ss : List Stmt) :
    Render.stmts depth (Shape.stmts ss) = Render.stmts depth ss := by
  cases ss <;> simp [Shape.stmts, Render.stmts, isBlank_shape, pieces_shape, stmts_shape]

theorem clause_stmts_shape (header : String) (depth : Nat) (body : List Stmt) :
    Render.clause header depth (Shape.stmts body) = Render.clause header depth body := by
  cases body with
  | nil => rfl
  | cons s ss =>
    have hnested := nested_shape depth (s :: ss)
    simp only [Shape.stmts] at hnested
    simp [Shape.stmts, Render.clause, isBlank_shape, pieces_shape, stmts_shape, hnested]

theorem alternative_shape (depth : Nat) (body : List Stmt) :
    Render.alternative depth (Shape.stmts body) = Render.alternative depth body := by
  cases body with
  | nil => rfl
  | cons s ss =>
    have hnested := nested_shape depth (s :: ss)
    have hempty : (Shape.stmts ss).isEmpty = ss.isEmpty := by cases ss <;> rfl
    simp only [Shape.stmts] at hnested
    simp [Shape.stmts, Render.alternative, isBlank_shape, isBranch_shape, hempty, pieces_shape,
      stmts_shape, hnested]

theorem handler_shape (star : Bool) (depth : Nat) (h : Handler) :
    h.shape.pieces star depth = h.pieces star depth := by
  cases h; simp [Handler.shape, Handler.pieces, header_shape, nested_shape, stmts_shape]

theorem handlers_shape (star : Bool) (depth : Nat) (hs : List Handler) :
    Render.handlers star depth (Shape.handlers hs) = Render.handlers star depth hs := by
  cases hs <;> simp [Shape.handlers, Render.handlers, handler_shape, handlers_shape]

end

end Render

/-- Modules of one shape have one text. -/
theorem Module.render_shape (m : Module) : m.shape.render = m.render := by
  unfold Module.render Module.shape
  rw [Render.stmts_shape]

end AsyncErasure
