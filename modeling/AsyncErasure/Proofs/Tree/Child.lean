import AsyncErasure.Tree.Stmt

namespace AsyncErasure

def Param.children (p : Param) : List Expr := p.hint.toList ++ p.default.toList

def Parameters.children (p : Parameters) : List Expr :=
  p.posonly.flatMap Param.children ++ p.args.flatMap Param.children ++
    p.vararg.toList.flatMap Param.children ++ p.kwonly.flatMap Param.children ++
    p.kwarg.toList.flatMap Param.children

def Clause.children (c : Clause) : List Expr := c.target :: c.iter :: c.conditions

def Expr.children : Expr → List Expr
  | .boolOp _ _ values => values
  | .named _ target value => [target, value]
  | .binOp _ _ left right => [left, right]
  | .unaryOp _ _ operand => [operand]
  | .lambda _ params body => body :: params.children
  | .ifElse _ test body orelse => [test, body, orelse]
  | .dict _ items => items.flatMap fun i => i.value :: i.key.toList
  | .set _ elts | .list _ elts | .tuple _ elts _ => elts
  | .comp _ _ elt clauses => elt :: clauses.flatMap Clause.children
  | .dictComp _ key value clauses => key :: value :: clauses.flatMap Clause.children
  | .await _ value | .yieldFrom _ value | .starred _ value | .attr _ value _ => [value]
  | .yield _ value => value.toList
  | .compare _ left links => left :: links.map Comparison.operand
  | .call _ func args keywords => func :: (args ++ keywords.map Argument.value)
  | .subscript _ value index => [value, index]
  | .slice _ lower upper step => lower.toList ++ (upper.toList ++ step.toList)
  | .constant _ _ | .str _ _ | .name _ _ => []

namespace Expr

theorem sizeOf_lt_of_mem_param {p : Param} {x : Expr} (h : x ∈ p.children) :
    sizeOf x < sizeOf p := by
  obtain ⟨name, hint, default⟩ := p
  simp only [Param.children, List.mem_append, Option.mem_toList] at h
  obtain rfl | rfl := h <;> simp <;> omega

theorem sizeOf_lt_of_mem_params {ps : List Param} {x : Expr} (h : x ∈ ps.flatMap Param.children) :
    sizeOf x < sizeOf ps := by
  obtain ⟨p, hp, hx⟩ := List.mem_flatMap.1 h
  exact Nat.lt_trans (sizeOf_lt_of_mem_param hx) (List.sizeOf_lt_of_mem hp)

theorem sizeOf_lt_of_mem_param? {p : Option Param} {x : Expr}
    (h : x ∈ p.toList.flatMap Param.children) : sizeOf x < sizeOf p := by
  cases p with
  | none => simp at h
  | some p =>
    have := sizeOf_lt_of_mem_param (p := p) (x := x) (by simpa using h)
    simp
    omega

theorem sizeOf_lt_of_mem_parameters {p : Parameters} {x : Expr} (h : x ∈ p.children) :
    sizeOf x < sizeOf p := by
  obtain ⟨posonly, args, vararg, kwonly, kwarg⟩ := p
  simp only [Parameters.children, List.mem_append] at h
  simp only [Parameters.mk.sizeOf_spec]
  obtain (((h | h) | h) | h) | h := h
  · have := sizeOf_lt_of_mem_params h
    omega
  · have := sizeOf_lt_of_mem_params h
    omega
  · have := sizeOf_lt_of_mem_param? h
    omega
  · have := sizeOf_lt_of_mem_params h
    omega
  · have := sizeOf_lt_of_mem_param? h
    omega

theorem sizeOf_lt_of_mem_clauses {cs : List Clause} {x : Expr}
    (h : x ∈ cs.flatMap Clause.children) : sizeOf x < sizeOf cs := by
  obtain ⟨c, hc, hx⟩ := List.mem_flatMap.1 h
  have hlt := List.sizeOf_lt_of_mem hc
  obtain ⟨mode, target, iter, conditions⟩ := c
  simp only [Clause.children, List.mem_cons] at hx
  simp only [Clause.mk.sizeOf_spec] at hlt
  obtain rfl | rfl | hx := hx
  · omega
  · omega
  · have := List.sizeOf_lt_of_mem hx
    omega

theorem sizeOf_lt_of_mem_toList {e : Option Expr} {x : Expr} (h : x ∈ e.toList) :
    sizeOf x < sizeOf e := by
  cases e with
  | none => simp at h
  | some e =>
    obtain rfl : x = e := by simpa using h
    simp

theorem sizeOf_lt_of_mem_children {e x : Expr} (h : x ∈ e.children) : sizeOf x < sizeOf e := by
  cases e with
  | lambda s params body =>
    simp only [lambda.sizeOf_spec]
    obtain rfl | h := List.mem_cons.1 h
    · omega
    · have := sizeOf_lt_of_mem_parameters h
      omega
  | dict s items =>
    obtain ⟨⟨key, value⟩, hi, hx⟩ := List.mem_flatMap.1 h
    have hlt := List.sizeOf_lt_of_mem hi
    simp only [DictItem.mk.sizeOf_spec] at hlt
    simp only [dict.sizeOf_spec]
    obtain rfl | hx := List.mem_cons.1 hx
    · omega
    · have : sizeOf x < sizeOf key := sizeOf_lt_of_mem_toList hx
      omega
  | comp s shape elt clauses =>
    obtain rfl | h := List.mem_cons.1 h
    · simp
      omega
    · have := sizeOf_lt_of_mem_clauses h
      simp
      omega
  | dictComp s key value clauses =>
    simp only [children, List.mem_cons] at h
    simp only [dictComp.sizeOf_spec]
    obtain rfl | rfl | h := h
    · omega
    · omega
    · have := sizeOf_lt_of_mem_clauses h
      omega
  | compare s left links =>
    obtain rfl | h := List.mem_cons.1 h
    · simp
      omega
    · obtain ⟨⟨op, operand⟩, hc, rfl⟩ := List.mem_map.1 h
      have := List.sizeOf_lt_of_mem hc
      simp at this ⊢
      omega
  | call s func args keywords =>
    simp only [children, List.mem_cons, List.mem_append, List.mem_map] at h
    simp only [call.sizeOf_spec]
    obtain rfl | h | ⟨⟨name, value⟩, ha, rfl⟩ := h
    · omega
    · have := List.sizeOf_lt_of_mem h
      omega
    · have := List.sizeOf_lt_of_mem ha
      simp at this ⊢
      omega
  | yield s value =>
    have := sizeOf_lt_of_mem_toList h
    simp
    omega
  | slice s lower upper step =>
    simp only [children, List.mem_append] at h
    simp only [slice.sizeOf_spec]
    obtain h | h | h := h
    · have := sizeOf_lt_of_mem_toList h
      omega
    · have := sizeOf_lt_of_mem_toList h
      omega
    · have := sizeOf_lt_of_mem_toList h
      omega
  | boolOp s op values =>
    have : sizeOf x < sizeOf values := List.sizeOf_lt_of_mem h
    simp
    omega
  | set s elts | list s elts | tuple s elts =>
    have : sizeOf x < sizeOf elts := List.sizeOf_lt_of_mem h
    simp
    omega
  | constant | str | name => cases h
  | _ =>
    simp only [children, List.mem_cons, List.not_mem_nil, or_false] at h
    grind

/-- Strong induction on the children of an expression. -/
theorem childInduction {motive : Expr → Prop}
    (step : ∀ e, (∀ x ∈ e.children, motive x) → motive e) (e : Expr) : motive e :=
  step e fun x hx =>
    have := sizeOf_lt_of_mem_children hx
    childInduction step x
termination_by sizeOf e

end Expr

namespace Stmt

def children : Stmt → List Stmt
  | functionDef _ _ _ _ _ _ body | classDef _ _ _ _ _ body | withBlock _ _ _ body => body
  | forLoop _ _ _ _ body orelse | whileLoop _ _ body orelse | branch _ _ body orelse =>
    body ++ orelse
  | tryBlock _ body handlers orelse final _ =>
    body ++ (handlers.flatMap Handler.body ++ (orelse ++ final))
  | _ => []

theorem sizeOf_lt_of_mem_handlers {hs : List Handler} {x : Stmt} (h : x ∈ hs.flatMap Handler.body) :
    sizeOf x < sizeOf hs := by
  obtain ⟨⟨type, name, body⟩, hmem, hx⟩ := List.mem_flatMap.1 h
  have hlt := List.sizeOf_lt_of_mem hmem
  have hbody : sizeOf x < sizeOf body := List.sizeOf_lt_of_mem hx
  simp only [Handler.mk.sizeOf_spec] at hlt
  omega

theorem sizeOf_lt_of_mem_children {s x : Stmt} (h : x ∈ s.children) : sizeOf x < sizeOf s := by
  have hmem {body : List Stmt} (h : x ∈ body) : sizeOf x < sizeOf body := List.sizeOf_lt_of_mem h
  cases s with
  | functionDef | classDef | withBlock =>
    simp only [children] at h
    have := hmem h
    simp
    omega
  | forLoop | whileLoop | branch =>
    obtain h | h := List.mem_append.1 h <;> have := hmem h <;> simp <;> omega
  | tryBlock s body handlers orelse final star =>
    simp only [children, List.mem_append] at h
    simp only [tryBlock.sizeOf_spec]
    obtain h | h | h | h := h
    · have := hmem h
      omega
    · have := sizeOf_lt_of_mem_handlers h
      omega
    · have := hmem h
      omega
    · have := hmem h
      omega
  | _ => cases h

/-- Strong induction on the children of a statement. -/
theorem childInduction {motive : Stmt → Prop}
    (step : ∀ s, (∀ x ∈ s.children, motive x) → motive s) (s : Stmt) : motive s :=
  step s fun x hx =>
    have := sizeOf_lt_of_mem_children hx
    childInduction step x
termination_by sizeOf s

end Stmt

end AsyncErasure
