import AsyncErasure.Grammar.Statement
import AsyncErasure.Proofs.WellFormed

namespace AsyncErasure

namespace Grammar

open Rule

variable {α β : Type} {p : Rule α} {f : α → Rule β} {Q : β → Cursor → Prop}

def Ensures (Q : β → Cursor → Prop) (r : Rule β) : Prop :=
  ∀ c b c', r c = .ok (b, c') → Q b c'

theorem eq_ok_of_bind {c c' : Cursor} {b : β} (h : (p >>= f) c = .ok (b, c')) :
    ∃ a m, p c = .ok (a, m) ∧ f a m = .ok (b, c') := by
  change (p c >>= fun r => f r.1 r.2) = _ at h
  cases hp : p c with
  | error e =>
    rw [hp] at h
    cases h
  | ok r =>
    rw [hp] at h
    exact ⟨r.1, r.2, rfl, h⟩

namespace Ensures

/-- Behind a step of any result. -/
theorem next (hf : ∀ a, Ensures Q (f a)) : Ensures Q (p >>= f) := by
  intro c b c' h
  rcases eq_ok_of_bind h with ⟨a, m, -, hb⟩
  exact hf a m b c' hb

theorem fail (fault : Fault) : Ensures Q (Rule.fail fault) := by
  intro c b c' h
  cases h

/-- What is made from the span up to the cursor. -/
theorem spanned {start : Place} {make : Span → β} (h : ∀ c, Q (make ⟨start, c.reached⟩) c) :
    Ensures Q (spanFrom start >>= fun span => pure (make span)) := by
  intro c b c' hc
  cases hc
  exact h c

theorem pure {b : β} (h : ∀ c, Q b c) : Ensures Q (Pure.pure b) := by
  intro c b c' hc
  cases hc
  exact h c

end Ensures

def unit (self : Rule (List Stmt)) (closed : Lexeme → Bool) : Rule (Option (List Stmt)) := do
  let next ← peek
  if closed next then return none
  else
    match next with
    | .newline _ =>
      advance
      return some []
    | _ => return some (← self)

theorem statementsUpTo_eq (self : Rule (List Stmt)) (closed : Lexeme → Bool) :
    statementsUpTo self closed = List.flatten <$> many (unit self closed) := rfl

def Spans (start : Place) (s : Stmt) (c : Cursor) : Prop :=
  s.isSimple ∧ s.span = ⟨start, c.reached⟩

theorem spans_make {start : Place} {make : Span → Stmt}
    (h : ∀ span, (make span).isSimple ∧ (make span).span = span) :
    Ensures (Spans start) (spanFrom start >>= fun span => pure (make span)) :=
  .spanned fun c => h ⟨start, c.reached⟩

theorem spans_importFrom (start : Place) : Ensures (Spans start) (importFrom start) := by
  unfold importFrom
  refine .next fun _ => .next fun level => .next fun seen => ?_
  dsimp only
  split
  all_goals
    refine .next fun path => ?_
    split
    · exact .fail _
    · refine .next fun _ => .next fun names => ?_
      split
      · exact .fail _
      · exact spans_make fun _ => ⟨rfl, rfl⟩

theorem spans_expressionStatement (start : Place) :
    Ensures (Spans start) (expressionStatement start) := by
  unfold expressionStatement
  refine .next fun _ => .next fun _ => .next fun hinted => ?_
  split
  · exact .next fun _ => .next fun _ => spans_make fun _ => ⟨rfl, rfl⟩
  · refine .next fun op => ?_
    split
    · exact .next fun _ => .next fun _ => spans_make fun _ => ⟨rfl, rfl⟩
    · refine .next fun rest => ?_
      split <;> exact spans_make fun _ => ⟨rfl, rfl⟩

theorem spans_simpleStatement {c c' : Cursor} {s : Stmt} (h : simpleStatement c = .ok (s, c')) :
    Spans c.next.span.start s c' := by
  unfold simpleStatement at h
  rcases eq_ok_of_bind h with ⟨start, m, hstart, h⟩
  cases hstart
  rcases eq_ok_of_bind h with ⟨l, m, hl, h⟩
  cases hl
  refine (?_ : Ensures (Spans c.next.span.start) _) c s c' h
  split
  -- `pass`, `break` and `continue`
  iterate 3
    · exact .next fun _ => spans_make fun _ => ⟨rfl, rfl⟩
  · refine .next fun _ => .next fun ends => ?_
    dsimp only
    split <;> exact .next fun _ => spans_make fun _ => ⟨rfl, rfl⟩
  · refine .next fun _ => .next fun ends => ?_
    split
    · exact spans_make fun _ => ⟨rfl, rfl⟩
    · exact .next fun _ => .next fun _ => spans_make fun _ => ⟨rfl, rfl⟩
  · exact .next fun _ => .next fun _ => .next fun _ => spans_make fun _ => ⟨rfl, rfl⟩
  · exact .next fun _ => .next fun _ => .next fun _ => spans_make fun _ => ⟨rfl, rfl⟩
  -- `global`, `nonlocal` and `import`
  iterate 3
    · exact .next fun _ => .next fun _ => spans_make fun _ => ⟨rfl, rfl⟩
  · exact spans_importFrom _
  · exact spans_expressionStatement _

end Grammar

end AsyncErasure
