import AsyncErasure.Proofs.Grammar.Agreement
import AsyncErasure.Proofs.Grammar.Formation

namespace AsyncErasure.Grammar

open Cursor Rule

variable {edge : Edge} {self self' : Level → Rule Expr} {k : Nat} {c : Cursor}

/-- Two families of rules agree wherever fewer tokens are left. -/
def AgreeBelow (edge : Edge) (self self' : Level → Rule Expr) (k : Nat) : Prop :=
  ∀ c, c.size < k → ∀ level, Advances edge (self level) (self' level) c

section Look

variable {α : Type} {G : α → Prop}

theorem startsClause_agrees {f g : Bool → Rule α} (h : ∀ b, Agrees edge G (f b) (g b) c) :
    Agrees edge G (startsClause >>= f) (startsClause >>= g) c := by
  refine .look (fun hs => ?_) fun b _ => h b
  cases hl : c.next.lexeme with
  | keyword k =>
    have hsecond : (c.before edge.extra).second = c.second :=
      second_before (hs.later_ne_nil (by simp [hl]))
    cases k <;> simp [startsClause, hl, hsecond]
  | _ => simp [startsClause, hl]

theorem binaryOp_agrees {level : Level} {f g : Option BinOp → Rule α}
    (hnone : Agrees edge G (f none) (g none) c)
    (hsome : ∀ op, edge.stop c.next.lexeme = false → Agrees edge G (f (some op)) (g (some op)) c) :
    Agrees edge G (binaryOp level >>= f) (binaryOp level >>= g) c := by
  obtain ⟨op, hop, hsymbol⟩ := binaryOp_looks c level
  refine .look (fun _ => ⟨op, hop, ?_⟩) fun o ho => ?_
  · cases hl : c.next.lexeme <;> simp_all [binaryOp]
  · cases hop.symm.trans ho
    cases op with
    | none => exact hnone
    | some op =>
      obtain ⟨s, hs⟩ := hsymbol rfl
      exact hsome op (by simp [hs])

theorem signOp_agrees {f g : Option UnaryOp → Rule α}
    (hnone : Agrees edge G (f none) (g none) c)
    (hsome : ∀ op, edge.stop c.next.lexeme = false → Agrees edge G (f (some op)) (g (some op)) c) :
    Agrees edge G (signOp >>= f) (signOp >>= g) c := by
  obtain ⟨op, hop, hsymbol⟩ := signOp_looks c
  refine .look (fun _ => ⟨op, hop, ?_⟩) fun o ho => ?_
  · cases hl : c.next.lexeme <;> simp_all [signOp]
  · cases hop.symm.trans ho
    cases op with
    | none => exact hnone
    | some op =>
      obtain ⟨s, hs⟩ := hsymbol rfl
      exact hsome op (by simp [hs])

theorem comparisonOp_agrees : Rounds edge comparisonOp comparisonOp c := by
  refine .peek fun l hl => ?_
  cases l with
  | symbol s =>
    cases hs : CmpOp.ofSymbol? s with
    | none => simpa only [hs] using .nothing
    | some op => simpa only [hs] using .advance (by simp [hl]) fun _ => .done
  | keyword k =>
    cases k with
    | in_ => exact .advance (by simp [hl]) fun _ => .done
    | is_ =>
      refine .advance (by simp [hl]) fun _ => .accept (by simp) (fun _ _ => .done) fun _ => .done
    | not_ =>
      refine .peekSecond (fun hne => .ite (fun hin => ?_) fun _ => .nothing) fun hend => ?_
      · refine .scanned fun hs => .advance hne fun _ => .advance ?_ fun _ => .done
        rw [← second_of_later (hs.later_ne_nil hne), eq_of_beq hin]
        simp
      · simp [hl] at hend
    | _ => exact .nothing
  | _ => exact .nothing

end Look

section

variable (hself : AgreeBelow edge self self' k)
include hself

theorem starOr_agrees (hc : c.size ≤ k) {level : Level}
    (hat : Advances edge (self level) (self' level) c) :
    Advances edge (starOr self level) (starOr self' level) c := by
  refine .sees (fun hstar => ?_) fun _ => hat
  refine .place fun start => .advance (by simp [hstar]) fun hlt => ?_
  exact .bind (hself _ (by omega) .bitOr) fun _ _ _ => .spanned

theorem starOr_below (level : Level) (hc : c.size < k) :
    Advances edge (starOr self level) (starOr self' level) c :=
  starOr_agrees hself hc.le (hself c hc level)

omit hself in
theorem itemOrTuple_agrees {closed : Lexeme → Bool} {item item' : Rule Expr}
    (hfirst : Advances edge item item' c)
    (hrest : ∀ c', c'.size < c.size → Advances edge item item' c') :
    Advances edge (itemOrTuple closed item) (itemOrTuple closed item') c := by
  refine .place fun start => .bind hfirst fun first c' hlt => .sees (fun _ => ?_) fun _ => .done
  exact .next (.listTail fun d hd => hrest d (by omega)) fun _ _ _ => .spanned

theorem starExpressions_agrees (hc : c.size ≤ k)
    (hat : Advances edge (self .test) (self' .test) c) :
    Advances edge (starExpressions self) (starExpressions self') c :=
  itemOrTuple_agrees (starOr_agrees hself hc hat) fun d hd => starOr_below hself .test (by omega)

theorem targetList_agrees (hc : c.size < k) :
    Advances edge (targetList self) (targetList self') c :=
  itemOrTuple_agrees (starOr_below hself .bitOr hc) fun d hd => starOr_below hself .bitOr (by omega)

theorem namedExpression_agrees (hc : c.size ≤ k)
    (hat : Advances edge (self .test) (self' .test) c) :
    Advances edge (namedExpression self) (namedExpression self') c := by
  refine .peek fun l hl => .peekSecond (fun hne => ?_) fun hend l₁ l₂ => ?_
  · cases l with
    | name id =>
      generalize hs₂ : c.second.lexeme = l₂
      cases l₂ with
      | symbol s =>
        cases s with
        | walrus =>
          refine .place fun start => .scanned fun hs => .advance hne fun hlt => .spanFrom
            fun span => ?_
          refine .advance ?_ fun hlt' => ?_
          · rw [← second_of_later (hs.later_ne_nil hne), hs₂]
            simp
          · exact .bind (hself _ (by omega) .test) fun _ _ _ => .spanned
        | _ => exact hat
      | _ => exact hat
    | _ => exact hat
  -- No name closes the tokens, so no walrus is looked for behind the closing one.
  · cases l with
    | name id => simp [hl] at hend
    | _ => exact hat

theorem yieldExpression_agrees (hc : c.size ≤ k) :
    Advances edge (yieldExpression self) (yieldExpression self') c := by
  refine .place fun start => .expect (by simp) fun _ hlt => ?_
  refine .accept (by simp) (fun _ hlt' => ?_) fun _ => .peek fun l _ => ?_
  · exact .bind (hself _ (by omega) .test) fun _ _ _ => .spanned
  · dsimp only
    refine .ite (fun _ => ?_) fun _ => .known .spanned
    exact .next (hself _ (by omega) .tuple).given fun _ _ _ => .spanned

theorem param_agrees (annotated : Bool) (hc : c.size ≤ k) :
    Advances edge (param self annotated) (param self' annotated) c := by
  refine .name fun id hlt => .ite (fun _ => ?_) fun _ => ?_
  · refine .next (.after (by simp) fun hlt' => hself _ (by omega) .test) fun hint c' hle => ?_
    exact .next (.after (by simp) fun hlt' => hself _ (by omega) .test) fun _ _ _ => .done
  · refine .known ?_
    exact .next (.after (by simp) fun hlt' => hself _ (by omega) .test) fun _ _ _ => .done

theorem paramItem_agrees (close : Symbol) (annotated : Bool) (hc : c.size ≤ k) :
    Advances edge (paramItem self close annotated) (paramItem self' close annotated) c := by
  refine .accept (by simp) (fun _ _ => .done) fun _ => .accept (by simp) (fun _ hlt => ?_) fun _ =>
    .accept (by simp) (fun _ hlt => ?_) fun _ => ?_
  · exact .bind (param_agrees hself annotated (by omega)) fun _ _ _ => .done
  · refine .look (fun _ => ⟨_, rfl, rfl⟩) fun _ _ => .look (fun _ => ⟨_, rfl, rfl⟩) fun _ _ => ?_
    refine .ite (fun _ => .done) fun _ => ?_
    exact .bind (param_agrees hself annotated (by omega)) fun _ _ _ => .done
  · exact .bind (param_agrees hself annotated hc) fun _ _ _ => .done

theorem parameters_agrees (close : Symbol) (annotated : Bool) (hc : c.size ≤ k) :
    Stays edge (parameters self close annotated) (parameters self' close annotated) c :=
  .map (.listUpTo fun d hd => paramItem_agrees hself close annotated (by omega)) fun _ => False.elim

theorem lambda_agrees (hc : c.size ≤ k) : Advances edge (lambda self) (lambda self') c := by
  refine .place fun start => .expect (by simp) fun _ hlt => ?_
  refine .next (parameters_agrees hself .colon false (by omega)) fun params c' hle => ?_
  refine .expect (by simp) fun _ hlt' => ?_
  exact .bind (hself _ (by omega) .test) fun _ _ _ => .spanned

theorem expression_agrees (hc : c.size ≤ k)
    (hat : Advances edge (self .disjunction) (self' .disjunction) c) :
    Advances edge (expression self) (expression self') c := by
  refine .sees (fun _ => lambda_agrees hself hc) fun _ => ?_
  refine .place fun start => .bind hat fun body c' hlt => ?_
  refine .accept (by simp) (fun _ hlt' => ?_) fun _ => .done
  refine .bind (hself _ (by omega) .disjunction) fun test d hd => .expect (by simp)
    fun _ hlt'' => ?_
  exact .bind (hself _ (by omega) .test) fun _ _ _ => .spanned

theorem boolLevel_agrees (op : BoolOp) (hc : c.size ≤ k)
    (hat : Advances edge (self op.level.next) (self' op.level.next) c) :
    Advances edge (boolLevel self op) (boolLevel self' op) c := by
  refine .place fun start => .bind hat fun first c' hlt => .sees (fun _ => ?_) fun _ => .done
  refine .next (.many fun d hd => .after (by simp) fun hlt' => ?_) fun _ _ _ => .spanned
  exact hself _ (by omega) _

theorem negation_agrees (hc : c.size ≤ k)
    (hat : Advances edge (self .comparison) (self' .comparison) c) :
    Advances edge (negation self) (negation self') c := by
  refine .sees (fun hnot => ?_) fun _ => hat
  refine .place fun start => .advance (by simp [hnot]) fun hlt => ?_
  exact .bind (hself _ (by omega) .negation) fun _ _ _ => .spanned

theorem comparison_agrees (hc : c.size ≤ k) (hat : Advances edge (self .bitOr) (self' .bitOr) c) :
    Advances edge (comparison self) (comparison self') c := by
  refine .place fun start => .bind hat fun left c' hlt => ?_
  refine .next (.many fun d hd => ?_) fun links _ _ => .ite (fun _ => .done) fun _ => .spanned
  refine .next comparisonOp_agrees fun op e he => ?_
  cases op with
  | none => exact .nothing
  | some op => exact .bind (hself _ (by omega) .bitOr) fun _ _ _ => .done

theorem binaryLevel_agrees (level : Level) (hc : c.size ≤ k)
    (hat : Advances edge (self level.next) (self' level.next) c) :
    Advances edge (binaryLevel self level) (binaryLevel self' level) c := by
  refine .place fun start => .bind hat fun first c' hlt => ?_
  refine .grow fun left d hd => binaryOp_agrees .nothing fun op hne => ?_
  refine .advance hne fun hlt' => ?_
  exact .bind (hself _ (by omega) level.next) fun _ _ _ => .spanned

theorem signed_agrees (hc : c.size ≤ k) (hat : Advances edge (self .power) (self' .power) c) :
    Advances edge (signed self) (signed self') c := by
  refine signOp_agrees hat fun op hne => .place fun start => .advance hne fun hlt => ?_
  exact .bind (hself _ (by omega) .signed) fun _ _ _ => .spanned

theorem power_agrees (hc : c.size ≤ k) (hat : Advances edge (self .awaited) (self' .awaited) c) :
    Advances edge (power self) (power self') c := by
  refine .place fun start => .bind hat fun base c' hlt => ?_
  refine .accept (by simp) (fun _ hlt' => ?_) fun _ => .done
  exact .bind (hself _ (by omega) .signed) fun _ _ _ => .spanned

theorem awaited_agrees (hc : c.size ≤ k) (hat : Advances edge (self .atom) (self' .atom) c) :
    Advances edge (awaited self) (awaited self') c := by
  refine .sees (fun hawait => ?_) fun _ => hat
  refine .place fun start => .advance (by simp [hawait]) fun hlt => ?_
  exact .bind (hself _ (by omega) .atom) fun _ _ _ => .spanned

theorem conditions_agree (hc : c.size < k) :
    Stays edge (many (after Keyword.if_ (self .disjunction)))
      (many (after Keyword.if_ (self' .disjunction))) c :=
  .many fun d hd => .after (by simp) fun hlt => hself _ (by omega) .disjunction

theorem clause_agrees (hc : c.size < k) : Advances edge (clause self) (clause self') c := by
  refine .accept (by simp) (fun _ hlt => ?_) fun _ => ?_
  all_goals
    refine .expect (by simp) fun _ hlt' => ?_
    refine .bind (targetList_agrees hself (by omega)) fun target d hd => ?_
    refine .expect (by simp) fun _ hlt'' => .bind (hself _ (by omega) .disjunction)
      fun iter e he => ?_
    exact .next (conditions_agree hself (by omega)) fun _ _ _ => .done

theorem clauseItem_agrees (hc : c.size < k) : Rounds edge (clauseItem self) (clauseItem self') c :=
  startsClause_agrees fun _ =>
    .ite (fun _ => .bind (clause_agrees hself hc) fun _ _ _ => .done) fun _ => .nothing

theorem clauses_agree (hc : c.size < k) : Stays edge (clauses self) (clauses self') c := by
  rw [clauses_eq, clauses_eq]
  exact .many fun d hd => clauseItem_agrees hself (by omega)

theorem displayTail_agrees (b : Bracket) (first : Expr) (hc : c.size < k) :
    Advances edge (displayTail self b first) (displayTail self' b first) c := by
  refine .next (.listTail fun d hd => starOr_below hself .named (by omega)) fun rest c' _ => ?_
  exact .expect (by simp) fun _ _ => .done

/-- The rest of a comprehension. -/
theorem comprehension_agrees {close : Symbol} {α : Type} {make : Span → List Clause → α}
    {start : Place} (hc : c.size < k) :
    Stays edge
      (do
        let ks ← clauses self
        expect close
        return make (← spanFrom start) ks)
      (do
        let ks ← clauses self'
        expect close
        return make (← spanFrom start) ks) c :=
  .next (clauses_agree hself hc) fun _ _ _ => .expect (by simp) fun _ _ => .spanned

theorem parenthesized_agrees (hc : c.size ≤ k) :
    Advances edge (parenthesized self) (parenthesized self') c := by
  refine .place fun start => .expect (by simp) fun _ hlt => ?_
  refine .accept (by simp) (fun _ _ => .spanned) fun _ => .sees (fun _ => ?_) fun _ => ?_
  · refine .bind (yieldExpression_agrees hself (by omega)) fun value c' _ => ?_
    exact .expect (by simp) fun _ _ => .done
  refine .bind (starOr_below hself .named (by omega)) fun first c' hlt' => ?_
  refine startsClause_agrees fun starts => .ite (fun _ => ?_) fun _ => ?_
  · exact comprehension_agrees hself (by omega)
  refine .accept (by simp) (fun _ _ => ?_) fun _ => ?_
  · cases first with
    | tuple => exact .spanned
    | _ => exact .done
  · exact .bind (displayTail_agrees hself .round first (by omega)) fun _ _ _ => .spanned

theorem listDisplay_agrees (hc : c.size ≤ k) :
    Advances edge (listDisplay self) (listDisplay self') c := by
  refine .place fun start => .expect (by simp) fun _ hlt => ?_
  refine .accept (by simp) (fun _ _ => .spanned) fun _ => ?_
  refine .bind (starOr_below hself .named (by omega)) fun first c' hlt' => ?_
  refine startsClause_agrees fun starts => .ite (fun _ => ?_) fun _ => ?_
  · exact comprehension_agrees hself (by omega)
  · exact .bind (displayTail_agrees hself .square first (by omega)) fun _ _ _ => .spanned

theorem dictItem_agrees (hc : c.size < k) : Advances edge (dictItem self) (dictItem self') c := by
  refine .accept (by simp) (fun _ hlt => ?_) fun _ => ?_
  · exact .bind (hself _ (by omega) .bitOr) fun _ _ _ => .done
  · refine .bind (hself c hc .test) fun key c' hlt => .expect (by simp) fun _ hlt' => ?_
    exact .bind (hself _ (by omega) .test) fun _ _ _ => .done

theorem dictItems_agree (hc : c.size < k) : Advances edge (dictItems self) (dictItems self') c := by
  refine .next (.listUpTo fun d hd => dictItem_agrees hself (by omega)) fun items c' _ => ?_
  exact .expect (by simp) fun _ _ => .done

theorem dictTail_agrees (first : DictItem) (hc : c.size < k) :
    Advances edge (dictTail self first) (dictTail self' first) c := by
  refine .accept (by simp) (fun _ hlt => ?_) fun _ => .expect (by simp) fun _ _ => .done
  exact .bind (dictItems_agree hself (by omega)) fun _ _ _ => .done

theorem braceDisplay_agrees (hc : c.size ≤ k) :
    Advances edge (braceDisplay self) (braceDisplay self') c := by
  refine .place fun start => .expect (by simp) fun _ hlt => ?_
  refine .accept (by simp) (fun _ _ => .spanned) fun _ => .sees (fun _ => ?_) fun _ => ?_
  · exact .bind (dictItems_agree hself (by omega)) fun _ _ _ => .spanned
  refine .bind (starOr_below hself .named (by omega)) fun first c' hlt' => ?_
  refine .accept (by simp) (fun _ hlt'' => ?_) fun _ => ?_
  · refine .bind (hself _ (by omega) .test) fun value d hd => ?_
    refine startsClause_agrees fun starts => .ite (fun _ => ?_) fun _ => ?_
    · exact comprehension_agrees hself (by omega)
    · exact .bind (dictTail_agrees hself _ (by omega)) fun _ _ _ => .spanned
  refine startsClause_agrees fun starts => .ite (fun _ => ?_) fun _ => ?_
  · exact comprehension_agrees hself (by omega)
  · exact .bind (displayTail_agrees hself .curly first (by omega)) fun _ _ _ => .spanned

omit hself in
theorem stringPart_agrees : Rounds edge stringPart stringPart c := by
  refine .peek fun l hl => ?_
  cases l with
  | string text => exact .advance (by simp [hl]) fun _ => .done
  | _ => exact .nothing

theorem atom_agrees (hc : c.size ≤ k) : Advances edge (atom self) (atom self') c := by
  have hconstant (start : Place) (value : Constant) (hne : edge.stop c.next.lexeme = false) :
      Advances edge
        (do
          advance
          return Expr.constant (← spanFrom start) value)
        (do
          advance
          return Expr.constant (← spanFrom start) value) c :=
    .advance hne fun _ => .spanned
  refine .place fun start => .peek fun l hl => ?_
  cases l with
  | keyword k =>
    cases k with
    | none_ => exact hconstant start .none (by simp [hl])
    | true_ => exact hconstant start .true (by simp [hl])
    | false_ => exact hconstant start .false (by simp [hl])
    | _ => exact .fail _
  | name id => exact .advance (by simp [hl]) fun _ => .spanned
  | number text => exact hconstant start (.number text) (by simp [hl])
  | string text =>
    have hparts : Advances edge (many stringPart) (many stringPart) c := by
      refine .many_of_advances (stringPart_agrees.advances fun o c' ho => ?_) fun _ _ =>
        stringPart_agrees
      simp only [stringPart, bind_apply, peek_apply, hl, advance_apply, pure_apply] at ho
      cases ho
      rfl
    exact .bind hparts fun _ _ _ => .spanned
  | symbol s =>
    cases s with
    | ellipsis => exact hconstant start .ellipsis (by simp [hl])
    | opening b =>
      cases b with
      | round => exact parenthesized_agrees hself hc
      | square => exact listDisplay_agrees hself hc
      | curly => exact braceDisplay_agrees hself hc
    | _ => exact .fail _
  | _ => exact .fail _

theorem callArgument_agrees (hc : c.size < k) :
    Advances edge (callArgument self) (callArgument self') c := by
  refine .place fun start => .accept (by simp) (fun _ hlt => ?_) fun _ =>
    .accept (by simp) (fun _ hlt => ?_) fun _ => ?_
  · exact .bind (hself _ (by omega) .test) fun _ _ _ => .done
  · exact .bind (hself _ (by omega) .test) fun _ _ _ => .spanned
  refine .peek fun l hl => .peekSecond (fun hne => .ite (fun hnamed => ?_) fun _ => ?_)
    fun hend _ _ => ?_
  · obtain ⟨-, hassign⟩ := Bool.and_eq_true_iff.1 hnamed
    refine .scanned fun hs => .name fun arg hlt => .advance ?_ fun hlt' => ?_
    · rw [← second_of_later (hs.later_ne_nil hne), eq_of_beq hassign]
      simp
    · exact .bind (hself _ (by omega) .test) fun _ _ _ => .done
  rotate_left
  -- No word closes the tokens, so the argument has no name there.
  have hword : l.isWord = false := by cases l <;> simp_all [Lexeme.isWord]
  rw [hword]
  all_goals
    refine .bind (hself c hc .named) fun value c' hlt => ?_
    refine startsClause_agrees fun starts => .ite (fun _ => ?_) fun _ => .done
    exact .next (clauses_agree hself (by omega)) fun _ _ _ => .spanned

theorem callArguments_agree (hc : c.size < k) :
    Stays edge (callArguments self) (callArguments self') c :=
  .map (.listUpTo fun d hd => callArgument_agrees hself (by omega)) fun _ => False.elim

omit hself in
/-- A bound of a slice that may be missing. -/
theorem bound_agrees {p q : Rule Expr} {f g : Option Expr → Rule Expr} (missing : Bool)
    (hp : Advances edge p q c) (hf : ∀ o c', c'.size ≤ c.size → Stays edge (f o) (g o) c') :
    Stays edge (if missing then pure none >>= f else (some <$> p) >>= f)
      (if missing then pure none >>= g else (some <$> q) >>= g) c :=
  .ite (fun _ => .known (hf none c (Nat.le_refl _))) fun _ => .next hp.given hf

theorem sliceRest_agrees (start : Place) (lower : Option Expr) (hc : c.size < k) :
    Agrees edge (fun _ => lower.isNone) (sliceRest self start lower)
      (sliceRest self' start lower) c := by
  refine .accept (by simp) (fun _ hlt => .peek fun l _ => ?_) fun _ => ?_
  · refine bound_agrees _ (hself _ (by omega) .test) fun upper c' hle => ?_
    refine .accept (by simp) (fun _ hlt' => .peek fun l' _ => ?_) fun _ => .known .spanned
    exact bound_agrees _ (hself _ (by omega) .test) fun _ _ _ => .spanned
  · cases lower with
    | none => exact .fail _
    | some e => exact .pure nofun

theorem sliceItem_agrees (hc : c.size < k) :
    Advances edge (sliceItem self) (sliceItem self') c := by
  refine .place fun start => .sees (fun _ => starOr_below hself .test hc) fun _ =>
    .sees (fun _ => ?_) fun _ => ?_
  · exact sliceRest_agrees hself start none hc |>.mono fun _ _ => rfl
  · refine .bind (hself c hc .named |>.map fun _ _ => trivial) fun lower c' hlt => ?_
    exact (sliceRest_agrees hself start lower (by omega)).stays

theorem slices_agree (hc : c.size < k) : Advances edge (slices self) (slices self') c :=
  itemOrTuple_agrees (sliceItem_agrees hself hc) fun d hd => sliceItem_agrees hself (by omega)

theorem primary_agrees (hc : c.size ≤ k) : Advances edge (primary self) (primary self') c := by
  refine .place fun start => .bind (atom_agrees hself hc) fun first c' hlt => ?_
  refine .grow fun value d hd => .accept (by simp) (fun _ hlt' => ?_) fun _ =>
    .accept (by simp) (fun _ hlt' => ?_) fun _ => .accept (by simp) (fun _ hlt' => ?_)
      fun _ => .nothing
  · exact .name fun field _ => .spanned
  · refine .next (callArguments_agree hself (by omega)) fun args e _ => ?_
    exact .expect (by simp) fun _ _ => .spanned
  · refine .bind (slices_agree hself (by omega)) fun index e _ => ?_
    exact .expect (by simp) fun _ _ => .spanned

/-- At the same cursor a rule asks only for stronger levels than its own. -/
theorem parseLevel_agrees (level : Level) (hc : c.size ≤ k)
    (hat : ∀ l : Level, level < l → Advances edge (self l) (self' l) c) :
    Advances edge (parseLevel self level) (parseLevel self' level) c := by
  cases level with
  | named => exact namedExpression_agrees hself hc (hat .test (by decide))
  | yielded =>
    exact .sees (fun _ => yieldExpression_agrees hself hc) fun _ => hat .tuple (by decide)
  | tuple => exact starExpressions_agrees hself hc (hat .test (by decide))
  | test => exact expression_agrees hself hc (hat .disjunction (by decide))
  | disjunction => exact boolLevel_agrees hself .or hc (hat .conjunction (by decide))
  | conjunction => exact boolLevel_agrees hself .and hc (hat .negation (by decide))
  | negation => exact negation_agrees hself hc (hat .comparison (by decide))
  | comparison => exact comparison_agrees hself hc (hat .bitOr (by decide))
  | bitOr | bitXor | bitAnd | shift | sum | product =>
    exact binaryLevel_agrees hself _ hc (hat _ (by decide))
  | signed => exact signed_agrees hself hc (hat .power (by decide))
  | power => exact power_agrees hself hc (hat .awaited (by decide))
  | awaited => exact awaited_agrees hself hc (hat .atom (by decide))
  | atom => exact primary_agrees hself hc

end

def nestAt (lost : Level → Rule Expr) : Nat → Level → Rule Expr
  | 0 => lost
  | depth + 1 => parseLevel (nestAt lost depth)

theorem parseAt_eq_nestAt (depth : Nat) :
    parseAt depth = nestAt (fun _ => fail .invalid) depth := by
  induction depth with
  | zero => rfl
  | succ depth ih => exact funext fun level => congrArg (parseLevel · level) ih

theorem rank_lt (level : Level) : level.rank < 18 := by cases level <;> decide

/-- There are 18 levels, and each token that is read starts over with the weakest. -/
theorem nestAt_agrees {lost lost' : Level → Rule Expr} {n m : Nat} {level : Level}
    (hn : 18 * c.size ≤ n + level.rank) (hm : 18 * c.size ≤ m + level.rank) :
    Advances edge (nestAt lost n level) (nestAt lost' m level) c := by
  have hrank := rank_lt level
  have hsize := c.one_le_size
  induction n generalizing m level c with
  | zero => omega
  | succ n ih =>
    obtain ⟨m, rfl⟩ := Nat.exists_eq_add_of_le' (show 1 ≤ m by omega)
    -- Behind a token any level may come, at the same cursor only a stronger one.
    refine parseLevel_agrees (fun d hd l => ?_) level (Nat.le_refl c.size) fun l hl => ?_
    · exact ih (by omega) (by omega) (rank_lt l) d.one_le_size
    · have hlt : level.rank < l.rank := hl
      exact ih (by omega) (by omega) (rank_lt l) hsize

theorem expr_eq_nestAt (level : Level) (c : Cursor) :
    expr level c = nestAt (fun _ => fail .invalid) (20 * (c.size + 1)) level c :=
  congrFun (congrFun (parseAt_eq_nestAt _) level) c

/-- A depth that is enough, with any rules beyond it. -/
theorem expr_agrees_nestAt {lost : Level → Rule Expr} {n : Nat} {level : Level}
    (hn : 18 * c.size ≤ n + level.rank) : Advances edge (expr level) (nestAt lost n level) c := by
  have hnest : Advances edge (nestAt (fun _ => fail .invalid) (20 * (c.size + 1)) level)
      (nestAt lost n level) c := nestAt_agrees (by omega) hn
  exact hnest.congr (expr_eq_nestAt level c) rfl

theorem expr_agrees (level : Level) (c : Cursor) : Advances edge (expr level) (expr level) c := by
  have hle := c.size_le_before edge.extra
  exact (expr_agrees_nestAt (by omega)).congr rfl (expr_eq_nestAt level _)

theorem agreeBelow_expr (k : Nat) : AgreeBelow edge expr expr k :=
  fun c _ level => expr_agrees level c

/-- The knot is tied: the rules of the levels are made from themselves. -/
theorem parseLevel_expr (hs : c.Scanned) (level : Level) :
    parseLevel expr level c = expr level c := by
  have hdepth : nestAt (fun _ => fail .invalid) (18 * c.size + 1) level c = expr level c :=
    (expr_agrees_nestAt (by omega)).eq hs
  rw [← hdepth]
  refine (Agrees.eq (parseLevel_agrees (fun d hd l => ?_) level (Nat.le_refl c.size) fun l _ => ?_)
    hs).symm
  · exact expr_agrees_nestAt (by omega)
  · exact expr_agrees_nestAt (by omega)

end AsyncErasure.Grammar
