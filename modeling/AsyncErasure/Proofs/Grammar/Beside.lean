import AsyncErasure.Proofs.Grammar.Progress
import AsyncErasure.Proofs.Token.Aside

namespace AsyncErasure

namespace Lexeme

variable {l : Lexeme}

/-- A comment of its own, or the end of a block: what may stand elsewhere among the same code. -/
def isLoose : Lexeme → Bool
  | comment _ inline => !inline
  | dedent => true
  | _ => false

theorem isLoose_eq_false_iff : l.isLoose = false ↔ l.isAside = false ∧ l ≠ .dedent := by
  cases l <;> simp [isLoose, isAside]

theorem isLoose_of_isCode (h : l.isCode) : l.isLoose = false := by
  cases l <;> first | rfl | cases h

theorem isComment_of_isAside (h : l.isAside) : l.isComment := by
  cases l <;> first | rfl | cases h

theorem isLayout_of_isComment (h : l.isComment) : l.isLayout = false := by
  cases l <;> first | rfl | cases h

theorem isAside_of_not_comment (h : l.isComment = false) : l.isAside = false := by
  cases l <;> first | rfl | cases h

end Lexeme

/-- Tokens that cannot stand elsewhere are all code or layout of it. -/
theorem Token.code_eq_self {tokens : List Token} (h : ∀ t ∈ tokens, t.lexeme.isLoose = false) :
    code tokens = tokens := by
  induction tokens with
  | nil => rfl
  | cons t tokens ih =>
    obtain ⟨ht, htokens⟩ := List.forall_mem_cons.1 h
    obtain ⟨haside, hdedent⟩ := Lexeme.isLoose_eq_false_iff.1 ht
    rw [code_cons haside, unplaced_eq hdedent, ih htokens]

theorem Token.code_dropWhile (tokens : List Token) : code (tokens.dropWhile (·.lexeme.isComment)) =
    (code tokens).dropWhile (·.lexeme.isComment) := by
  induction tokens with
  | nil => rfl
  | cons t tokens ih =>
    cases haside : t.lexeme.isAside with
    | true =>
      rw [code_cons_aside haside, ← ih]
      simp [Lexeme.isComment_of_isAside haside]
    | false =>
      rw [code_cons haside]
      cases ht : t.lexeme.isComment <;> simp [lexeme_unplaced, code_cons, haside, ht, ih]

namespace Grammar

open Token (Run)

namespace Cursor

structure Streams (c : Cursor) : Prop where
  scanned : c.Scanned
  run : ∃ p, Run p (c.tokens.map Token.lexeme) ⟨.closed, 0, []⟩

variable {c c' d d' : Cursor} {read : List Token}

theorem isLayout_endMarker (h : c.next.lexeme.isLayout = false) : c.next.lexeme ≠ .endMarker := by
  intro hend
  rw [hend] at h
  cases h

namespace Streams

theorem later_ne_nil (h : c.Streams) (hl : c.next.lexeme.isLayout = false) : c.later ≠ [] :=
  h.scanned.later_ne_nil (isLayout_endMarker hl)

theorem step (h : c.Streams) (hlater : c.later ≠ []) : c.advance.Streams := by
  obtain ⟨p, hrun⟩ := h.run
  rw [tokens_advance hlater, List.map_cons] at hrun
  cases hrun with
  | cons _ later => exact ⟨h.scanned.step hlater, _, later⟩

theorem rest (h : c.Streams) (hm : c.Moves read d) : d.Streams := by
  induction hm with
  | stay => exact h
  | step hlater _ ih => exact ih (h.step hlater)

/-- Within a line everything is in its place. -/
theorem advance_isLoose (h : c.Streams) (hl : c.next.lexeme.isLayout = false)
    (ha : c.next.lexeme.isAside = false) : c.advance.next.lexeme.isLoose = false := by
  obtain ⟨p, hrun⟩ := h.run
  rw [tokens_advance (h.later_ne_nil hl), List.map_cons, tokens, List.map_cons] at hrun
  generalize c.next.lexeme = l at hrun hl ha
  generalize c.advance.next.lexeme = m at hrun
  -- Behind a comment in a line only its end comes, and behind code only what a line may hold.
  cases hrun with
  | cons first later =>
    cases later with
    | cons second _ =>
      cases first with
      | newline | indent | dedent | endMarker => cases hl
      | comment => cases ha
      | remark =>
        cases second with
        | newline => rfl
        | remark _ hp | code _ hp => simp at hp
      | code =>
        cases second with
        | newline | remark => rfl
        | code hcode => exact Lexeme.isLoose_of_isCode hcode

/-- A line goes on up to a token of layout, and nothing on it may stand elsewhere. -/
theorem exists_line (h : c.Streams) (hl : c.next.lexeme.isLoose = false) :
    ∃ (inner : List Token) (last : Token) (rest : List Token),
      c.tokens = inner ++ [last] ++ rest ∧ last.lexeme.isLayout ∧
      (∀ t ∈ inner, t.lexeme.isLayout = false) ∧
      ∀ t ∈ inner ++ [last], t.lexeme.isLoose = false := by
  induction hsize : c.size generalizing c with
  | zero => exact absurd c.one_le_size (by omega)
  | succ n ih =>
    cases hlayout : c.next.lexeme.isLayout with
    | true => exact ⟨[], c.next, c.later, rfl, hlayout, nofun, by simpa using hl⟩
    | false =>
      have hlater := h.later_ne_nil hlayout
      have hahead := h.advance_isLoose hlayout (Lexeme.isLoose_eq_false_iff.1 hl).1
      obtain ⟨inner, last, rest, htokens, hlast, hinner, hall⟩ :=
        ih (h.step hlater) hahead (by have := size_advance hlater; omega)
      refine ⟨c.next :: inner, last, rest, by rw [tokens_advance hlater, htokens]; rfl,
        hlast, ?_, ?_⟩
      · exact List.forall_mem_cons.2 ⟨hlayout, hinner⟩
      · exact List.forall_mem_cons.2 ⟨hl, hall⟩

end Streams

/-- The same code is ahead of two cursors. -/
structure Along (c c' : Cursor) : Prop where
  code : Token.code c.tokens = Token.code c'.tokens
  left : c.Streams
  right : c'.Streams

structure Beside (c c' : Cursor) : Prop extends Along c c' where
  here : c.next.lexeme.isLoose = false
  there : c'.next.lexeme.isLoose = false

structure Level (c c' : Cursor) : Prop extends Beside c c' where
  reached : c.reached = c'.reached

theorem Along.symm (h : c.Along c') : c'.Along c := ⟨h.code.symm, h.right, h.left⟩

theorem Beside.symm (h : c.Beside c') : c'.Beside c := ⟨h.toAlong.symm, h.there, h.here⟩

namespace Along

theorem tokens_later (h : c.next.lexeme ≠ .endMarker) (hs : c.Streams) :
    c.advance.tokens = c.later := by
  have := tokens_advance (hs.scanned.later_ne_nil h)
  exact (List.cons.inj this).2.symm

/-- A comment of its own is passed on one side alone. -/
theorem pass (h : c.Along c') (ha : c.next.lexeme.isAside) : c.advance.Along c' := by
  have hlater := h.left.later_ne_nil (Lexeme.isLayout_of_isComment (Lexeme.isComment_of_isAside ha))
  refine ⟨?_, h.left.step hlater, h.right⟩
  rw [← h.code, tokens_advance hlater, Token.code_cons_aside ha]

theorem heads (h : c.Along c') (hl : c.next.lexeme.isAside = false)
    (hl' : c'.next.lexeme.isAside = false) :
    c.next.unplaced = c'.next.unplaced ∧ Token.code c.later = Token.code c'.later := by
  have hcode := h.code
  rwa [tokens, tokens, Token.code_cons hl, Token.code_cons hl', List.cons.injEq] at hcode

theorem lexeme_eq (h : c.Along c') (hl : c.next.lexeme.isAside = false)
    (hl' : c'.next.lexeme.isAside = false) : c.next.lexeme = c'.next.lexeme := by
  rw [← Token.lexeme_unplaced, (h.heads hl hl').1, Token.lexeme_unplaced]

/-- Both sides go past the same code or layout. -/
theorem advance (h : c.Along c') (hl : c.next.lexeme.isAside = false)
    (hl' : c'.next.lexeme.isAside = false) (hne : c.next.lexeme ≠ .endMarker) :
    c.advance.Along c'.advance := by
  have hne' : c'.next.lexeme ≠ .endMarker := h.lexeme_eq hl hl' ▸ hne
  refine ⟨?_, h.left.step (h.left.scanned.later_ne_nil hne),
    h.right.step (h.right.scanned.later_ne_nil hne')⟩
  rw [tokens_later hne h.left, tokens_later hne' h.right, (h.heads hl hl').2]

end Along

namespace Beside

theorem next_eq (h : c.Beside c') : c.next = c'.next := by
  obtain ⟨hl, hd⟩ := Lexeme.isLoose_eq_false_iff.1 h.here
  obtain ⟨hl', hd'⟩ := Lexeme.isLoose_eq_false_iff.1 h.there
  have heq := (h.heads hl hl').1
  rwa [Token.unplaced_eq hd, Token.unplaced_eq hd'] at heq

theorem ahead (h : c.Beside c') (hne : c.next.lexeme ≠ .endMarker) : c.advance.Along c'.advance :=
  h.toAlong.advance (Lexeme.isLoose_eq_false_iff.1 h.here).1
    (Lexeme.isLoose_eq_false_iff.1 h.there).1 hne

theorem reached_advance (h : c.Beside c') (hl : c.next.lexeme.isLayout = false) :
    c.advance.reached = c'.advance.reached := by
  have hreached {c : Cursor} (hl : c.next.lexeme.isLayout = false) :
      c.advance.reached = c.next.span.stop := by
    obtain ⟨next, later, reached⟩ := c
    unfold Cursor.advance
    rw [hl]
    cases later <;> rfl
  rw [hreached hl, hreached (h.next_eq ▸ hl), h.next_eq]

/-- Past the same token of a line the cursors are level. -/
theorem advance (h : c.Beside c') (hl : c.next.lexeme.isLayout = false) :
    c.advance.Level c'.advance := by
  refine ⟨⟨h.ahead (isLayout_endMarker hl), ?_, ?_⟩, h.reached_advance hl⟩
  · exact h.left.advance_isLoose hl (Lexeme.isLoose_eq_false_iff.1 h.here).1
  · exact h.right.advance_isLoose (h.next_eq ▸ hl) (Lexeme.isLoose_eq_false_iff.1 h.there).1

end Beside

/-- What is read along the line is read along it with more tokens behind. -/
theorem Moves.before {rest : List Token} (hm : c.Moves read d) :
    (c.before rest).Moves read (d.before rest) := by
  induction hm with
  | stay => exact .stay _
  | step hlater _ ih =>
    refine .step (List.append_ne_nil_of_left_ne_nil hlater rest) ?_
    rwa [advance_before hlater]

theorem tokens_before (rest : List Token) (c : Cursor) :
    (c.before rest).tokens = c.tokens ++ rest := rfl

namespace Level

/-- Two cursors that are level are in front of the same line. -/
theorem exists_before (h : c.Level c') : ∃ e : Cursor, ∃ rest rest', c = e.before rest ∧
    c' = e.before rest' ∧ e.UpTo Lexeme.isLayout ∧ (∀ t ∈ e.tokens, t.lexeme.isLoose = false) ∧
      Token.code rest = Token.code rest' := by
  obtain ⟨inner, last, rest, htokens, hlast, hinner, hall⟩ := h.left.exists_line h.here
  obtain ⟨inner', last', rest', htokens', hlast', hinner', hall'⟩ := h.right.exists_line h.there
  have hfirst {inner rest : List Token} {last : Token} (hlast : last.lexeme.isLayout)
      (hinner : ∀ t ∈ inner, t.lexeme.isLayout = false) :
      (inner ++ [last] ++ rest).takeWhile (fun t => !t.lexeme.isLayout) = inner := by
    rw [List.append_assoc, List.takeWhile_append_of_pos fun t ht => by simp [hinner t ht],
      List.singleton_append, List.takeWhile_cons_of_neg (by simp [hlast]), List.append_nil]
  have heq := h.code
  rw [htokens, htokens', Token.code_append (_ ++ _), Token.code_append (_ ++ _) rest',
    Token.code_eq_self hall, Token.code_eq_self hall'] at heq
  obtain rfl : inner = inner' := by rw [← hfirst hlast hinner, heq, hfirst hlast' hinner']
  rw [List.append_assoc, List.append_assoc] at heq
  obtain ⟨rfl, hrest⟩ := List.cons.inj (List.append_cancel_left heq)
  -- The line is not empty, and both cursors stand at its first token.
  obtain ⟨t, ts, hline⟩ := List.exists_cons_of_ne_nil
      (List.append_ne_nil_of_right_ne_nil inner (List.cons_ne_nil last []))
  have hbefore {c : Cursor} {rest : List Token} (hc : c.tokens = inner ++ [last] ++ rest) :
      c = Cursor.before rest ⟨t, ts, c.reached⟩ := by
    obtain ⟨next, later, reached⟩ := c
    rw [hline] at hc
    obtain ⟨rfl, rfl⟩ := List.cons.inj hc
    rfl
  refine ⟨⟨t, ts, c.reached⟩, rest, rest', hbefore htokens, h.reached ▸ hbefore htokens', ?_,
    ?_, hrest⟩
  · exact ⟨inner, last, hline.symm, hlast, hinner⟩
  · show ∀ x ∈ t :: ts, _
    rwa [← hline]

/-- What does not look past the line comes to the same at both cursors. -/
theorem copy {α : Type} {G : α → Prop} {p : Rule α} {a : α} (h : c.Level c')
    (hp : ∀ extra d, Agrees (.line extra) G p p d) (ha : p c = .ok (a, d)) :
    ∃ d', p c' = .ok (a, d') ∧ d.Level d' := by
  -- Both cursors are one that has the line alone, with different tokens behind it.
  obtain ⟨e, rest, rest', rfl, rfl, hline, hloose, hcode⟩ := h.exists_before
  obtain ⟨heq, hread, -⟩ := hp rest e hline
  obtain ⟨heq', -, -⟩ := hp rest' e hline
  rw [show (Edge.line rest).extra = rest from rfl, ha] at heq
  cases hpe : p e with
  | error _ =>
    rw [hpe] at heq
    cases heq
  | ok r =>
    obtain ⟨b, e'⟩ := r
    rw [hpe] at heq heq'
    cases heq
    obtain ⟨read, hm, -⟩ := hread _ e' hpe
    have hnext : e'.next ∈ e.tokens := by
      rw [hm.tokens_eq]
      exact List.mem_append_right _ (List.mem_cons_self ..)
    refine ⟨e'.before rest', heq', ⟨⟨?_, h.left.rest hm.before, h.right.rest hm.before⟩, ?_, ?_⟩,
      rfl⟩
    · rw [tokens_before, tokens_before, Token.code_append, Token.code_append, hcode]
    · exact hloose _ hnext
    · exact hloose _ hnext

end Level

end Cursor

section Anew

open Rule

variable {α β : Type} {p q : Rule α} {f : α → Rule β} {c : Cursor}

/-- How the cursor has come to where it stands makes no difference to the rule. -/
def Anew (p : Rule α) (c : Cursor) : Prop := ∀ place, p { c with reached := place } = p c

namespace Anew

theorem fail (fault : Fault) : Anew (Rule.fail fault : Rule α) c := fun _ => rfl

theorem bind (h : Anew p c) : Anew (p >>= f) c := by
  intro place
  rw [bind_apply, bind_apply, h place]

theorem map {g : α → β} (h : Anew p c) : Anew (g <$> p) c := by
  intro place
  rw [map_apply, map_apply, h place]

theorem peek {f : Lexeme → Rule β} (h : Anew (f c.next.lexeme) c) : Anew (Rule.peek >>= f) c := h

theorem peekSecond {f : Lexeme → Rule β} (h : Anew (f c.second.lexeme) c) :
    Anew (Rule.peekSecond >>= f) c := h

theorem place {f : Place → Rule β} (h : Anew (f c.next.span.start) c) : Anew (Rule.place >>= f) c :=
  h

theorem sees {l : Lexeme} {f : Bool → Rule β} (h : ∀ b, Anew (f b) c) :
    Anew (Rule.sees l >>= f) c :=
  h (c.next.lexeme == l)

theorem look {r : Rule α} (h : ∃ a, ∀ place,
    r { c with reached := place } = .ok (a, { c with reached := place }))
    (hf : ∀ a, Anew (f a) c) : Anew (r >>= f) c := by
  intro place
  obtain ⟨a, ha⟩ := h
  rw [bind_apply, bind_apply, ha, ha c.reached]
  exact hf a place

theorem advance (hc : c.next.lexeme.isLayout = false) : Anew Rule.advance c := by
  intro place
  obtain ⟨next, later, reached⟩ := c
  simp only [advance_apply, Cursor.advance, hc]
  rfl

theorem expect {l : Lexeme} (hc : c.next.lexeme.isLayout = false) : Anew (Rule.expect l) c := by
  refine sees fun b => ?_
  cases b
  · exact fail _
  · exact advance hc

theorem many {p : Rule (Option α)} (h : Anew p c) : Anew (Rule.many p) c := by
  intro place
  show Rule.takeItems p (c.later.length + 1) _ = Rule.takeItems p (c.later.length + 1) _
  exact h.bind place

end Anew

variable {self : Level → Rule Expr} (hc : c.next.lexeme.isLayout = false)
include hc

theorem atom_anew : Anew (atom self) c := by
  have hadvance {f : Unit → Rule Expr} : Anew (Rule.advance >>= f) c := (Anew.advance hc).bind
  have hexpect {l : Lexeme} {f : Unit → Rule Expr} : Anew (Rule.expect l >>= f) c :=
    (Anew.expect hc).bind
  refine .place (.peek ?_)
  split
  · exact hadvance
  · exact hadvance
  · exact hadvance
  · exact hadvance
  · exact hadvance
  · rename_i hl
    refine .bind (.many (.peek ?_))
    rw [hl]
    exact (Anew.advance hc).bind
  · exact hadvance
  · exact .place hexpect
  · exact .place hexpect
  · exact .place hexpect
  · exact .fail _

/-- The rule of a level looks at what comes next, or asks for a stronger level. -/
theorem parseLevel_anew (hself : ∀ level, Anew (self level) c) (level : Level) :
    Anew (parseLevel self level) c := by
  have hadvance {f : Unit → Rule Expr} : Anew (Rule.advance >>= f) c := (Anew.advance hc).bind
  have hstar (level : Level) : Anew (starOr self level) c := by
    refine .sees fun b => ?_
    split
    · exact .place hadvance
    · exact hself level
  cases level with
  | named =>
    refine .peek (.peekSecond ?_)
    split
    · exact .place hadvance
    · exact hself .test
  | yielded =>
    refine .sees fun b => ?_
    split
    · exact .place (Anew.expect hc).bind
    · exact hself .tuple
  | tuple => exact .place (hstar .test).bind
  | test =>
    refine .sees fun b => ?_
    split
    · exact .place (Anew.expect hc).bind
    · exact .place (hself .disjunction).bind
  | disjunction | conjunction | comparison | bitOr | bitXor | bitAnd | shift | sum | product
  | power =>
    exact .place (hself _).bind
  | negation | awaited =>
    refine .sees fun b => ?_
    split
    · exact .place hadvance
    · exact hself _
  | signed =>
    refine .look ?_ fun op => ?_
    · cases hl : c.next.lexeme with
      | symbol s => exact ⟨UnaryOp.ofSymbol? s, fun place => by simp [signOp, hl]⟩
      | _ => exact ⟨none, fun place => by simp [signOp, hl]⟩
    · cases op with
      | none => exact hself .power
      | some op => exact .place hadvance
  | atom => exact .place (atom_anew hc).bind

theorem expr_anew (level : Level) : Anew (expr level) c := by
  -- The induction is on the depth, since an expression asks itself for stronger levels.
  have hat (depth : Nat) : ∀ level, Anew (parseAt depth level) c := by
    induction depth with
    | zero => exact fun _ => .fail _
    | succ depth ih => exact parseLevel_anew hc ih
  intro place
  have hsize : Cursor.size { c with reached := place } = c.size := rfl
  rw [expr, expr, hsize]
  exact hat _ level place

theorem simpleStatement_anew : Anew simpleStatement c := by
  refine .place (.peek ?_)
  split
  case h_12 => exact .sees fun _ => (expr_anew hc .yielded).bind
  all_goals exact (Anew.advance hc).bind

end Anew

end Grammar

end AsyncErasure
