import AsyncErasure.Proofs.Grammar.Block

namespace AsyncErasure

open Fragment Grammar Grammar.Rule

namespace Token

/-- Marks that begin with those of lexemes belong to tokens that begin with these lexemes. -/
theorem split_of_marks {ls : List Lexeme} (hls : ∀ l ∈ ls, l.isLayout = false) {tokens : List Token}
    {line : Nat} {ms : List Mark} (h : tokens.map mark = trace line ls ++ ms) :
    ∃ ts rest, tokens = ts ++ rest ∧ ts.map lexeme = ls ∧ rest.map mark = ms := by
  induction ls generalizing tokens line with
  | nil => exact ⟨[], tokens, rfl, rfl, h⟩
  | cons l ls ih =>
    rw [trace, List.cons_append] at h
    rcases List.map_eq_cons_iff.1 h with ⟨t, tokens, rfl, ht, htokens⟩
    rcases ih (fun x hx => hls x (List.mem_cons_of_mem _ hx)) htokens with ⟨ts, rest, rfl,
      hts, hrest⟩
    have hl : t.lexeme = l := by
      refine Lexeme.eq_of_settled ?_ fun written hw => ?_
      · rw [← lexeme_mark, ht]
      · have hlayout := hls l (by simp)
        rw [hw] at hlayout
        cases hlayout
    exact ⟨t :: ts, rest, rfl, by rw [List.map_cons, hl, hts], hrest⟩

end Token

namespace Grammar

/-- A cursor passes tokens that stand before a further one. -/
theorem passes_of_tokens {ts rest : List Token} {closer : Token} {c : Cursor}
    (h : c.next :: c.later = ts ++ closer :: rest) :
    ∃ c', Passes (ts.map Token.lexeme) c c' ∧ c'.next = closer ∧ c'.later = rest := by
  induction ts generalizing c with
  | nil =>
    injection h with hnext hlater
    exact ⟨c, .nil c, hnext, hlater⟩
  | cons t ts ih =>
    injection h with hnext hlater
    have hne : c.later ≠ [] := by simp [hlater]
    have hadvance : c.advance.next :: c.advance.later = ts ++ closer :: rest := by
      show c.advance.next :: c.advance.later = ts.append (closer :: rest)
      rw [← hlater]
      rcases c with ⟨next, _ | ⟨u, us⟩, reached⟩
      · exact absurd rfl hne
      · rfl
    rcases ih hadvance with ⟨c', hp, hc'⟩
    exact ⟨c', .cons (congrArg Token.lexeme hnext) hne hp, hc'⟩

end Grammar

namespace Expr

/-- The expression as a context shows it: a tuple stands in brackets if and only if its text
does. -/
def written (context : Level) : Expr → Expr
  | e@(tuple s elts _) => tuple s elts (e.needsBrackets context)
  | e => e

/-- A tuple that the context puts into brackets is printed as one that has them. -/
theorem lexemesIn_written (e : Expr) (context : Level) :
    (e.written context).lexemesIn context = e.lexemesIn context := by
  cases e with
  | tuple s elts parenthesized =>
    have hn : ((tuple s elts parenthesized).written context).needsBrackets context =
        (tuple s elts parenthesized).needsBrackets context := by
      cases parenthesized <;> simp [written, needsBrackets]
    unfold lexemesIn fragmentsIn enclosed
    rw [hn]
    rfl
  | _ => rfl

/-- Where a tuple may stand bare every expression is shown as it is. -/
theorem written_of_rank_le_two {e : Expr} (hf : e.fits .elements) {context : Level}
    (hc : context.rank ≤ 2) : e.written context = e := by
  have hle : ¬Level.tuple < context := Nat.not_lt.2 hc
  cases e with
  | tuple s elts parenthesized =>
    cases parenthesized with
    | true => simp [written, needsBrackets]
    | false =>
      simp only [fits, Bool.and_eq_true, Bool.not_eq_true'] at hf
      simp [written, needsBrackets, hle, hf.1.2]
  | _ => rfl

/-- Where a tuple needs brackets every expression but a starred one is shown as a plain one. -/
theorem written_fits_plain {e : Expr} (hf : e.fits .elements) (hs : e.isStarred = false)
    {context : Level} (hc : 3 ≤ context.rank) : (e.written context).fits .plain := by
  have hlt : Level.tuple < context := hc
  rcases bareTuple_or_fits hf with ⟨s, elts, rfl, -, helts⟩ | hf
  · have hall : Fits.exprs .element elts := Fits.exprs_eq_true.2 helts
    simpa [written, needsBrackets, hlt, fits] using hall
  rcases starred_or_plain hf rfl rfl with ⟨s, v, rfl, -⟩ | ⟨hplain, -⟩
  · cases hs
  · cases e with
    | tuple s elts parenthesized =>
      cases parenthesized with
      | true => simpa [written, needsBrackets, fits] using hplain
      | false => simp [fits, Slot.plain] at hplain
    | _ => exact hplain

end Expr

namespace Grammar

def Closes (l : Lexeme) : Prop := l = .symbol (.closing .round) ∨ ∃ written, l = .newline written

theorem Closes.grip_eq {l : Lexeme} (h : Closes l) : l.grip = 0 := by
  rcases h with rfl | ⟨written, rfl⟩ <;> rfl

theorem limit_pos (level : Level) : 0 < level.limit := by
  cases level <;> decide

/-- The rule of a level reads what is printed where that level is asked for. -/
theorem takes_written {e : Expr} (hf : e.fits .elements) (hs : e.isStarred = false)
    {context : Level}
    (hn : context = .named → ∃ s target value, e = .named s target value) (c : Cursor) :
    Takes (expr context) c (e.lexemesIn context) context.limit (e.written context) := by
  by_cases hc : 3 ≤ context.rank
  · rw [← Expr.lexemesIn_written]
    exact take_plain (Expr.written_fits_plain hf hs hc) context context (Nat.le_refl _) hc
  rw [Expr.written_of_rank_le_two hf (by omega)]
  cases context with
  | named =>
    rcases hn rfl with ⟨s, target, value, rfl⟩
    exact take_condition (x := .named s target value) hf
  | yielded => exact take_value hf (.inr rfl)
  | tuple => exact take_tuple hf
  | _ => exact absurd (Nat.le_of_ble_eq_true rfl) hc

end Grammar

/-- The text of an expression is scanned to its lexemes and the end of their line. -/
theorem Expr.scan_render {e : Expr} (hf : e.fits .elements) (context : Level) :
    ∃ (ts : List Token) (line stop : Token),
      Token.scan (e.render context) = .ok (ts ++ [line, stop]) ∧
      (∃ written, line.lexeme = .newline written) ∧ stop.lexeme = .endMarker ∧
      ts.map Token.lexeme = e.lexemesIn context ∧ ∀ t ∈ ts, t.lexeme.isCode := by
  have hcode : Row.IsCode (e.fragmentsIn context) := (Spelling.prints_expr hf rfl context).isCode
  have hsound : Row.Sound false 0 [.code 0 (e.fragmentsIn context)] :=
    ⟨Nat.zero_le _, hcode, trivial⟩
  have htext : '\n' :: (e.render context).toList =
      Row.spellAll [.code 0 (e.fragmentsIn context)] ++ List.replicate 0 '\n' := by
    rw [Spelling.toList_render]
    simp [Row.chars]
  rcases Token.exists_scan 0 hsound htext with ⟨tokens, hscan, hmarks⟩
  have hkind := isCode_of_legible (hcode.legible [] (by simp))
  rcases Token.split_of_marks (fun l hl => Lexeme.isLayout_of_isCode (hkind l hl)) hmarks with
    ⟨ts, ends, rfl, hts, hends⟩
  rcases List.map_eq_cons_iff.1 hends with ⟨line, ends, rfl, hline, hends⟩
  rcases List.map_eq_cons_iff.1 hends with ⟨stop, ends, rfl, hstop, hends⟩
  obtain rfl := List.map_eq_nil_iff.1 hends
  refine ⟨ts, line, stop, hscan, ?_, ?_, hts, fun t ht => ?_⟩
  · apply Lexeme.isNewline_of_settled
    rw [← Token.lexeme_mark, hline]
    rfl
  · refine Lexeme.eq_of_settled ?_ (by simp)
    rw [← Token.lexeme_mark, hstop]
    rfl
  · apply hkind
    rw [← hts]
    exact List.mem_map_of_mem ht

/-- Where the level is asked for, the text of an expression makes one line of code. The rule of the
level reads the tokens of that line, all of them and no others, as the expression, if a closing
bracket or the end of a line comes behind them. -/
def Expr.ReadsBack (context : Level) (e : Expr) : Prop :=
  ∃ (ts : List Token) (line stop : Token),
    Token.scan (e.render context) = .ok (ts ++ [line, stop]) ∧
    (∃ written, line.lexeme = .newline written) ∧ stop.lexeme = .endMarker ∧
    (∀ t ∈ ts, t.lexeme.isCode) ∧
    ∀ (closer : Token) (rest : List Token) (c : Cursor), Closes closer.lexeme →
      c.next :: c.later = ts ++ closer :: rest →
      ∃ e' c', expr context c = .ok (e', c') ∧ e'.shape = (e.written context).shape ∧
        c'.next = closer ∧ c'.later = rest

/-- At every level the printer and the reader agree on the expressions that stand there. -/
theorem Expr.readsBack {e : Expr} (hf : e.fits .elements) (hs : e.isStarred = false)
    {context : Level} (hn : context = .named → ∃ s target value, e = .named s target value) :
    e.ReadsBack context := by
  rcases Expr.scan_render hf context with ⟨ts, line, stop, hscan, hline, hstop, hts, hcode⟩
  refine ⟨ts, line, stop, hscan, hline, hstop, hcode, fun closer rest c hcloser hc => ?_⟩
  rcases passes_of_tokens hc with ⟨c', hpasses, hnext, hlater⟩
  rw [hts] at hpasses
  -- neither a closing bracket nor the end of a line goes on with any expression
  have hgrip : c'.next.lexeme.grip < context.limit := by
    rw [hnext, hcloser.grip_eq]
    exact limit_pos context
  rcases takes_written hf hs hn c c' hpasses hgrip with ⟨e', he', hshape⟩
  exact ⟨e', c', he', hshape, hnext, hlater⟩

def Expr.bareRow : Expr :=
  let named (id : String) : Expr := .name .nowhere id
  .tuple .nowhere
    [.binOp .nowhere .pow (.await .nowhere (named "a"))
      (.unaryOp .nowhere .minus (.binOp .nowhere .pow (named "b") (named "c"))),
      .ifElse .nowhere (.unaryOp .nowhere .not (named "d"))
        (.named .nowhere (named "e") (named "f"))
        (.lambda .nowhere ⟨[], [], none, [], none⟩ (.yield .nowhere (some (named "g")))),
      .starred .nowhere (.attr .nowhere (.constant .nowhere (.number "1")) "real")] false

theorem Expr.readsBack_bareRow : Expr.bareRow.fits .elements ∧ Expr.bareRow.isStarred = false ∧
    (Level.atom = .named → ∃ s target value, Expr.bareRow = .named s target value) ∧
    Expr.bareRow.ReadsBack .atom :=
  ⟨by decide +kernel, rfl, nofun, Expr.readsBack (by decide +kernel) rfl nofun⟩

end AsyncErasure
