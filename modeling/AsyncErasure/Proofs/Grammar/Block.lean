import AsyncErasure.Proofs.Grammar.Line
import AsyncErasure.Proofs.Grammar.Outcome
import AsyncErasure.Proofs.Render.Layout
import AsyncErasure.Proofs.Tree.Gap

namespace AsyncErasure

open Fragment

namespace Grammar

open Rule Lexeme

def Cursor.marks (c : Cursor) : List Token.Mark := (c.next :: c.later).map Token.mark

variable {c c' : Cursor} {ms : List Token.Mark} {m : Token.Mark}

namespace Cursor

theorem marks_advance (h : c.marks = m :: ms) (hms : ms ≠ []) :
    c.later ≠ [] ∧ c.advance.marks = ms := by
  obtain ⟨next, later, reached⟩ := c
  cases later with
  | nil =>
    simp only [marks, List.map_cons, List.map_nil, List.cons.injEq] at h
    exact absurd h.2.symm hms
  | cons t ts =>
    simp only [marks, List.map_cons, List.cons.injEq] at h
    exact ⟨by simp, by simpa [advance, marks] using h.2⟩

theorem settled_next (h : c.marks = m :: ms) : c.next.lexeme.settled = m.lexeme := by
  simp only [marks, List.map_cons, List.cons.injEq] at h
  rw [← h.1, Token.lexeme_mark]

theorem next_of_marks (h : c.marks = m :: ms) (hm : ∀ written, m.lexeme ≠ .newline written) :
    c.next.lexeme = m.lexeme := eq_of_settled (settled_next h) hm

/-- A token that is not layout stands where its mark says. -/
theorem span_next (h : c.marks = m :: ms) (hm : m.lexeme.isLayout = false) :
    c.next.span.line = m.line ∧ c.next.span.endLine = m.endLine := by
  simp only [marks, List.map_cons, List.cons.injEq] at h
  rcases h with ⟨rfl, -⟩
  have hlayout : c.next.lexeme.isLayout = false := by
    rw [← hm, Token.lexeme_mark]
    cases c.next.lexeme <;> rfl
  rw [Token.mark, if_neg (by simp [hlayout])]
  exact ⟨rfl, rfl⟩

theorem reached_advance (h : c.next.lexeme.isLayout = false) :
    c.advance.reached = c.next.span.stop := by
  unfold advance
  cases c.later <;> simp [h]

theorem reached_advance_layout (h : c.next.lexeme.isLayout) : c.advance.reached = c.reached := by
  unfold advance
  cases c.later <;> simp [h]

theorem next_newline (h : c.marks = .layout (.newline true) :: ms) :
    ∃ written, c.next.lexeme = .newline written := isNewline_of_settled (settled_next h)

end Cursor

open Cursor

theorem newline_apply (h : c.marks = .layout (.newline true) :: ms) (hms : ms ≠ []) :
    Grammar.newline c = .ok ((), c.advance) ∧ c.advance.marks = ms ∧
      c.size = c.advance.size + 1 ∧ c.advance.reached = c.reached := by
  obtain ⟨written, hl⟩ := next_newline h
  obtain ⟨hlater, hmarks⟩ := marks_advance h hms
  exact ⟨by simp [Grammar.newline, hl], hmarks, size_advance hlater,
    reached_advance_layout (by rw [hl]; rfl)⟩

/-- A cursor that faces the marks of lexemes can pass them, and ends on the line of the last. -/
theorem passes_of_marks {ls : List Lexeme} (hls : ∀ l ∈ ls, l.isLayout = false) {line : Nat}
    (h : c.marks = Token.trace line ls ++ ms) (hms : ms ≠ []) :
    ∃ c', Passes ls c c' ∧ c'.marks = ms ∧
      (ls ≠ [] → c'.reached.line = line + Token.height ls) := by
  induction ls generalizing c line with
  | nil => exact ⟨c, .nil c, h, fun hne => absurd rfl hne⟩
  | cons l ls ih =>
    rw [Token.trace, List.cons_append] at h
    have hlayout : l.isLayout = false := hls l (List.mem_cons_self ..)
    have hl : c.next.lexeme = l := next_of_marks h fun written hw => by
      simp only at hw
      simp [hw, isLayout] at hlayout
    obtain ⟨hlater, hmarks⟩ := marks_advance h (by simp [hms])
    obtain ⟨c', hp, hc', hline⟩ := ih (fun x hx => hls x (List.mem_cons_of_mem _ hx)) hmarks
    refine ⟨c', .cons hl hlater hp, hc', fun _ => ?_⟩
    rw [Token.height_cons]
    cases ls with
    | nil =>
      obtain rfl := passes_nil.1 hp
      rw [reached_advance (hl ▸ hlayout)]
      exact (span_next h hlayout).2
    | cons x xs =>
      rw [hline (by simp), Nat.add_assoc]

theorem isCode_of_legible {fs : List Fragment} {rest : List Char} (h : Legible fs rest) :
    ∀ l ∈ lexemes fs, l.isCode := by
  induction fs with
  | nil => simp
  | cons f fs ih =>
    cases f with
    | blank => exact ih h
    | lexeme l =>
      obtain ⟨⟨c, cs, -, hm⟩, h⟩ := h
      rw [lexemes_lexeme]
      exact List.forall_mem_cons.2 ⟨isCode_of_munch hm, ih h⟩

theorem isLayout_of_legible {fs : List Fragment} {rest : List Char} (h : Legible fs rest) :
    ∀ l ∈ lexemes fs, l.isLayout = false :=
  fun l hl => isLayout_of_isCode (isCode_of_legible h l hl)

theorem marks_rows_ne_nil (isOpen : Bool) (indent line : Nat) (rows : List Row) :
    Token.marks isOpen indent line rows ≠ [] := by
  induction rows generalizing isOpen indent line with
  | nil => simp [Token.marks]
  | cons row rows ih => cases row <;> simp [Token.marks, ih]

end Grammar

namespace Row

def continuations : List Keyword := [.elif_, .else_, .except_, .finally_]

/-- A row of code that is not read together with the statement before it. -/
def IsFresh (fs : List Fragment) : Prop :=
  ∃ l ls, lexemes fs = l :: ls ∧ l.isLayout = false ∧ l.isComment = false ∧
    ∀ k ∈ continuations, l ≠ .keyword k

/-- Rows that may follow a statement of the given depth and are not read together with it. -/
def Clear (depth : Nat) : List Row → Prop
  | [] => True
  | code d fs :: _ => d < depth ∨ d = depth ∧ IsFresh fs
  | comment d _ :: rows => d < depth ∨ d = depth ∧ Clear depth rows
  | remark .. :: _ => False
  | gap :: rows => Clear depth rows

def Closes (depth : Nat) : List Row → Prop
  | [] => True
  | code d _ :: _ => d ≤ depth
  | comment d _ :: _ => d ≤ depth
  | remark .. :: _ => False
  | gap :: rows => Closes depth rows

variable {depth : Nat} {rows : List Row}

theorem Clear.closes (h : Clear depth rows) : Closes depth rows := by
  induction rows with
  | nil => trivial
  | cons row rows ih =>
    cases row with
    | code | comment => exact h.elim Nat.le_of_lt fun h => Nat.le_of_eq h.1
    | remark => exact h
    | gap => exact ih h

theorem Closes.clear (h : Closes depth rows) : Clear (depth + 1) rows := by
  induction rows with
  | nil => trivial
  | cons row rows ih =>
    cases row with
    | code | comment => exact .inl (Nat.lt_succ_of_le h)
    | remark => exact h
    | gap => exact ih h

theorem Closes.head_ne_remark (h : Closes depth rows) (d : Nat) (text : String) :
    rows.head? ≠ some (.remark d text) := by
  cases rows with
  | nil => simp
  | cons row rows =>
    cases row with
    | remark => exact h.elim
    | _ => simp

end Row

namespace Token

open Row

variable {depth line : Nat} {rows : List Row}

/-- A block is left by one step back. -/
theorem marks_closes (h : Closes depth rows) (line : Nat) :
    marks false (depth + 1) line rows = .layout .dedent :: marks false depth line rows := by
  have hreplicate {d : Nat} (hd : d ≤ depth) :
      List.replicate (depth + 1 - d) (Mark.layout .dedent) =
      .layout .dedent :: List.replicate (depth - d) (.layout .dedent) := by
    rw [← List.replicate_succ]
    congr 1
    omega
  induction rows generalizing line with
  | nil => simp [marks, lineEnd, List.replicate_succ]
  | cons row rows ih =>
    cases row with
    | code d fs =>
      have hd : d ≤ depth := h
      simp [marks, lineEnd, shift, hreplicate hd, Nat.not_lt.2 hd,
        Nat.not_lt.2 (Nat.le_succ_of_le hd)]
    | comment d text =>
      have hd : d ≤ depth := h
      simp [marks, lineEnd, hreplicate hd, Nat.min_eq_right hd,
        Nat.min_eq_right (Nat.le_succ_of_le hd)]
    | remark => exact h.elim
    | gap => simpa [marks, lineEnd] using ih h (line + 1)

/-- Behind an open line comes its end, unless a remark follows. -/
theorem marks_open (h : ∀ d text, rows.head? ≠ some (.remark d text)) (indent line : Nat) :
    marks true indent line rows = .layout (.newline true) :: marks false indent line rows := by
  cases rows with
  | nil => simp [marks, lineEnd]
  | cons row rows =>
    cases row with
    | remark d text => exact absurd rfl (h d text)
    | _ => simp [marks, lineEnd]

def Fresh (ms : List Mark) : Prop :=
  ∀ m ∈ (ms.dropWhile (·.lexeme.isComment)).head?, ∀ k ∈ continuations, m.lexeme ≠ .keyword k

theorem fresh_marks (h : Clear depth rows) (line : Nat) : Fresh (marks false depth line rows) := by
  have hdedent {n : Nat} (hn : 0 < n) (ms : List Mark) :
      Fresh (List.replicate n (Mark.layout .dedent) ++ ms) := by
    obtain ⟨n, rfl⟩ : ∃ k, n = k + 1 := ⟨n - 1, by omega⟩
    simp [Fresh, List.replicate_succ, Mark.layout, Lexeme.isComment]
  induction rows generalizing line with
  | nil =>
    cases depth with
    | zero => simp [marks, lineEnd, Fresh, Mark.layout, Lexeme.isComment]
    | succ n => simpa [marks, lineEnd] using hdedent (Nat.succ_pos n) _
  | cons row rows ih =>
    cases row with
    | code d fs =>
      obtain hd | ⟨rfl, l, ls, hls, -, hcomment, hk⟩ := h
      · simpa [marks, lineEnd, shift, Nat.not_lt.2 (Nat.le_of_lt hd)] using hdedent (by omega) _
      · simp [marks, lineEnd, shift, hls, trace, Fresh, hcomment]
        exact hk
    | comment d text =>
      obtain hd | ⟨rfl, hrows⟩ := h
      · simpa [marks, lineEnd] using hdedent (by omega) _
      · have := ih hrows (line + 1)
        simpa [marks, lineEnd, Fresh, Lexeme.isComment] using this
    | remark => exact h.elim
    | gap => simpa [marks, lineEnd] using ih h (line + 1)

end Token

namespace Grammar

open Rule Lexeme Cursor

variable {c c' : Cursor}

theorem commentsBefore_apply (words : List Keyword) (c : Cursor) :
    commentsBefore words c =
      match (((c.next :: c.later).dropWhile (·.lexeme.isComment)).head?).map Token.lexeme with
      | some (.keyword k) => if words.contains k then many comment c else .ok ([], c)
      | _ => .ok ([], c) := by
  simp only [commentsBefore, bind_apply, get_apply]
  generalize ((c.next :: c.later).dropWhile (·.lexeme.isComment)).head? = t
  cases t with
  | none => rfl
  | some t =>
    obtain ⟨l, span⟩ := t
    cases l with
    | keyword k =>
      by_cases hk : k ∈ words <;> simp [hk]
    | _ => rfl

theorem isComment_mark (t : Token) : (Token.mark t).lexeme.isComment = t.lexeme.isComment := by
  rw [Token.mark]
  split
  · cases t.lexeme <;> rfl
  · rfl

/-- No comments are taken before a keyword unless it comes. -/
theorem commentsBefore_fresh {words : List Keyword} (hw : ∀ k ∈ words, k ∈ Row.continuations)
    (h : Token.Fresh c.marks) : commentsBefore words c = .ok ([], c) := by
  have hdrop : c.marks.dropWhile (·.lexeme.isComment) =
      ((c.next :: c.later).dropWhile (·.lexeme.isComment)).map Token.mark := by
    rw [marks, List.dropWhile_map]
    congr 1
    exact congrArg (List.dropWhile · _) (funext isComment_mark)
  rw [Token.Fresh, hdrop, List.head?_map] at h
  rw [commentsBefore_apply]
  split
  · rename_i k hhead
    obtain ⟨t, ht, htk⟩ := Option.map_eq_some_iff.1 hhead
    have hk : ¬words.contains k := by
      intro hc
      refine h (Token.mark t) (by simp [ht]) k (hw k (by simpa using hc)) ?_
      simp [Token.mark, htk, isLayout]
    rw [if_neg hk]
  · rfl

theorem commentsBefore_keyword (words : List Keyword) {k : Keyword}
    (h : c.next.lexeme = .keyword k) : commentsBefore words c = .ok ([], c) := by
  have hmany : many comment c = .ok ([], c) :=
    (Repeats.done (by simp [comment, commentIf, h])).many
  rw [commentsBefore_apply, List.dropWhile_cons_of_neg (by simp [h, isComment])]
  simp only [List.head?_cons, Option.map_some, h, hmany, ite_self]

/-- An expression does not begin with a keyword that goes on with a statement. -/
theorem isFresh_of_startsExpr {fs : List Fragment} {l : Lexeme} {ls : List Lexeme}
    (h : lexemes fs = l :: ls) (hl : startsExpr l) : Row.IsFresh fs := by
  refine ⟨l, ls, h, ?_, ?_, ?_⟩
  · cases l <;> first | rfl | cases hl
  · cases l <;> first | rfl | cases hl
  · intro k hk
    rintro rfl
    revert hl
    simp only [Row.continuations, List.mem_cons, List.not_mem_nil, or_false] at hk
    obtain rfl | rfl | rfl | rfl := hk <;> decide

theorem isFresh_word {fs : List Fragment} {k : Keyword} (h : k ∉ Row.continuations) :
    Row.IsFresh (word k :: fs) :=
  ⟨.keyword k, lexemes fs, rfl, rfl, rfl, fun j hj => by rintro h'; cases h'; exact h hj⟩

theorem isFresh_lead (mode : Mode) {fs : List Fragment} {k : Keyword} (h : k ∉ Row.continuations) :
    Row.IsFresh (lead mode k ++ fs) := by
  cases mode with
  | sync => exact isFresh_word h
  | async => exact isFresh_word (by decide)

/-- Statements that begin with an expression. -/
theorem startsExpr_heading (opener : Keyword) {s : Stmt} (hf : s.fits)
    (hs : match s with
      | .expr .. | .assign .. | .augAssign .. | .annAssign .. => True
      | _ => False) :
    ∃ l ls, lexemes (Spelling.heading opener s) = l :: ls ∧ startsExpr l := by
  have hvalue {x : Expr} {slot : Slot} (hf : x.fits slot) (hs : slot.slice = false)
      (context : Level) (fs : List Fragment) :
      ∃ l ls, lexemes (x.fragmentsIn context ++ fs) = l :: ls ∧ startsExpr l := by
    obtain ⟨l, gs, h, hl⟩ := Expr.head_fragmentsIn hf hs context
    exact ⟨l, lexemes (gs ++ fs), by rw [h]; rfl, hl⟩
  cases s with
  | expr s value =>
    have h := hvalue hf rfl .yielded []
    rwa [List.append_nil] at h
  | assign s targets value =>
    simp only [Stmt.fits, Bool.and_eq_true, Bool.not_eq_true', List.isEmpty_eq_false_iff,
      Fits.exprs_eq_true] at hf
    obtain ⟨t, ts, rfl⟩ := List.exists_cons_of_ne_nil hf.1.1
    rw [Spelling.heading, List.flatMap_cons, List.append_assoc, List.append_assoc]
    exact hvalue (hf.1.2 t (by simp)) rfl .tuple _
  | augAssign s target op value =>
    simp only [Stmt.fits, Bool.and_eq_true] at hf
    exact hvalue hf.1 rfl .tuple _
  | annAssign s target hint value simple =>
    simp only [Stmt.fits, Bool.and_eq_true] at hf
    rw [Spelling.heading, Spelling.annotated]
    split
    · exact ⟨_, _, rfl, rfl⟩
    · exact hvalue hf.1.1.1 rfl .test _
  | _ => exact hs.elim

/-- The row that a statement begins with is not read together with the statement before it. -/
theorem isFresh_heading {s : Stmt} (hf : s.fits) (hc : s.isCode) :
    Row.IsFresh (Spelling.heading .if_ s) := by
  cases s with
  | expr | assign | augAssign | annAssign =>
    obtain ⟨l, ls, h, hl⟩ := startsExpr_heading .if_ hf trivial
    exact isFresh_of_startsExpr h hl
  | functionDef | forLoop | withBlock => exact isFresh_lead _ (by decide)
  | raise s exc cause => cases exc <;> exact isFresh_word (by decide)
  | comment | blank => cases hc
  | _ => exact isFresh_word (by decide)

theorem isFresh_rows (depth : Nat) {s : Stmt} (hf : s.fits) (hc : s.isCode) :
    ∃ fs rows, s.rows .if_ depth = .code depth fs :: rows ∧ Row.IsFresh fs := by
  have hheading := isFresh_heading hf hc
  cases s with
  | functionDef _ _ _ _ _ ds | classDef _ _ _ _ ds =>
    rw [Stmt.rows]
    cases ds with
    | nil => exact ⟨_, _, rfl, hheading⟩
    | cons d ds =>
      exact ⟨_, _, rfl, .symbol .atSign, _, rfl, rfl, rfl, fun _ _ h => by cases h⟩
  | forLoop | whileLoop | branch | withBlock | tryBlock =>
    rw [Stmt.rows]
    exact ⟨_, _, rfl, hheading⟩
  | comment | blank => cases hc
  | _ => exact ⟨_, _, Stmt.rows_simple .if_ depth rfl, hheading⟩

/-- The rows of further statements of a block are not read together with those before them. -/
theorem clear_stmts {depth : Nat} {rest : List Row} (hr : Row.Clear depth rest) {ss : List Stmt}
    {b begun pending : Bool} (hf : Fits.stmts b false ss) :
    Row.Clear depth (Rows.stmts depth begun pending ss ++ rest) := by
  induction ss generalizing b begun pending with
  | nil => exact hr
  | cons s ss ih =>
    rw [Fits.stmts] at hf
    rw [Rows.stmts]
    split at hf
    · rename_i hblank
      rw [if_pos hblank]
      exact ih (by simpa using hf)
    · rename_i hblank
      simp only [Bool.and_eq_true, Bool.or_false, Bool.not_eq_true'] at hf
      have hs : Row.Clear depth (s.rows .if_ depth ++
          (Rows.stmts depth true false ss ++ rest)) := by
        cases hc : s.isCode with
        | true =>
          obtain ⟨fs, rows, h, hfresh⟩ := isFresh_rows depth hf.1.1 hc
          rw [h]
          exact .inr ⟨rfl, hfresh⟩
        | false =>
          cases s with
          | comment s text inline =>
            obtain rfl : inline = false := hf.1.2
            exact .inr ⟨rfl, ih hf.2⟩
          | blank => simp [Stmt.isBlank] at hblank
          | _ => cases hc
      rw [if_neg hblank, List.append_assoc, List.append_assoc]
      cases pending <;> exact hs

theorem mapBlocks_of_isSimple (f : List Stmt → List Stmt) {s : Stmt} (h : s.isSimple) :
    s.mapBlocks f = s := by
  cases s <;> first | rfl | cases h

/-- A rule that reads a compound statement from its rows and stops before what follows. -/
def Reads (self : Rule (List Stmt)) (size : Nat) (s : Stmt) : Prop :=
  ∀ (depth line : Nat) (rest : List Row) (c : Cursor), s.fits → s.isCode → s.isSimple = false →
    Row.Clear depth rest → c.size ≤ size →
    c.marks = Token.marks false depth line (s.rows .if_ depth ++ rest) →
    ∃ s' c', self c = .ok ([s'], c') ∧ c'.size < c.size ∧
      c'.marks = Token.marks false depth c'.reached.line rest ∧
      s'.span = ⟨c.next.span.start, c'.reached⟩ ∧ Restores s s'

/-- A cursor before a row of code at the depth of the block it stands in can pass the row. -/
theorem passes_code {depth line : Nat} {fs : List Fragment} {rest : List Row} (hfs : Prints fs)
    (h : c.marks = Token.marks false depth line (.code depth fs :: rest)) :
    ∃ c', Passes (lexemes fs) c c' ∧ c'.marks = Token.marks true depth c'.reached.line rest := by
  have hmarks : c.marks = Token.trace (line + 1) (lexemes fs) ++
      Token.marks true depth (line + 1 + Token.height (lexemes fs)) rest := by
    rw [h, Token.marks]
    simp [Token.lineEnd, Token.shift]
  obtain ⟨c', hp, hc', hline⟩ := passes_of_marks
    (isLayout_of_legible (hfs.spelled.legible [] (by simp))) hmarks (marks_rows_ne_nil _ _ _ _)
  obtain ⟨l, gs, rfl⟩ := hfs.begins
  exact ⟨c', hp, by rw [hc', hline (by simp)]⟩

theorem marks_code {depth line : Nat} {fs : List Fragment} {rest : List Row} {l : Lexeme}
    {ls : List Lexeme} (hl : lexemes fs = l :: ls)
    (h : c.marks = Token.marks false depth line (.code depth fs :: rest)) :
    ∃ ms, c.marks = ⟨l, line + 1, line + 1 + l.height⟩ :: ms := by
  rw [h]
  simp [Token.marks, Token.lineEnd, Token.shift, hl, Token.trace]

theorem next_code {depth line : Nat} {fs : List Fragment} {rest : List Row} {l : Lexeme}
    {ls : List Lexeme} (hl : lexemes fs = l :: ls) (hlayout : l.isLayout = false)
    (h : c.marks = Token.marks false depth line (.code depth fs :: rest)) : c.next.lexeme = l := by
  obtain ⟨ms, hmarks⟩ := marks_code hl h
  refine next_of_marks hmarks fun written hw => ?_
  rw [show l = .newline written from hw] at hlayout
  cases hlayout

theorem line_next_code {depth line : Nat} {fs : List Fragment} {rest : List Row} {l : Lexeme}
    {ls : List Lexeme} (hl : lexemes fs = l :: ls) (hlayout : l.isLayout = false)
    (h : c.marks = Token.marks false depth line (.code depth fs :: rest)) :
    c.next.span.line = line + 1 := by
  obtain ⟨ms, hmarks⟩ := marks_code hl h
  exact (span_next hmarks hlayout).1

theorem endsLine_of_marks {depth line : Nat} {rest : List Row}
    (h : c.marks = Token.marks true depth line rest) : EndsLine c := by
  by_cases hr : ∃ d text, rest.head? = some (.remark d text)
  · obtain ⟨d, text, hr⟩ := hr
    cases rest with
    | nil => cases hr
    | cons row rest =>
      obtain rfl : row = .remark d text := by simpa using hr
      exact .inr ⟨text, next_of_marks h (by simp)⟩
  · rw [Token.marks_open (by simpa using hr)] at h
    exact .inl (next_newline h)

theorem statement_of_startsExpr (self : Rule (List Stmt)) (h : startsExpr c.next.lexeme) :
    statement self c = simpleLine c := by
  cases hl : c.next.lexeme with
  | keyword k =>
    rw [hl] at h
    cases k <;> first | exact absurd h (by decide) | simp [statement, hl]
  | symbol s =>
    rw [hl] at h
    cases s <;> first | exact absurd h (by decide) | simp [statement, hl]
  | newline | indent | dedent | comment | endMarker => simp [hl, startsExpr] at h
  | _ => simp [statement, hl]

theorem statement_simple (self : Rule (List Stmt)) {s : Stmt} (hs : s.isSimple) (hf : s.fits)
    (hp : Passes (lexemes (Spelling.heading .if_ s)) c c') : statement self c = simpleLine c := by
  have hexpr (h : ∃ l ls, lexemes (Spelling.heading .if_ s) = l :: ls ∧ startsExpr l) :
      statement self c = simpleLine c := by
    obtain ⟨l, ls, h, hl⟩ := h
    exact statement_of_startsExpr self ((h ▸ hp).head ▸ hl)
  have hword {k : Keyword} {ls : List Lexeme} (hp : Passes (.keyword k :: ls) c c')
      (h : c.next.lexeme = .keyword k → statement self c = simpleLine c) :
      statement self c = simpleLine c := h hp.head
  cases s with
  | functionDef | classDef | forLoop | whileLoop | branch | withBlock | tryBlock | comment
  | blank => cases hs
  | expr | assign | augAssign | annAssign => exact hexpr (startsExpr_heading .if_ hf trivial)
  | raise s exc cause => cases exc <;> exact hword hp fun h => by simp [statement, h]
  | _ => exact hword hp fun h => by simp [statement, h]

/-- A line of one simple statement, up to the remark that may close it. -/
theorem simpleLine_reads {s : Stmt} (hs : s.isSimple) (hf : s.fits) {depth line : Nat}
    {rest : List Row}
    (h : c.marks = Token.marks false depth line (.code depth (Spelling.heading .if_ s) :: rest)) :
    ∃ s' m, c.size = m.size + (lexemes (Spelling.heading .if_ s)).length ∧
      m.marks = Token.marks true depth m.reached.line rest ∧
      s'.span = ⟨c.next.span.start, m.reached⟩ ∧ Restores s s' ∧
      (∀ self, statement self c = simpleLine c) ∧
      simpleLine c = (do
        let trailing ← inlineComment
        Grammar.newline
        return s' :: trailing : Rule _) m := by
  have hc : s.isCode := by cases s <;> first | rfl | cases hs
  obtain ⟨m, hp, hm⟩ := passes_code (Spelling.prints_heading .if_ hf hc) h
  have he := endsLine_of_marks hm
  obtain ⟨s', hs', hshape⟩ := reads_simple .if_ hs hf hp he
  have hmany : many (do
      if ← accept Symbol.semicolon then
        if ← atLineEnd then return none else return some (← simpleStatement)
      else return none) m = .ok ([], m) :=
    (Repeats.done (by simp [he.ne_symbol .semicolon])).many
  have hspans := spans_simpleStatement hs'
  refine ⟨s', m, ?_, hm, hspans.2, ?_, fun self => statement_simple self hs hf hp, ?_⟩
  · rw [hp.size_eq, Nat.add_comm]
  · exact .of_shape (fun f => mapBlocks_of_isSimple f hs)
      (fun f => mapBlocks_of_isSimple f hspans.1) hshape
  · simp [-bind_pure_comp, simpleLine, hs', hmany]

/-- The end of a line without a remark. -/
theorem closeLine {depth line : Nat} {rest : List Row}
    (h : c.marks = Token.marks true depth line rest)
    (hr : ∀ d text, rest.head? ≠ some (.remark d text)) :
    inlineComment c = .ok ([], c) ∧ Grammar.newline c = .ok ((), c.advance) ∧
      c.advance.marks = Token.marks false depth line rest ∧ c.size = c.advance.size + 1 ∧
      c.advance.reached = c.reached := by
  rw [Token.marks_open hr] at h
  obtain ⟨written, hl⟩ := next_newline h
  exact ⟨by simp [inlineComment, commentIf, hl], newline_apply h (marks_rows_ne_nil _ _ _ _)⟩

/-- The end of a line with a remark. -/
theorem closeLine_remark {depth line d : Nat} {text : String} {rest : List Row}
    (h : c.marks = Token.marks true depth line (.remark d text :: rest))
    (hr : ∀ d text, rest.head? ≠ some (.remark d text)) :
    ∃ span c', inlineComment c = .ok ([.comment span text true], c.advance) ∧
      Grammar.newline c.advance = .ok ((), c') ∧
      c'.marks = Token.marks false depth line rest ∧ c.size = c'.size + 2 ∧
      span.line = line ∧ span.endLine = line ∧ c'.reached.line = line := by
  rw [Token.marks] at h
  have hl : c.next.lexeme = .comment text true := next_of_marks h (by simp)
  have hspan := span_next h rfl
  obtain ⟨hlater, hm⟩ := marks_advance h (marks_rows_ne_nil _ _ _ _)
  have hsize := size_advance hlater
  rw [Token.marks_open hr] at hm
  obtain ⟨hnew, hmarks, hsize', hreached⟩ := newline_apply hm (marks_rows_ne_nil _ _ _ _)
  refine ⟨c.next.span, c.advance.advance, by simp [inlineComment, commentIf, hl], hnew, hmarks,
    by omega, hspan.1, hspan.2, ?_⟩
  rw [hreached, reached_advance (by rw [hl]; rfl)]
  exact hspan.2

theorem unit_apply {self : Rule (List Stmt)} {closed : Lexeme → Bool}
    (hclosed : ∀ l, closed l → l.isLayout) (h : c.next.lexeme.isLayout = false) {stmts : List Stmt}
    (hself : self c = .ok (stmts, c')) : unit self closed c = .ok (some stmts, c') := by
  have hc : closed c.next.lexeme = false := by
    rw [← Bool.not_eq_true]
    intro hc
    rw [hclosed _ hc] at h
    cases h
  cases hl : c.next.lexeme with
  | newline written => simp [hl, isLayout] at h
  | _ => simp [unit, hl ▸ hc, hl, hself]

theorem fits_stmts_of_head {ss : List Stmt} {r : Bool} (hf : Fits.stmts true r ss)
    (hh : ∀ s ∈ ss.head?, s.isRemark = false) : Fits.stmts true false ss := by
  cases ss with
  | nil => rfl
  | cons s ss =>
    have hs : s.isRemark = false := hh s rfl
    simpa [Fits.stmts, hs] using hf

/-- A block begins with a remark only if its first statement is one. -/
theorem head_stmts {depth : Nat} {rest : List Row} (hr : Row.Clear depth rest) {ss : List Stmt}
    {r : Bool} (hf : Fits.stmts true r ss) (hh : ∀ s ∈ ss.head?, s.isRemark = false) (d : Nat)
    (text : String) : (Rows.stmts depth true false ss ++ rest).head? ≠ some (.remark d text) :=
  (clear_stmts hr (fits_stmts_of_head hf hh)).closes.head_ne_remark d text

/-- The empty line before a statement leaves no token. -/
theorem marks_stmts_cons {s : Stmt} (hs : s.isBlank = false) (begun pending : Bool)
    (indent depth line : Nat) (ss : List Stmt) (rest : List Row) :
    Token.marks false indent line (Rows.stmts depth begun pending (s :: ss) ++ rest) =
      Token.marks false indent (line + pending.toNat)
        (s.rows .if_ depth ++ (Rows.stmts depth true false ss ++ rest)) := by
  cases pending <;> simp [Rows.stmts, hs, Token.marks, Token.lineEnd]

/-- Statements are taken from the start of a block by one round of the loop over them. -/
theorem statement_reads {k depth line : Nat} {rest : List Row} (hr : Row.Clear depth rest)
    {s : Stmt} {ss : List Stmt} (ih : Reads (parseStatements (k + 1)) (k + 1) s)
    {b begun pending : Bool} (hblank : s.isBlank = false) (hf : Fits.stmts b false (s :: ss))
    (hsize : c.size ≤ k + 1)
    (h : c.marks = Token.marks false depth line
      (Rows.stmts depth begun pending (s :: ss) ++ rest)) :
    ∃ taken c' left, parseStatements (k + 1) c = .ok (taken, c') ∧
      c.next.lexeme.isLayout = false ∧ c'.size < c.size ∧
      c'.marks = Token.marks false depth c'.reached.line
        (Rows.stmts depth true false left ++ rest) ∧
      Retrieves ⟨line, begun, pending, s :: ss⟩ taken ⟨c'.reached.line, true, false, left⟩ ∧
      left <:+ ss ∧ Fits.stmts true false left := by
  rw [Fits.stmts, hblank, if_neg (by simp), Bool.and_eq_true, Bool.and_eq_true, Bool.or_false,
    Bool.not_eq_true'] at hf
  obtain ⟨⟨hs, hremark⟩, htail⟩ := hf
  rw [marks_stmts_cons hblank] at h
  cases hcode : s.isCode with
  -- Only a comment on a line of its own is a statement without code here: a remark is taken
  -- together with the statement it stands behind.
  | false =>
    cases s with
    | comment span text inline =>
      obtain rfl : inline = false := hremark
      have h : c.marks = ⟨.comment text false, line + pending.toNat + 1,
          line + pending.toNat + 1⟩ ::
          Token.marks false depth (line + pending.toNat + 1)
            (Rows.stmts depth true false ss ++ rest) := by
        simpa [Stmt.rows, Token.marks, Token.lineEnd] using h
      have hl : c.next.lexeme = .comment text false := next_of_marks h (by simp)
      obtain ⟨hlater, hm⟩ := marks_advance h (marks_rows_ne_nil _ _ _ _)
      have hsize' := size_advance hlater
      have hspan := span_next h rfl
      have hreached : c.advance.reached.line = c.next.span.endLine := by
        rw [reached_advance (by rw [hl]; rfl)]
        rfl
      refine ⟨[.comment c.next.span text false], c.advance, ss, ?_, by rw [hl]; rfl,
        by omega, ?_, ?_, List.suffix_refl ss, htail⟩
      · simp [parseStatements, statement, hl, comment, commentIf]
      · rw [hm, hreached, hspan.2]
      · rw [hreached]
        exact .cons rfl (.of_shape (fun _ => rfl) (fun _ => rfl) rfl) hspan.1
    | blank => cases hblank
    | _ => cases hcode
  | true =>
    obtain ⟨fs, rows, hrows, l, ls, hls, hl, -⟩ := isFresh_rows depth hs hcode
    have hlayout : c.next.lexeme.isLayout = false := by
      rw [next_code hls hl (hrows ▸ h)]
      exact hl
    have hline : c.next.span.line = line + pending.toNat + 1 := line_next_code hls hl (hrows ▸ h)
    cases hsimple : s.isSimple with
    | false =>
      rw [hsimple] at htail
      obtain ⟨s', m, hself, hlt, hm, hspan, hs'⟩ :=
        ih depth _ _ c hs hcode hsimple (clear_stmts hr htail) hsize h
      have htakes : Retrieves ⟨line, begun, pending, s :: ss⟩ [s']
          ⟨s'.span.endLine, true, false, ss⟩ :=
        .cons hblank hs' (by rw [hspan]; exact hline)
      rw [hspan] at htakes
      exact ⟨[s'], m, ss, hself, hlayout, hlt, hm, htakes, List.suffix_refl ss, htail⟩
    | true =>
      rw [hsimple] at htail
      rw [Stmt.rows_simple .if_ depth hsimple] at h
      obtain ⟨s', m, hms, hm, hspan, hs', hstmt, hsimpleLine⟩ := simpleLine_reads hsimple hs h
      have htakes : Retrieves ⟨line, begun, pending, s :: ss⟩ [s']
          ⟨s'.span.endLine, true, false, ss⟩ :=
        .cons hblank hs' (by rw [hspan]; exact hline)
      rw [hspan] at htakes
      -- A remark behind the statement is read in the same round, before the end of the line.
      by_cases hremark : ∃ span text ss', ss = .comment span text true :: ss'
      · obtain ⟨span, text, ss', rfl⟩ := hremark
        simp only [Fits.stmts, Stmt.isBlank, Stmt.isSimple, Bool.false_eq_true, if_false,
          Bool.and_eq_true] at htail
        have hrows : Rows.stmts depth true false (.comment span text true :: ss') =
            .remark depth text :: Rows.stmts depth true false ss' := by
          simp [Rows.stmts, Stmt.isBlank, Stmt.rows]
        rw [hrows, List.cons_append] at hm
        obtain ⟨span', m', hin, hnew, hm', hms', hstart, hend, hreached⟩ :=
          closeLine_remark hm (clear_stmts hr htail.2).closes.head_ne_remark
        refine ⟨[s', .comment span' text true], m', ss', ?_, hlayout, by omega, hreached ▸ hm', ?_,
          List.suffix_cons _ ss', htail.2⟩
        · rw [parseStatements, hstmt, hsimpleLine]
          simp [hin, hnew]
        · rw [hreached, ← hend]
          exact htakes.trans (.remark hstart)
      · have hh : ∀ x ∈ ss.head?, x.isRemark = false := by
          intro x hx
          cases ss with
          | nil => cases hx
          | cons y ys =>
            obtain rfl : y = x := by simpa using hx
            cases y with
            | comment span text inline =>
              cases inline with
              | true => exact absurd ⟨_, _, _, rfl⟩ hremark
              | false => rfl
            | _ => rfl
        obtain ⟨hin, hnew, hm', hms', hreached⟩ := closeLine hm (head_stmts hr htail hh)
        refine ⟨[s'], m.advance, ss, ?_, hlayout, by omega, hreached ▸ hm', hreached ▸ htakes,
          List.suffix_refl ss, fits_stmts_of_head htail hh⟩
        rw [parseStatements, hstmt, hsimpleLine]
        simp [hin, hnew]

/-- The loop over the statements of a block. A remark is read with the statement before it. -/
theorem repeats_stmts {closed : Lexeme → Bool} (hclosed : ∀ l, closed l → l.isLayout)
    {k depth : Nat}
    {rest : List Row} (hr : Row.Clear depth rest)
    (hend : ∀ c line, Cursor.marks c = Token.marks false depth line rest → closed c.next.lexeme)
    (ss : List Stmt) (ih : ∀ s ∈ ss, Reads (parseStatements k) k s) {b begun pending : Bool}
    {line : Nat} {c : Cursor} (hf : Fits.stmts b false ss) (hsize : c.size ≤ k)
    (h : c.marks = Token.marks false depth line (Rows.stmts depth begun pending ss ++ rest)) :
    ∃ units c' r', Repeats (unit (parseStatements k) closed) c units c' ∧ c'.size ≤ c.size ∧
      c'.marks = Token.marks false depth r'.line rest ∧ r'.stmts = [] ∧
      Retrieves ⟨line, begun, pending, ss⟩ units.flatten r' ∧
      (c.reached.line = line → c'.reached.line = r'.line) := by
  -- A round may take the next statement along, so the induction is on the number of statements.
  induction hn : ss.length using Nat.strongRecOn generalizing ss b begun pending line c with
  | ind n ihn =>
  subst hn
  cases ss with
  | nil =>
    have hc := hend c line h
    exact ⟨[], c, _, .done (by simp [unit, hc]), Nat.le_refl _, h, rfl, .refl _, id⟩
  | cons s ss =>
    have ihs : ∀ x ∈ ss, Reads (parseStatements k) k x :=
      fun x hx => ih x (List.mem_cons_of_mem _ hx)
    cases hblank : s.isBlank with
    | true =>
      rw [Rows.stmts, hblank, if_pos rfl] at h
      rw [Fits.stmts, hblank, if_pos rfl] at hf
      obtain ⟨units, c', r', hrep, hle, hmarks, hnil, htakes, hline⟩ :=
        ihn ss.length (Nat.lt_succ_self _) ss ihs (by simpa using hf) hsize h rfl
      exact ⟨units, c', r', hrep, hle, hmarks, hnil, (Retrieves.blank hblank).trans htakes, hline⟩
    | false =>
      have hone := c.one_le_size
      obtain ⟨n, rfl⟩ : ∃ n, k = n + 1 := ⟨k - 1, by omega⟩
      obtain ⟨taken, m, left, hself, hlayout, hlt, hm, htaken, hleft, hfits⟩ :=
        statement_reads hr (ih s (List.mem_cons_self ..)) hblank hf hsize h
      obtain ⟨units, c', r', hrep, hle, hmarks, hnil, htakes, hline⟩ := ihn left.length
        (Nat.lt_succ_of_le hleft.length_le) left (fun x hx => ihs x (hleft.subset hx)) hfits
        (by omega) hm rfl
      exact ⟨taken :: units, c', r', .item (unit_apply hclosed hlayout hself) hlt hrep, by omega,
        hmarks, hnil, htaken.trans htakes, fun _ => hline rfl⟩

def closesBlock (l : Lexeme) : Bool := l == .dedent || l == .endMarker

theorem isLayout_of_closesBlock (l : Lexeme) (h : closesBlock l) : l.isLayout := by
  cases l <;> first | rfl | simp [closesBlock] at h

theorem any_isCode_of_blank {s : Stmt} {ss : List Stmt} (hs : s.isBlank)
    (h : (s :: ss).any Stmt.isCode) : ss.any Stmt.isCode := by
  rw [List.any_cons, Bool.or_eq_true] at h
  cases s with
  | blank => exact h.resolve_left Bool.false_ne_true
  | _ => cases hs

/-- The comments below a heading, which come before the indentation. -/
theorem repeats_comments {depth : Nat} {rest : List Row} {ss : List Stmt} {b begun pending : Bool}
    {line : Nat} {c : Cursor} (hf : Fits.stmts b false ss) (hcode : ss.any Stmt.isCode)
    (h : c.marks = Token.marks false depth line (Rows.stmts (depth + 1) begun pending ss ++ rest)) :
    ∃ comments r' b' c', Repeats comment c comments c' ∧ c'.size ≤ c.size ∧
      Retrieves ⟨line, begun, pending, ss⟩ comments r' ∧ r'.stmts <:+ ss ∧
      Fits.stmts b' false r'.stmts ∧
      c'.marks = .layout .indent :: Token.marks false (depth + 1) r'.line
        (Rows.stmts (depth + 1) r'.begun r'.pending r'.stmts ++ rest) ∧
      (c.reached.line = line → c'.reached.line = r'.line) := by
  induction ss generalizing b begun pending line c with
  | nil => cases hcode
  | cons s ss ih =>
    have hf' := hf
    rw [Fits.stmts] at hf
    cases hblank : s.isBlank with
    | true =>
      rw [Rows.stmts, hblank, if_pos rfl] at h
      rw [hblank, if_pos rfl] at hf
      obtain ⟨comments, r', b', c', hrep, hle, htakes, hleft, hrest⟩ :=
        ih (by simpa using hf) (any_isCode_of_blank hblank hcode) h
      exact ⟨comments, r', b', c', hrep, hle, (Retrieves.blank hblank).trans htakes,
        hleft.trans (List.suffix_cons s ss), hrest⟩
    | false =>
      rw [hblank, if_neg (by simp), Bool.and_eq_true, Bool.and_eq_true, Bool.or_false,
        Bool.not_eq_true'] at hf
      obtain ⟨⟨hs, hremark⟩, htail⟩ := hf
      cases hc : s.isCode with
      -- The first code of the block: the marks before it change over to the deeper indentation.
      | true =>
        obtain ⟨fs, rows, hrows, -⟩ := isFresh_rows (depth + 1) hs hc
        have hmarks : c.marks = .layout .indent :: Token.marks false (depth + 1) line
            (Rows.stmts (depth + 1) begun pending (s :: ss) ++ rest) := by
          rw [h, Rows.stmts, hblank, if_neg (by simp), hrows]
          cases pending <;> simp [Token.marks, Token.lineEnd, Token.shift]
        have hl : c.next.lexeme = .indent := next_of_marks hmarks (by simp [Token.Mark.layout])
        exact ⟨[], _, b, c, .done (by simp [comment, commentIf, hl]), Nat.le_refl _, .refl _,
          List.suffix_refl _, hf', hmarks, id⟩
      | false =>
        cases s with
        | comment span text inline =>
          obtain rfl : inline = false := hremark
          have h : c.marks =
              ⟨.comment text false, line + pending.toNat + 1, line + pending.toNat + 1⟩ ::
                Token.marks false depth (line + pending.toNat + 1)
                  (Rows.stmts (depth + 1) true false ss ++ rest) := by
            rw [h, marks_stmts_cons hblank]
            simp [Stmt.rows, Token.marks, Token.lineEnd]
          have hl : c.next.lexeme = .comment text false := next_of_marks h (by simp)
          obtain ⟨hlater, hm⟩ := marks_advance h (marks_rows_ne_nil _ _ _ _)
          have hsize := size_advance hlater
          have hspan := span_next h rfl
          have hreached : c.advance.reached.line = line + pending.toNat + 1 := by
            rw [reached_advance (by rw [hl]; rfl)]
            exact hspan.2
          obtain ⟨comments, r', b', c', hrep, hle, htakes, hleft, hfits, hmarks, hline⟩ :=
            ih htail (by simpa [Stmt.isCode] using hcode) hm
          refine ⟨.comment c.next.span text false :: comments, r', b', c',
            .item (by simp [comment, commentIf, hl]) (by omega) hrep, by omega, ?_,
            hleft.trans (List.suffix_cons _ ss), hfits, hmarks, fun _ => hline hreached⟩
          exact .note hspan.1 (by rwa [hspan.2])
        | blank => cases hblank
        | _ => cases hc

/-- The end of a heading, with the remark that may stand there. -/
theorem closeHeading {depth line : Nat} {rest : List Row} (hr : Row.Closes depth rest)
    {body : List Stmt} (hf : Fits.stmts false true body) (hcode : body.any Stmt.isCode)
    (h : c.marks = Token.marks true depth line (Rows.stmts (depth + 1) false false body ++ rest)) :
    ∃ trailing left m c' b begun, inlineComment c = .ok (trailing, m) ∧
      Grammar.newline m = .ok ((), c') ∧ c'.size < c.size ∧
      Retrieves ⟨line, false, false, body⟩ trailing ⟨line, begun, false, left⟩ ∧ left <:+ body ∧
      Fits.stmts b false left ∧ left.any Stmt.isCode ∧
      c'.marks = Token.marks false depth line (Rows.stmts (depth + 1) begun false left ++ rest) ∧
      (c.reached.line = line → c'.reached.line = line) := by
  induction body with
  | nil => cases hcode
  | cons s ss ih =>
    cases hblank : s.isBlank with
    | true =>
      rw [Fits.stmts, hblank, if_pos rfl] at hf
      rw [Rows.stmts, hblank, if_pos rfl] at h
      obtain ⟨trailing, left, m, c', b, begun, hin, hnew, hlt, htakes, hleft, hrest⟩ :=
        ih hf (any_isCode_of_blank hblank hcode) h
      exact ⟨trailing, left, m, c', b, begun, hin, hnew, hlt, (Retrieves.blank hblank).trans htakes,
        hleft.trans (List.suffix_cons s ss), hrest⟩
    | false =>
      cases hremark : s.isRemark with
      -- A remark behind the heading is read before the end of the line; the block goes on below.
      | true =>
        obtain ⟨span, text, rfl⟩ : ∃ span text, s = .comment span text true := by
          cases s with
          | comment span text inline => exact ⟨span, text, congrArg _ hremark⟩
          | _ => cases hremark
        simp only [Fits.stmts, hblank, Bool.false_eq_true, if_false, Bool.and_eq_true,
          Stmt.isSimple] at hf
        have hrows : Rows.stmts (depth + 1) false false (.comment span text true :: ss) =
            .remark (depth + 1) text :: Rows.stmts (depth + 1) true false ss := by
          simp [Rows.stmts, Stmt.isBlank, Stmt.rows]
        rw [hrows, List.cons_append] at h
        obtain ⟨span', c', hin, hnew, hm, hsize, hstart, hend, hreached⟩ :=
          closeLine_remark h (clear_stmts hr.clear hf.2).closes.head_ne_remark
        exact ⟨[.comment span' text true], ss, _, c', true, true, hin, hnew, by omega,
          hend ▸ .remark (hstart.trans hend.symm), List.suffix_cons _ ss, hf.2,
          by simpa [Stmt.isCode] using hcode, hm, fun _ => hreached⟩
      | false =>
        have hf : Fits.stmts false false (s :: ss) := by
          simpa [Fits.stmts, hblank, hremark] using hf
        obtain ⟨hin, hnew, hm, hsize, hreached⟩ :=
          closeLine h (clear_stmts hr.clear hf).closes.head_ne_remark
        exact ⟨[], s :: ss, c, c.advance, false, false, hin, hnew, by omega, .refl _,
          List.suffix_refl _, hf, hcode, hm, fun hline => by rw [hreached, hline]⟩

/-- A block below its heading. -/
theorem block_reads {k depth : Nat} {rest : List Row} (hr : Row.Closes depth rest)
    {body : List Stmt} (ih : ∀ s ∈ body, Reads (parseStatements k) k s) (hf : Fits.block body)
    (hsize : c.size ≤ k)
    (h : c.marks = Token.marks true depth c.reached.line
      (Rows.stmts (depth + 1) false false body ++ rest)) :
    ∃ body' c', block (parseStatements k) c = .ok (body', c') ∧ c'.size < c.size ∧
      c'.marks = Token.marks false depth c'.reached.line rest ∧ RestoresAll body body' := by
  rw [Fits.block_eq, Bool.and_eq_true] at hf
  obtain ⟨hcode, hf⟩ := hf
  have hend := endsLine_of_marks h
  obtain ⟨trailing, ss, m₀, m, b, begun, hin, hnew, hms, htakes, hsub, hfss, hcode, hm, hline⟩ :=
    closeHeading hr hf hcode h
  obtain ⟨comments, r', b', m', hcom, hle, htakes', hsub', hfss', hm', hline'⟩ :=
    repeats_comments hfss hcode hm
  have hl : m'.next.lexeme = .indent := next_of_marks hm' (by simp [Token.Mark.layout])
  obtain ⟨hlater, hm'⟩ := marks_advance hm' (marks_rows_ne_nil _ _ _ _)
  have hsize' := size_advance hlater
  have hdedent (c : Cursor) (line : Nat) (h : c.marks = Token.marks false (depth + 1) line rest) :
      c.next.lexeme = .dedent := by
    rw [Token.marks_closes hr] at h
    exact next_of_marks h (by simp [Token.Mark.layout])
  obtain ⟨units, m₂, r'', hunits, hle₂, hm₂, hnil, htakes₂, hline₂⟩ := repeats_stmts
    isLayout_of_closesBlock hr.clear (fun c line h => by rw [hdedent c line h]; rfl) r'.stmts
    (fun s hs => ih s (hsub.subset (hsub'.subset hs))) hfss' (by omega) hm'
  have hl₂ := hdedent m₂ r''.line hm₂
  rw [Token.marks_closes hr] at hm₂
  obtain ⟨hlater₂, hm₂⟩ := marks_advance hm₂ (marks_rows_ne_nil _ _ _ _)
  have hsize₂ := size_advance hlater₂
  have hreached : m₂.advance.reached.line = r''.line := by
    rw [reached_advance_layout (by rw [hl₂]; rfl)]
    refine hline₂ ?_
    rw [reached_advance_layout (by rw [hl]; rfl)]
    exact hline' (hline rfl)
  refine ⟨trailing ++ comments ++ units.flatten, m₂.advance, ?_, by omega, hreached ▸ hm₂, ?_⟩
  · have hstmts : statementsUpTo (parseStatements k) closesBlock m'.advance =
        .ok (units.flatten, m₂) := by
      simp [statementsUpTo_eq, hunits.many]
    have hclosed : (fun l => l == .dedent || l == .endMarker) = closesBlock := rfl
    simp [block, hend.atLineEnd_apply, hin, hnew, hcom.many, hl, hclosed, hstmts, hl₂, discard,
      map_const]
  · exact ((htakes.trans htakes').trans htakes₂).restoresAll hnil

end Grammar

end AsyncErasure
