import AsyncErasure.Proofs.RoundTrip
import AsyncErasure.Proofs.Source

namespace AsyncErasure

mutual

def Stmt.comments : Stmt → List String
  | .functionDef _ _ _ _ _ _ body | .classDef _ _ _ _ _ body | .withBlock _ _ _ body =>
    Comments.stmts body
  | .forLoop _ _ _ _ body orelse | .whileLoop _ _ body orelse | .branch _ _ body orelse =>
    Comments.stmts body ++ Comments.stmts orelse
  | .tryBlock _ body handlers orelse final _ =>
    Comments.stmts body ++ Comments.handlers handlers ++ Comments.stmts orelse ++
      Comments.stmts final
  | .comment _ text _ => [text]
  | _ => []

def Comments.stmts : List Stmt → List String
  | [] => []
  | s :: ss => s.comments ++ Comments.stmts ss

def Handler.comments : Handler → List String
  | ⟨_, _, body⟩ => Comments.stmts body

def Comments.handlers : List Handler → List String
  | [] => []
  | h :: hs => h.comments ++ Comments.handlers hs

end

def Module.comments (m : Module) : List String := Comments.stmts m.body

namespace Comments

theorem stmts_eq_flatMap (ss : List Stmt) : stmts ss = ss.flatMap Stmt.comments := by
  induction ss with
  | nil => rfl
  | cons s ss ih => rw [stmts, ih, List.flatMap_cons]

theorem handlers_eq_flatMap (hs : List Handler) :
    handlers hs = (hs.flatMap Handler.body).flatMap Stmt.comments := by
  induction hs with
  | nil => rfl
  | cons h hs ih =>
    cases h
    simp [handlers, Handler.comments, stmts_eq_flatMap, ih]

/-- The comments met on the walk through a statement. -/
theorem map_text_ofStmt (s : Stmt) : (Walk.ofStmt s).map Comment.text = s.comments := by
  induction s using Stmt.childInduction with
  | step s ih =>
  have hchildren : (s.children.flatMap Walk.ofStmt).map Comment.text =
      s.children.flatMap Stmt.comments := by
    rw [List.map_flatMap]
    exact List.flatMap_congr ih
  rw [Walk.ofStmt_eq, List.map_append, hchildren]
  cases s <;>
    simp [Node.comment?, Stmt.comments, Stmt.children, stmts_eq_flatMap, handlers_eq_flatMap]

/-- The comment in a row of a page. -/
def ofRow : Row → Option String
  | .comment _ text | .remark _ text => some text
  | _ => none

def ofMark (m : Token.Mark) : Option String :=
  match m.lexeme with
  | .comment text _ => some text
  | _ => none

theorem filterMap_stmts {ss : List Stmt} (depth : Nat)
    (ih : ∀ s ∈ ss, ∀ opener depth, (s.rows opener depth).filterMap ofRow = s.comments)
    (begun pending : Bool) :
    (Rows.stmts depth begun pending ss).filterMap ofRow = stmts ss := by
  induction ss generalizing begun pending with
  | nil => rfl
  | cons s ss ihs =>
    rw [List.forall_mem_cons] at ih
    rw [Rows.stmts, stmts]
    split
    · rename_i hblank
      cases s with
      | blank => exact ihs ih.2 begun begun
      | _ => cases hblank
    · rw [List.filterMap_append, List.filterMap_append, ih.1, ihs ih.2]
      cases pending <;> rfl

theorem filterMap_clause {ss : List Stmt} (k : Keyword) (depth : Nat)
    (ih : ∀ s ∈ ss, ∀ opener depth, (s.rows opener depth).filterMap ofRow = s.comments) :
    (Rows.clause k depth ss).filterMap ofRow = stmts ss := by
  rw [Rows.clause_eq]
  split
  · rename_i hempty
    rw [List.isEmpty_iff.1 hempty]
    rfl
  · exact filterMap_stmts (depth + 1) ih false false

theorem filterMap_alternative {ss : List Stmt} (depth : Nat)
    (ih : ∀ s ∈ ss, ∀ opener depth, (s.rows opener depth).filterMap ofRow = s.comments) :
    (Rows.alternative depth ss).filterMap ofRow = stmts ss := by
  cases ss with
  | nil => rfl
  | cons s ss =>
    rw [Rows.alternative]
    split
    · rename_i h
      obtain rfl := List.isEmpty_iff.1 (Bool.and_eq_true_iff.1 h).2
      rw [ih s (by simp), stmts, stmts, List.append_nil]
    · exact filterMap_clause .else_ depth ih

theorem filterMap_handlers {hs : List Handler} (star : Bool) (depth : Nat)
    (ih : ∀ s ∈ hs.flatMap Handler.body, ∀ opener depth,
      (s.rows opener depth).filterMap ofRow = s.comments) :
    (Rows.handlers star depth hs).filterMap ofRow = handlers hs := by
  induction hs with
  | nil => rfl
  | cons h hs ihs =>
    obtain ⟨type, name, body⟩ := h
    simp only [List.flatMap_cons, List.mem_append] at ih
    rw [Rows.handlers, Handler.rows, List.filterMap_append,
      ihs fun s hs => ih s (.inr hs), handlers, Handler.comments,
      ← filterMap_stmts (depth + 1) (fun s hs => ih s (.inl hs)) false false]
    rfl

theorem filterMap_decorators (depth : Nat) (es : List Expr) :
    (Rows.decorators depth es).filterMap ofRow = [] := by
  simp [Rows.decorators, ofRow]

/-- The rows of a statement hold its comments. -/
theorem filterMap_rows (s : Stmt) (opener : Keyword) (depth : Nat) :
    (s.rows opener depth).filterMap ofRow = s.comments := by
  induction s using Stmt.childInduction generalizing opener depth with
  | step s ih =>
  have hcode (fs : List Fragment) : ofRow (.code depth fs) = none := rfl
  cases s with
  | functionDef | classDef =>
    simp only [Stmt.children] at ih
    rw [Stmt.rows, List.filterMap_append, filterMap_decorators, List.filterMap_cons_none (hcode _),
      filterMap_stmts _ ih, Stmt.comments, List.nil_append]
  | withBlock =>
    simp only [Stmt.children] at ih
    rw [Stmt.rows, List.filterMap_cons_none (hcode _), filterMap_stmts _ ih, Stmt.comments]
  | forLoop | whileLoop =>
    simp only [Stmt.children, List.mem_append] at ih
    rw [Stmt.rows, List.cons_append, List.filterMap_cons_none (hcode _), List.filterMap_append,
      filterMap_stmts _ fun s hs => ih s (.inl hs), filterMap_clause _ _ fun s hs => ih s (.inr hs),
      Stmt.comments]
  | branch =>
    simp only [Stmt.children, List.mem_append] at ih
    rw [Stmt.rows, List.cons_append, List.filterMap_cons_none (hcode _), List.filterMap_append,
      filterMap_stmts _ fun s hs => ih s (.inl hs),
      filterMap_alternative _ fun s hs => ih s (.inr hs), Stmt.comments]
  | tryBlock =>
    simp only [Stmt.children, List.mem_append] at ih
    rw [Stmt.rows, List.cons_append, List.cons_append, List.cons_append,
      List.filterMap_cons_none (hcode _), List.filterMap_append, List.filterMap_append,
      List.filterMap_append, filterMap_stmts _ fun s hs => ih s (.inl hs),
      filterMap_handlers _ _ fun s hs => ih s (.inr (.inl hs)),
      filterMap_clause _ _ fun s hs => ih s (.inr (.inr (.inl hs))),
      filterMap_clause _ _ fun s hs => ih s (.inr (.inr (.inr hs))), Stmt.comments]
  | comment s text inline => cases inline <;> rfl
  | blank => rfl
  | _ =>
    rw [Stmt.rows_simple opener depth rfl]
    rfl

/-- Lexemes of code leave no comment among the marks. -/
theorem filterMap_trace {fs : List Fragment} {rest : List Char} (h : Fragment.Legible fs rest)
    (line : Nat) : (Token.trace line (Fragment.lexemes fs)).filterMap ofMark = [] := by
  induction fs generalizing line with
  | nil => rfl
  | cons f fs ih =>
    cases f with
    | blank => exact ih h line
    | lexeme l =>
      rw [Fragment.legible_lexeme] at h
      obtain ⟨c, cs, -, hm⟩ := h.1
      have hcode := Lexeme.isCode_of_munch hm
      have hnone (n : Nat) : ofMark ⟨l, n, n + l.height⟩ = none := by
        cases l with
        | comment => cases hcode
        | _ => rfl
      rw [Fragment.lexemes_lexeme, Token.trace, List.filterMap_cons_none (hnone line), ih h.2]

/-- The marks of rows tell the comments in them. -/
theorem filterMap_marks {rows : List Row} {remarkable : Bool} {indent : Nat}
    (h : Row.Sound remarkable indent rows) (isOpen : Bool) (indent' line : Nat) :
    (Token.marks isOpen indent' line rows).filterMap ofMark = rows.filterMap ofRow := by
  have hend (isOpen : Bool) : (Token.lineEnd isOpen).filterMap ofMark = [] := by
    cases isOpen <;> rfl
  have hdedent (n : Nat) :
      (List.replicate n (Token.Mark.layout .dedent)).filterMap ofMark = [] := by
    rw [List.filterMap_replicate_of_none rfl]
  induction rows generalizing remarkable indent isOpen indent' line with
  | nil => simp [Token.marks, hend, ofMark, Token.Mark.layout]
  | cons row rows ih =>
    cases row with
    | code depth fs =>
      have hshift : (Token.shift indent' depth).filterMap ofMark = [] := by
        unfold Token.shift
        split
        · rfl
        · exact hdedent _
      have htrace := filterMap_trace (h.2.1.legible [] (by simp)) (line + 1)
      have hnone : ofRow (.code depth fs) = none := rfl
      rw [Token.marks, List.filterMap_append, List.filterMap_append, List.filterMap_append, hend,
        hshift, htrace, ih h.2.2, List.filterMap_cons_none hnone]
      rfl
    | comment depth text =>
      have hmark (n : Nat) : ofMark ⟨.comment text false, n, n⟩ = some text := rfl
      have hrow : ofRow (.comment depth text) = some text := rfl
      rw [Token.marks, List.filterMap_append, List.filterMap_append, hend, hdedent,
        List.filterMap_cons_some (hmark _), ih h.2.2, List.filterMap_cons_some hrow]
      rfl
    | remark depth text =>
      have hmark : ofMark ⟨.comment text true, line, line⟩ = some text := rfl
      have hrow : ofRow (.remark depth text) = some text := rfl
      rw [Token.marks, List.filterMap_cons_some hmark, ih h.2.2, List.filterMap_cons_some hrow]
    | gap =>
      have hrow : ofRow .gap = none := rfl
      rw [Token.marks, List.filterMap_append, hend, ih h, List.filterMap_cons_none hrow,
        List.nil_append]

theorem ofMark_mark (t : Token) : ofMark t.mark = t.comment?.map Comment.text := by
  rw [ofMark, Token.lexeme_mark, Token.comment?]
  cases t.lexeme <;> rfl

end Comments

namespace Module

/-- On an empty page a remark makes a line. -/
def standFirst : List Stmt → List Stmt
  | .blank s :: ss => .blank s :: standFirst ss
  | .comment s text _ :: ss => .comment s text false :: ss
  | ss => ss

theorem remarksFit_standFirst {ss : List Stmt} {bare : Bool} (bare' : Bool)
    (h : Block.remarksFit false bare ss) : Block.remarksFit false bare' (standFirst ss) := by
  induction ss generalizing bare bare' with
  | nil => rfl
  | cons s ss ih =>
    cases s with
    | blank => exact ih _ h
    | comment => exact (Bool.and_eq_true_iff.1 h).2
    | _ => exact h

theorem detached_standFirst (ss : List Stmt) :
    Block.detached (standFirst ss) = Block.detached ss := by
  rw [Block.detached_eq_map, Block.detached_eq_map]
  induction ss with
  | nil => rfl
  | cons s ss ih =>
    cases s with
    | blank => exact congrArg (_ :: ·) ih
    | _ => rfl

theorem insideOut_standFirst (ss : List Stmt) :
    Block.insideOut (standFirst ss) = Block.insideOut ss := by
  induction ss with
  | nil => rfl
  | cons s ss ih =>
    cases s with
    | blank => exact ih
    | _ => rfl

theorem comments_standFirst (ss : List Stmt) :
    Comments.stmts (standFirst ss) = Comments.stmts ss := by
  induction ss with
  | nil => rfl
  | cons s ss ih =>
    cases s with
    | blank => exact ih
    | _ => rfl

theorem assemble_standFirst (ss : List Stmt) :
    Piece.assemble (Render.gapped false false (Render.stmts 0 (standFirst ss))) =
      Piece.assemble (Render.gapped false false (Render.stmts 0 ss)) := by
  induction ss with
  | nil => rfl
  | cons s ss ih =>
    cases s with
    | blank => exact ih
    | comment s text inline => cases inline <;> rfl
    | _ => rfl

theorem IsLegible.standFirst {m : Module} (h : m.IsLegible) :
    IsLegible ⟨Module.standFirst m.body⟩ where
  detached := by
    have hdetached := h.detached
    rw [mapBlocks, ← Block.detached] at hdetached ⊢
    rwa [detached_standFirst]
  remarks := by
    have hremarks := h.remarks
    rw [blocksInsideOut, List.forall_mem_append, List.forall_mem_singleton] at hremarks ⊢
    rw [insideOut_standFirst]
    exact ⟨hremarks.1, remarksFit_standFirst true hremarks.2⟩

/-- The text of a legible module has its comments, if no remark comes first. -/
theorem IsLegible.comments_scan {m : Module} (h : m.IsLegible)
    (hfirst : Block.remarksFit false false m.body) : ∃ tokens, Token.scan m.render = .ok tokens ∧
      (tokens.filterMap Token.comment?).map Comment.text = m.comments := by
  obtain ⟨tokens, hscan, hmarks⟩ := h.scan_render hfirst
  refine ⟨tokens, hscan, ?_⟩
  calc (tokens.filterMap Token.comment?).map Comment.text
      = (tokens.map Token.mark).filterMap Comments.ofMark := by
        simp [List.map_filterMap, List.filterMap_map, Comments.ofMark_mark]
    _ = m.rows.filterMap Comments.ofRow := by
        rw [hmarks, Comments.filterMap_marks (h.sound_rows hfirst)]
    _ = m.comments := Comments.filterMap_stmts 0 (fun s _ => Comments.filterMap_rows s) false false

/-- If each remark of a module stands first or behind a line without a comment, no comment is lost,
merged or moved on the way through the text, whatever this is read as. -/
theorem comments_parse_render {m : Module} (h : m.IsLegible) :
    (∃ tokens, Token.scan m.render = .ok tokens ∧
      (tokens.filterMap Token.comment?).map Comment.text = m.comments) ∧
    (∀ m', Module.parse m.render = .ok m' → m'.comments = m.comments) ∧
    (m.WellFormed → ∃ m', Module.parse m.render = .ok m') := by
  have hrender : render ⟨standFirst m.body⟩ = m.render := assemble_standFirst m.body
  obtain ⟨tokens, hscan, htokens⟩ := h.standFirst.comments_scan
    (remarksFit_standFirst false h.remarksFit.1)
  rw [hrender] at hscan
  have hcomments : (tokens.filterMap Token.comment?).map Comment.text = m.comments :=
    htokens.trans (comments_standFirst m.body)
  refine ⟨⟨tokens, hscan, hcomments⟩, fun m' hm' => ?_, fun hw => ?_⟩
  · obtain ⟨tokens', hscan', hread⟩ := parse_eq_ok hm'
    obtain rfl : tokens = tokens' := Except.ok.inj (hscan.symm.trans hscan')
    have hkept := (Grammar.kept_wholeModule (Token.scan_closed hscan) hread).comments
    rw [← hcomments, show tokens.filterMap Token.comment? = _ from hkept,
      List.map_flatMap, comments, Comments.stmts_eq_flatMap]
    exact List.flatMap_congr fun s _ => (Comments.map_text_ofStmt s).symm
  · obtain ⟨body, hbody, -⟩ := parse_restores hw
    exact ⟨⟨body⟩, hbody⟩

def adorned : String :=
  "@a  # a\nclass C:\n    if b:\n        with ((c, d)):\n            e\n    @f  # b\n    def g(): pass\n"

theorem comments_parse_render_adorned : ∃ m m', Module.parse adorned = .ok m ∧ m.IsLegible ∧
    Module.parse m.render = .ok m' ∧ m'.comments = m.comments ∧ m.comments = ["# a", "# b"] := by
  have h : (Module.parse adorned).toOption.any fun m => decide m.IsLegible &&
      (Module.parse m.render).toOption.isSome && m.comments == ["# a", "# b"] := by decide +kernel
  obtain ⟨m, hm, h⟩ := parse_of_any h
  simp only [Bool.and_eq_true, beq_iff_eq, decide_eq_true_eq] at h
  obtain ⟨⟨hlegible, hread⟩, hcomments⟩ := h
  cases hm' : Module.parse m.render with
  | error e => simp [hm', Except.toOption] at hread
  | ok m' =>
    exact ⟨m, m', hm, hlegible, hm', (comments_parse_render hlegible).2.1 m' hm', hcomments⟩

/-- The remark behind a decorator is put before the definition and remains a remark. On the page it
runs into the comment above. -/
theorem remark_joins_comment :
    ∃ m m', Module.parse "# a\n@d  # b\ndef f():\n    pass\n" = .ok m ∧
      Module.parse m.render = .ok m' ∧ m.comments = ["# a", "# b"] ∧
      m'.comments = ["# a  # b"] := by
  have h : (match Module.parse "# a\n@d  # b\ndef f():\n    pass\n" with
      | .ok m =>
        match Module.parse m.render with
        | .ok m' => m.comments == ["# a", "# b"] && m'.comments == ["# a  # b"]
        | .error _ => false
      | .error _ => false) = true := by decide +kernel
  split at h
  case h_1 m hm =>
    split at h
    case h_1 m' hm' =>
      simp only [Bool.and_eq_true, beq_iff_eq] at h
      exact ⟨m, m', hm, hm', h⟩
    case h_2 => cases h
  case h_2 => cases h

end Module

end AsyncErasure
