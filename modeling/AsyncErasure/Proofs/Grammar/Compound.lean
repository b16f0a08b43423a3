import AsyncErasure.Proofs.Grammar.Block
import Mathlib.Data.List.Basic

namespace AsyncErasure

open Fragment

namespace Row

/-- Rows that go on with a statement by one of the keywords, or are not read together with it. -/
def Follows (words : List Keyword) (depth : Nat) (rows : List Row) : Prop :=
  Clear depth rows ∨ ∃ k ∈ words, ∃ fs rows', rows = .code depth (word k :: fs) :: rows'

namespace Follows

variable {words : List Keyword} {depth : Nat} {rows : List Row}

theorem closes (h : Follows words depth rows) : Closes depth rows := by
  obtain h | ⟨k, -, fs, rows', rfl⟩ := h
  · exact h.closes
  · exact Nat.le_refl depth

theorem weaken (h : Follows words depth rows) (k : Keyword) : Follows (k :: words) depth rows :=
  h.imp_right fun ⟨j, hj, hrows⟩ => ⟨j, List.mem_cons_of_mem k hj, hrows⟩

theorem clause (h : Follows words depth rows) (k : Keyword) (body : List Stmt) :
    Follows (k :: words) depth (Rows.clause k depth body ++ rows) := by
  cases body with
  | nil => exact h.weaken k
  | cons s ss => exact .inr ⟨k, by simp, _, _, rfl⟩

theorem handlers (h : Follows words depth rows) (star : Bool) (hs : List Handler) :
    Follows (.except_ :: words) depth (Rows.handlers star depth hs ++ rows) := by
  cases hs with
  | nil => exact h.weaken .except_
  | cons x xs =>
    obtain ⟨type, name, body⟩ := x
    rw [Rows.handlers, Handler.rows]
    exact .inr ⟨.except_, by simp, _, _, rfl⟩

theorem alternative (h : Clear depth rows) (body : List Stmt) :
    Follows [.elif_, .else_] depth (Rows.alternative depth body ++ rows) := by
  by_cases hbranch : ∃ s t b o, body = [.branch s t b o]
  · obtain ⟨s, t, b, o, rfl⟩ := hbranch
    refine .inr ⟨.elif_, by simp, ?_⟩
    simp [Rows.alternative, Stmt.isBranch, Stmt.rows, Spelling.heading]
  · rw [Rows.alternative_eq depth (by simpa using hbranch)]
    have hrows : Follows [] depth rows := .inl h
    exact (hrows.clause .else_ body).weaken .elif_

end Follows

end Row

namespace Grammar

open Rule Lexeme Cursor Spelling

variable {c c' : Cursor}

section Clauses

variable {words : List Keyword} {depth line : Nat} {rest : List Row}

theorem commentsBefore_follows (hr : Row.Follows words depth rest)
    (h : c.marks = Token.marks false depth line rest) {ks : List Keyword}
    (hks : ∀ k ∈ ks, k ∈ Row.continuations) : commentsBefore ks c = .ok ([], c) := by
  obtain hr | ⟨k, -, fs, rows, rfl⟩ := hr
  · exact commentsBefore_fresh hks (h ▸ Token.fresh_marks hr line)
  · exact commentsBefore_keyword ks (next_code rfl rfl h)

/-- A clause that the rows do not begin with is not there. -/
theorem next_follows (hr : Row.Follows words depth rest)
    (h : c.marks = Token.marks false depth line rest) {k : Keyword} (hk : k ∈ Row.continuations)
    (hnot : k ∉ words) : c.next.lexeme ≠ .keyword k := by
  intro hl
  obtain hr | ⟨j, hj, fs, rows, rfl⟩ := hr
  · have hfresh := Token.fresh_marks hr line
    rw [← h, Token.Fresh, marks, List.map_cons, List.dropWhile_cons_of_neg] at hfresh
    · exact hfresh _ rfl k hk (by simp [Token.mark, hl, isLayout])
    · rw [isComment_mark, hl]
      exact Bool.false_ne_true
  · rw [next_code rfl rfl h] at hl
    cases hl
    exact hnot hj

/-- A heading up to its colon, and the block below it. -/
theorem heading_reads {k : Nat} {fs gs : List Fragment} {body : List Stmt}
    (hr : Row.Closes depth rest) (ih : ∀ s ∈ body, Reads (parseStatements k) k s)
    (hf : Fits.block body) (hgs : Prints gs) (hfs : gs = fs ++ [sign .colon])
    (hsize : c.size ≤ k + 1)
    (h : c.marks = Token.marks false depth line
      (.code depth gs :: (Rows.stmts (depth + 1) false false body ++ rest))) :
    ∃ m body' c', Passes (lexemes fs) c m ∧ m.next.lexeme = .symbol .colon ∧
      colonBlock (parseStatements k) m = .ok (body', c') ∧ c'.size < c.size ∧
      c'.marks = Token.marks false depth c'.reached.line rest ∧ RestoresAll body body' := by
  obtain ⟨m', hp, hm'⟩ := passes_code hgs h
  subst hfs
  rw [lexemes_append, passes_append] at hp
  obtain ⟨m, hp, hcolon⟩ := hp
  simp only [lexemes_sign, lexemes_nil, passes_cons, passes_nil] at hcolon
  obtain ⟨hl, hlater, rfl⟩ := hcolon
  have hsize₁ := size_advance hlater
  have hsize₂ := hp.size_eq
  obtain ⟨body', c', hblock, hlt, hmarks, hall⟩ := block_reads hr ih hf (by omega) hm'
  exact ⟨m, body', c', hp, hl, by simp [colonBlock, expect_apply _ _ hl, hblock], by omega,
    hmarks, hall⟩

theorem blockBefore_apply {self : Rule (List Stmt)} {body : List Stmt}
    (hr : Row.Follows words depth rest) (hc : colonBlock self c = .ok (body, c'))
    (h : c'.marks = Token.marks false depth line rest) {ks : List Keyword}
    (hks : ∀ k ∈ ks, k ∈ Row.continuations) : blockBefore self ks c = .ok (body, c') := by
  simp [blockBefore, hc, commentsBefore_follows hr h hks]

/-- A clause that may be missing. -/
theorem clauseBlock_reads {k : Nat} {word : Keyword} {body : List Stmt}
    (hw : word ∈ Row.continuations) (hnot : word ∉ words) (hr : Row.Follows words depth rest)
    (ih : ∀ s ∈ body, Reads (parseStatements k) k s) (hf : Fits.clause body)
    (hsize : c.size ≤ k + 1)
    (h : c.marks = Token.marks false depth c.reached.line (Rows.clause word depth body ++ rest)) :
    ∃ body' c', clauseBlock (parseStatements k) word c = .ok (body', c') ∧
      c'.size ≤ c.size ∧ c'.marks = Token.marks false depth c'.reached.line rest ∧
      RestoresAll body body' := by
  rw [Fits.clause_eq, Bool.or_eq_true] at hf
  rw [Rows.clause_eq] at h
  by_cases hbody : body.isEmpty
  · obtain rfl := List.isEmpty_iff.1 hbody
    have hl := next_follows hr h hw hnot
    exact ⟨[], c, by simp [clauseBlock, hl], Nat.le_refl _, h, rfl, rfl⟩
  · rw [if_neg hbody, List.cons_append] at h
    obtain ⟨m, body', c', hp, -, hblock, hlt, hmarks, hall⟩ := heading_reads hr.closes ih
      (hf.resolve_left hbody) ⟨⟨_, _, rfl⟩, (Spelled.word word).colon⟩
      (show _ = [Fragment.word word] ++ _ from rfl) hsize h
    simp only [lexemes_word, lexemes_nil, passes_cons, passes_nil] at hp
    obtain ⟨hl, -, rfl⟩ := hp
    exact ⟨body', c', by simp [clauseBlock, hl, hblock], by omega, hmarks, hall⟩

end Clauses

section Statements

variable {k : Nat}

theorem whileLoop_reads {s : Span} {test : Expr} {body orelse : List Stmt}
    (ih : ∀ x ∈ body ++ orelse, Reads (parseStatements k) k x) :
    Reads (parseStatements (k + 1)) (k + 1) (.whileLoop s test body orelse) := by
  intro depth line rest c hf hc _ hr hsize h
  have hprints := prints_heading .if_ hf hc
  simp only [Stmt.fits, Bool.and_eq_true] at hf
  rw [Stmt.rows, List.cons_append, List.cons_append, List.append_assoc] at h
  have hrest : Row.Follows [] depth rest := .inl hr
  have helse := hrest.clause .else_ orelse
  obtain ⟨m, body', c₁, hp, hcolon, hbody, hlt, hm, hmap⟩ := heading_reads helse.closes
    (fun x hx => ih x (List.mem_append_left _ hx)) hf.1.2 hprints
    (show _ = (word .while_ :: blank :: condition test) ++ _ from rfl) hsize h
  obtain ⟨orelse', c₂, horelse, hle, hm₂, hmap₂⟩ := clauseBlock_reads (by decide) (by simp)
    hrest (fun x hx => ih x (List.mem_append_right _ hx)) hf.2 (by omega) hm
  simp only [lexemes_word, lexemes_blank, passes_cons] at hp
  obtain ⟨hl, -, hp⟩ := hp
  obtain ⟨test', htest, hshape⟩ := take_condition hf.1.1 m hp (by rw [hcolon]; decide)
  have hbefore : blockBefore (parseStatements k) [.else_] m = .ok (body', c₁) :=
    blockBefore_apply helse hbody hm (by decide)
  refine ⟨.whileLoop ⟨c.next.span.start, c₂.reached⟩ test' body' orelse', c₂, ?_, by omega,
    hm₂, rfl, ?_, ?_⟩
  · simp [parseStatements, statement, hl, whileLoop, expect_apply, htest, hbefore, horelse]
    rfl
  · simp [Stmt.shape, Stmt.mapBlocks, shape_block, hshape, hmap.shape, hmap₂.shape]
  · simp [Stmt.shape, Stmt.mapBlocks, shape_settle, hshape, hmap.spacing, hmap₂.spacing]

def IsLed (mode : Mode) (c m : Cursor) : Prop :=
  mode = .sync ∧ m = c ∨ mode = .async ∧ c.next.lexeme = .keyword .async_ ∧ m = c.advance

theorem passes_lead {mode : Mode} {word : Keyword} {fs : List Fragment}
    (hp : Passes (lexemes (lead mode word ++ fs)) c c') :
    ∃ m, IsLed mode c m ∧ m.next.lexeme = .keyword word ∧ Passes (lexemes fs) m.advance c' := by
  cases mode with
  | sync =>
    have hp : Passes (.keyword word :: lexemes fs) c c' := hp
    obtain ⟨hl, -, hp⟩ := passes_cons.1 hp
    exact ⟨c, .inl ⟨rfl, rfl⟩, hl, hp⟩
  | async =>
    have hp : Passes (.keyword .async_ :: .keyword word :: lexemes fs) c c' := hp
    obtain ⟨hasync, -, hp⟩ := passes_cons.1 hp
    obtain ⟨hl, -, hp⟩ := passes_cons.1 hp
    exact ⟨c.advance, .inr ⟨rfl, hasync, rfl⟩, hl, hp⟩

theorem forLoop_reads {s : Span} {mode : Mode} {target iter : Expr} {body orelse : List Stmt}
    (ih : ∀ x ∈ body ++ orelse, Reads (parseStatements k) k x) :
    Reads (parseStatements (k + 1)) (k + 1) (.forLoop s mode target iter body orelse) := by
  intro depth line rest c hf hc _ hr hsize h
  have hprints := prints_heading .if_ hf hc
  simp only [Stmt.fits, Bool.and_eq_true] at hf
  rw [Stmt.rows, List.cons_append, List.cons_append, List.append_assoc] at h
  have hrest : Row.Follows [] depth rest := .inl hr
  have helse := hrest.clause .else_ orelse
  have hcut : heading .if_ (.forLoop s mode target iter body orelse) =
      lead mode .for_ ++ (target.fragmentsIn .tuple ++ (blank :: word .in_ :: blank ::
        iter.fragmentsIn .tuple)) ++ [sign .colon] := by
    simp [heading]
  obtain ⟨m, body', c₁, hp, hcolon, hbody, hlt, hm, hmap⟩ := heading_reads helse.closes
    (fun x hx => ih x (List.mem_append_left _ hx)) hf.1.2 hprints hcut hsize h
  obtain ⟨orelse', c₂, horelse, hle, hm₂, hmap₂⟩ := clauseBlock_reads (by decide) (by simp)
    hrest (fun x hx => ih x (List.mem_append_right _ hx)) hf.2 (by omega) hm
  obtain ⟨d, hled, hl, hp⟩ := passes_lead hp
  simp only [lexemes_append, lexemes_word, lexemes_blank, passes_append, passes_cons] at hp
  obtain ⟨m₁, htarget, hin, -, hiter⟩ := hp
  obtain ⟨target', htarget, hshape⟩ := (able_expr (sizeOf target + 1)
    (20 * d.advance.size + 18)).targetList (by omega) hf.1.1.1 (Nat.le_refl _) htarget hin
  obtain ⟨iter', hiter, hshape'⟩ := take_tuple hf.1.1.2 m hiter (by rw [hcolon]; decide)
  have hbefore : blockBefore (parseStatements k) [.else_] m = .ok (body', c₁) :=
    blockBefore_apply helse hbody hm (by decide)
  have hloop : forLoop (parseStatements k) c.next.span.start mode d =
      .ok (.forLoop ⟨c.next.span.start, c₂.reached⟩ mode target' iter' body' orelse', c₂) := by
    simp [forLoop, expect_apply, hl, htarget, hin, hiter, hbefore, horelse]
  refine ⟨.forLoop ⟨c.next.span.start, c₂.reached⟩ mode target' iter' body' orelse', c₂, ?_,
    by omega, hm₂, rfl, ?_, ?_⟩
  · obtain ⟨rfl, rfl⟩ | ⟨rfl, hasync, rfl⟩ := hled
    · simp [parseStatements, statement, hl, hloop]
      rfl
    · simp [parseStatements, statement, hasync, asyncStatement, expect_apply, hl, hloop]
      rfl
  · simp [Stmt.shape, Stmt.mapBlocks, shape_block, hshape, hshape', hmap.shape, hmap₂.shape]
  · simp [Stmt.shape, Stmt.mapBlocks, shape_settle, hshape, hshape', hmap.spacing, hmap₂.spacing]

def ReadsBranch (k : Nat) (s : Stmt) : Prop :=
  ∀ (opener : Keyword) (n depth line : Nat) (rest : List Row) (c : Cursor), s.fits →
    Row.Clear depth rest → c.size ≤ k + 1 → c.size ≤ n →
    c.marks = Token.marks false depth line (s.rows opener depth ++ rest) →
    ∃ s' c', branch (parseStatements k) n c = .ok (s', c') ∧ c'.size < c.size ∧
      c'.marks = Token.marks false depth c'.reached.line rest ∧
      s'.span = ⟨c.next.span.start, c'.reached⟩ ∧ Restores s s'

def alternativeOf (self : Rule (List Stmt)) (n : Nat) : Rule (List Stmt) := do
  if ← sees Keyword.elif_ then List.singleton <$> branch self n else clauseBlock self .else_

theorem branch_apply {self : Rule (List Stmt)} {n : Nat} {test : Expr} {body orelse : List Stmt}
    {m m' : Cursor} (htest : expr .named c.advance = .ok (test, m))
    (hbody : blockBefore self [.elif_, .else_] m = .ok (body, m'))
    (horelse : alternativeOf self n m' = .ok (orelse, c')) :
    branch self (n + 1) c =
      .ok (.branch ⟨c.next.span.start, c'.reached⟩ test body orelse, c') := by
  by_cases hl : m'.next.lexeme = .keyword .elif_
  · simp only [alternativeOf, bind_apply, sees_apply, hl, beq_self_eq_true, if_true, map_apply]
      at horelse
    cases hs : branch self n m' with
    | error e => simp [hs] at horelse
    | ok r =>
      rw [hs] at horelse
      cases horelse
      simp [branch, htest, hbody, hl, hs]
  · simp only [alternativeOf, bind_apply, sees_apply, beq_eq_false_iff_ne.2 hl,
      Bool.false_eq_true, if_false] at horelse
    simp [branch, htest, hbody, hl, horelse]

theorem alternative_reads {n depth : Nat} {rest : List Row} {body : List Stmt}
    (hr : Row.Clear depth rest) (ih : ∀ x ∈ body, Reads (parseStatements k) k x)
    (ihb : ∀ x ∈ body, x.isBranch → ReadsBranch k x) (hf : Fits.clause body)
    (hsize : c.size ≤ k + 1) (hn : c.size ≤ n)
    (h : c.marks = Token.marks false depth c.reached.line (Rows.alternative depth body ++ rest)) :
    ∃ body' c', alternativeOf (parseStatements k) n c = .ok (body', c') ∧
      c'.size ≤ c.size ∧ c'.marks = Token.marks false depth c'.reached.line rest ∧
      RestoresAll body body' := by
  have hrest : Row.Follows [] depth rest := .inl hr
  by_cases hbranch : ∃ s t b o, body = [.branch s t b o]
  · obtain ⟨s, t, b, o, rfl⟩ := hbranch
    have hrows : Rows.alternative depth [.branch s t b o] =
        (Stmt.branch s t b o).rows .elif_ depth := by
      simp [Rows.alternative, Stmt.isBranch]
    rw [hrows] at h
    have hfits : (Stmt.branch s t b o).fits := by
      simp only [Fits.clause, Stmt.isBlank, Bool.false_eq_true, if_false, Bool.and_eq_true] at hf
      exact hf.2.1
    obtain ⟨s', c', hs, hlt, hm, -, hone⟩ :=
      ihb _ (by simp) rfl .elif_ n depth _ rest c hfits hr hsize hn h
    have hl : c.next.lexeme = .keyword .elif_ := by
      rw [Stmt.rows] at h
      exact next_code rfl rfl h
    exact ⟨[s'], c', by simp [alternativeOf, hl, hs]; rfl, Nat.le_of_lt hlt, hm,
      congrArg (· :: []) hone.shape, congrArg (· :: []) hone.spacing⟩
  · rw [Rows.alternative_eq depth (by simpa using hbranch)] at h
    obtain ⟨body', c', hbody, hle, hm, hall⟩ :=
      clauseBlock_reads (by decide) (by simp) hrest ih hf hsize h
    have hl : c.next.lexeme ≠ .keyword .elif_ :=
      next_follows (hrest.clause .else_ body) h (by decide) (by decide)
    exact ⟨body', c', by simp [alternativeOf, hl, hbody], hle, hm, hall⟩

theorem branch_reads {s : Span} {test : Expr} {body orelse : List Stmt}
    (ih : ∀ x ∈ body ++ orelse, Reads (parseStatements k) k x)
    (ihb : ∀ x ∈ orelse, x.isBranch → ReadsBranch k x) :
    ReadsBranch k (.branch s test body orelse) := by
  intro opener n depth line rest c hf hr hsize hn h
  have hprints := prints_heading opener hf rfl
  simp only [Stmt.fits, Bool.and_eq_true] at hf
  rw [Stmt.rows, List.cons_append, List.cons_append, List.append_assoc] at h
  have helse := Row.Follows.alternative hr orelse
  obtain ⟨m, body', c₁, hp, hcolon, hbody, hlt, hm, hmap⟩ := heading_reads helse.closes
    (fun x hx => ih x (List.mem_append_left _ hx)) hf.1.2 hprints
    (show _ = (word opener :: blank :: condition test) ++ _ from rfl) hsize h
  have hone := c.one_le_size
  obtain ⟨n, rfl⟩ : ∃ j, n = j + 1 := ⟨n - 1, by omega⟩
  have hsize' : c₁.size ≤ n := by omega
  obtain ⟨orelse', c₂, horelse, hle, hm₂, hmap₂⟩ := alternative_reads hr
    (fun x hx => ih x (List.mem_append_right _ hx)) ihb hf.2 (by omega) hsize' hm
  simp only [lexemes_word, lexemes_blank, passes_cons] at hp
  obtain ⟨-, -, hp⟩ := hp
  obtain ⟨test', htest, hshape⟩ := take_condition hf.1.1 m hp (by rw [hcolon]; decide)
  have hbefore : blockBefore (parseStatements k) [.elif_, .else_] m = .ok (body', c₁) :=
    blockBefore_apply helse hbody hm (by decide)
  refine ⟨.branch ⟨c.next.span.start, c₂.reached⟩ test' body' orelse', c₂,
    branch_apply htest hbefore horelse, by omega, hm₂, rfl, ?_, ?_⟩
  · simp [Stmt.shape, Stmt.mapBlocks, shape_block, hshape, hmap.shape, hmap₂.shape]
  · simp [Stmt.shape, Stmt.mapBlocks, shape_settle, hshape, hmap.spacing, hmap₂.spacing]

/-- A branch as a statement. -/
theorem ReadsBranch.reads {s : Span} {test : Expr} {body orelse : List Stmt}
    (hb : ReadsBranch k (.branch s test body orelse)) :
    Reads (parseStatements (k + 1)) (k + 1) (.branch s test body orelse) := by
  intro depth line rest c hf _ _ hr hsize h
  obtain ⟨s', c', hs, hlt, hm, hspan, hone⟩ :=
    hb .if_ c.size depth line rest c hf hr hsize (Nat.le_refl _) h
  have hl : c.next.lexeme = .keyword .if_ := by
    rw [Stmt.rows] at h
    exact next_code rfl rfl h
  exact ⟨s', c', by simp [parseStatements, statement, hl, hs]; rfl, hlt, hm, hspan, hone⟩

def handlerParts (type : Option Expr) (name : Option String) : List Fragment :=
  type.elim [] fun e => blank :: (e.fragmentsIn .test ++ renamed name)

theorem handler_cut (star : Bool) (type : Option Expr) (name : Option String) :
    Spelling.handler star type name =
      ((word .except_ :: if star then [sign .star] else []) ++ handlerParts type name) ++
        [sign .colon] := by
  cases type <;> simp [Spelling.handler, handlerParts]

/-- A handler up to its colon. -/
theorem handler_apply {star : Bool} {type : Option Expr} {name : Option String}
    {self : Rule (List Stmt)} {body : List Stmt} {m : Cursor} (hf : Fits.expr? .plain type)
    (hname : type.isSome ∨ name.isNone)
    (hp : Passes (lexemes ((word .except_ :: if star then [sign .star] else []) ++
      handlerParts type name)) c m) (hcolon : m.next.lexeme = .symbol .colon)
    (hbody : blockBefore self [.except_, .else_, .finally_] m = .ok (body, c')) :
    ∃ type', Grammar.handler self c = .ok ((star, ⟨type', name, body⟩), c') ∧
      Shape.expr? type' = Shape.expr? type := by
  rw [lexemes_append, passes_append] at hp
  obtain ⟨d, hhead, hp⟩ := hp
  have hstar (hne : star = false → d.next.lexeme ≠ .symbol .star) :
      c.next.lexeme = .keyword .except_ ∧ accept Symbol.star c.advance = .ok (star, d) := by
    cases star with
    | true =>
      simp only [if_true, lexemes_word, lexemes_sign, lexemes_nil, passes_cons, passes_nil] at hhead
      obtain ⟨hl, -, hs, -, rfl⟩ := hhead
      exact ⟨hl, by simp [hs]⟩
    | false =>
      simp only [Bool.false_eq_true, if_false, lexemes_word, lexemes_nil, passes_cons,
        passes_nil] at hhead
      obtain ⟨hl, -, rfl⟩ := hhead
      exact ⟨hl, by simp [hne rfl]⟩
  cases type with
  | none =>
    obtain rfl : d = m := passes_nil.1 hp
    obtain ⟨hl, hstar⟩ := hstar fun _ => by simp [hcolon]
    obtain rfl : name = none := by simpa using hname
    exact ⟨none, by simp [-accept_apply, Grammar.handler, expect_apply, hl, hstar, hcolon, hbody],
      rfl⟩
  | some e =>
    have hlex : lexemes (handlerParts (some e) name) =
        e.lexemesIn .test ++ name.elim [] fun id => [Lexeme.keyword .as_, .name id] := by
      cases name <;> simp [handlerParts, renamed, Expr.lexemesIn]
    rw [hlex, passes_append] at hp
    obtain ⟨m₁, htype, hp⟩ := hp
    have hopens := opens_plain hf .test (Nat.le_refl _)
    obtain ⟨hl, hstar⟩ := hstar fun _ => not_star_of_opens hopens htype
    have hne : d.next.lexeme ≠ .symbol .colon := fun h =>
      absurd (h ▸ (hopens.head htype).1) (by decide)
    cases name with
    | none =>
      obtain rfl : m₁ = m := passes_nil.1 hp
      obtain ⟨e', he', hshape⟩ := take_test hf m₁ htype (by rw [hcolon]; decide)
      exact ⟨some e', by simp [-accept_apply, Grammar.handler, expect_apply, hl, hstar, hne, he',
        hcolon, hbody], congrArg some hshape⟩
    | some id =>
      simp only [Option.elim_some, passes_cons, passes_nil] at hp
      obtain ⟨has, -, hid, -, rfl⟩ := hp
      obtain ⟨e', he', hshape⟩ := take_test hf m₁ htype (by rw [has]; decide)
      exact ⟨some e', by simp [-accept_apply, Grammar.handler, expect_apply, hl, hstar, hne, he',
        has, name_apply hid, hbody], congrArg some hshape⟩

def handlerUnit (self : Rule (List Stmt)) : Rule (Option (Bool × Handler)) := do
  if ← sees Keyword.except_ then return some (← Grammar.handler self) else return none

theorem repeats_handlers {words : List Keyword} {depth : Nat} {rest : List Row} {star : Bool}
    {hs : List Handler} (hr : Row.Follows words depth rest) (hnot : .except_ ∉ words)
    (ih : ∀ x ∈ hs.flatMap Handler.body, Reads (parseStatements k) k x)
    (hf : ∀ h ∈ hs, h.fits) (hsize : c.size ≤ k + 1)
    (h : c.marks = Token.marks false depth c.reached.line (Rows.handlers star depth hs ++ rest)) :
    ∃ items c', Repeats (handlerUnit (parseStatements k)) c items c' ∧ c'.size ≤ c.size ∧
      c'.marks = Token.marks false depth c'.reached.line rest ∧ (∀ x ∈ items, x.1 = star) ∧
      items.isEmpty = hs.isEmpty ∧
      Shape.handlers (items.map Prod.snd) =
        Shape.handlers (Block.mapHandlers (List.filter fun s => !s.isBlank) hs) ∧
      Shape.handlers (Block.mapHandlers (Spacing.separate Spacing.below) (items.map Prod.snd)) =
        Shape.handlers (Block.mapHandlers (Spacing.settle false false) hs) := by
  induction hs generalizing c with
  | nil =>
    have hl := next_follows hr h (by decide) hnot
    exact ⟨[], c, .done (by simp [handlerUnit, hl]), Nat.le_refl _, h, by simp, rfl, rfl, rfl⟩
  | cons x xs ihs =>
    obtain ⟨type, name, body⟩ := x
    have hx := hf _ (List.mem_cons_self ..)
    simp only [Handler.fits, Bool.and_eq_true, Bool.or_eq_true] at hx
    rw [Rows.handlers, Handler.rows, List.cons_append, List.cons_append, List.append_assoc] at h
    have hxs := hr.handlers star xs
    obtain ⟨m, body', c₁, hp, hcolon, hbody, hlt, hm, hmap⟩ := heading_reads hxs.closes
      (fun y hy => ih y (List.mem_flatMap.2 ⟨_, List.mem_cons_self .., hy⟩)) hx.2
      (prints_handler hx.1.1.1 hx.1.1.2) (handler_cut star type name) hsize h
    obtain ⟨items, c', hrep, hle, hmarks, hstar, -, hshape, hspacing⟩ := ihs
      (fun y hy => ih y (by
        obtain ⟨z, hz, hyz⟩ := List.mem_flatMap.1 hy
        exact List.mem_flatMap.2 ⟨z, List.mem_cons_of_mem _ hz, hyz⟩))
      (fun y hy => hf y (List.mem_cons_of_mem _ hy)) (by omega) hm
    have hbefore : blockBefore (parseStatements k) [.except_, .else_, .finally_] m =
        .ok (body', c₁) := blockBefore_apply hxs hbody hm (by decide)
    obtain ⟨type', hone, htype⟩ := handler_apply hx.1.1.1 hx.1.2 hp hcolon hbefore
    have hl : c.next.lexeme = .keyword .except_ := by
      have : Passes (.keyword .except_ :: _) c m := hp
      exact this.head
    refine ⟨(star, ⟨type', name, body'⟩) :: items, c',
      .item (by simp [handlerUnit, hl, hone]) hlt hrep, by omega, hmarks, ?_, rfl, ?_, ?_⟩
    · simpa using hstar
    · simp [Shape.handlers, Block.mapHandlers, Handler.mapBlocks, Handler.shape, htype, hmap.shape,
        shape_block, hshape]
    · simp [Shape.handlers, Block.mapHandlers, Handler.mapBlocks, Handler.shape, htype,
        hmap.spacing, shape_settle, hspacing]

theorem Guarded.append_nil (g : Guarded) : g.append [] = g := by
  obtain ⟨body, handlers, orelse⟩ := g
  simp only [Guarded.append, List.append_nil]
  split
  · split
    · rename_i h hlast
      obtain ⟨type, name, body⟩ := h
      rw [List.dropLast_append_getLast? _ hlast]
    · rfl
  · rfl

theorem tidied_ne_nil {body : List Stmt} (h : body.any Stmt.isCode) : tidied body ≠ [] := by
  obtain ⟨s, hs, hc⟩ := List.any_eq_true.1 h
  intro hnil
  simp only [tidied, List.map_eq_nil_iff, List.filter_eq_nil_iff] at hnil
  refine hnil s hs ?_
  cases s <;> first | rfl | cases hc

theorem tryBlock_reads {s : Span} {body : List Stmt} {handlers : List Handler}
    {orelse final : List Stmt} {star : Bool}
    (ih : ∀ x ∈ body ++ (handlers.flatMap Handler.body ++ (orelse ++ final)),
      Reads (parseStatements k) k x) :
    Reads (parseStatements (k + 1)) (k + 1) (.tryBlock s body handlers orelse final star) := by
  intro depth line rest c hf hc _ hr hsize h
  have hprints := prints_heading .if_ hf hc
  simp only [Stmt.fits, Bool.and_eq_true, Bool.or_eq_true, Bool.not_eq_true'] at hf
  obtain ⟨⟨⟨⟨⟨hbody, hhandlers⟩, horelse⟩, hfinal⟩, hsome⟩, hstarred⟩ := hf
  rw [Stmt.rows] at h
  simp only [List.cons_append, List.append_assoc] at h
  simp only [List.mem_append] at ih
  -- What may follow each part, from the last one back to the body.
  have hrest : Row.Follows [] depth rest := .inl hr
  have hfollow₃ := hrest.clause .finally_ final
  have hfollow₂ := hfollow₃.clause .else_ orelse
  have hfollow₁ := hfollow₂.handlers star handlers
  obtain ⟨m, body', c₁, hp, hcolon, hblock, hlt, hm₁, hmap₁⟩ := heading_reads
    hfollow₁.closes (fun x hx => ih x (.inl hx)) hbody hprints
    (show _ = [word .try_] ++ _ from rfl) hsize h
  have hbefore : blockBefore (parseStatements k) [.except_, .else_, .finally_] m =
      .ok (body', c₁) := blockBefore_apply hfollow₁ hblock hm₁ (by decide)
  obtain ⟨items, c₂, hitems, hle₂, hm₂, hstar, hsame, hmap₂, hspacing₂⟩ := repeats_handlers hfollow₂
    (by decide) (fun x hx => ih x (.inr (.inl hx))) (Fits.handlers_eq_true.1 hhandlers)
    (by omega) hm₁
  obtain ⟨orelse', c₃, helse, hle₃, hm₃, hmap₃⟩ := clauseBlock_reads (by decide) (by decide)
    hfollow₃ (fun x hx => ih x (.inr (.inr (.inl hx)))) horelse (by omega) hm₂
  have hcomments : commentsBefore [.finally_] c₃ = .ok ([], c₃) :=
    commentsBefore_follows hfollow₃ hm₃ (by decide)
  obtain ⟨final', c₄, hfin, hle₄, hm₄, hmap₄⟩ := clauseBlock_reads (by decide) (by simp)
    hrest (fun x hx => ih x (.inr (.inr (.inr hx)))) hfinal (by omega) hm₃
  simp only [lexemes_word, lexemes_nil, passes_cons, passes_nil] at hp
  obtain ⟨hl, -, rfl⟩ := hp
  have hmany : many (do
      if ← sees Keyword.except_ then return some (← Grammar.handler (parseStatements k))
      else return none : Rule _) c₁ = .ok (items, c₂) := hitems.many
  -- The reader asks for a handler or a final block, and gets what the tree has of them.
  have hsome : ¬(items = [] ∧ final' = []) := by
    rintro ⟨rfl, rfl⟩
    have hne := hsome.resolve_left (by simp [← hsame])
    rw [Fits.clause_eq, hne, Bool.false_or, Fits.block_eq, Bool.and_eq_true] at hfinal
    exact tidied_ne_nil hfinal.1 hmap₄.shape.symm
  have hany : items.any Prod.fst = star := by
    cases star with
    | false => exact List.any_eq_false.2 fun x hx => by simp [hstar x hx]
    | true =>
      have hne : items ≠ [] := by
        rw [← List.isEmpty_eq_false_iff, hsame]
        exact hstarred.resolve_left Bool.noConfusion
      obtain ⟨x, xs, rfl⟩ := List.exists_cons_of_ne_nil hne
      simp [hstar x]
  refine ⟨.tryBlock ⟨c.next.span.start, c₄.reached⟩ body' (items.map Prod.snd) orelse' final' star,
    c₄, ?_, by omega, hm₄, rfl, ?_, ?_⟩
  · simp [-bind_pure_comp, parseStatements, statement, hl, tryBlock, expect_apply, hbefore, hmany,
      helse, hcomments, hfin, Guarded.append_nil, hsome, hany]
    rfl
  · simp [Stmt.shape, Stmt.mapBlocks, shape_block, hmap₁.shape, hmap₂, hmap₃.shape, hmap₄.shape]
  · simp [Stmt.shape, Stmt.mapBlocks, shape_settle, hmap₁.spacing, hspacing₂, hmap₃.spacing,
      hmap₄.spacing]

/-- A definition up to the end of its body, behind the decorators that were read. -/
theorem classDef_reads {s : Span} {name : String} {bases : List Expr} {keywords : List Argument}
    {ds : List Expr} {body : List Stmt} (ih : ∀ x ∈ body, Reads (parseStatements k) k x)
    (hf : (Stmt.classDef s name bases keywords ds body).fits) (start : Place) (ds' : List Expr)
    {depth line : Nat} {rest : List Row} (hr : Row.Clear depth rest) (hsize : c.size ≤ k + 1)
    (h : c.marks = Token.marks false depth line
      (.code depth (heading .if_ (.classDef s name bases keywords ds body)) ::
        (Rows.stmts (depth + 1) false false body ++ rest))) :
    ∃ bases' keywords' body' c', c'.size < c.size ∧
      c'.marks = Token.marks false depth c'.reached.line rest ∧
      classDef (parseStatements k) start ds' c =
        .ok (.classDef ⟨start, c'.reached⟩ name bases' keywords' ds' body', c') ∧
      Shape.exprs bases' = Shape.exprs bases ∧
      Shape.arguments keywords' = Shape.arguments keywords ∧ RestoresAll body body' := by
  have hprints := prints_heading .if_ hf rfl
  simp only [Stmt.fits, Bool.and_eq_true] at hf
  obtain ⟨⟨⟨⟨hname, hbases⟩, hkeywords⟩, -⟩, hbody⟩ := hf
  have hcut : heading .if_ (.classDef s name bases keywords ds body) =
      word .class_ :: blank :: Fragment.name name ::
        (if bases.isEmpty && keywords.isEmpty then []
          else enclose .round (commas (exprs .test bases ++ arguments keywords))) ++
        [sign .colon] := rfl
  obtain ⟨m, body', c', hp, hcolon, hblock, hlt, hm, hmap⟩ :=
    heading_reads hr.closes ih hbody hprints hcut hsize h
  simp only [lexemes_word, lexemes_blank, lexemes_name, passes_cons] at hp
  obtain ⟨hclass, -, hid, -, hp⟩ := hp
  by_cases hnone : bases.isEmpty && keywords.isEmpty
  · rw [if_pos hnone] at hp
    obtain rfl := passes_nil.1 hp
    simp only [Bool.and_eq_true, List.isEmpty_iff] at hnone
    obtain ⟨rfl, rfl⟩ := hnone
    exact ⟨[], [], body', c', hlt, hm,
      by simp [classDef, expect_apply, hclass, name_apply hid, hcolon, hblock], rfl, rfl, hmap⟩
  · rw [if_neg hnone, lexemes_enclose] at hp
    simp only [passes_cons, passes_append, passes_nil] at hp
    obtain ⟨hopen, -, m₁, hp, hclose, -, rfl⟩ := hp
    obtain ⟨bases', keywords', harguments, hshape, hshape'⟩ :=
      (able_expr (sizeOf bases + sizeOf keywords + 1) (20 * c.advance.advance.advance.size + 18))
        |>.callArguments (Nat.lt_succ_self _) hbases hkeywords hp hclose (Nat.le_refl _)
    exact ⟨bases', keywords', body', c', hlt, hm,
      by simp [classDef, expect_apply, hclass, name_apply hid, hopen, harguments, hclose, hblock],
      hshape, hshape', hmap⟩

theorem functionDef_reads {s : Span} {mode : Mode} {name : String} {params : Parameters}
    {returns : Option Expr} {ds : List Expr} {body : List Stmt}
    (ih : ∀ x ∈ body, Reads (parseStatements k) k x)
    (hf : (Stmt.functionDef s mode name params returns ds body).fits) (start : Place)
    (ds' : List Expr) {depth line : Nat} {rest : List Row} (hr : Row.Clear depth rest)
    (hsize : c.size ≤ k + 1)
    (h : c.marks = Token.marks false depth line
      (.code depth (heading .if_ (.functionDef s mode name params returns ds body)) ::
        (Rows.stmts (depth + 1) false false body ++ rest))) :
    ∃ m params' returns' body' c', IsLed mode c m ∧ m.next.lexeme = .keyword .def_ ∧
      c'.size < c.size ∧ c'.marks = Token.marks false depth c'.reached.line rest ∧
      functionDef (parseStatements k) start mode ds' m =
        .ok (.functionDef ⟨start, c'.reached⟩ mode name params' returns' ds' body', c') ∧
      params'.shape = params.shape ∧ Shape.expr? returns' = Shape.expr? returns ∧
      RestoresAll body body' := by
  have hprints := prints_heading .if_ hf rfl
  simp only [Stmt.fits, Bool.and_eq_true] at hf
  obtain ⟨⟨⟨⟨hname, hparams⟩, hreturns⟩, -⟩, hbody⟩ := hf
  have hcut : heading .if_ (.functionDef s mode name params returns ds body) =
      lead mode .def_ ++ (Fragment.name name :: (enclose .round (commas params.fragments) ++
        behind [blank, sign .arrow, blank] .test returns)) ++ [sign .colon] := by
    simp [heading]
  obtain ⟨m, body', c', hp, hcolon, hblock, hlt, hm, hmap⟩ :=
    heading_reads hr.closes ih hbody hprints hcut hsize h
  obtain ⟨d, hled, hdef, hp⟩ := passes_lead hp
  rw [lexemes_name, lexemes_append, lexemes_enclose, lexemes_behind] at hp
  simp only [passes_cons, passes_append, passes_nil] at hp
  obtain ⟨hid, -, m₂, ⟨hopen, -, m₁, hp, hclose, -, rfl⟩, hreturn⟩ := hp
  obtain ⟨params', hparams, hshape⟩ :=
    (able_expr (sizeOf params + 1) (20 * d.advance.advance.advance.size)).parameters
      (Nat.lt_succ_self _) hparams hp (.inl rfl) hclose (Nat.le_refl _)
  obtain ⟨returns', hreturn, hshape'⟩ := take_after (.symbol .arrow) hreturns hreturn
    (by simp [hcolon]) (by rw [hcolon]; decide)
  exact ⟨d, params', returns', body', c', hled, hdef, hlt, hm,
    by simp [-after_apply, functionDef, expect_apply, hdef, name_apply hid, hopen, hparams, hclose,
      hreturn, hblock], hshape, hshape', hmap⟩

theorem Repeats.eq_of_none {α : Type} {p : Rule (Option α)} {as : List α} (h : Repeats p c as c')
    (hp : p c = .ok (none, c)) : as = [] ∧ c' = c := by
  cases h with
  | done h =>
    rw [hp] at h
    cases h
    exact ⟨rfl, rfl⟩
  | item h =>
    rw [hp] at h
    cases h

theorem comment_of_not_isComment (h : c.next.lexeme.isComment = false) :
    comment c = .ok (none, c) := by
  cases hl : c.next.lexeme with
  | comment => simp [hl, isComment] at h
  | _ => simp [comment, commentIf, hl]

/-- The decorators of a definition, each on a line of its own. -/
theorem repeats_decorators {ds : List Expr} (hf : ∀ e ∈ ds, e.fits .plain) {depth line : Nat}
    {word : Keyword} {fs : List Fragment} {rest : List Row}
    (h : c.marks = Token.marks false depth line
      (Rows.decorators depth ds ++ .code depth (Fragment.word word :: fs) :: rest)) :
    ∃ items c' line', Repeats decorator c items c' ∧ c'.size ≤ c.size ∧
      c'.marks = Token.marks false depth line' (.code depth (Fragment.word word :: fs) :: rest) ∧
      items.flatMap Prod.snd = [] ∧ Shape.exprs (items.map Prod.fst) = Shape.exprs ds := by
  induction ds generalizing c line with
  | nil =>
    have hl := next_code rfl rfl h
    exact ⟨[], c, line, .done (by simp [decorator, hl]), Nat.le_refl _, h, rfl, rfl⟩
  | cons e es ih =>
    rw [Rows.decorators, List.map_cons, List.cons_append, ← Rows.decorators] at h
    obtain ⟨m, hp, hm⟩ := passes_code (prints_decorator (hf e (List.mem_cons_self ..))) h
    rw [lexemes_sign, passes_cons] at hp
    obtain ⟨hat, hlater, hp⟩ := hp
    have hcode : ∃ gs rows, Rows.decorators depth es ++
        .code depth (Fragment.word word :: fs) :: rest =
        .code depth gs :: rows ∧ ∃ l ls, lexemes gs = l :: ls ∧ l.isLayout = false ∧
        l.isComment = false := by
      cases es with
      | nil => exact ⟨_, _, rfl, _, _, rfl, rfl, rfl⟩
      | cons d ds => exact ⟨_, _, rfl, _, _, rfl, rfl, rfl⟩
    obtain ⟨gs, rows, hrows, l, ls, hls, hlayout, hcomment⟩ := hcode
    obtain ⟨hin, hnew, hm', hsize', -⟩ := closeLine hm (by simp [hrows])
    have hend := endsLine_of_marks hm
    obtain ⟨e', he', hshape⟩ := take_plain (hf e (List.mem_cons_self ..)) .named .test
      (Nat.zero_le _) (Nat.le_refl _) m hp (hend.grip_lt (by decide))
    have hl : m.advance.next.lexeme = l := next_code hls hlayout (hrows ▸ hm')
    have hmany : many comment m.advance = .ok ([], m.advance) :=
      (Repeats.done (comment_of_not_isComment (by rw [hl, hcomment]))).many
    have hsize := hp.size_eq
    have hsize₂ := size_advance hlater
    obtain ⟨items, c', line', hrep, hle, hmarks, hnone, hmap⟩ :=
      ih (fun x hx => hf x (List.mem_cons_of_mem _ hx)) hm'
    refine ⟨(e', []) :: items, c', line', .item ?_ (by omega) hrep, by omega, hmarks, ?_, ?_⟩
    · simp [decorator, hat, he', hin, hnew, hmany]
    · simpa using hnone
    · simp [Shape.exprs, hshape, hmap]

theorem reads_classDef {s : Span} {name : String} {bases : List Expr} {keywords : List Argument}
    {ds : List Expr} {body : List Stmt} (ih : ∀ x ∈ body, Reads (parseStatements k) k x) :
    Reads (parseStatements (k + 1)) (k + 1) (.classDef s name bases keywords ds body) := by
  intro depth line rest c hf hc _ hr hsize h
  have hds : ∀ e ∈ ds, e.fits .plain := by
    simp only [Stmt.fits, Bool.and_eq_true, Fits.exprs_eq_true] at hf
    exact hf.1.2
  rw [Stmt.rows, List.append_assoc, List.cons_append] at h
  obtain ⟨items, m, line₁, hitems, hle, hm, hnone, hmap⟩ := repeats_decorators hds h
  obtain ⟨bases', keywords', body', c', hlt, hm', hdef, hbases, hkeywords, hbody⟩ :=
    classDef_reads ih hf c.next.span.start (items.map Prod.fst) hr (by omega) hm
  have hl : m.next.lexeme = .keyword .class_ := next_code rfl rfl hm
  refine ⟨.classDef ⟨c.next.span.start, c'.reached⟩ name bases' keywords'
    (items.map Prod.fst) body', c', ?_, by omega, hm', rfl, ?_, ?_⟩
  · cases ds with
    | nil =>
      have hfirst : c.next.lexeme = .keyword .class_ := next_code rfl rfl h
      obtain ⟨rfl, rfl⟩ := Repeats.eq_of_none hitems (by simp [decorator, hfirst])
      have hdef : classDef (parseStatements k) m.next.span.start [] m = _ := hdef
      simp [parseStatements, statement, hl, hdef]
      rfl
    | cons d ds =>
      have hat : c.next.lexeme = .symbol .atSign := next_code rfl rfl h
      simp [parseStatements, statement, hat, decorated, hitems.many, hl, hdef, hnone]
  · simp [Stmt.shape, Stmt.mapBlocks, shape_block, hbases, hkeywords, hmap, hbody.shape]
  · simp [Stmt.shape, Stmt.mapBlocks, shape_settle, hbases, hkeywords, hmap, hbody.spacing]

theorem reads_functionDef {s : Span} {mode : Mode} {name : String} {params : Parameters}
    {returns : Option Expr} {ds : List Expr} {body : List Stmt}
    (ih : ∀ x ∈ body, Reads (parseStatements k) k x) :
    Reads (parseStatements (k + 1)) (k + 1)
      (.functionDef s mode name params returns ds body) := by
  intro depth line rest c hf hc _ hr hsize h
  have hds : ∀ e ∈ ds, e.fits .plain := by
    simp only [Stmt.fits, Bool.and_eq_true, Fits.exprs_eq_true] at hf
    exact hf.1.2
  obtain ⟨word, fs, hword⟩ : ∃ word fs,
      heading .if_ (.functionDef s mode name params returns ds body) =
        Fragment.word word :: fs := by
    cases mode <;> exact ⟨_, _, rfl⟩
  rw [Stmt.rows, List.append_assoc, List.cons_append] at h
  obtain ⟨items, m, line₁, hitems, hle, hm, hnone, hmap⟩ := repeats_decorators hds (hword ▸ h)
  obtain ⟨d, params', returns', body', c', hled, hl, hlt, hm', hdef, hparams, hreturns,
    hbody⟩ := functionDef_reads ih hf c.next.span.start (items.map Prod.fst) hr (by omega)
      (hword ▸ hm)
  refine ⟨.functionDef ⟨c.next.span.start, c'.reached⟩ mode name params' returns'
    (items.map Prod.fst) body', c', ?_, by omega, hm', rfl, ?_, ?_⟩
  · cases ds with
    | nil =>
      have hfirst : c.next.lexeme = .keyword word := next_code rfl rfl (hword ▸ h)
      obtain ⟨rfl, rfl⟩ := Repeats.eq_of_none hitems (by simp [decorator, hfirst])
      rw [List.map_nil] at hdef
      obtain ⟨rfl, rfl⟩ | ⟨rfl, hasync, rfl⟩ := hled
      · simp [parseStatements, statement, hl, hdef]
        rfl
      · simp [parseStatements, statement, hasync, asyncStatement, expect_apply, hl, hdef]
        rfl
    | cons e es =>
      have hat : c.next.lexeme = .symbol .atSign := next_code rfl rfl h
      obtain ⟨rfl, rfl⟩ | ⟨rfl, hasync, rfl⟩ := hled
      · simp [parseStatements, statement, hat, decorated, hitems.many, hl, hdef, hnone]
      · simp [parseStatements, statement, hat, decorated, hitems.many, hasync, asyncStatement,
          expect_apply, hl, hdef, hnone]
  · simp [Stmt.shape, Stmt.mapBlocks, shape_block, hparams, hreturns, hmap, hbody.shape]
  · simp [Stmt.shape, Stmt.mapBlocks, shape_settle, hparams, hreturns, hmap, hbody.spacing]

end Statements

end Grammar

end AsyncErasure
