import AsyncErasure.Proofs.Token.Fragment
import AsyncErasure.Render.Page

namespace AsyncErasure

open Fragment

inductive Row where
  | code (depth : Nat) (fs : List Fragment)
  /-- A comment on a line of its own. -/
  | comment (depth : Nat) (text : String)
  /-- A comment behind the row before. -/
  | remark (depth : Nat) (text : String)
  | gap

namespace Row

def piece : Row → Piece
  | code depth fs => .line depth (String.ofList (spell fs))
  | comment depth text => .line depth text
  | remark depth text => .remark depth text
  | gap => .gap

def chars : Row → List Char
  | code depth fs => '\n' :: (List.replicate (4 * depth) ' ' ++ spell fs)
  | comment depth text => '\n' :: (List.replicate (4 * depth) ' ' ++ text.toList)
  | remark _ text => ' ' :: ' ' :: text.toList
  | gap => ['\n']

def spellAll (rows : List Row) : List Char := rows.flatMap chars

@[simp] theorem spellAll_nil : spellAll [] = [] := rfl

@[simp] theorem spellAll_cons (r : Row) (rows : List Row) :
    spellAll (r :: rows) = r.chars ++ spellAll rows := rfl

/-- The depth of the first row of code, zero if there is none. -/
def nextDepth : List Row → Nat
  | [] => 0
  | code depth _ :: _ => depth
  | _ :: rows => nextDepth rows

def IsRemark (text : String) : Prop :=
  ∃ cs, text.toList = '#' :: cs ∧ '\n' ∉ cs ∧ '\r' ∉ cs

structure IsCode (fs : List Fragment) : Prop where
  begins : ∃ l gs, fs = .lexeme l :: gs
  legible : ∀ rest : List Char, (∀ d ∈ rest.head?, Lexeme.isBreak d) → Legible fs rest
  balanced : Token.Balanced (lexemes fs)
  unified : '\r' ∉ spell fs

/-- Rows that make a page at the given indentation; the flag tells that a remark may come next. A
row of code is at most one level deeper than the one before. -/
def Sound : (remarkable : Bool) → (indent : Nat) → List Row → Prop
  | _, _, [] => True
  | _, indent, code depth fs :: rows => depth ≤ indent + 1 ∧ IsCode fs ∧ Sound true depth rows
  | _, indent, comment depth text :: rows =>
    IsRemark text ∧ nextDepth rows ≤ depth ∧ Sound false (min indent depth) rows
  | remarkable, indent, remark _ text :: rows =>
    remarkable ∧ IsRemark text ∧ Sound false indent rows
  | _, indent, gap :: rows => Sound false indent rows

end Row

namespace Token

open Row

def lineEnd (isOpen : Bool) : List Mark := if isOpen then [.layout (.newline true)] else []

def shift (indent depth : Nat) : List Mark :=
  if indent < depth then [.layout .indent] else List.replicate (indent - depth) (.layout .dedent)

/-- The marks of rows behind the given line, which may be open, at the given indentation. -/
def marks : (isOpen : Bool) → (indent line : Nat) → List Row → List Mark
  | isOpen, indent, _, [] =>
    lineEnd isOpen ++ List.replicate indent (.layout .dedent) ++ [.layout .endMarker]
  | isOpen, indent, line, .code depth fs :: rows =>
    lineEnd isOpen ++ shift indent depth ++ trace (line + 1) (lexemes fs) ++
      marks true depth (line + 1 + height (lexemes fs)) rows
  | isOpen, indent, line, .comment depth text :: rows =>
    lineEnd isOpen ++ List.replicate (indent - depth) (.layout .dedent) ++
      ⟨.comment text false, line + 1, line + 1⟩ :: marks false (min indent depth) (line + 1) rows
  | isOpen, indent, line, .remark _ text :: rows =>
    ⟨.comment text true, line, line⟩ :: marks isOpen indent line rows
  | isOpen, indent, line, .gap :: rows => lineEnd isOpen ++ marks false indent (line + 1) rows

def widths : Nat → List Nat
  | 0 => []
  | n + 1 => 4 * (n + 1) :: widths n

theorem headD_widths (n : Nat) : (widths n).headD 0 = 4 * n := by
  cases n <;> rfl

theorem dropWhile_widths (n depth : Nat) :
    (widths n).dropWhile (4 * depth < ·) = widths (min n depth) := by
  induction n with
  | zero => simp [widths]
  | succ n ih =>
    rw [widths, List.dropWhile_cons]
    by_cases h : depth < n + 1
    · rw [if_pos (by simp; omega), ih]
      congr 1
      omega
    · rw [if_neg (by simp; omega), Nat.min_eq_left (by omega), widths]

theorem length_takeWhile_widths (n depth : Nat) :
    ((widths n).takeWhile (4 * depth < ·)).length = n - depth := by
  induction n with
  | zero => simp [widths]
  | succ n ih =>
    rw [widths, List.takeWhile_cons]
    by_cases h : depth < n + 1
    · rw [if_pos (by simp; omega), List.length_cons, ih]
      omega
    · rw [if_neg (by simp; omega), List.length_nil]
      omega

theorem map_mark_dedent (place : Place) (n depth : Nat) :
    (dedent place (4 * depth) (widths n)).1.map mark =
      List.replicate (n - depth) (.layout .dedent) := by
  rw [dedent, List.map_map, ← length_takeWhile_widths, ← List.map_const]
  rfl

theorem dedent_snd (place : Place) (n depth : Nat) :
    (dedent place (4 * depth) (widths n)).2 = widths (min n depth) :=
  dropWhile_widths n depth

theorem exists_layout (place : Place) {n depth : Nat} (h : depth ≤ n + 1) :
    ∃ start, layout place (4 * depth) (widths n) = .ok (start, widths depth) ∧
      start.map mark = shift n depth := by
  unfold layout
  rw [headD_widths]
  by_cases hd : n < depth
  · obtain rfl : depth = n + 1 := by omega
    rw [if_pos (by omega)]
    exact ⟨_, rfl, by simp [shift, mark, Lexeme.isLayout, Lexeme.settled, Mark.layout]⟩
  · have hk : (dedent place (4 * depth) (widths n)).2 = widths depth := by
      rw [dedent_snd, Nat.min_eq_right (by omega)]
    rw [if_neg (by omega)]
    simp only [hk, headD_widths, if_true]
    exact ⟨_, rfl, by rw [map_mark_dedent, shift, if_neg hd]⟩

section Margin

variable {c : Char} {cs : List Char}

theorem dropWhile_margin (cs : List Char) (n : Nat) (h : isMargin c = false) :
    (List.replicate n ' ' ++ c :: cs).dropWhile isMargin = c :: cs := by
  induction n with
  | zero => simp [h]
  | succ n ih => simpa [List.replicate_succ, isMargin] using ih

theorem takeWhile_margin (n : Nat) (h : isMargin c = false) :
    (List.replicate n ' ' ++ c :: cs).takeWhile isMargin = List.replicate n ' ' := by
  induction n with
  | zero => simp [h]
  | succ n ih => simpa [List.replicate_succ, isMargin] using ih

theorem foldl_widen (n width : Nat) :
    (List.replicate n ' ').foldl widen width = width + n := by
  induction n generalizing width with
  | zero => rfl
  | succ n ih =>
    rw [List.replicate_succ, List.foldl_cons, ih]
    simp [widen]
    omega

theorem marginWidth_margin (n : Nat) (h : isMargin c = false) :
    marginWidth (List.replicate n ' ' ++ c :: cs) = n := by
  rw [marginWidth, takeWhile_margin n h, foldl_widen, Nat.zero_add]

end Margin

section Lines

variable {indents : List Nat} {place : Place} {c : Char} {cs rest : List Char}

def AtLineEnd (rest : List Char) : Prop := ∀ d ∈ rest.head?, d = '\n'

theorem restOfLine_append (hc : '\n' ∉ cs) (hr : AtLineEnd rest) :
    restOfLine (cs ++ rest) = cs := by
  have hcs : ∀ c ∈ cs, decide (c ≠ '\n') := by
    intro c hmem
    have : c ≠ '\n' := fun h => hc (h ▸ hmem)
    simpa using this
  rw [restOfLine, List.takeWhile_append_of_pos hcs]
  cases rest with
  | nil => simp
  | cons d rest => simp [hr d rfl]

theorem afterLine_append (hc : '\n' ∉ cs) (hr : AtLineEnd rest) :
    afterLine (cs ++ rest) = rest := by
  have hcs : ∀ c ∈ cs, decide (c ≠ '\n') := by
    intro c hmem
    have : c ≠ '\n' := fun h => hc (h ▸ hmem)
    simpa using this
  rw [afterLine, List.dropWhile_append_of_pos hcs]
  cases rest with
  | nil => simp
  | cons d rest => simp [hr d rfl]

theorem nextCodeWidth_nil : nextCodeWidth [] = 0 := by
  rw [nextCodeWidth.eq_def]
  rfl

theorem nextCodeWidth_margin (n : Nat) (h : isMargin c = false) :
    nextCodeWidth (List.replicate n ' ' ++ c :: rest) =
      if c = '\n' then nextCodeWidth rest
      else if c = '#' then nextCodeWidth ((afterLine rest).drop 1)
      else n := by
  have hd := dropWhile_margin rest n h
  rw [nextCodeWidth.eq_def]
  split
  · simp_all
  · rename_i heq
    rw [heq] at hd
    cases hd
    rw [widthAhead_zero, marginWidth_margin n h]

/-- How a text is read from a line start on, without what shows that it gets shorter. -/
theorem lines_eq (indents : List Nat) (place : Place) (cs : List Char) : lines indents place cs =
    let width := marginWidth cs
    let home := place.shift (runLength isMargin cs)
    match cs.dropWhile isMargin with
    | [] => .ok ((dedent home 0 indents).1 ++ [⟨.endMarker, ⟨home.lineStart, home⟩⟩])
    | c :: rest =>
      if c = '\n' then lines indents home.nextLine rest
      else if c = '#' then do
        let (closed, kept) :=
          dedent home (max width (nextCodeWidth ((afterLine rest).drop 1))) indents
        let stop := home.shift ((restOfLine rest).length + 1)
        let comment : Token :=
          ⟨.comment (String.ofList (c :: restOfLine rest)) false, ⟨⟨home.line, width⟩, stop⟩⟩
        let later ← lines kept stop (afterLine rest)
        return closed ++ comment :: later
      else do
        let (start, inside) ← layout home width indents
        let line ← codeLine home [] home (c :: rest)
        let later ← lines inside line.place line.rest
        return start ++ line.hoisted ++ line.tokens ++ later := by
  rw [lines.eq_def]
  dsimp only
  split
  · rename_i h
    rw [h]
  · rename_i c rest h
    rw [h]
    dsimp only
    congr 2
    refine congrArg _ (funext fun p => ?_)
    split
    · rename_i e he
      rw [he]
      rfl
    · rename_i line hline
      rw [hline]
      rfl

theorem lines_nil : lines indents place [] =
    .ok ((dedent place 0 indents).1 ++ [⟨.endMarker, ⟨place.lineStart, place⟩⟩]) := by
  rw [lines.eq_def]
  rfl

theorem lines_newline : lines indents place ('\n' :: rest) = lines indents place.nextLine rest := by
  rw [lines.eq_def]
  rfl

theorem lines_comment (indents : List Nat) (place : Place) (n : Nat) (hc : '\n' ∉ cs)
    (hr : AtLineEnd rest) :
    ∃ start stop : Place, start.line = place.line ∧ stop.line = place.line ∧
      lines indents place (List.replicate n ' ' ++ '#' :: (cs ++ rest)) =
        (lines (dedent start (max n (nextCodeWidth (rest.drop 1))) indents).2 stop rest).map
          fun later => (dedent start (max n (nextCodeWidth (rest.drop 1))) indents).1 ++
            ⟨.comment (String.ofList ('#' :: cs)) false, ⟨⟨place.line, n⟩, stop⟩⟩ :: later := by
  have hm : isMargin '#' = false := rfl
  refine ⟨place.shift (runLength isMargin (List.replicate n ' ' ++ '#' :: (cs ++ rest))),
    (place.shift (runLength isMargin (List.replicate n ' ' ++ '#' :: (cs ++ rest)))).shift
      (cs.length + 1), rfl, rfl, ?_⟩
  rw [lines_eq, dropWhile_margin (cs ++ rest) n hm]
  dsimp only
  rw [restOfLine_append hc hr, afterLine_append hc hr, marginWidth_margin n hm, if_neg (by decide),
    if_pos rfl]
  simp only [bind, Except.bind]
  split <;> simp_all <;> rfl

theorem lines_code (n : Nat) {start : List Token} {inside : List Nat} {line : CodeLine}
    (hm : isMargin c = false) (hn : c ≠ '\n') (hh : c ≠ '#') {home : Place}
    (hhome : home = place.shift (runLength isMargin (List.replicate n ' ' ++ c :: rest)))
    (hl : layout home n indents = .ok (start, inside))
    (hc : codeLine home [] home (c :: rest) = .ok line) :
    lines indents place (List.replicate n ' ' ++ c :: rest) =
      (lines inside line.place line.rest).map
        fun later => start ++ line.hoisted ++ line.tokens ++ later := by
  rw [lines_eq, dropWhile_margin rest n hm]
  dsimp only
  rw [if_neg hn, if_neg hh, ← hhome, marginWidth_margin n hm, hl]
  simp only [bind, Except.bind, hc]
  rfl

end Lines

section Scan

variable {tail : List Char} {rows : List Row} {indent : Nat}

theorem head_of_isCode {fs : List Fragment} (h : IsCode fs) :
    ∃ c cs, spell fs = c :: cs ∧ isMargin c = false ∧ c ≠ '#' ∧ c ≠ '\n' := by
  obtain ⟨l, gs, rfl⟩ := h.begins
  obtain ⟨c, cs, ht, hm⟩ := (h.legible [] (by simp)).1
  obtain ⟨hmargin, hhash, -, hline⟩ := munch_head hm
  exact ⟨c, cs ++ spell gs, by simp [Fragment.chars, ht], hmargin, hhash, hline⟩

theorem atLineEnd_spellAll (h : Sound false indent rows) (ht : AtLineEnd tail) :
    AtLineEnd (spellAll rows ++ tail) := by
  match rows with
  | [] => simpa using ht
  | .code .. :: _ | .comment .. :: _ | .gap :: _ => simp [AtLineEnd, Row.chars]
  | .remark .. :: _ => exact absurd h.1 (by simp)

theorem isBreak_spellAll {remarkable : Bool} (h : Sound remarkable indent rows)
    (ht : AtLineEnd tail) : ∀ d ∈ (spellAll rows ++ tail).head?, Lexeme.isBreak d := by
  have hline {cs : List Char} (hcs : AtLineEnd cs) : ∀ d ∈ cs.head?, Lexeme.isBreak d := by
    intro d hd
    rw [hcs d hd]
    rfl
  match rows with
  | [] => exact hline (by simpa using ht)
  | .code .. :: _ | .comment .. :: _ | .gap :: _ => exact hline (by simp [AtLineEnd, Row.chars])
  | .remark .. :: _ =>
    intro d hd
    simp only [spellAll_cons, Row.chars, List.cons_append, List.head?_cons, Option.mem_def,
      Option.some.injEq] at hd
    rw [← hd]
    rfl

theorem nextCodeWidth_drop {cs : List Char} (h : AtLineEnd cs) :
    nextCodeWidth (cs.drop 1) = nextCodeWidth cs := by
  cases cs with
  | nil => rfl
  | cons c cs =>
    rw [h c rfl]
    exact (nextCodeWidth_margin (c := '\n') 0 rfl).symm

theorem nextCodeWidth_spellAll (k : Nat) (h : Sound false indent rows) :
    nextCodeWidth (spellAll rows ++ List.replicate k '\n') = 4 * nextDepth rows := by
  have hnl (cs : List Char) : nextCodeWidth ('\n' :: cs) = nextCodeWidth cs :=
    nextCodeWidth_margin 0 rfl
  have ht : AtLineEnd (List.replicate k '\n') := by
    cases k <;> simp [AtLineEnd, List.replicate_succ]
  induction rows generalizing indent with
  | nil =>
    rw [spellAll_nil, List.nil_append, nextDepth]
    induction k with
    | zero => exact nextCodeWidth_nil
    | succ k ih =>
      rw [List.replicate_succ, hnl]
      exact ih (by cases k <;> simp [AtLineEnd, List.replicate_succ])
  | cons row rows ih =>
    cases row with
    | code depth fs =>
      obtain ⟨c, cs, hs, hm, hh, hl⟩ := head_of_isCode h.2.1
      rw [spellAll_cons, Row.chars, List.cons_append, List.cons_append, hnl, hs,
        List.append_assoc, List.append_assoc, List.cons_append, nextCodeWidth_margin _ hm,
        if_neg hl, if_neg hh, nextDepth]
    | comment depth text =>
      obtain ⟨⟨cs, hs, hl, -⟩, -, hrows⟩ := h
      have hend := atLineEnd_spellAll hrows ht
      rw [spellAll_cons, Row.chars, List.cons_append, List.cons_append, hnl, hs,
        List.append_assoc, List.append_assoc, List.cons_append, nextCodeWidth_margin _ rfl,
        if_neg (by decide), if_pos rfl, afterLine_append hl hend, nextCodeWidth_drop hend,
        ih hrows, nextDepth]
      simp
    | remark depth text => exact absurd h.1 (by simp)
    | gap =>
      rw [spellAll_cons, Row.chars, List.cons_append, List.nil_append, List.cons_append, hnl, ih h,
        nextDepth]
      simp

def ScansClosed (tail : List Char) (indent : Nat) (rows : List Row) : Prop :=
  ∀ place : Place, ∃ tokens, lines (widths indent) place (spellAll rows ++ tail) = .ok tokens ∧
    tokens.map mark = marks false indent place.line rows

/-- The tokens of rows behind a line of code, from the end of its code on. -/
def ScansOpen (tail : List Char) (indent : Nat) (rows : List Row) : Prop :=
  ∀ home place : Place, ∃ line later,
    codeLine home [] place (spellAll rows ++ tail) = .ok line ∧ line.hoisted = [] ∧
    lines (widths indent) line.place line.rest = .ok later ∧
    (line.tokens ++ later).map mark = marks true indent place.line rows

theorem codeLine_end (home place : Place) (tail : List Char) (h : AtLineEnd tail) (n : Nat) :
    ∃ line, codeLine home [] place tail = .ok line ∧ line.hoisted = [] ∧
      line.tokens.map mark = [.layout (.newline true)] ∧
      lines (widths n) line.place line.rest = lines (widths n) place tail := by
  cases tail with
  | nil =>
    refine ⟨⟨[], [⟨.newline false, .point place⟩], place, []⟩, ?_, rfl, rfl, rfl⟩
    rw [codeLine.eq_def]
    rfl
  | cons c cs =>
    rw [h c rfl]
    refine ⟨⟨[], [⟨.newline true, .point place⟩], place.nextLine, cs⟩, ?_, rfl, rfl, ?_⟩
    · rw [codeLine.eq_def]
      rfl
    · exact lines_newline.symm

theorem marks_true (h : Sound false indent rows) (line : Nat) :
    marks true indent line rows = .layout (.newline true) :: marks false indent line rows := by
  match rows with
  | [] | .code .. :: _ | .comment .. :: _ | .gap :: _ => simp [marks, lineEnd]
  | .remark .. :: _ => exact absurd h.1 (by simp)

theorem ScansClosed.isOpen (ht : AtLineEnd tail) (hs : Sound false indent rows)
    (h : ScansClosed tail indent rows) : ScansOpen tail indent rows := by
  intro home place
  obtain ⟨tokens, hok, hm⟩ := h place
  obtain ⟨line, hl, hh, ht, hlines⟩ :=
    codeLine_end home place _ (atLineEnd_spellAll hs ht) indent
  refine ⟨line, tokens, hl, hh, hlines.trans hok, ?_⟩
  rw [List.map_append, ht, hm, marks_true hs]
  rfl

theorem scansOpen_remark (ht : AtLineEnd tail) {depth : Nat} {text : String}
    (hr : IsRemark text) (hs : Sound false indent rows) (h : ScansOpen tail indent rows) :
    ScansOpen tail indent (.remark depth text :: rows) := by
  intro home place
  obtain ⟨cs, hcs, hl, -⟩ := hr
  have hend := atLineEnd_spellAll hs ht
  have htext : String.ofList ('#' :: cs) = text := by rw [← hcs, String.ofList_toList]
  obtain ⟨line, later, hc, hh, hlines, hm⟩ :=
    h home (((place.shift 1).shift 1).shift (cs.length + 1))
  refine ⟨line.cons ⟨.comment text true, ⟨(place.shift 1).shift 1,
    ((place.shift 1).shift 1).shift (cs.length + 1)⟩⟩, later, ?_, hh, hlines, ?_⟩
  · rw [spellAll_cons, Row.chars, hcs]
    simp only [List.cons_append, List.append_assoc]
    rw [codeLine_blank, codeLine_blank, codeLine.eq_def]
    simp only [restOfLine_append hl hend, afterLine_append hl hend, hc, htext, isMargin]
    rfl
  · rw [CodeLine.cons, List.cons_append, List.map_cons, hm]
    rfl

theorem scansClosed_code (ht : AtLineEnd tail) {depth : Nat} {fs : List Fragment}
    (hd : depth ≤ indent + 1) (hf : IsCode fs) (hs : Sound true depth rows)
    (h : ScansOpen tail depth rows) : ScansClosed tail indent (.code depth fs :: rows) := by
  intro place
  obtain ⟨c, cs, hcs, hm, hh, hl⟩ := head_of_isCode hf
  have hspell : spellAll (.code depth fs :: rows) ++ tail =
      '\n' :: (List.replicate (4 * depth) ' ' ++ c :: (cs ++ (spellAll rows ++ tail))) := by
    simp [Row.chars, hcs]
  rw [hspell, lines_newline]
  obtain ⟨home, hhome⟩ : ∃ home, home = place.nextLine.shift (runLength isMargin
      (List.replicate (4 * depth) ' ' ++ c :: (cs ++ (spellAll rows ++ tail)))) := ⟨_, rfl⟩
  have hline : home.line = place.line + 1 := by rw [hhome]; rfl
  obtain ⟨start, hlay, hstart⟩ := exists_layout home hd
  obtain ⟨tokens, inside, stop, hi, htok, hstop, hcode⟩ :=
    codeLine_spell (hf.legible _ (isBreak_spellAll hs ht)) home [] home (hf.balanced [])
  obtain rfl : inside = [] := List.map_eq_nil_iff.1 hi
  obtain ⟨line, later, hc, hhoist, hlines, hmarks⟩ := h home stop
  rw [hcs, List.cons_append, hc] at hcode
  refine ⟨start ++ tokens ++ (line.tokens ++ later), ?_, ?_⟩
  · rw [lines_code _ hm hl hh hhome hlay hcode]
    simp [CodeLine.prepend, Except.map, hlines, hhoist]
  · rw [List.map_append, hmarks, List.map_append, hstart, htok, hstop, hline]
    rfl

theorem scansClosed_comment (k : Nat) {depth : Nat} {text : String} (hr : IsRemark text)
    (hd : nextDepth rows ≤ depth) (hs : Sound false (min indent depth) rows)
    (h : ScansClosed (List.replicate k '\n') (min indent depth) rows) :
    ScansClosed (List.replicate k '\n') indent (.comment depth text :: rows) := by
  intro place
  obtain ⟨cs, hcs, hl, -⟩ := hr
  have ht : AtLineEnd (List.replicate k '\n') := by
    cases k <;> simp [AtLineEnd, List.replicate_succ]
  have hend := atLineEnd_spellAll hs ht
  have hspell : spellAll (.comment depth text :: rows) ++ List.replicate k '\n' =
      '\n' :: (List.replicate (4 * depth) ' ' ++
        '#' :: (cs ++ (spellAll rows ++ List.replicate k '\n'))) := by
    simp [Row.chars, hcs]
  have hwidth : max (4 * depth)
      (nextCodeWidth ((spellAll rows ++ List.replicate k '\n').drop 1)) = 4 * depth := by
    rw [nextCodeWidth_drop hend, nextCodeWidth_spellAll k hs]
    omega
  obtain ⟨start, stop, hstart, hstop, hok⟩ :=
    lines_comment (widths indent) place.nextLine (4 * depth) hl hend
  rw [hwidth, dedent_snd] at hok
  obtain ⟨tokens, htok, hm⟩ := h stop
  have htext : String.ofList ('#' :: cs) = text := by rw [← hcs, String.ofList_toList]
  rw [htok] at hok
  refine ⟨_, by rw [hspell, lines_newline, hok]; rfl, ?_⟩
  rw [List.map_append, map_mark_dedent, List.map_cons, hm, hstop, htext]
  simp [mark, Lexeme.isLayout, Span.line, Span.endLine, hstop, marks, lineEnd, Place.nextLine]

/-- Sound rows are read as their marks, whether or not a line end follows the last one. -/
theorem scansClosed (k : Nat) (h : Sound false indent rows) :
    ScansClosed (List.replicate k '\n') indent rows := by
  have ht : AtLineEnd (List.replicate k '\n') := by
    cases k <;> simp [AtLineEnd, List.replicate_succ]
  -- Behind a row of code the rows may begin with a remark.
  suffices hall : ∀ remarkable, Sound remarkable indent rows →
      (remarkable = false → ScansClosed (List.replicate k '\n') indent rows) ∧
      ScansOpen (List.replicate k '\n') indent rows from (hall false h).1 rfl
  clear h
  intro remarkable h
  induction rows generalizing indent remarkable with
  | nil =>
    have hclosed : ScansClosed (List.replicate k '\n') indent [] := by
      intro place
      induction k generalizing place with
      | zero =>
        refine ⟨_, lines_nil, ?_⟩
        rw [List.map_append, ← Nat.mul_zero 4, map_mark_dedent]
        rfl
      | succ k ih =>
        obtain ⟨tokens, hok, hm⟩ :=
          ih (by cases k <;> simp [AtLineEnd, List.replicate_succ]) place.nextLine
        exact ⟨tokens, lines_newline.trans hok, hm⟩
    exact ⟨fun _ => hclosed, hclosed.isOpen ht trivial⟩
  | cons row rows ih =>
    cases row with
    | code depth fs =>
      have hclosed := scansClosed_code ht h.1 h.2.1 h.2.2 (ih true h.2.2).2
      exact ⟨fun _ => hclosed, hclosed.isOpen ht h⟩
    | comment depth text =>
      have hclosed := scansClosed_comment k h.1 h.2.1 h.2.2 ((ih false h.2.2).1 rfl)
      exact ⟨fun _ => hclosed, hclosed.isOpen ht h⟩
    | remark depth text =>
      refine ⟨fun hf => absurd h.1 (by simp [hf]), scansOpen_remark ht h.2.1 h.2.2 ?_⟩
      exact (ih false h.2.2).2
    | gap =>
      have hclosed : ScansClosed (List.replicate k '\n') indent (.gap :: rows) := by
        intro place
        obtain ⟨tokens, hok, hm⟩ := (ih false h).1 rfl place.nextLine
        exact ⟨tokens, lines_newline.trans hok, hm⟩
      exact ⟨fun _ => hclosed, hclosed.isOpen ht h⟩

theorem unifyLineEnds_eq_self {cs : List Char} (h : '\r' ∉ cs) : unifyLineEnds cs = cs := by
  fun_induction unifyLineEnds cs with
  | case1 cs ih => simp at h
  | case2 c cs _ ih =>
    rw [ih fun hc => h (List.mem_cons_of_mem _ hc)]
  | case3 => rfl

theorem return_notMem_spellAll {remarkable : Bool} (h : Sound remarkable indent rows) :
    '\r' ∉ spellAll rows := by
  induction rows generalizing remarkable indent with
  | nil => simp
  | cons row rows ih =>
    cases row with
    | code depth fs => simp [Row.chars, h.2.1.unified, ih h.2.2]
    | comment depth text =>
      obtain ⟨⟨cs, hs, -, hr⟩, -, hrows⟩ := h
      simp [Row.chars, hs, hr, ih hrows]
    | remark depth text =>
      obtain ⟨-, ⟨cs, hs, -, hr⟩, hrows⟩ := h
      simp [Row.chars, hs, hr, ih hrows]
    | gap => simpa [Row.chars] using ih h

/-- A text that holds sound rows is scanned to their marks. -/
theorem exists_scan {text : String} (k : Nat) (h : Sound false 0 rows)
    (ht : '\n' :: text.toList = spellAll rows ++ List.replicate k '\n') :
    ∃ tokens, scan text = .ok tokens ∧ tokens.map mark = marks false 0 0 rows := by
  have hr : '\r' ∉ text.toList := by
    intro hmem
    have hall : '\r' ∈ spellAll rows ++ List.replicate k '\n' := ht ▸ List.mem_cons_of_mem _ hmem
    simp [return_notMem_spellAll h, List.mem_replicate] at hall
  obtain ⟨tokens, hok, hm⟩ := scansClosed k h ⟨0, 0⟩
  rw [← ht, lines_newline] at hok
  exact ⟨tokens, by rw [scan, unifyLineEnds_eq_self hr]; exact hok, hm⟩

end Scan

end Token

namespace Piece

theorem toList_pushn (text : String) (c : Char) (n : Nat) :
    (text.pushn c n).toList = text.toList ++ List.replicate n c := by
  rw [String.pushn_eq_repeat_push]
  induction n with
  | zero => rw [List.replicate_zero, List.append_nil, Nat.repeat]
  | succ n ih => rw [Nat.repeat, String.toList_push, ih, List.replicate_succ', List.append_assoc]

theorem toList_margin (depth : Nat) : (margin depth).toList = List.replicate (4 * depth) ' ' :=
  toList_pushn "" ' ' (4 * depth)

theorem toList_write {page : String} (hp : page ≠ "") (row : Row) :
    (write page row.piece).toList = page.toList ++ row.chars := by
  have hempty : page.isEmpty = false := by simpa using hp
  cases row <;>
    simp [Row.piece, write, newLine, hempty, Row.chars, String.toList_append, toList_margin]

theorem write_ne_empty {page : String} (hp : page ≠ "") (row : Row) :
    write page row.piece ≠ "" := by
  intro h
  have := congrArg String.toList h
  rw [toList_write hp] at this
  simp [hp] at this

theorem toList_foldl_write {page : String} (hp : page ≠ "") (rows : List Row) :
    ((rows.map Row.piece).foldl write page).toList = page.toList ++ Row.spellAll rows := by
  induction rows generalizing page with
  | nil => simp
  | cons row rows ih =>
    rw [List.map_cons, List.foldl_cons, ih (write_ne_empty hp row), toList_write hp,
      Row.spellAll_cons, List.append_assoc]

theorem toList_assemble_line (depth : Nat) {text : String} (ht : text ≠ "") (rows : List Row) :
    (assemble (.line depth text :: rows.map Row.piece)).toList =
      List.replicate (4 * depth) ' ' ++ text.toList ++ Row.spellAll rows := by
  have hfirst : write "" (.line depth text) = margin depth ++ text := by
    rw [write, newLine, if_pos (by decide), String.empty_append]
  have hne : margin depth ++ text ≠ "" := by
    intro h
    have := congrArg String.toList h
    simp [String.toList_append, ht] at this
  rw [assemble, List.foldl_cons, hfirst, toList_foldl_write hne, String.toList_append,
    toList_margin]

/-- A page that begins with a row of code or a comment is the text of its rows. -/
theorem toList_assemble {rows : List Row} (h : Row.Sound false 0 rows)
    (hg : rows.head? ≠ some .gap) :
    ∃ k, '\n' :: (assemble (rows.map Row.piece)).toList =
      Row.spellAll rows ++ List.replicate k '\n' := by
  match rows with
  | [] => exact ⟨1, rfl⟩
  | .gap :: _ => simp at hg
  | .remark .. :: _ => exact absurd h.1 (by simp)
  | .code depth fs :: rows =>
    obtain ⟨c, cs, hcs, -⟩ := Token.head_of_isCode h.2.1
    refine ⟨0, ?_⟩
    rw [List.map_cons, Row.piece, toList_assemble_line depth (by simp [hcs])]
    simp [Row.chars]
  | .comment depth text :: rows =>
    obtain ⟨cs, hcs, -⟩ := h.1
    have hne : text ≠ "" := by
      rintro rfl
      cases hcs
    refine ⟨0, ?_⟩
    rw [List.map_cons, Row.piece, toList_assemble_line depth hne]
    simp [Row.chars]

end Piece

end AsyncErasure
