import AsyncErasure.Proofs.Token.Locality
import Mathlib.Data.List.Basic

namespace AsyncErasure.Token

open Text

/-- The text from the beginning of a line on, and the widths of the blocks open there, innermost
first. -/
structure LineStart where
  indents : List Nat
  place : Place
  text : List Char
deriving DecidableEq

namespace LineStart

def ofSource (source : String) : LineStart := ⟨[], .origin, unifyLineEnds source.toList⟩

def width (s : LineStart) : Nat := marginWidth s.text

def home (s : LineStart) : Place := s.place.shift (runLength isMargin s.text)

def body (s : LineStart) : List Char := s.text.dropWhile isMargin

/-- What a comment on the line is told of the next line of code. -/
def lookahead (s : LineStart) : Nat := nextCodeWidth ((afterLine (s.body.drop 1)).drop 1)

def isComment (s : LineStart) : Bool := s.body.head? == some '#'

/-- The line has no code but an end. -/
def isIdle (s : LineStart) : Bool := s.body.head? == some '\n' || s.isComment

/-- The width of a line of code, zero at the end of the text. -/
def codeWidth (s : LineStart) : Nat := if s.body = [] then 0 else s.width

/-- Reads one line and comes to the beginning of the next, if the text does not end before. -/
def read (s : LineStart) : Except Error (Option (List Token × LineStart)) :=
  match s.body with
  | [] => .ok none
  | c :: rest =>
    if c = '\n' then .ok (some ([], ⟨s.indents, s.home.nextLine, rest⟩))
    else if c = '#' then
      let (closed, kept) := dedent s.home (max s.width s.lookahead) s.indents
      let stop := s.home.shift ((restOfLine rest).length + 1)
      let comment : Token :=
        ⟨.comment (String.ofList (c :: restOfLine rest)) false, ⟨⟨s.home.line, s.width⟩, stop⟩⟩
      .ok (some (closed ++ [comment], ⟨kept, stop, afterLine rest⟩))
    else do
      let (start, inside) ← layout s.home s.width s.indents
      let line ← codeLine s.home [] s.home (c :: rest)
      return some (start ++ line.hoisted ++ line.tokens, ⟨inside, line.place, line.rest⟩)

variable {s t next last : LineStart} {front back tokens : List Token} {rest : List Char}

/-- A text is read line by line. -/
theorem lines_eq_read (s : LineStart) : lines s.indents s.place s.text = do
    match ← s.read with
    | none => return (dedent s.home 0 s.indents).1 ++ [⟨.endMarker, ⟨s.home.lineStart, s.home⟩⟩]
    | some (front, next) => return front ++ (← lines next.indents next.place next.text) := by
  rw [lines_eq, read]
  unfold lookahead
  dsimp only
  rw [show s.text.dropWhile isMargin = s.body from rfl, show marginWidth s.text = s.width from rfl,
    show s.place.shift (runLength isMargin s.text) = s.home from rfl]
  cases s.body with
  | nil => rfl
  | cons c rest =>
    dsimp only
    split
    · show _ = (lines s.indents s.home.nextLine rest).bind _
      cases lines s.indents s.home.nextLine rest <;> rfl
    split
    · simp only [List.drop_succ_cons, List.drop_zero, bind, Except.bind, pure, Except.pure,
        List.append_assoc, List.singleton_append]
    · cases layout s.home s.width s.indents with
      | error e => rfl
      | ok started =>
        simp only [bind, Except.bind]
        cases codeLine s.home [] s.home (c :: rest) <;> rfl

theorem lines_of_read (h : s.read = .ok (some (front, next))) :
    lines s.indents s.place s.text = (lines next.indents next.place next.text).map
      (front ++ ·) := by
  rw [lines_eq_read, h]
  cases hlines : lines next.indents next.place next.text <;>
    simp [bind, Except.bind, hlines] <;> rfl

inductive Reads : LineStart → List Token → LineStart → Prop
  | here {s : LineStart} : Reads s [] s
  | line {s next t : LineStart} {front back : List Token}
      (first : s.read = .ok (some (front, next)))
      (later : Reads next back t) : Reads s (front ++ back) t

/-- Reads on over blank lines and comments, as far as a line of code or the end of the text. -/
inductive Idles : LineStart → List Token → LineStart → Prop
  | here {s : LineStart} (h : s.isIdle = false) : Idles s [] s
  | line {s next t : LineStart} {front back : List Token} (h : s.isIdle)
      (first : s.read = .ok (some (front, next))) (later : Idles next back t) :
      Idles s (front ++ back) t

theorem Idles.reads (h : Idles s back t) : Reads s back t := by
  induction h with
  | here => exact .here
  | line _ first _ ih => exact .line first ih

theorem lines_of_reads (h : Reads s front t) :
    lines s.indents s.place s.text = (lines t.indents t.place t.text).map (front ++ ·) := by
  induction h with
  | here => cases lines _ _ _ <;> rfl
  | line first _ ih =>
    rw [lines_of_read first, ih]
    cases lines _ _ _ <;> simp [Except.map]

theorem nextCodeWidth_eq (cs : List Char) : nextCodeWidth cs =
    match cs.dropWhile isMargin with
    | [] => 0
    | c :: rest =>
      if c = '\n' then nextCodeWidth rest
      else if c = '#' then nextCodeWidth ((afterLine rest).drop 1)
      else marginWidth cs := by
  rw [nextCodeWidth.eq_def]
  split
  · rename_i h
    rw [h]
  · rename_i c rest h
    dsimp only
    rw [h, widthAhead_zero]

theorem nextCodeWidth_afterLine (cs : List Char) :
    nextCodeWidth (afterLine cs) = nextCodeWidth ((afterLine cs).drop 1) := by
  have hend := atLineEnd_afterLine cs
  cases hcs : afterLine cs with
  | nil => rfl
  | cons d rest =>
    obtain rfl : d = '\n' := hend d (by rw [hcs]; rfl)
    rw [nextCodeWidth_eq]
    rfl

theorem body_of_isComment (h : s.isComment) : ∃ rest, s.body = '#' :: rest := by
  unfold isComment at h
  cases hb : s.body with
  | nil => simp [hb] at h
  | cons c rest =>
    obtain rfl : c = '#' := by simpa [hb] using h
    exact ⟨rest, rfl⟩

theorem isIdle_iff : s.isIdle ↔ ∃ c rest, s.body = c :: rest ∧ (c = '\n' ∨ c = '#') := by
  unfold isIdle isComment
  cases s.body <;> simp

theorem nextCodeWidth_of_not_isIdle (h : s.isIdle = false) :
    nextCodeWidth s.text = s.codeWidth := by
  rw [nextCodeWidth_eq, codeWidth, show s.text.dropWhile isMargin = s.body from rfl]
  cases hb : s.body with
  | nil => rfl
  | cons c rest =>
    simp only [isIdle, isComment, hb, List.head?_cons, Bool.or_eq_false_iff,
      beq_eq_false_iff_ne, ne_eq, Option.some.injEq] at h
    dsimp only
    rw [if_neg h.1, if_neg h.2, if_neg (by simp)]
    rfl

/-- A comment is told of what comes behind it. -/
theorem lookahead_eq (h : s.isComment) : s.lookahead = nextCodeWidth s.text := by
  obtain ⟨rest, hb⟩ := body_of_isComment h
  rw [nextCodeWidth_eq, show s.text.dropWhile isMargin = s.body from rfl, lookahead, hb]
  rfl

end LineStart

section Leaves

variable {w width : Nat} {indents inside kept : List Nat} {place : Place}
  {front back start tokens : List Token}

def dedents (tokens : List Token) : Nat := (tokens.map lexeme).count .dedent

@[simp] theorem dedents_append : dedents (front ++ back) = dedents front + dedents back := by
  rw [dedents, List.map_append, List.count_append]
  rfl

theorem dedents_dedent (place : Place) (width : Nat) (indents : List Nat) :
    dedents (dedent place width indents).1 = (indents.takeWhile (width < ·)).length := by
  rw [dedents, dedent, List.map_map]
  generalize indents.takeWhile (width < ·) = closed
  induction closed with
  | nil => rfl
  | cons i closed ih => simp [ih]

/-- The tokens close some of the blocks deeper than a width, and others are left to be closed. -/
structure Leaves (w : Nat) (indents : List Nat) (tokens : List Token) (kept : List Nat) : Prop where
  dropWhile_eq : kept.dropWhile (w < ·) = indents.dropWhile (w < ·)
  dedents_eq :
    dedents tokens + (kept.takeWhile (w < ·)).length = (indents.takeWhile (w < ·)).length

namespace Leaves

theorem of_dedents_eq_zero (h : dedents tokens = 0) : Leaves w indents tokens indents :=
  ⟨rfl, by rw [h, Nat.zero_add]⟩

theorem trans (h : Leaves w indents front kept) (h' : Leaves w kept back inside) :
    Leaves w indents (front ++ back) inside := by
  refine ⟨h'.dropWhile_eq.trans h.dropWhile_eq, ?_⟩
  rw [dedents_append, Nat.add_assoc, h'.dedents_eq, h.dedents_eq]

theorem dedent (hw : w ≤ width) :
    Leaves w indents (dedent place width indents).1 (dedent place width indents).2 := by
  refine ⟨?_, ?_⟩
  · show (indents.dropWhile (width < ·)).dropWhile (w < ·) = indents.dropWhile (w < ·)
    induction indents with
    | nil => rfl
    | cons i indents ih =>
      by_cases hi : width < i
      · simp [hi, hw.trans_lt hi, ih]
      · simp [hi]
  · rw [dedents_dedent]
    show _ + ((indents.dropWhile (width < ·)).takeWhile (w < ·)).length = _
    induction indents with
    | nil => rfl
    | cons i indents ih =>
      by_cases hi : width < i
      · simp [hi, hw.trans_lt hi, ← ih]
        omega
      · simp [hi]

end Leaves

/-- The widths of open blocks grow inwards, and the outermost lines have none. -/
def IsStack (indents : List Nat) : Prop := (indents ++ [0]).Pairwise (· > ·)

namespace IsStack

theorem nil : IsStack [] := List.pairwise_singleton ..

theorem dropWhile (h : IsStack indents) (p : Nat → Bool) : IsStack (indents.dropWhile p) :=
  h.sublist ((List.dropWhile_sublist p).append_right [0])

theorem le_headD (h : IsStack indents) (hw : w ∈ indents ++ [0]) : w ≤ indents.headD 0 := by
  cases indents with
  | nil => simpa using hw
  | cons i indents =>
    obtain rfl | hw := List.mem_cons.1 hw
    · exact Nat.le_refl w
    · exact (List.rel_of_pairwise_cons h hw).le

theorem layout (h : IsStack indents) (hl : layout place width indents = .ok (start, inside)) :
    IsStack inside := by
  unfold Token.layout at hl
  split at hl
  · rename_i hlt
    cases hl
    exact List.pairwise_cons.2 ⟨fun w hw => (h.le_headD hw).trans_lt hlt, h⟩
  · dsimp only at hl
    split at hl
    · cases hl
      exact h.dropWhile _
    · cases hl

theorem headD_dropWhile (h : IsStack indents) (hw : w ∈ indents ++ [0]) :
    (indents.dropWhile (w < ·)).headD 0 = w := by
  induction indents with
  | nil => exact (List.mem_singleton.1 hw).symm
  | cons i indents ih =>
    have hle := h.le_headD hw
    obtain heq | hlt := Nat.eq_or_lt_of_le hle
    · simp [heq]
    · rw [List.headD_cons] at hlt
      have hw' : w ∈ indents ++ [0] := (List.mem_cons.1 hw).resolve_left hlt.ne
      simpa [hlt] using ih h.tail hw'

/-- A line as wide as some open block, or without a margin, closes the deeper blocks and opens
none. -/
theorem layout_eq (h : IsStack indents) (hw : w ∈ indents ++ [0]) (place : Place) :
    Token.layout place w indents = .ok (Token.dedent place w indents) := by
  rw [Token.layout, if_neg (Nat.not_lt.2 (h.le_headD hw))]
  exact if_pos (h.headD_dropWhile hw)

end IsStack

end Leaves

namespace LineStart

variable {s t next : LineStart} {front back tokens : List Token}

theorem isStack_of_read (hs : IsStack s.indents) (h : s.read = .ok (some (front, next))) :
    IsStack next.indents := by
  unfold read at h
  split at h
  · cases h
  split at h
  · cases h
    exact hs
  split at h
  · cases h
    exact hs.dropWhile _
  · obtain ⟨⟨start, inside⟩, hl, hr⟩ := bind_eq_ok h
    obtain ⟨line, -, hr⟩ := bind_eq_ok hr
    cases hr
    exact hs.layout hl

theorem Reads.isStack (h : Reads s front t) (hs : IsStack s.indents) : IsStack t.indents := by
  induction h with
  | here => exact hs
  | line first _ ih => exact ih (isStack_of_read hs first)

def behind (s : LineStart) : List Char :=
  if s.body.head? = some '\n' then s.body.drop 1 else afterLine s.body

/-- A line without code is always read. It leaves the next line of code where it is, and closes no
block that the line of code goes on with. -/
theorem exists_read_of_isIdle (h : s.isIdle) : ∃ front next,
    s.read = .ok (some (front, next)) ∧ next.text = s.behind ∧ s.behind.length < s.text.length ∧
      nextCodeWidth s.behind = nextCodeWidth s.text ∧
      Leaves (nextCodeWidth s.text) s.indents front next.indents := by
  obtain ⟨c, rest, hb, rfl | rfl⟩ := isIdle_iff.1 h
  · have hbehind : s.behind = rest := by simp [behind, hb]
    rw [hbehind]
    refine ⟨[], ⟨s.indents, s.home.nextLine, rest⟩, ?_, rfl, length_lt_of_dropWhile hb, ?_,
      .of_dedents_eq_zero rfl⟩
    · rw [read, hb]
      rfl
    · rw [nextCodeWidth_eq s.text, show s.text.dropWhile isMargin = s.body from rfl, hb]
      rfl
  · have hcomment : s.isComment := by simp [isComment, hb]
    have hahead := lookahead_eq hcomment
    have hbehind : s.behind = afterLine rest := by simp [behind, hb, afterLine]
    rw [hbehind]
    refine ⟨_, _, by rw [read, hb]; rfl, rfl, ?_, ?_, ?_⟩
    · exact (length_afterLine_le rest).trans_lt (length_lt_of_dropWhile hb)
    · rw [← hahead, lookahead, hb]
      exact nextCodeWidth_afterLine rest
    · rw [← hahead]
      exact (Leaves.dedent (Nat.le_max_right ..)).trans (.of_dedents_eq_zero rfl)

/-- Past the lines without code, there is a line of code or the end of the text. -/
theorem exists_idles (s : LineStart) : ∃ back next, Idles s back next := by
  cases hs : s.isIdle with
  | false => exact ⟨[], s, .here hs⟩
  | true =>
    obtain ⟨front, next, hread, hbehind, hlt, -⟩ := exists_read_of_isIdle hs
    have : next.text.length < s.text.length := hbehind ▸ hlt
    obtain ⟨back, last, hlast⟩ := exists_idles next
    exact ⟨front ++ back, last, .line hs hread hlast⟩
termination_by s.text.length

theorem Idles.not_isIdle (h : Idles s back t) : t.isIdle = false := by
  induction h with
  | here h => exact h
  | line _ _ _ ih => exact ih

/-- The next line of code stays the same on the way to it. -/
theorem Idles.nextCodeWidth_eq (h : Idles s back t) :
    nextCodeWidth s.text = t.codeWidth := by
  induction h with
  | here h => exact nextCodeWidth_of_not_isIdle h
  | line hs first _ ih =>
    obtain ⟨_, _, hread, hbehind, -, hwidth, -⟩ := exists_read_of_isIdle hs
    cases first.symm.trans hread
    rw [← hwidth, ← hbehind, ih]

/-- Which line of code comes next depends on the text alone. -/
theorem Idles.body_eq {s' t' : LineStart} {back' : List Token} (h : Idles s back t)
    (h' : Idles s' back' t') (hb : s'.body = s.body) : t'.body = t.body := by
  have hidle : s'.isIdle = s.isIdle := by rw [isIdle, isIdle, isComment, isComment, hb]
  induction h generalizing s' back' with
  | here hs =>
    cases h' with
    | here => exact hb
    | line hs' => rw [hidle, hs] at hs'; cases hs'
  | @line s next _ _ _ hs first _ ih =>
    cases h' with
    | here hs' => rw [hidle, hs] at hs'; cases hs'
    | @line _ next' _ _ _ hs' first' later' =>
      obtain ⟨_, _, hread, hbehind, -⟩ := exists_read_of_isIdle hs
      obtain ⟨_, _, hread', hbehind', -⟩ := exists_read_of_isIdle hs'
      cases first.symm.trans hread
      cases first'.symm.trans hread'
      have htext : next'.text = next.text := by
        rw [hbehind', hbehind, behind, behind, hb]
      refine ih later' ?_ ?_
      · rw [body, body, htext]
      · rw [isIdle, isIdle, isComment, isComment, body, body, htext]

theorem Idles.leaves (h : Idles s back t) : Leaves t.codeWidth s.indents back t.indents := by
  induction h with
  | here h => exact .of_dedents_eq_zero rfl
  | line hs first later ih =>
    obtain ⟨_, _, hread, hbehind, -, hwidth, hleaves⟩ := exists_read_of_isIdle hs
    cases first.symm.trans hread
    rw [← hwidth, ← hbehind, later.nextCodeWidth_eq] at hleaves
    exact hleaves.trans ih

/-- The tokens from a line start up to the code of the next line that has any, and the blocks open
inside that line. At the end of the text they are what closes all blocks. -/
def Leads (s : LineStart) (tokens : List Token) (inside : List Nat) (t : LineStart) : Prop :=
  ∃ back start, Idles s back t ∧ layout t.home t.codeWidth t.indents = .ok (start, inside) ∧
    tokens = back ++ start

/-- To a line as wide as some open block, as many blocks are closed as are deeper, whatever comments
stand in between. -/
theorem Idles.leads (h : Idles s back t) (hs : IsStack s.indents)
    (hw : t.codeWidth ∈ s.indents ++ [0]) : ∃ tokens,
      Leads s tokens (s.indents.dropWhile (t.codeWidth < ·)) t ∧
        dedents tokens = (s.indents.takeWhile (t.codeWidth < ·)).length := by
  have hleaves := h.leaves
  have hmem : t.codeWidth ∈ t.indents ++ [0] := by
    have hhead := hs.headD_dropWhile hw
    rw [← hleaves.dropWhile_eq] at hhead
    cases hkept : t.indents.dropWhile (t.codeWidth < ·) with
    | nil =>
      rw [hkept] at hhead
      exact List.mem_append_right _ (List.mem_singleton.2 hhead.symm)
    | cons w kept =>
      rw [hkept] at hhead
      refine List.mem_append_left _ ((List.dropWhile_suffix (t.codeWidth < ·)).subset ?_)
      rw [hkept]
      exact hhead ▸ List.mem_cons_self
  have hlayout := (h.reads.isStack hs).layout_eq hmem t.home
  refine ⟨back ++ (dedent t.home t.codeWidth t.indents).1, ⟨back, _, h, ?_, rfl⟩, ?_⟩
  · rw [hlayout, ← hleaves.dropWhile_eq]
    rfl
  · rw [dedents_append, dedents_dedent, hleaves.dedents_eq]

theorem prefix_of_layout {start : List Token} {inside : List Nat} (hs : s.isIdle = false)
    (hl : layout s.home s.codeWidth s.indents = .ok (start, inside))
    (h : lines s.indents s.place s.text = .ok tokens) : start <+: tokens := by
  rw [lines_eq_read, read] at h
  cases hb : s.body with
  | nil =>
    rw [codeWidth, if_pos hb, layout, if_neg (Nat.not_lt_zero _)] at hl
    rw [hb] at h
    cases h
    dsimp only at hl
    split at hl <;> cases hl
    exact List.prefix_append ..
  | cons c rest =>
    rw [codeWidth, if_neg (by simp [hb])] at hl
    simp only [isIdle, isComment, hb, List.head?_cons, Bool.or_eq_false_iff,
      beq_eq_false_iff_ne, ne_eq, Option.some.injEq] at hs
    rw [hb] at h
    dsimp only at h
    rw [if_neg hs.1, if_neg hs.2, hl] at h
    obtain ⟨_, hread, hr⟩ := bind_eq_ok h
    obtain ⟨_, hlaid, hread⟩ := bind_eq_ok hread
    cases hlaid
    obtain ⟨line, -, hline⟩ := bind_eq_ok hread
    cases hline
    obtain ⟨later, -, hr⟩ := bind_eq_ok hr
    cases hr
    simp only [List.append_assoc]
    exact List.prefix_append ..

theorem Reads.prefix_of_lines {lead : List Token} (h : Reads s front t)
    (ht : ∀ later, lines t.indents t.place t.text = .ok later → lead <+: later)
    (hs : lines s.indents s.place s.text = .ok tokens) : front ++ lead <+: tokens := by
  rw [lines_of_reads h] at hs
  cases hlines : lines t.indents t.place t.text with
  | error e => simp [hlines, Except.map] at hs
  | ok later =>
    rw [hlines] at hs
    cases hs
    exact (List.prefix_append_right_inj front).2 (ht later hlines)

/-- What leads to a line is what the tokens begin with. -/
theorem Leads.prefix_of_scan {source : String} {lead : List Token} {inside : List Nat}
    (hs : Reads (ofSource source) front s) (h : Leads s lead inside t)
    (hscan : scan source = .ok tokens) :
    front ++ lead <+: tokens := by
  obtain ⟨back, start, hidles, hlayout, rfl⟩ := h
  refine hs.prefix_of_lines (fun _ => ?_) hscan
  exact hidles.reads.prefix_of_lines fun _ => prefix_of_layout hidles.not_isIdle hlayout

section Congr

variable {a b x y : List Char} {indents : List Nat} {place : Place}

/-- The lines of a text, each with its end. -/
def EndsLine (cs : List Char) : Prop := ∀ d ∈ cs.getLast?, d = '\n'

theorem EndsLine.append (hb : EndsLine b) (a : List Char) (hne : b ≠ []) : EndsLine (a ++ b) := by
  rwa [EndsLine, List.getLast?_append_of_ne_nil _ hne]

theorem EndsLine.of_suffix (h : EndsLine b) (hs : a <:+ b) : EndsLine a := by
  obtain ⟨front, rfl⟩ := hs
  intro d hd
  exact h d (by rw [List.getLast?_append, hd]; rfl)

theorem EndsLine.line_mem (h : EndsLine a) (hne : a ≠ []) : '\n' ∈ a := by
  have hlast := List.getLast?_eq_some_getLast hne
  exact h _ hlast ▸ List.getLast_mem hne

theorem dropWhile_append_of_line_mem {p : Char → Bool} (h : '\n' ∈ a) (hp : p '\n' = false)
    (x : List Char) : (a ++ x).dropWhile p = a.dropWhile p ++ x := by
  rw [List.dropWhile_append, if_neg]
  rw [List.isEmpty_iff, List.dropWhile_eq_nil_iff]
  exact fun hall => by simp [hall _ h] at hp

theorem takeWhile_append_of_line_mem {p : Char → Bool} (h : '\n' ∈ a) (hp : p '\n' = false)
    (x : List Char) : (a ++ x).takeWhile p = a.takeWhile p := by
  rw [List.takeWhile_append, if_neg]
  intro hlength
  have hall := (List.takeWhile_prefix p).eq_of_length hlength
  have := List.takeWhile_eq_self_iff.1 hall _ h
  simp [this] at hp

theorem EndsLine.line_mem_tail {c : Char} {cs : List Char} (h : EndsLine (c :: cs))
    (hc : c ≠ '\n') :
    '\n' ∈ cs :=
  (List.mem_cons.1 (h.line_mem (by simp))).resolve_left hc.symm

theorem EndsLine.exists_body (h : EndsLine a) (hne : a ≠ []) :
    ∃ c cs, a.dropWhile isMargin = c :: cs ∧ EndsLine (c :: cs) := by
  cases hb : a.dropWhile isMargin with
  | nil => exact absurd (List.dropWhile_eq_nil_iff.1 hb _ (h.line_mem hne)) (by decide)
  | cons c cs => exact ⟨c, cs, rfl, h.of_suffix (hb ▸ List.dropWhile_suffix _)⟩

theorem afterLine_append_of_line_mem (h : '\n' ∈ a) (x : List Char) :
    afterLine (a ++ x) = afterLine a ++ x :=
  dropWhile_append_of_line_mem h (by decide) x

theorem drop_afterLine_append (h : '\n' ∈ a) (x : List Char) :
    (afterLine (a ++ x)).drop 1 = (afterLine a).drop 1 ++ x := by
  rw [afterLine_append_of_line_mem h, List.drop_append_of_le_length]
  refine List.length_pos_iff.2 fun hnil => ?_
  have := List.dropWhile_eq_nil_iff.1 hnil _ h
  simp at this

theorem marginWidth_append (h : '\n' ∈ a) (x : List Char) :
    marginWidth (a ++ x) = marginWidth a := by
  rw [marginWidth, takeWhile_append_of_line_mem h rfl]
  rfl

/-- Whole lines in front of it do not change how a text is looked ahead for code. -/
theorem nextCodeWidth_append {a : List Char} (ha : EndsLine a)
    (h : nextCodeWidth x = nextCodeWidth y) :
    nextCodeWidth (a ++ x) = nextCodeWidth (a ++ y) := by
  by_cases hne : a = []
  · rw [hne]
    exact h
  have hline := ha.line_mem hne
  obtain ⟨c, cs, hb, hcs⟩ := ha.exists_body hne
  rw [nextCodeWidth_eq, nextCodeWidth_eq (a ++ y), dropWhile_append_of_line_mem hline rfl,
    dropWhile_append_of_line_mem hline rfl, hb, marginWidth_append hline, marginWidth_append hline]
  have hlt := length_lt_of_dropWhile hb
  simp only [List.cons_append]
  split
  · exact nextCodeWidth_append (hcs.of_suffix (List.suffix_cons ..)) h
  · rename_i hc
    have hmem := hcs.line_mem_tail hc
    have hle := length_afterLine_le cs
    rw [drop_afterLine_append hmem, drop_afterLine_append hmem]
    split
    · refine nextCodeWidth_append (hcs.of_suffix ?_) h
      exact (List.drop_suffix ..).trans ((List.dropWhile_suffix _).trans (List.suffix_cons ..))
    · rfl
termination_by a.length
decreasing_by
  · rw [List.length_drop]
    omega
  · omega

theorem body_append (h : '\n' ∈ a) (indents : List Nat) (place : Place) (x : List Char) :
    body ⟨indents, place, a ++ x⟩ = a.dropWhile isMargin ++ x :=
  dropWhile_append_of_line_mem h rfl x

theorem home_append (h : '\n' ∈ a) (indents : List Nat) (place : Place) (x : List Char) :
    home ⟨indents, place, a ++ x⟩ = home ⟨indents, place, a⟩ := by
  have hrun : (a ++ x).takeWhile isMargin = a.takeWhile isMargin :=
    takeWhile_append_of_line_mem h rfl x
  simp only [home, runLength, hrun]

theorem width_append (h : '\n' ∈ a) (indents : List Nat) (place : Place) (x : List Char) :
    width ⟨indents, place, a ++ x⟩ = width ⟨indents, place, a⟩ := marginWidth_append h x

/-- A line of code is read the same, whatever comes behind its lines. -/
theorem codeLine_congr {home start : Place} {opened : List Opened} {line : CodeLine}
    {cs : List Char}
    (h : codeLine home opened start (cs ++ x) = .ok line) (hrest : line.rest = b ++ x) (hx : x ≠ [])
    (y : List Char) : codeLine home opened start (cs ++ y) = .ok { line with rest := b ++ y } := by
  obtain hnil | ⟨here, hsplit, hcongr⟩ := (lineReads_of_codeLine h).congr
  · rw [hrest] at hnil
    exact absurd (List.append_eq_nil_iff.1 hnil).2 hx
  · rw [hrest, ← List.cons_append, ← List.append_assoc] at hsplit
    have hread := (hcongr (b ++ y)).codeLine_eq
    rwa [← List.cons_append, ← List.append_assoc, ← List.append_cancel_right hsplit] at hread

/-- A line is read the same, whatever lines of the same lookahead come behind it. -/
theorem read_congr (ha : EndsLine a) (hne : a ≠ []) (hx : x ≠ [])
    (hw : nextCodeWidth x = nextCodeWidth y)
    (h : read ⟨indents, place, a ++ x⟩ = .ok (some (front, next))) (hnext : next.text = b ++ x) :
    read ⟨indents, place, a ++ y⟩ = .ok (some (front, { next with text := b ++ y })) := by
  have hline := ha.line_mem hne
  obtain ⟨c, cs, hb, hcs⟩ := ha.exists_body hne
  unfold read at h ⊢
  simp only [body_append hline, home_append hline, width_append hline, hb, List.cons_append] at h ⊢
  split at h
  · rw [if_pos ‹_›]
    cases h
    obtain rfl := List.append_cancel_right hnext
    rfl
  rename_i hc
  have hmem := hcs.line_mem_tail hc
  rw [if_neg hc]
  split at h
  · rw [if_pos ‹_›]
    -- Only the lookahead of a comment sees behind its line.
    have hahead : lookahead ⟨indents, place, a ++ y⟩ = lookahead ⟨indents, place, a ++ x⟩ := by
      rw [lookahead, lookahead, body_append hline, body_append hline, hb]
      simp only [List.cons_append, List.drop_succ_cons, List.drop_zero, drop_afterLine_append hmem]
      refine nextCodeWidth_append (hcs.of_suffix ?_) hw.symm
      exact (List.drop_suffix ..).trans ((List.dropWhile_suffix _).trans (List.suffix_cons ..))
    have hrest (x : List Char) : restOfLine (cs ++ x) = restOfLine cs :=
      takeWhile_append_of_line_mem hmem (by decide) x
    simp only [hrest, hahead, afterLine_append_of_line_mem hmem] at h ⊢
    cases h
    obtain rfl := List.append_cancel_right hnext
    rfl
  · rw [if_neg ‹_›]
    obtain ⟨⟨start, inside⟩, hl, hr⟩ := bind_eq_ok h
    obtain ⟨line, hread, hr⟩ := bind_eq_ok hr
    cases hr
    simp only [hl, bind, Except.bind]
    rw [← List.cons_append, codeLine_congr hread hnext hx]
    rfl

theorem endsLine_snoc (cs : List Char) : EndsLine (cs ++ ['\n']) := by
  simp [EndsLine]

/-- A line that is read ends with its line end, or the next begins with it. -/
theorem exists_append_of_read (h : s.read = .ok (some (front, next))) :
    ∃ here, here ≠ [] ∧ s.text = here ++ next.text ∧ (EndsLine here ∨ AtLineEnd next.text) := by
  obtain ⟨margin, hmargin⟩ : ∃ margin, s.text.takeWhile isMargin = margin := ⟨_, rfl⟩
  have htext : s.text = margin ++ s.body := by
    rw [← hmargin]
    exact List.takeWhile_append_dropWhile.symm
  unfold read at h
  split at h
  · cases h
  rename_i c rest hb
  rw [htext, hb]
  split at h
  · rename_i hc
    cases h
    exact ⟨margin ++ ['\n'], by simp, by simp [hc], .inl (endsLine_snoc margin)⟩
  split at h
  · cases h
    refine ⟨margin ++ c :: restOfLine rest, by simp, ?_, .inr (atLineEnd_afterLine rest)⟩
    rw [List.append_assoc, List.cons_append, restOfLine_append_afterLine]
  · obtain ⟨⟨start, inside⟩, -, hr⟩ := bind_eq_ok h
    obtain ⟨line, hread, hr⟩ := bind_eq_ok hr
    cases hr
    obtain hnil | ⟨here, hsplit, -⟩ := (lineReads_of_codeLine hread).congr
    · refine ⟨margin ++ c :: rest, by simp, ?_, .inr ?_⟩
      · simp [hnil]
      · simp [hnil, AtLineEnd]
    · refine ⟨margin ++ here ++ ['\n'], by simp, ?_, .inl (endsLine_snoc _)⟩
      rw [hsplit]
      simp

/-- Lines that are read are what the text begins with. -/
theorem Reads.exists_append (h : Reads s front t) :
    ∃ before, s.text = before ++ t.text ∧ (EndsLine before ∨ AtLineEnd t.text) := by
  induction h with
  | here => exact ⟨[], rfl, .inl nofun⟩
  | line first _ ih =>
    obtain ⟨before, hnext, hbefore⟩ := ih
    obtain ⟨here, -, htext, hhere⟩ := exists_append_of_read first
    refine ⟨here ++ before, by rw [htext, hnext, List.append_assoc], ?_⟩
    cases before with
    | nil =>
      rw [List.append_nil]
      exact hhere.imp_right fun hend => by rwa [hnext] at hend
    | cons d before => exact hbefore.imp_left (·.append here (by simp))

/-- Lines are read the same, whatever lines of the same lookahead come behind them. -/
theorem Reads.congr (h : Reads ⟨indents, place, a ++ x⟩ front t) (ht : t.text = x) (ha : EndsLine a)
    (hx : x ≠ []) (hw : nextCodeWidth x = nextCodeWidth y) :
    Reads ⟨indents, place, a ++ y⟩ front { t with text := y } := by
  generalize hs : LineStart.mk indents place (a ++ x) = s at h
  induction h generalizing indents place a with
  | here =>
    subst hs
    obtain rfl : a = [] := List.append_left_eq_self.1 ht
    exact .here
  | line first later ih =>
    subst hs
    obtain ⟨b, hnext, -⟩ := later.exists_append
    obtain ⟨here, hne, htext, -⟩ := exists_append_of_read first
    rw [ht] at hnext
    rw [hnext, ← List.append_assoc] at htext
    obtain rfl := List.append_cancel_right htext
    refine .line (read_congr ha (by simp [hne]) hx hw first hnext) ?_
    exact ih ht (ha.of_suffix (List.suffix_append ..)) (by rw [← hnext])

end Congr

def uncomment (s : LineStart) : LineStart :=
  { s with text := s.text.takeWhile isMargin ++ afterLine s.body }

theorem dropWhile_of_atLineEnd {cs : List Char} (h : AtLineEnd cs) :
    cs.dropWhile isMargin = cs := by
  cases cs with
  | nil => rfl
  | cons c cs =>
    obtain rfl := h c rfl
    rfl

theorem body_uncomment (s : LineStart) : s.uncomment.body = afterLine s.body := by
  rw [body, uncomment, List.dropWhile_append_of_pos fun c hc => List.mem_takeWhile_imp hc]
  exact dropWhile_of_atLineEnd (atLineEnd_afterLine s.body)

theorem behind_of_isComment (hs : s.isComment) : s.behind = afterLine s.body := by
  obtain ⟨rest, hb⟩ := body_of_isComment hs
  simp [behind, hb]

theorem isIdle_of_isComment (hs : s.isComment) : s.isIdle := by simp [isIdle, hs]

/-- Without the comment, the line has the same lines behind it. -/
theorem nextCodeWidth_uncomment (hs : s.isComment) :
    nextCodeWidth s.uncomment.text = nextCodeWidth s.text := by
  obtain ⟨_, _, -, -, -, hwidth, -⟩ := exists_read_of_isIdle (isIdle_of_isComment hs)
  have hend := atLineEnd_afterLine s.body
  rw [← hwidth, behind_of_isComment hs, nextCodeWidth_eq, nextCodeWidth_eq (afterLine s.body),
    dropWhile_of_atLineEnd hend, show s.uncomment.text.dropWhile isMargin = _ from body_uncomment s]
  cases hb : afterLine s.body with
  | nil => rfl
  | cons c rest =>
    rw [hb] at hend
    obtain rfl := hend c rfl
    rfl

/-- Without the comment, the same line of code comes next. -/
theorem Idles.body_uncomment (hs : s.isComment) {t' : LineStart} {back' : List Token}
    (h : Idles s back t) (h' : Idles s.uncomment back' t') : t'.body = t.body := by
  have hidle := isIdle_of_isComment hs
  cases h with
  | here hnot => simp [hidle] at hnot
  | @line _ next _ _ _ _ first later =>
    obtain ⟨_, _, hread, hbehind, -⟩ := exists_read_of_isIdle hidle
    cases first.symm.trans hread
    have hnext : next.body = afterLine s.body := by
      rw [body, hbehind, behind_of_isComment hs]
      exact dropWhile_of_atLineEnd (atLineEnd_afterLine s.body)
    exact later.body_eq h' (by rw [hnext, LineStart.body_uncomment])

theorem not_atLineEnd_of_isComment (hs : s.isComment) : ¬AtLineEnd s.text := by
  intro hend
  obtain ⟨rest, hb⟩ := body_of_isComment hs
  rw [body, dropWhile_of_atLineEnd hend] at hb
  rw [hb] at hend
  exact absurd (hend '#' rfl) (by decide)

/-- The lookahead of any comment of a text is the width of the next line of code, as far as reading
on comes to it, and zero if it comes to the end of the text. If that is the width of an open block,
as many blocks are closed up to there as in the text without the comment, and the same ones
remain. -/
theorem lookahead_of_reads {source : String} (h : Reads (ofSource source) front s)
    (hs : s.isComment) : ∃ back t, Idles s back t ∧ s.lookahead = t.codeWidth ∧
      (t.codeWidth ∈ s.indents ++ [0] → ∃ before lead inside,
        (ofSource source).text = before ++ s.text ∧ Leads s lead inside t ∧
        (∀ tokens, scan source = .ok tokens → front ++ lead <+: tokens) ∧
        ∀ source', (ofSource source').text = before ++ s.uncomment.text →
          ∃ lead' t', Reads (ofSource source') front s.uncomment ∧
          Leads s.uncomment lead' inside t' ∧
            t'.codeWidth = t.codeWidth ∧ t'.body = t.body ∧
            (∀ tokens, scan source' = .ok tokens → front ++ lead' <+: tokens) ∧
            dedents (front ++ lead') = dedents (front ++ lead)) := by
  obtain ⟨back, t, hidles⟩ := exists_idles s
  refine ⟨back, t, hidles, (lookahead_eq hs).trans hidles.nextCodeWidth_eq, fun hw => ?_⟩
  obtain ⟨before, hbefore, hend⟩ := h.exists_append
  have hstack := h.isStack IsStack.nil
  obtain ⟨lead, hlead, hcount⟩ := hidles.leads hstack hw
  refine ⟨before, lead, _, hbefore, hlead, fun _ =>
    hlead.prefix_of_scan h, fun source' hsource' => ?_⟩
  have hreads : Reads (ofSource source') front s.uncomment := by
    have hlines := hend.resolve_right (not_atLineEnd_of_isComment hs)
    have hne : s.text ≠ [] := fun hnil => not_atLineEnd_of_isComment hs (by simp [hnil, AtLineEnd])
    have h' : Reads ⟨[], .origin, before ++ s.text⟩ front s := hbefore ▸ h
    have := h'.congr rfl hlines hne (nextCodeWidth_uncomment hs).symm
    rw [← hsource'] at this
    exact this
  obtain ⟨back', t', hidles'⟩ := exists_idles s.uncomment
  have hwidth : t'.codeWidth = t.codeWidth := by
    rw [← hidles'.nextCodeWidth_eq, nextCodeWidth_uncomment hs, hidles.nextCodeWidth_eq]
  obtain ⟨lead', hlead', hcount'⟩ := hidles'.leads hstack (by rw [hwidth]; exact hw)
  rw [hwidth] at hlead' hcount'
  refine ⟨lead', t', hreads, hlead', hwidth, hidles.body_uncomment hs hidles', fun _ =>
    hlead'.prefix_of_scan hreads, ?_⟩
  rw [dedents_append, dedents_append, hcount]
  exact congrArg _ hcount'

def readTimes : Nat → LineStart → Option (List Token × LineStart)
  | 0, s => some ([], s)
  | n + 1, s =>
    match s.read with
    | .ok (some (front, next)) => (readTimes n next).map fun (back, t) => (front ++ back, t)
    | _ => none

theorem reads_of_readTimes {n : Nat} (h : readTimes n s = some (front, t)) : Reads s front t := by
  induction n generalizing s front with
  | zero =>
    cases h
    exact .here
  | succ n ih =>
    unfold readTimes at h
    split at h
    · rename_i hread
      obtain ⟨_, hlater, hr⟩ := Option.map_eq_some_iff.1 h
      cases hr
      exact .line hread (ih hlater)
    · cases h

def stepped : String := "if a:\n    if b:\n        c\n  # d\n\n\t# e\n    f\n"

theorem lookahead_of_reads_stepped : ∃ front s back t, Reads (ofSource stepped) front s ∧
    s.isComment ∧ s.indents = [8, 4] ∧ Idles s back t ∧ s.lookahead = t.codeWidth ∧
    t.codeWidth = 4 ∧
    ∃ lead inside lead' t', Leads s lead inside t ∧ Leads s.uncomment lead' inside t' ∧
      Reads (ofSource "if a:\n    if b:\n        c\n  \n\n\t# e\n    f\n") front s.uncomment ∧
      dedents (front ++ lead') = dedents (front ++ lead) := by
  have hread : (readTimes 3 (ofSource stepped)).any fun (_, s) =>
      s.isComment && s.indents == [8, 4] && s.lookahead == 4 &&
        (ofSource stepped).text == "if a:\n    if b:\n        c\n".toList ++ s.text &&
        (ofSource "if a:\n    if b:\n        c\n  \n\n\t# e\n    f\n").text ==
          "if a:\n    if b:\n        c\n".toList ++ s.uncomment.text := by
    decide +kernel
  obtain ⟨⟨front, s⟩, hsome, hall⟩ := (Option.any_eq_true ..).1 hread
  simp only [Bool.and_eq_true, beq_iff_eq] at hall
  obtain ⟨⟨⟨⟨hs, hindents⟩, hahead⟩, htext⟩, htext'⟩ := hall
  have hreads := reads_of_readTimes hsome
  obtain ⟨back, t, hidles, hwidth, hleads⟩ := lookahead_of_reads hreads hs
  rw [hahead] at hwidth
  obtain ⟨before, lead, inside, hbefore, hlead, -, hwithout⟩ :=
    hleads (by simp [hindents, ← hwidth])
  obtain rfl := List.append_cancel_right (hbefore.symm.trans htext)
  obtain ⟨lead', t', hreads', hlead', -, -, -, hcount⟩ := hwithout _ htext'
  exact ⟨front, s, back, t, hreads, hs, hindents, hidles, hahead.trans hwidth, hwidth.symm,
    lead, inside, lead', t', hlead, hlead', hreads', hcount⟩

end LineStart

end AsyncErasure.Token
