import AsyncErasure.Proofs.Token.Page
import Mathlib.Data.List.TakeWhile

namespace AsyncErasure.Token

open Text

variable {home place : Place} {opened inside : List Opened} {indents kept : List Nat}
  {c : Char} {cs body margin rest : List Char} {line : CodeLine} {start tokens : List Token}

def commentOf (body : List Char) (inline : Bool) : Lexeme :=
  .comment (String.ofList ('#' :: body)) inline

inductive LineReads (home : Place) : List Opened → Place → List Char → CodeLine → Prop
  | eof {place : Place} :
      LineReads home [] place [] ⟨[], [⟨.newline false, .point place⟩], place, []⟩
  | ends {place : Place} {cs : List Char} :
      LineReads home [] place ('\n' :: cs)
        ⟨[], [⟨.newline true, .point place⟩], place.nextLine, cs⟩
  | margin {opened : List Opened} {place : Place} {c : Char} {cs : List Char} {line : CodeLine}
      (hc : isMargin c) (rest : LineReads home opened (place.shift 1) cs line) :
      LineReads home opened place (c :: cs) line
  | join {opened : List Opened} {place : Place} {cs : List Char} {line : CodeLine}
      (rest : LineReads home opened place.nextLine cs line) :
      LineReads home opened place ('\\' :: '\n' :: cs) line
  | wrap {opened : List Opened} {place : Place} {cs : List Char} {line : CodeLine}
      (hopen : opened ≠ []) (rest : LineReads home opened place.nextLine cs line) :
      LineReads home opened place ('\n' :: cs) line
  | remark {place : Place} {body cs : List Char} {line : CodeLine}
      (hbody : '\n' ∉ body) (hend : AtLineEnd cs)
      (rest : LineReads home [] (place.shift (body.length + 1)) cs line) :
      LineReads home [] place ('#' :: (body ++ cs))
        (line.cons ⟨commentOf body true, ⟨place, place.shift (body.length + 1)⟩⟩)
  | hoist {opened : List Opened} {place : Place} {body cs : List Char} {line : CodeLine}
      (hopen : opened ≠ []) (hbody : '\n' ∉ body) (hend : AtLineEnd cs)
      (rest : LineReads home opened (place.shift (body.length + 1)) cs line) :
      LineReads home opened place ('#' :: (body ++ cs))
        (line.hoist ⟨commentOf body false, .point home⟩)
  | lexeme {opened inside : List Opened} {place : Place} {c : Char} {cs : List Char}
      {line : CodeLine} {l : Lexeme} {n : Nat}
      (hm : munch c cs = .ok (l, n)) (hn : nest place opened l = .ok inside)
      (rest : LineReads home inside (place.through (c :: cs.take n)) (cs.drop n) line) :
      LineReads home opened place (c :: cs)
        (line.cons ⟨l, ⟨place, place.through (c :: cs.take n)⟩⟩)

/-- What the lines from a line start on are read as, under the given indentation. -/
inductive PageReads : List Nat → Place → List Char → List Token → Prop
  | eof {indents : List Nat} {place : Place} {margin : List Char}
      (hm : ∀ c ∈ margin, isMargin c) :
      PageReads indents place margin
        ((dedent (place.shift margin.length) 0 indents).1 ++
          [⟨.endMarker, ⟨place.lineStart, place.shift margin.length⟩⟩])
  | gap {indents : List Nat} {place : Place} {margin rest : List Char} {tokens : List Token}
      (hm : ∀ c ∈ margin, isMargin c) (later : PageReads indents place.nextLine rest tokens) :
      PageReads indents place (margin ++ '\n' :: rest) tokens
  | comment {indents : List Nat} {place : Place} {margin body rest : List Char}
      {tokens : List Token} (width : Nat)
      (hm : ∀ c ∈ margin, isMargin c) (hbody : '\n' ∉ body) (hend : AtLineEnd rest)
      (later : PageReads (dedent (place.shift margin.length) width indents).2
        ((place.shift margin.length).shift (body.length + 1)) rest tokens) :
      PageReads indents place (margin ++ '#' :: (body ++ rest))
        ((dedent (place.shift margin.length) width indents).1 ++
          ⟨commentOf body false, ⟨⟨place.line, margin.foldl widen 0⟩,
            (place.shift margin.length).shift (body.length + 1)⟩⟩ :: tokens)
  | code {indents inside : List Nat} {place : Place} {margin rest : List Char} {line : CodeLine}
      {start tokens : List Token}
      (hm : ∀ c ∈ margin, isMargin c)
      (hl : layout (place.shift margin.length) (margin.foldl widen 0) indents =
        .ok (start, inside))
      (here : LineReads (place.shift margin.length) [] (place.shift margin.length) rest line)
      (later : PageReads inside line.place line.rest tokens) :
      PageReads indents place (margin ++ rest) (start ++ line.hoisted ++ line.tokens ++ tokens)

theorem line_notMem_restOfLine (cs : List Char) : '\n' ∉ restOfLine cs :=
  fun h => by simpa using List.mem_takeWhile_imp h

theorem atLineEnd_afterLine (cs : List Char) : AtLineEnd (afterLine cs) := by
  intro d hd
  have h := List.head?_dropWhile_not (fun c => decide (c ≠ '\n')) cs
  rw [show cs.dropWhile (fun c => decide (c ≠ '\n')) = afterLine cs from rfl] at h
  rw [hd] at h
  simpa using h

theorem restOfLine_append_afterLine (cs : List Char) : restOfLine cs ++ afterLine cs = cs :=
  List.takeWhile_append_dropWhile

/-- A line of code is read step by step. -/
theorem lineReads_of_codeLine (h : codeLine home opened place cs = .ok line) :
    LineReads home opened place cs line := by
  fun_induction codeLine home opened place cs generalizing line with
  | case1 => cases h
  | case2 opened place hopened =>
    cases h
    rw [List.getLast?_eq_none_iff.1 hopened]
    exact .eof
  | case3 opened place c cs hc ih => exact .margin hc (ih h)
  | case4 opened place cs =>
    rename_i ih
    obtain ⟨l, hl, hr⟩ := bind_eq_ok h
    have hrest := ih hl
    have hbody := line_notMem_restOfLine cs
    have hend := atLineEnd_afterLine cs
    conv => arg 4; rw [← restOfLine_append_afterLine cs]
    split at hr
    · rename_i hopen
      cases hr
      obtain rfl := List.isEmpty_iff.1 hopen
      exact .remark hbody hend hrest
    · rename_i hopen
      cases hr
      exact .hoist (by simpa using hopen) hbody hend hrest
  | case5 opened place cs =>
    rename_i ih
    exact .join (ih h)
  | case6 => cases h
  | case7 opened place cs hopen =>
    cases h
    obtain rfl := List.isEmpty_iff.1 hopen
    exact .ends
  | case8 opened place cs hopen _ _ _ ih =>
    exact .wrap (by simpa using hopen) (ih h)
  | case9 => cases h
  | case10 opened place c cs _ _ _ _ lexeme n hm ih =>
    obtain ⟨inside, hn, hr⟩ := bind_eq_ok h
    obtain ⟨l, hl, hr⟩ := bind_eq_ok hr
    cases hr
    exact .lexeme hm hn (ih inside hl)

/-- A page is read line by line. -/
theorem pageReads_of_lines (h : lines indents place cs = .ok tokens) :
    PageReads indents place cs tokens := by
  have hmargin (cs : List Char) : ∀ c ∈ cs.takeWhile isMargin, isMargin c :=
    fun c hc => List.mem_takeWhile_imp hc
  have hsplit (cs : List Char) : cs.takeWhile isMargin ++ cs.dropWhile isMargin = cs :=
    List.takeWhile_append_dropWhile
  induction indents, place, cs using lines.induct generalizing tokens with
  | case1 indents place cs hcs =>
    rw [lines_eq, hcs] at h
    cases h
    conv => arg 3; rw [← hsplit cs, hcs, List.append_nil]
    exact .eof (hmargin cs)
  | case2 indents place cs =>
    rename_i hcs _ ih
    rw [lines_eq, hcs] at h
    conv => arg 3; rw [← hsplit cs, hcs]
    exact .gap (hmargin cs) (ih h)
  | case3 indents place cs _ _ body =>
    rename_i hd _ hcs _ _ ih
    rw [lines_eq, hcs] at h
    dsimp only at h
    rw [if_neg (by decide), if_pos rfl, hd] at h
    obtain ⟨later, hl, hr⟩ := bind_eq_ok h
    cases hr
    cases hd
    conv => arg 3; rw [← hsplit cs, hcs, ← restOfLine_append_afterLine body]
    exact .comment _ (hmargin cs) (line_notMem_restOfLine body) (atLineEnd_afterLine body) (ih hl)
  | case4 indents place cs =>
    rename_i hcs _ _ hn hh ih
    rw [lines_eq, hcs] at h
    dsimp only at h
    rw [if_neg hn, if_neg hh] at h
    obtain ⟨⟨front, inside⟩, hlayout, hr⟩ := bind_eq_ok h
    obtain ⟨line, hline, hr⟩ := bind_eq_ok hr
    obtain ⟨later, hlater, hr⟩ := bind_eq_ok hr
    cases hr
    conv => arg 3; rw [← hsplit cs, hcs]
    exact .code (hmargin cs) hlayout (lineReads_of_codeLine hline) (ih inside line hline hlater)

/-- With no bracket open, a line end ends the line of code. -/
theorem LineReads.of_atLineEnd (h : LineReads home [] place cs line) (hcs : AtLineEnd cs) :
    line.hoisted = [] ∧ ∃ written, line.tokens = [⟨.newline written, .point place⟩] := by
  have hne {c : Char} {cs : List Char} (hcs : AtLineEnd (c :: cs)) : c = '\n' := hcs c rfl
  cases h with
  | eof => exact ⟨rfl, false, rfl⟩
  | ends => exact ⟨rfl, true, rfl⟩
  | margin hc => cases hne hcs; cases hc
  | join => cases hne hcs
  | wrap hopen => exact absurd rfl hopen
  | remark => cases hne hcs
  | hoist hopen => exact absurd rfl hopen
  | lexeme hm => exact absurd (hne hcs) (munch_head hm).2.2.2

/-- The comments in the brackets of a line move to where the line begins. -/
theorem LineReads.hoisted_eq (h : LineReads home opened place cs line) :
    ∃ bodies : List (List Char),
      line.hoisted = bodies.map fun body => ⟨commentOf body false, .point home⟩ := by
  induction h with
  | eof | ends => exact ⟨[], rfl⟩
  | margin _ _ ih | join _ ih | wrap _ _ ih | remark _ _ _ ih | lexeme _ _ _ ih => exact ih
  | @hoist _ _ body _ _ _ _ _ _ ih =>
    obtain ⟨bodies, hbodies⟩ := ih
    exact ⟨body :: bodies, by rw [CodeLine.hoist, hbodies, List.map_cons]⟩

theorem scan_of_any {source : String} {p : List Token → Bool}
    (h : (scan source).toOption.any p) : ∃ tokens, scan source = .ok tokens ∧ p tokens := by
  cases hs : scan source with
  | error e =>
    rw [hs] at h
    cases h
  | ok tokens =>
    rw [hs] at h
    exact ⟨tokens, rfl, h⟩

end AsyncErasure.Token
