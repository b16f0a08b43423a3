import AsyncErasure.Proofs.Token.Lookahead

namespace AsyncErasure

def Lexeme.isAside : Lexeme → Bool
  | comment _ inline => !inline
  | _ => false

namespace Token

open Text

/-- The token, but a block ends at no place. -/
def unplaced (t : Token) : Token := if t.lexeme = .dedent then ⟨.dedent, .point .origin⟩ else t

def code (tokens : List Token) : List Token :=
  (tokens.filter fun t => !t.lexeme.isAside).map unplaced

section Code

variable {t : Token} {a b tokens : List Token}

@[simp] theorem code_nil : code [] = [] := rfl

@[simp] theorem code_append (a b : List Token) : code (a ++ b) = code a ++ code b := by
  simp [code]

theorem code_cons_aside (h : t.lexeme.isAside) (tokens : List Token) :
    code (t :: tokens) = code tokens := by
  simp [code, h]

theorem code_cons (h : t.lexeme.isAside = false) (tokens : List Token) :
    code (t :: tokens) = t.unplaced :: code tokens := by
  simp [code, h]

theorem lexeme_unplaced (t : Token) : t.unplaced.lexeme = t.lexeme := by
  unfold unplaced
  split
  · rename_i h
    exact h.symm
  · rfl

theorem unplaced_eq (h : t.lexeme ≠ .dedent) : t.unplaced = t := if_neg h

def ends (n : Nat) : List Token := List.replicate n ⟨.dedent, .point .origin⟩

theorem ends_add (m n : Nat) : ends (m + n) = ends m ++ ends n := List.replicate_add ..

theorem code_dedent (place : Place) (width : Nat) (indents : List Nat) :
    code (dedent place width indents).1 = ends (indents.takeWhile (width < ·)).length := by
  rw [dedent, ends]
  generalize indents.takeWhile (width < ·) = closed
  induction closed with
  | nil => rfl
  | cons w closed ih =>
    rw [List.map_cons, code_cons rfl, ih]
    rfl

end Code

section Closing

variable {closed kept : List Nat} {place : Place} {width : Nat}

theorem takeWhile_append_of_all {w : Nat} (h : ∀ i ∈ closed, w < i) (kept : List Nat) :
    (closed ++ kept).takeWhile (w < ·) = closed ++ kept.takeWhile (w < ·) :=
  List.takeWhile_append_of_pos fun i hi => decide_eq_true (h i hi)

theorem dropWhile_append_of_all {w : Nat} (h : ∀ i ∈ closed, w < i) (kept : List Nat) :
    (closed ++ kept).dropWhile (w < ·) = kept.dropWhile (w < ·) :=
  List.dropWhile_append_of_pos fun i hi => decide_eq_true (h i hi)

/-- A line of code that closes some blocks closes them also after others inside have been closed. -/
theorem layout_of_closed {inside : List Nat} {start : List Token} (h : ∀ i ∈ closed, width < i)
    (hl : layout place width (closed ++ kept) = .ok (start, inside)) :
    ∃ start', layout place width kept = .ok (start', inside) ∧
      code start = ends closed.length ++ code start' := by
  cases closed with
  | nil => exact ⟨start, hl, rfl⟩
  | cons i closed =>
    have hi : width < i := h i (List.mem_cons_self ..)
    rw [layout, List.cons_append, List.headD_cons, if_neg (by omega), ← List.cons_append] at hl
    dsimp only at hl
    split at hl
    · rename_i hhead
      have hdrop := dropWhile_append_of_all h kept
      have hcode := code_dedent place width (i :: closed ++ kept)
      rw [takeWhile_append_of_all h, List.length_append, ends_add, ← code_dedent place] at hcode
      obtain ⟨rfl, rfl⟩ := Prod.mk.inj (Except.ok.inj hl)
      rw [show (dedent place width (i :: closed ++ kept)).2 = _ from hdrop] at hhead ⊢
      refine ⟨_, ?_, hcode⟩
      -- The remaining blocks are no wider, or the line would not stand in one of them.
      have hle : ¬ kept.headD 0 < width := by
        intro hlt
        cases kept with
        | nil =>
          rw [List.dropWhile_nil, List.headD_nil] at hhead
          simp [hhead] at hlt
        | cons k kept =>
          rw [List.headD_cons] at hlt
          rw [List.dropWhile_cons_of_neg (by simp; omega), List.headD_cons] at hhead
          omega
      rw [layout, if_neg hle]
      exact if_pos hhead
    · cases hl

/-- A line closes some of the deeper blocks and leaves the others, or closes what is left of them
and goes on with the blocks around them. -/
theorem dedent_of_closed (hs : IsStack (closed ++ kept)) (place : Place) (width : Nat) :
    ∃ left, (∀ i ∈ left, i ∈ closed) ∧
      (dedent place width (closed ++ kept)).2 = left ++ (dedent place width kept).2 ∧
      code (dedent place width (closed ++ kept)).1 ++ ends left.length =
        ends closed.length ++ code (dedent place width kept).1 := by
  simp only [code_dedent, ← ends_add]
  unfold dedent
  dsimp only
  induction closed with
  | nil => exact ⟨[], nofun, rfl, by simp⟩
  | cons i closed ih =>
    rw [List.cons_append] at hs ⊢
    by_cases hi : width < i
    · obtain ⟨left, hleft, hdrop, hends⟩ := ih hs.tail
      refine ⟨left, fun j hj => List.mem_cons_of_mem i (hleft j hj), by simpa [hi] using hdrop, ?_⟩
      have hlength : ∀ {m n : Nat}, ends m = ends n → m = n := fun h => by simpa [ends] using h
      have := hlength hends
      simp only [List.takeWhile_cons, hi, decide_true, if_true, List.length_cons]
      congr 1
      omega
    · have hkept : ∀ k ∈ kept, ¬ width < k := by
        intro k hk
        have := List.rel_of_pairwise_cons hs
            (List.mem_append_left [0] (List.mem_append_right closed hk))
        omega
      have hnone : kept.takeWhile (width < ·) = [] ∧ kept.dropWhile (width < ·) = kept := by
        cases kept with
        | nil => exact ⟨rfl, rfl⟩
        | cons k kept => simp [hkept k (List.mem_cons_self ..)]
      exact ⟨i :: closed, fun j hj => hj, by simp [hi, hnone.2], by simp [hi, hnone.1]⟩

open LineStart in
/-- Blocks deeper than the next line of code may be closed now as well as by the lines to come. -/
theorem lines_of_closed {closed kept : List Nat} {place : Place} {cs : List Char}
    {tokens : List Token}
    (hs : IsStack (closed ++ kept)) (h : ∀ i ∈ closed, nextCodeWidth cs < i)
    (hl : lines (closed ++ kept) place cs = .ok tokens) : ∃ tokens',
      lines kept place cs = .ok tokens' ∧ code tokens = ends closed.length ++ code tokens' := by
  rw [lines_eq] at hl ⊢
  rw [nextCodeWidth_eq] at h
  dsimp only at hl ⊢
  generalize place.shift (runLength isMargin cs) = home at hl ⊢
  -- The cases are those of the scanner: the end of the text, an empty line, a comment line, a line
  -- of code.
  cases hcs : cs.dropWhile isMargin with
  | nil =>
    simp only [hcs] at h hl ⊢
    cases hl
    refine ⟨_, rfl, ?_⟩
    rw [code_append, code_append, code_dedent, code_dedent, takeWhile_append_of_all h,
      List.length_append, ends_add, List.append_assoc]
  | cons c rest =>
    have hlt := length_lt_of_dropWhile hcs
    have hle := length_afterLine_le rest
    simp only [hcs] at h hl ⊢
    split at hl
    · rename_i hc
      rw [if_pos hc] at h ⊢
      exact lines_of_closed hs h hl
    rename_i hc
    rw [if_neg hc] at h ⊢
    split at hl
    · rename_i hsharp
      rw [if_pos hsharp] at h ⊢
      generalize max (marginWidth cs) _ = width at hl ⊢
      rw [← nextCodeWidth_afterLine] at h
      -- The comment closes some of the deeper blocks, and the rest of them are closed further on.
      obtain ⟨left, hleft, hdrop, hends⟩ := dedent_of_closed hs home width
      have hstack : IsStack (left ++ (dedent home width kept).2) := hdrop ▸ hs.dropWhile _
      obtain ⟨later, hlater, hr⟩ := bind_eq_ok hl
      rw [hdrop] at hlater
      obtain ⟨later', hlater', hcode⟩ := lines_of_closed hstack
          (fun i hi => h i (hleft i hi)) hlater
      cases hr
      refine ⟨_, by rw [hlater']; rfl, ?_⟩
      rw [code_append, code_append, code_cons_aside rfl, code_cons_aside rfl, hcode,
        ← List.append_assoc, hends, List.append_assoc]
    · rename_i hsharp
      rw [if_neg hsharp] at h ⊢
      obtain ⟨⟨start, inside⟩, hlayout, hr⟩ := bind_eq_ok hl
      obtain ⟨start', hlayout', hstart⟩ := layout_of_closed h hlayout
      obtain ⟨line, hline, hr⟩ := bind_eq_ok hr
      obtain ⟨later, hlater, hr⟩ := bind_eq_ok hr
      cases hr
      refine ⟨start' ++ line.hoisted ++ line.tokens ++ later, ?_, by simp [hstart]⟩
      simp only [hlayout', hline, hlater, bind, Except.bind, pure, Except.pure]
termination_by cs.length

end Closing

section CommentLine

open LineStart

variable {rest : List Char} {indents : List Nat} {place : Place} {tokens : List Token}

theorem unifyLineEnds_append {a : List Char} (ha : EndsLine a) (b : List Char) :
    unifyLineEnds (a ++ b) = unifyLineEnds a ++ unifyLineEnds b := by
  fun_induction unifyLineEnds a with
  | case1 cs ih =>
    rw [List.cons_append, List.cons_append, unifyLineEnds, ih (ha.of_suffix ⟨['\r', '\n'], rfl⟩)]
    rfl
  | case2 c cs hne ih =>
    rw [List.cons_append, unifyLineEnds, ih (ha.of_suffix (List.suffix_cons ..))]
    · rfl
    · rintro ds rfl h
      cases cs with
      | nil => exact absurd (ha '\r' rfl) (by decide)
      | cons d cs =>
        cases h
        exact hne cs rfl rfl
  | case3 => rfl

theorem endsLine_unifyLineEnds {a : List Char} (ha : EndsLine a) : EndsLine (unifyLineEnds a) := by
  have hcons {c : Char} {cs : List Char} (h : EndsLine cs) (hc : cs = [] → c = '\n') :
      EndsLine (c :: cs) := by
    cases cs with
    | nil => exact fun d hd => Option.some.inj hd ▸ hc rfl
    | cons d cs => exact h.append [c] (List.cons_ne_nil d cs)
  fun_induction unifyLineEnds a with
  | case1 cs ih => exact hcons (ih (ha.of_suffix ⟨['\r', '\n'], rfl⟩)) fun _ => rfl
  | case2 c cs hne ih =>
    refine hcons (ih (ha.of_suffix (List.suffix_cons ..))) fun hnil => ?_
    cases cs with
    | nil => exact ha c rfl
    | cons d cs =>
      unfold unifyLineEnds at hnil
      split at hnil <;> simp_all
  | case3 => exact nofun

theorem unifyLineEnds_plain {a : List Char} (ha : '\r' ∉ a) (b : List Char) :
    unifyLineEnds (a ++ b) = a ++ unifyLineEnds b := by
  induction a with
  | nil => rfl
  | cons c a ih =>
    rw [List.mem_cons, not_or] at ha
    rw [List.cons_append, unifyLineEnds, ih ha.2]
    · rfl
    · rintro ds rfl
      exact absurd rfl ha.1

/-- One line stays one line. -/
theorem exists_unifyLineEnds {cs : List Char} (h : '\n' ∉ cs) :
    ∃ cs', '\n' ∉ cs' ∧ unifyLineEnds (cs ++ ['\n']) = cs' ++ ['\n'] := by
  induction cs with
  | nil => exact ⟨[], h, rfl⟩
  | cons c cs ih =>
    rw [List.mem_cons, not_or] at h
    obtain ⟨cs', hcs', heq⟩ := ih h.2
    by_cases hr : c = '\r' ∧ cs = []
    · obtain ⟨rfl, rfl⟩ := hr
      exact ⟨[], List.not_mem_nil, rfl⟩
    · refine ⟨c :: cs', by simp [h.1, hcs'], ?_⟩
      rw [List.cons_append, unifyLineEnds, heq]
      · rfl
      · rintro ds rfl hds
        cases cs with
        | nil => exact hr ⟨rfl, rfl⟩
        | cons d cs =>
          cases hds
          simp at h

/-- Between two parts of a text a line begins, with no bracket or literal open and no line going
on. -/
def BeginsLine (before behind : String) : Prop :=
  EndsLine before.toList ∧ ∃ front s, Reads (ofSource (before ++ behind)) front s ∧
    s.text = unifyLineEnds behind.toList

/-- A comment line is read as a comment, behind the ends of the blocks that it closes. -/
theorem lines_commentLine {margin body : List Char} (hm : ∀ c ∈ margin, isMargin c)
    (hb : '\n' ∉ body) (indents : List Nat) (place : Place) (rest : List Char) :
    ∃ home width comment, nextCodeWidth rest ≤ width ∧ comment.lexeme.isAside ∧
      lines indents place (margin ++ '#' :: (body ++ '\n' :: rest)) =
        (lines (dedent home width indents).2 place.nextLine rest).map
          ((dedent home width indents).1 ++ comment :: ·) := by
  have hmargin : (margin ++ '#' :: (body ++ '\n' :: rest)).dropWhile isMargin =
      '#' :: (body ++ '\n' :: rest) := by
    rw [List.dropWhile_append_of_pos hm]
    rfl
  have hend : AtLineEnd ('\n' :: rest) := fun d hd => (Option.some.inj hd).symm
  have hnext (n k : Nat) : ((place.shift n).shift k).nextLine = place.nextLine := rfl
  rw [lines_eq, hmargin]
  dsimp only
  rw [if_neg (by decide), if_pos rfl, restOfLine_append hb hend, afterLine_append hb hend,
    lines_newline, hnext, List.drop_succ_cons, List.drop_zero]
  generalize marginWidth _ = width
  generalize place.shift _ = home
  exact ⟨home, max width (nextCodeWidth rest), ⟨.comment (String.ofList ('#' :: body)) false,
    ⟨⟨home.line, width⟩, home.shift (body.length + 1)⟩⟩, Nat.le_max_right .., rfl,
      bind_pure_comp _ _⟩

/-- And it looks ahead to the same line of code as an empty line does. -/
theorem nextCodeWidth_commentLine {margin body : List Char} (hm : ∀ c ∈ margin, isMargin c)
    (hb : '\n' ∉ body) (rest : List Char) :
    nextCodeWidth (margin ++ '#' :: (body ++ '\n' :: rest)) = nextCodeWidth ('\n' :: rest) := by
  have hend : AtLineEnd ('\n' :: rest) := fun d hd => (Option.some.inj hd).symm
  rw [nextCodeWidth_eq, nextCodeWidth_eq ('\n' :: rest), List.dropWhile_append_of_pos hm,
    List.dropWhile_cons_of_neg (by decide), List.dropWhile_cons_of_neg (by decide)]
  dsimp only
  rw [if_neg (by decide), if_pos rfl, if_pos rfl, afterLine_append hb hend]
  rfl

theorem scan_of_reads {source : String} {front : List Token} {s : LineStart}
    (h : Reads (ofSource source) front s) :
    scan source = (lines s.indents s.place s.text).map (front ++ ·) := lines_of_reads h

/-- A comment line leaves the tokens of the code as they are without its comment. -/
theorem scan_commentLine {before margin body behind : String} {tokens : List Token}
    (h : BeginsLine before ("\n" ++ behind)) (hm : ∀ c ∈ margin.toList, isMargin c)
    (hb : '\n' ∉ body.toList) (hscan : scan (before ++ ("\n" ++ behind)) = .ok tokens) : ∃ tokens',
      scan (before ++ (margin ++ "#" ++ body ++ "\n" ++ behind)) = .ok tokens' ∧
        code tokens = code tokens' := by
  obtain ⟨hend, front, s, hreads, hs⟩ := h
  obtain ⟨body', hb', hbody⟩ := exists_unifyLineEnds hb
  have hmargin : '\r' ∉ margin.toList ++ ['#'] := by
    simp only [List.mem_append, not_or]
    exact ⟨fun hr => absurd (hm _ hr) (by decide), by decide⟩
  -- The two texts differ in one line.
  have hbehind : unifyLineEnds ("\n" ++ behind).toList = '\n' :: unifyLineEnds behind.toList := by
    rw [String.toList_append]
    rfl
  have htext : ofSource (before ++ ("\n" ++ behind)) = ⟨[], .origin,
      unifyLineEnds before.toList ++ '\n' :: unifyLineEnds behind.toList⟩ := by
    rw [ofSource, String.toList_append, unifyLineEnds_append hend, hbehind]
  have htext' : ofSource (before ++ (margin ++ "#" ++ body ++ "\n" ++ behind)) = ⟨[], .origin,
      unifyLineEnds before.toList ++
        (margin.toList ++ '#' :: (body' ++ '\n' :: unifyLineEnds behind.toList))⟩ := by
    have hline : (margin ++ "#" ++ body ++ "\n" ++ behind).toList =
        (margin.toList ++ ['#']) ++ ((body.toList ++ ['\n']) ++ behind.toList) := by simp
    rw [ofSource, String.toList_append, unifyLineEnds_append hend, hline,
      unifyLineEnds_plain hmargin, unifyLineEnds_append (endsLine_snoc body.toList), hbody]
    simp
  rw [hbehind] at hs
  obtain ⟨home, width, comment, hwidth, haside, hlines⟩ :=
    lines_commentLine hm hb' s.indents s.place (unifyLineEnds behind.toList)
  have hreads' := (htext ▸ hreads).congr hs (endsLine_unifyLineEnds hend) (by simp)
    (nextCodeWidth_commentLine hm hb' _).symm
  rw [← htext'] at hreads'
  rw [scan_of_reads hreads, hs, lines_newline] at hscan
  cases hlater : lines s.indents s.place.nextLine (unifyLineEnds behind.toList) with
  | error e =>
    rw [hlater] at hscan
    cases hscan
  | ok later =>
    rw [hlater] at hscan
    cases hscan
    -- The blocks that the comment closes are deeper than the next line of code, which closes them
    -- otherwise.
    have hsplit := List.takeWhile_append_dropWhile (p := (width < ·)) (l := s.indents)
    have hstack : IsStack (s.indents.takeWhile (width < ·) ++ s.indents.dropWhile (width < ·)) :=
      hsplit.symm ▸ hreads.isStack IsStack.nil
    obtain ⟨later', hlater', hcode⟩ := lines_of_closed hstack
      (fun i hi => hwidth.trans_lt (by simpa using List.mem_takeWhile_imp hi))
      (hsplit.symm ▸ hlater)
    refine ⟨front ++ ((dedent home width s.indents).1 ++ comment :: later'), ?_, ?_⟩
    · rw [scan_of_reads hreads', hlines,
        show lines (dedent home width s.indents).2 _ _ = _ from hlater']
      rfl
    · rw [code_append, code_append, code_append, code_cons_aside haside, code_dedent, hcode]

end CommentLine

end Token

end AsyncErasure
