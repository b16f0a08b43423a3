import AsyncErasure.Proofs.Token.Order
import AsyncErasure.Proofs.Token.Tiling

namespace AsyncErasure

namespace Lexeme

/-- The lexemes that fill lines: code and comments, but not the semicolons between statements. -/
def fills (l : Lexeme) : Bool := !l.isLayout && l != .symbol .semicolon

theorem isFlat_of_not_fills {l : Lexeme} (h : l.fills = false) : l.isFlat := by
  cases l with
  | symbol s => cases s <;> first | rfl | cases h
  | _ => rfl

theorem fills_of_isLayout {l : Lexeme} (h : l.isLayout) : l.fills = false := by
  rw [fills, h]
  rfl

theorem fills_of_isComment {l : Lexeme} (h : l.isComment) : l.fills := by
  cases l <;> first | rfl | cases h

end Lexeme

namespace Token

variable {home place : Place} {opened : List Opened} {indents : List Nat} {cs : List Char}
  {line : CodeLine} {n : Nat} {tokens front later : List Token} {q : Place × Char}

def isIdle (c : Char) : Bool := isMargin c || c == '\n' || c == ';' || c == '\\'

/-- A line of the text holds nothing else. -/
def IsBare (text : List Char) (n : Nat) : Prop :=
  ∀ c ∈ slice text ⟨⟨n, 0⟩, ⟨n + 1, 0⟩⟩, isIdle c

/-- Outside brackets, what fills lines stands either above or below a line. -/
def Skips (tokens : List Token) (n : Nat) : Prop :=
  ∃ front back, tokens = front ++ back ∧ balance [] (front.map lexeme) = some [] ∧
    (∀ t ∈ front, t.lexeme.fills → t.span.endLine < n) ∧
    ∀ t ∈ back, t.lexeme.fills → n < t.span.line

inductive Held (opened : List Bracket) (tokens : List Token) (q : Place × Char) : Prop
  | idle (h : isIdle q.2)
  | filled {t : Token} (ht : t ∈ tokens) (hf : t.lexeme.fills) (hbegin : t.span.line ≤ q.1.line)
      (hend : q.1.line ≤ t.span.endLine)
  | wrapped {a b : List Token} {inside : List Bracket} (h : tokens = a ++ b)
      (hopen : balance opened (a.map lexeme) = some inside) (hne : inside ≠ [])
      (ha : ∀ t ∈ a, t.lexeme.fills → t.span.endLine ≤ q.1.line)
      (hb : ∀ t ∈ b, t.lexeme.fills → q.1.line ≤ t.span.line)

/-- Behind further tokens. -/
theorem Held.behind {opened inside : List Bracket} (front : List Token) (h : Held inside tokens q)
    (hfront : balance opened (front.map lexeme) = some inside)
    (hend : ∀ t ∈ front, t.lexeme.fills → t.span.endLine ≤ q.1.line) :
    Held opened (front ++ tokens) q := by
  cases h with
  | idle h => exact .idle h
  | filled ht hf hbegin hend => exact .filled (List.mem_append_right _ ht) hf hbegin hend
  | @wrapped a b inside h hopen hne ha hb =>
    refine .wrapped (a := front ++ a) (by rw [h, List.append_assoc]) ?_ hne
      (List.forall_mem_append.2 ⟨hend, ha⟩) hb
    rw [List.map_append, balance_append, hfront]
    exact hopen

theorem balance_flat {ls : List Lexeme} (h : ∀ l ∈ ls, l.isFlat) (opened : List Bracket) :
    balance opened ls = some opened := by
  induction ls with
  | nil => rfl
  | cons l ls ih =>
    rw [List.forall_mem_cons] at h
    rw [balance_cons, Lexeme.nesting_of_isFlat h.1]
    exact ih h.2

theorem balance_of_not_fills (h : ∀ t ∈ tokens, t.lexeme.fills = false) (opened : List Bracket) :
    balance opened (tokens.map lexeme) = some opened :=
  balance_flat (List.forall_mem_map.2 fun t ht => Lexeme.isFlat_of_not_fills (h t ht)) opened

theorem line_le_of_mem_placed (hq : q ∈ placed place cs) :
    place.line ≤ q.1.line ∧ q.1.line ≤ (place.through cs).line := by
  obtain ⟨hlo, hhi⟩ := mem_placed hq
  constructor
  · rcases hlo.lt_or_eq with h | h
    · exact (Place.lt_iff.1 h).elim Nat.le_of_lt fun h => h.1.le
    · exact h ▸ Nat.le_refl _
  · exact (Place.lt_iff.1 hhi).elim Nat.le_of_lt fun h => h.1.le

/-- In a line of code every character is held, if it is in the lines behind. -/
theorem LineReads.held (h : LineReads home opened place cs line)
    (hdown : GoesDown line.place.line later)
    (hlater : ∀ q ∈ placed line.place line.rest, Held [] later q) :
    ∀ q ∈ placed place cs, Held (opened.map Prod.fst) (line.tokens ++ later) q := by
  have hflat {t : Token} {q : Place × Char} {opened : List Bracket} {tokens : List Token}
      (ht : t.lexeme.isFlat) (hq : Held opened tokens q)
      (hend : t.lexeme.fills → t.span.endLine ≤ q.1.line) : Held opened (t :: tokens) q :=
    hq.behind [t] (balance_flat (by simpa using ht) opened) (by simpa using hend)
  induction h with
  | eof => exact nofun
  | @ends place cs =>
    refine List.forall_mem_cons.2 ⟨.idle rfl, fun q hq => ?_⟩
    exact hflat rfl (hlater q hq) nofun
  | @margin opened place c cs line hc _ ih =>
    have hstep : place.after c = place.shift 1 := if_neg (by rintro rfl; cases hc)
    refine List.forall_mem_cons.2 ⟨.idle (by simp [isIdle, hc]), ?_⟩
    rw [hstep]
    exact ih hdown hlater
  | join _ ih =>
    exact List.forall_mem_cons.2 ⟨.idle rfl, List.forall_mem_cons.2 ⟨.idle rfl, ih hdown hlater⟩⟩
  | wrap _ _ ih => exact List.forall_mem_cons.2 ⟨.idle rfl, ih hdown hlater⟩
  | @remark place body cs line hbody _ _ ih =>
    intro q hq
    rw [← List.cons_append, placed_append, through_comment place hbody, List.mem_append] at hq
    rcases hq with hq | hq
    · obtain ⟨hbegin, hend⟩ := line_le_of_mem_placed hq
      rw [through_comment place hbody] at hend
      exact .filled (List.mem_cons_self ..) rfl hbegin hend
    · exact hflat rfl (ih hdown hlater q hq) fun _ => (line_le_of_mem_placed hq).1
  | @hoist opened place body cs line hopen hbody _ hrest ih =>
    intro q hq
    rw [← List.cons_append, placed_append, through_comment place hbody, List.mem_append] at hq
    rcases hq with hq | hq
    · -- A comment in brackets comes before the rest of what the brackets hold.
      obtain ⟨hbegin, hend⟩ := line_le_of_mem_placed hq
      rw [through_comment place hbody] at hend
      refine .wrapped (a := []) rfl rfl (by simpa using hopen) nofun fun t ht _ => ?_
      exact hend.trans ((hrest.goesDown hdown).le_line t ht).1
    · exact ih hdown hlater q hq
  | @lexeme opened inside place c cs line l n hm hn _ ih =>
    have htext := text_of_munch hm
    intro q hq
    rw [← List.take_append_drop n cs, ← List.cons_append, placed_append, List.mem_append] at hq
    rcases hq with hq | hq
    · cases hf : l.fills with
      | true =>
        obtain ⟨hbegin, hend⟩ := line_le_of_mem_placed hq
        exact .filled (List.mem_cons_self ..) hf hbegin hend
      -- The one lexeme of code that does not fill lines is itself idle.
      | false =>
        have hl : l = .symbol .semicolon := by
          simpa [Lexeme.fills, Lexeme.isLayout_of_munch hm] using hf
        have hchar : q.2 ∈ c :: cs.take n := by
          rw [← map_snd_placed place (c :: cs.take n)]
          exact List.mem_map_of_mem hq
        rw [← htext, hl] at hchar
        exact .idle (by rw [List.mem_singleton.1 hchar]; rfl)
    · refine (ih hdown hlater q hq).behind [⟨l, _⟩] ?_ ?_
      · rw [List.map_singleton, balance_cons, nesting_of_nest hn]
        rfl
      · exact List.forall_mem_singleton.2 fun _ => (line_le_of_mem_placed hq).1

/-- Every character of a page is held. -/
theorem PageReads.held (h : PageReads indents place cs tokens) :
    ∀ q ∈ placed place cs, Held [] tokens q := by
  have hmargin {margin : List Char} (hm : ∀ c ∈ margin, isMargin c) {place : Place}
      {tokens : List Token} : ∀ q ∈ placed place margin, Held [] tokens q := by
    intro q hq
    have hchar : q.2 ∈ margin := map_snd_placed place margin ▸ List.mem_map_of_mem hq
    exact .idle (by simp [isIdle, hm _ hchar])
  have hlayout {front tokens : List Token} {q : Place × Char} (hf : ∀ t ∈ front, t.lexeme.isLayout)
      (h : Held [] tokens q) : Held [] (front ++ tokens) q :=
    have hnone (t : Token) (ht : t ∈ front) := Lexeme.fills_of_isLayout (hf t ht)
    h.behind _ (balance_of_not_fills hnone []) fun t ht hfill => by simp [hnone t ht] at hfill
  induction h with
  | eof hm => exact hmargin hm
  | @gap indents place margin rest tokens hm _ ih =>
    rw [placed_append, through_margin place hm]
    exact List.forall_mem_append.2 ⟨hmargin hm, List.forall_mem_cons.2 ⟨.idle rfl, ih⟩⟩
  | @comment indents place margin body rest tokens width hm hbody _ _ ih =>
    rw [placed_append, through_margin place hm]
    refine List.forall_mem_append.2 ⟨hmargin hm, fun q hq => hlayout dedent_isLayout ?_⟩
    rw [← List.cons_append, placed_append, through_comment _ hbody, List.mem_append] at hq
    rcases hq with hq | hq
    · obtain ⟨hbegin, hend⟩ := line_le_of_mem_placed hq
      rw [through_comment _ hbody] at hend
      exact .filled (List.mem_cons_self ..) rfl hbegin hend
    · exact (ih q hq).behind [_] rfl
        (List.forall_mem_singleton.2 fun _ => (line_le_of_mem_placed hq).1)
  | @code indents inside place margin rest line start tokens hm hl here later ih =>
    obtain ⟨bodies, hbodies⟩ := here.hoisted_eq
    rw [placed_append, through_margin place hm, List.append_assoc, List.append_assoc]
    refine List.forall_mem_append.2 ⟨hmargin hm, fun q hq => hlayout (layout_isLayout hl) ?_⟩
    refine (here.held later.goesDown ih q hq).behind _ (balance_flat ?_ _) fun t ht _ => ?_
    · rw [hbodies]
      simp [commentOf, Lexeme.isFlat]
    · rw [hbodies] at ht
      obtain ⟨body, -, rfl⟩ := List.mem_map.1 ht
      exact (line_le_of_mem_placed hq).1

/-- A line that the tokens skip is bare. -/
theorem Skips.isBare {source : String} (ht : scan source = .ok tokens) (h : Skips tokens n) :
    IsBare (unifyLineEnds source.toList) n := by
  have hpage := pageReads_of_lines ht
  obtain ⟨front, back, hsplit, hflat, hfront, hback⟩ := h
  intro ch hch
  obtain ⟨q, hq, rfl⟩ := List.mem_map.1 hch
  obtain ⟨hplaced, hline⟩ := List.mem_filter.1 hq
  obtain rfl : q.1.line = n := by
    simp only [Bool.and_eq_true, decide_eq_true_eq] at hline
    have hlo := hline.1
    have hhi := Place.lt_iff.1 hline.2
    have : ¬q.1 < ⟨n, 0⟩ := not_lt.2 hlo
    rw [Place.lt_iff] at this
    simp at hhi this
    omega
  have hle := hpage.goesDown.le_line
  have hapart {t : Token} (ht : t ∈ front ++ back) (hf : t.lexeme.fills)
      (hbegin : t.span.line ≤ q.1.line) (hend : q.1.line ≤ t.span.endLine) : False := by
    rcases List.mem_append.1 ht with ht | ht
    · exact absurd (hfront t ht hf) (by omega)
    · exact absurd (hback t ht hf) (by omega)
  cases hpage.held q hplaced with
  | idle h => exact h
  | filled ht hf hbegin hend => exact (hapart (hsplit ▸ ht) hf hbegin hend).elim
  | @wrapped a b inside h hopen hne ha hb =>
    -- Between the two splits nothing fills a line, so no bracket is opened there either.
    refine absurd ?_ hne
    rcases List.append_eq_append_iff.1 (hsplit.symm.trans h) with ⟨x, rfl, rfl⟩ | ⟨x, rfl, rfl⟩
    · have hnone : ∀ t ∈ x, t.lexeme.fills = false := fun t ht => by
        by_contra hf
        have hf := Bool.eq_true_of_not_eq_false hf
        have := hback t (List.mem_append_left _ ht) hf
        have := ha t (List.mem_append_right _ ht) hf
        have := (hle t (by simp [hsplit, ht])).2
        omega
      rw [List.map_append, balance_append, hflat, Option.bind_some,
        balance_of_not_fills hnone] at hopen
      exact (Option.some.inj hopen).symm
    · have hnone : ∀ t ∈ x, t.lexeme.fills = false := fun t ht => by
        by_contra hf
        have hf := Bool.eq_true_of_not_eq_false hf
        have := hfront t (List.mem_append_right _ ht) hf
        have := hb t (List.mem_append_left _ ht) hf
        have := (hle t (by simp [hsplit, ht])).2
        omega
      rw [List.map_append, balance_append, hopen, Option.bind_some,
        balance_of_not_fills hnone] at hflat
      exact Option.some.inj hflat

end Token

end AsyncErasure
