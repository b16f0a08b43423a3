import AsyncErasure.Proofs.Grammar.Spread
import AsyncErasure.Proofs.Marker
import AsyncErasure.Proofs.Source

namespace AsyncErasure

open Token

namespace Block

variable {tokens : List Token} {lo hi n : Nat} {s a b : Stmt} {ss before after : List Stmt}
  {f : List Stmt → List Stmt}

theorem IsAdorned.cons (hs : s.isCode = false) (h : IsAdorned n ss) : IsAdorned n (s :: ss) := by
  obtain ⟨front, d, back, rfl, hfront, hd⟩ := h
  exact ⟨s :: front, d, back, rfl, List.forall_mem_cons.2 ⟨hs, hfront⟩, hd⟩

/-- Markers do not come between comments and their definition. -/
theorem IsAdorned.of_withoutMarkers (h : IsAdorned n (Spacing.withoutMarkers ss)) :
    IsAdorned n ss := by
  obtain ⟨front, d, back, hsplit, hfront, hd⟩ := h
  obtain ⟨as, bs, rfl, rfl, hrest⟩ := List.filter_eq_append_iff.1 hsplit
  obtain ⟨cs, ds, rfl, hcs, -, -⟩ := List.filter_eq_cons_iff.1 hrest
  refine ⟨as ++ cs, d, ds, (List.append_assoc ..).symm, fun s hs => ?_, hd⟩
  cases hblank : s.isBlank with
  | true => cases s <;> first | rfl | cases hblank
  | false =>
    rcases List.mem_append.1 hs with hs | hs
    · exact hfront s (List.mem_filter.2 ⟨hs, by simp [hblank]⟩)
    · exact absurd hblank (by simpa using hcs s hs)

theorem IsAdorned.mapInside (h : IsAdorned n ss) : IsAdorned n (Block.mapInside f ss) := by
  have hcode (s : Stmt) : (s.mapBlocks f).isCode = s.isCode := by cases s <;> rfl
  have hdecorated (s : Stmt) : (s.mapBlocks f).isDecorated = s.isDecorated := by cases s <;> rfl
  obtain ⟨front, d, back, rfl, hfront, hd⟩ := h
  refine ⟨Block.mapInside f front, d.mapBlocks f, Block.mapInside f back, ?_, ?_, ?_⟩
  · simp [Block.mapInside_eq_map]
  · simpa [Block.mapInside_eq_map, hcode] using hfront
  · rwa [hdecorated, Stmt.span_mapBlocks]

theorem Gaps.mapInside (h : Gaps tokens lo hi ss) : Gaps tokens lo hi (Block.mapInside f ss) := by
  induction ss generalizing lo with
  | nil => exact h
  | cons s ss ih =>
    rw [Block.mapInside, Gaps, Stmt.span_mapBlocks]
    refine ⟨fun hfar => ?_, ih h.2⟩
    obtain ⟨n, hlo, hhi, hn⟩ := h.1 hfar
    exact ⟨n, hlo, hhi, hn.imp_right IsAdorned.mapInside⟩

end Block

/-- Where a marker stands, the tokens skip a line, or the lines are those of a definition. -/
theorem Spacing.exists_between_of_gaps {tokens : List Token} {lo hi : Nat}
    {body before gap after : List Stmt} {a b : Stmt} (hplain : ∀ s ∈ body, s.isBlank = false)
    (hgaps : Block.Gaps tokens lo hi body)
    (hsplit : separate below body = before ++ a :: (gap ++ b :: after)) (ha : a.isBlank = false)
    (hb : b.isBlank = false) (hgap : ∀ s ∈ gap, s.isBlank)
    (hfar : a.span.endLine + 1 < b.span.line) :
    ∃ n, a.span.endLine < n ∧ n < b.span.line ∧
      (Skips tokens n ∨ Block.IsAdorned n (b :: after)) := by
  have hbody : body = withoutMarkers before ++ a :: b :: withoutMarkers after := by
    have hkept : withoutMarkers body = body := List.filter_eq_self.2 (by simpa using hplain)
    have hgone : withoutMarkers gap = [] := List.filter_eq_nil_iff.2 (by simpa using hgap)
    have hbare : withoutMarkers (separate below body) = withoutMarkers body :=
      withoutMarkers_separate body
    rw [hsplit, hkept] at hbare
    unfold withoutMarkers at hgone hbare ⊢
    rw [← hbare]
    simp [ha, hb, hgone]
  rw [hbody] at hgaps
  obtain ⟨n, hlo, hhi, hn⟩ := (Block.gaps_of_append hgaps).1 hfar
  refine ⟨n, hlo, hhi, hn.imp_right fun h => .of_withoutMarkers ?_⟩
  unfold withoutMarkers at h ⊢
  simpa [hb] using h

namespace Grammar

/-- In every block of a module, what stands apart has lines between that tokens skip. -/
theorem gaps_ofTokens {tokens : List Token} {m : Module} (h : Closed tokens)
    (hdown : GoesDown 1 tokens) (hsteps : Steps tokens) (hm : Module.ofTokens tokens = .ok m) :
    ∀ body ∈ m.blocksInsideOut, ∃ lo hi, Block.Gaps tokens lo hi body := by
  obtain ⟨htokens, hs, c', hbody, -⟩ := statementsUpTo_of_ofTokens h hm
  have hreached : (Cursor.ofTokens tokens).reached = .origin := by cases tokens <;> rfl
  have hpast : (Cursor.ofTokens tokens).Past tokens [] 1 :=
    ⟨hs, htokens.symm ▸ hsteps, htokens.symm ▸ hreached ▸ hdown, hreached ▸ Nat.le_refl 1,
      [], htokens.symm, rfl, nofun⟩
  obtain ⟨hi, -, -, hspread⟩ :=
    statementsUpTo_spreads (parseStatements_spreads _) 1 _ _ hpast m.body c' hbody
  intro body hin
  rw [Module.blocksInsideOut, Stmt.insideOut_eq, List.mem_append, List.mem_flatMap,
    List.mem_singleton] at hin
  rcases hin with ⟨s, hin, hbody⟩ | rfl
  · exact hspread.nested s hin body hbody
  · exact ⟨1, hi, hspread.gaps⟩

end Grammar

namespace Module

variable {source : String} {m : Module}

/-- The markers of a separated module stand for lines: there is one between two statements of a
block exactly where some line between them counts, given the statements that come next. -/
def MarksLines (m : Module) (counts : Nat → List Stmt → Prop) : Prop :=
  ∀ body ∈ m.separate.blocksInsideOut,
    ∀ (before : List Stmt) (a : Stmt) (gap : List Stmt) (b : Stmt) (after : List Stmt),
    body = before ++ a :: (gap ++ b :: after) → a.isBlank = false → b.isBlank = false →
    (∀ s ∈ gap, s.isBlank) →
    (gap ≠ [] ↔ ∃ n, a.span.endLine < n ∧ n < b.span.line ∧ counts n (b :: after))

/-- Markers stand for lines without code and comments, or for lines of a decorated definition above
a comment that has been put before it. -/
theorem marksLines_of_parse (hm : Module.parse source = .ok m) :
    m.MarksLines fun n ss => IsBare (unifyLineEnds source.toList) n ∨ Block.IsAdorned n ss := by
  obtain ⟨tokens, ht, htokens⟩ := parse_eq_ok hm
  have hgaps := Grammar.gaps_ofTokens (scan_closed ht) (goesDown_of_scan ht)
      (steps_of_lines ht) htokens
  have hunmarked : ∀ s ∈ m.statements, s.isBlank = false := by
    have hall := unmarked_of_parse hm
    rw [← Guard.all_statements] at hall
    simpa using hall
  intro body hbody before a gap b after hsplit ha hb hgap
  obtain ⟨inner, hinner, rfl⟩ := Spacing.exists_of_mem_separate hbody
  have hplain : ∀ s ∈ Block.mapInside (Spacing.separate Spacing.below) inner, s.isBlank = false :=
    Spacing.plain_mapInside hunmarked hinner
  have hmarker := (Spacing.isSpaced_separate hplain).between hsplit ha hb hgap
  constructor
  · intro hne
    have hfar : a.span.endLine + 1 < b.span.line := by
      by_contra hnear
      exact hne (by rw [hmarker, if_neg hnear])
    obtain ⟨lo, hi, hspread⟩ := hgaps inner hinner
    obtain ⟨n, hlo, hhi, hn⟩ :=
      Spacing.exists_between_of_gaps hplain hspread.mapInside hsplit ha hb hgap hfar
    exact ⟨n, hlo, hhi, hn.imp_left (Skips.isBare ht)⟩
  · rintro ⟨n, hlo, hhi, -⟩
    rw [hmarker, if_pos (show a.span.endLine + 1 < b.span.line by omega)]
    exact List.cons_ne_nil _ _

def commented : String := "x\n\ny\nz\n@d\n# c\ndef f(): pass\n"

theorem marksLines_of_parse_commented : ∃ m, Module.parse commented = .ok m ∧
    m.markerLines = [2, 5] ∧ m.MarksLines fun n ss =>
      IsBare (unifyLineEnds commented.toList) n ∨ Block.IsAdorned n ss := by
  have hmodule : (Module.parse commented).toOption.any fun m => m.markerLines == [2, 5] := by
    decide +kernel
  obtain ⟨m, hm, hlines⟩ := parse_of_any hmodule
  exact ⟨m, hm, eq_of_beq hlines, marksLines_of_parse hm⟩

def IsEmptyLine (text : List Char) (n : Nat) : Prop :=
  ∀ c ∈ slice text ⟨⟨n, 0⟩, ⟨n + 1, 0⟩⟩, isMargin c || c.isWhitespace

/-- In the module of a source, markers stand for empty lines and for nothing else. -/
def MarksEmptyLines (source : String) : Prop :=
  ∀ m, Module.parse source = .ok m →
    m.MarksLines fun n _ => IsEmptyLine (unifyLineEnds source.toList) n

def marksSecondLine (m : Module) : Bool :=
  match m.separate.body with
  | a :: marker :: b :: _ =>
    !a.isBlank && marker.isBlank && !b.isBlank && a.span.endLine == 1 && b.span.line == 3
  | _ => false

theorem not_marksLines_of_second {counts : Nat → List Stmt → Prop} (h : m.marksSecondLine)
    (hsecond : ∀ ss, ¬counts 2 ss) : ¬m.MarksLines counts := by
  intro hmarks
  unfold marksSecondLine at h
  split at h
  case h_2 => cases h
  rename_i a marker b rest hbody
  simp only [Bool.and_eq_true, Bool.not_eq_true', beq_iff_eq] at h
  obtain ⟨⟨⟨⟨ha, hmarker⟩, hb⟩, hend⟩, hline⟩ := h
  have hin : m.separate.body ∈ m.separate.blocksInsideOut := by simp [Module.blocksInsideOut]
  have hcounts := (hmarks _ hin [] a [marker] b rest hbody ha hb (by simpa using hmarker)).1
      (by simp)
  obtain ⟨n, hlo, hhi, hn⟩ := hcounts
  obtain rfl : n = 2 := by omega
  exact hsecond _ hn

theorem not_marksEmptyLines (hmodule : (Module.parse source).toOption.any marksSecondLine)
    (hline : (slice (unifyLineEnds source.toList) ⟨⟨2, 0⟩, ⟨3, 0⟩⟩).any fun c =>
      !(isMargin c || c.isWhitespace)) : ¬MarksEmptyLines source := by
  obtain ⟨m, hm, hsecond⟩ := parse_of_any hmodule
  refine fun hmarks => not_marksLines_of_second hsecond (fun _ hempty => ?_) (hmarks m hm)
  obtain ⟨c, hc, hfull⟩ := List.any_eq_true.1 hline
  simp [hempty c hc] at hfull

/-- A decorator stands above the comment that is put before it, and a backslash on the line that it
joins to the next. -/
theorem marked_lines_not_empty :
    ¬MarksEmptyLines "x\n@d\n# c\ndef f(): pass\n" ∧ ¬MarksEmptyLines "x\n\\\ny\n" :=
  ⟨not_marksEmptyLines (by decide +kernel) (by decide +kernel),
    not_marksEmptyLines (by decide +kernel) (by decide +kernel)⟩

end Module

end AsyncErasure
