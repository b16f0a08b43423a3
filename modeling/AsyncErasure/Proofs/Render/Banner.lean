import AsyncErasure.Proofs.RoundTrip
import AsyncErasure.Render.Banner
import Mathlib.Data.String.Basic

namespace AsyncErasure

open Row

def IsNote (text : String) : Prop := ∃ cs, text.toList = '#' :: cs ∧ '\n' ∉ cs

def bannerLines (tool source : String) : List String :=
  ["# WARNING: this file is auto-generated by '" ++ tool ++ "'",
    "# from the original file '" ++ source ++ "'",
    "# DO NOT CHANGE! Change the original file instead."]

namespace Text

open String.Pos.Raw (extract)

theorem go₂_subset (cs : List Char) (i e : String.Pos.Raw) : extract.go₂ cs i e ⊆ cs := by
  induction cs generalizing i with
  | nil => exact List.Subset.refl _
  | cons c cs ih =>
    unfold extract.go₂
    split
    · exact List.nil_subset _
    · exact List.cons_subset_cons c (ih _)

theorem go₁_subset (cs : List Char) (i b e : String.Pos.Raw) : extract.go₁ cs i b e ⊆ cs := by
  induction cs generalizing i with
  | nil => exact List.Subset.refl _
  | cons c cs ih =>
    unfold extract.go₁
    split
    · exact go₂_subset _ _ _
    · exact List.subset_cons_of_subset c (ih _)

theorem extract_subset (s : String) (b e : String.Pos.Raw) : (b.extract s e).toList ⊆ s.toList := by
  unfold extract
  dsimp only
  split
  · exact List.nil_subset _
  · rw [String.toList_ofList]
    exact go₁_subset _ _ _ _

/-- A part of a text has no other characters than the text. -/
theorem splitOn_subset {s sep part : String} (h : part ∈ s.splitOn sep) :
    part.toList ⊆ s.toList := by
  have haux (b i j : String.Pos.Raw) (r : List String) (hr : ∀ x ∈ r, x.toList ⊆ s.toList) :
      ∀ x ∈ s.splitOnAux sep b i j r, x.toList ⊆ s.toList := by
    fun_induction String.splitOnAux s sep b i j r with
    | case1 =>
      intro x hx
      rcases List.mem_cons.1 (List.mem_reverse.1 hx) with rfl | hx
      · exact extract_subset s _ _
      · exact hr x hx
    | case2 b i j r _ _ _ _ _ ih =>
      refine ih fun x hx => ?_
      rcases List.mem_cons.1 hx with rfl | hx
      · exact extract_subset s _ _
      · exact hr x hx
    | case3 _ _ _ _ _ _ _ _ _ ih => exact ih hr
    | case4 _ _ _ _ _ _ ih => exact ih hr
  unfold String.splitOn at h
  split at h
  · rw [List.mem_singleton.1 h]
    exact List.Subset.refl _
  · exact haux 0 0 0 [] (by simp) part h

theorem fileName_subset (path : String) : ((fileName? path).getD path).toList ⊆ path.toList := by
  cases h : fileName? path with
  | none => exact List.Subset.refl _
  | some name =>
    unfold fileName? pathParts at h
    have hname := List.mem_of_getLast? (Option.filter_eq_some_iff.1 h).1
    exact splitOn_subset (List.mem_filter.1 hname).1

end Text

theorem getLast?_bannerLines (tool source : String) :
    ∀ text ∈ bannerLines tool source, text.toList.getLast? ≠ some '\r' := by
  have hquote (text : String) : (text ++ "'").toList.getLast? ≠ some '\r' := by
    rw [String.toList_append, show "'".toList = ['\''] from rfl, List.getLast?_concat]
    decide
  intro text htext
  simp only [bannerLines, List.mem_cons, List.not_mem_nil, or_false] at htext
  rcases htext with rfl | rfl | rfl
  · exact hquote _
  · exact hquote _
  · decide

theorem isNote_bannerLines {tool source : String} (ht : '\n' ∉ tool.toList)
    (hs : '\n' ∉ source.toList) : ∀ text ∈ bannerLines tool source, IsNote text := by
  unfold bannerLines
  simp only [List.forall_mem_cons, List.not_mem_nil, false_imp_iff, implies_true, and_true]
  refine ⟨⟨_, by simp [String.toList_append]; rfl, ?_⟩,
    ⟨_, by simp [String.toList_append]; rfl, ?_⟩, ⟨_, rfl, by decide⟩⟩
  · simpa using ht
  · simpa using hs

namespace Token

variable {tail rest : List Char} {rows : List Row} {text : String}

/-- A line that does not end in a carriage return keeps its characters. -/
theorem unifyLineEnds_line {cs : List Char} (hn : '\n' ∉ cs) (hr : cs.getLast? ≠ some '\r') :
    unifyLineEnds (cs ++ '\n' :: rest) = cs ++ '\n' :: unifyLineEnds rest := by
  induction cs with
  | nil =>
    rw [List.nil_append, unifyLineEnds]
    · rfl
    · rintro ds h
      cases h
  | cons c cs ih =>
    rw [List.mem_cons, not_or] at hn
    rw [List.cons_append, unifyLineEnds]
    · cases cs with
      | nil => rfl
      | cons d ds => exact congrArg (c :: ·) (ih hn.2 (by simpa using hr))
    · rintro ds rfl h
      cases cs with
      | nil => simp at hr
      | cons d cs =>
        cases h
        simp at hn

theorem unifyLineEnds_lines {texts : List String}
    (h : ∀ text ∈ texts, '\n' ∉ text.toList ∧ text.toList.getLast? ≠ some '\r') :
    unifyLineEnds (texts.flatMap (fun text => text.toList ++ ['\n']) ++ rest) =
      texts.flatMap (fun text => text.toList ++ ['\n']) ++ unifyLineEnds rest := by
  induction texts with
  | nil => rfl
  | cons text texts ih =>
    rw [List.forall_mem_cons] at h
    rw [List.flatMap_cons, List.append_assoc, List.append_assoc, List.singleton_append,
      unifyLineEnds_line h.1.1 h.1.2, ih h.2, List.append_assoc, List.append_assoc,
      List.singleton_append]

/-- A comment on a line of its own, outside of all blocks. -/
theorem ScansClosed.note (h : ScansClosed tail 0 rows) (ht : AtLineEnd (spellAll rows ++ tail))
    (hn : IsNote text) : ScansClosed tail 0 (.comment 0 text :: rows) := by
  intro place
  rcases hn with ⟨cs, hcs, hl⟩
  rcases lines_comment [] place.nextLine 0 hl ht with ⟨start, stop, -, hstop, hok⟩
  rcases h stop with ⟨tokens, htokens, hmarks⟩
  have htext : String.ofList ('#' :: cs) = text := by rw [← hcs, String.ofList_toList]
  have hnone (width : Nat) : dedent start width [] = ([], []) := rfl
  have hspell : spellAll (.comment 0 text :: rows) ++ tail =
      '\n' :: '#' :: (cs ++ (spellAll rows ++ tail)) := by
    simp [Row.chars, hcs]
  rw [List.replicate_zero, List.nil_append, hnone, show lines [] stop _ = _ from htokens] at hok
  refine ⟨_, by rw [hspell, lines_newline]; exact hok, ?_⟩
  rw [htext]
  simp [hmarks, mark, Lexeme.isLayout, Span.line, Span.endLine, hstop, marks, lineEnd,
    Place.nextLine]

theorem ScansClosed.notes {texts : List String} (h : ScansClosed tail 0 rows)
    (ht : AtLineEnd (spellAll rows ++ tail)) (hn : ∀ text ∈ texts, IsNote text) :
    ScansClosed tail 0 (texts.map (Row.comment 0) ++ rows) := by
  induction texts with
  | nil => exact h
  | cons text texts ih =>
    rw [List.forall_mem_cons] at hn
    refine (ih hn.2).note ?_ hn.1
    cases texts with
    | nil => exact ht
    | cons t ts => simp [AtLineEnd, Row.chars]

end Token

theorem toList_banner (tool source : String) :
    (banner tool source).toList = (bannerLines tool source).flatMap fun line =>
    line.toList ++ ['\n'] := by
  have hquote : "'\n".toList = "'".toList ++ ['\n'] := rfl
  have hlast : "# DO NOT CHANGE! Change the original file instead.\n".toList =
      "# DO NOT CHANGE! Change the original file instead.".toList ++ ['\n'] := by decide +kernel
  unfold banner bannerLines
  simp only [String.toList_append, List.flatMap_cons, List.flatMap_nil, List.append_assoc,
    List.append_nil, hquote, hlast]

def Module.rowsBelow (texts : List String) (m : Module) : List Row :=
  texts.map (Row.comment 0) ++ Rows.stmts 0 (!texts.isEmpty) false m.body

variable {m : Module} {path tool : String}

def Module.BeginsSolid (m : Module) : Prop := ∀ s ∈ m.body.head?, s.isBlank = false

theorem Module.BeginsSolid.rowsBelow (h : m.BeginsSolid) (texts : List String) :
    m.rowsBelow texts = texts.map (Row.comment 0) ++ m.rows := by
  unfold Module.rowsBelow Module.rows
  congr 1
  cases hbody : m.body with
  | nil => rfl
  | cons s ss =>
    have hs : s.isBlank = false := h s (by simp [hbody])
    simp [Rows.stmts, hs]

theorem spellAll_append (a b : List Row) : spellAll (a ++ b) = spellAll a ++ spellAll b :=
  List.flatMap_append

theorem spellAll_comments (texts : List String) :
    spellAll (texts.map (Row.comment 0)) = texts.flatMap fun text => '\n' :: text.toList := by
  rw [spellAll, List.flatMap_map]
  rfl

theorem newline_cons_lines (texts : List String) (rest : List Char) :
    '\n' :: (texts.flatMap (fun text => text.toList ++ ['\n']) ++ rest) =
      texts.flatMap (fun text => '\n' :: text.toList) ++ '\n' :: rest := by
  induction texts with
  | nil => rfl
  | cons text texts ih =>
    rw [List.flatMap_cons, List.flatMap_cons, List.append_assoc, List.append_assoc,
      List.singleton_append, ih, List.append_assoc, List.cons_append]

/-- The text of a generated file, in rows. -/
theorem Module.toList_renderFile (h : m.WellFormed) (hm : m.BeginsSolid) (path tool : String) :
    ∃ n, '\n' :: (m.renderFile path tool).toList =
      spellAll (m.rowsBelow (bannerLines tool ((Text.fileName? path).getD path))) ++
        List.replicate (n + 1) '\n' := by
  rcases Piece.toList_assemble (Module.sound_rows h) m.head_rows_ne_gap with ⟨k, hk⟩
  rw [← h.isLegible.render_eq] at hk
  refine ⟨k, ?_⟩
  rw [Module.renderFile, String.toList_append, String.toList_append, toList_banner,
    List.append_assoc,
    newline_cons_lines, ← List.cons_append, hk, hm.rowsBelow, spellAll_append, spellAll_comments,
    List.replicate_succ', List.append_assoc, List.append_assoc]
  rfl

theorem gapped_notes (texts : List String) (begun : Bool) (ss : List Stmt) :
    Render.gapped begun false (Render.stmts 0 (Grammar.notes texts ++ ss)) =
      texts.map (Piece.line 0) ++
        Render.gapped (begun || !texts.isEmpty) false (Render.stmts 0 ss) := by
  induction texts generalizing begun with
  | nil => simp [Grammar.notes]
  | cons text texts ih =>
    have hstmts : Render.stmts 0 (Grammar.notes (text :: texts) ++ ss) =
        some [Piece.line 0 text] :: Render.stmts 0 (Grammar.notes texts ++ ss) := rfl
    rw [hstmts, Render.gapped, ih]
    simp

/-- The text of a module below some comments. -/
theorem Module.toList_render_notes {texts : List String} (h : m.WellFormed)
    (hn : ∀ text ∈ texts, IsNote text) (hne : texts ≠ []) :
    '\n' :: (Module.render ⟨Grammar.notes texts ++ m.body⟩).toList =
      spellAll (m.rowsBelow texts) := by
  rcases List.exists_cons_of_ne_nil hne with ⟨text, texts, rfl⟩
  have hpieces : Render.gapped true false (Render.stmts 0 m.body) =
      (Rows.stmts 0 true false m.body).map Row.piece :=
    Rows.pieces_stmts (fun s _ => Rows.told s) 0 true false
      (Block.fits_detached.1 h.isLegible.detached)
  have htext : text ≠ "" := by
    rintro rfl
    rcases hn "" (List.mem_cons_self ..) with ⟨cs, hcs, -⟩
    cases hcs
  have hall : texts.map (Piece.line 0) ++ (Rows.stmts 0 true false m.body).map Row.piece =
      (texts.map (Row.comment 0) ++ Rows.stmts 0 true false m.body).map Row.piece := by
    simp [Row.piece, Function.comp_def]
  rw [Module.render, gapped_notes, Bool.false_or, List.isEmpty_cons, Bool.not_false, hpieces,
    List.map_cons, List.cons_append, hall, Piece.toList_assemble_line 0 htext]
  simp [Module.rowsBelow, Row.chars]

def shownName (path : String) : String := (Text.fileName? path).getD path

/-- A generated file is the text of the module below its banner, and then nothing but line ends. -/
theorem Module.renderFile_eq (h : m.WellFormed) (hm : m.BeginsSolid) (hpath : '\n' ∉ path.toList)
    (htool : '\n' ∉ tool.toList) :
    ∃ n, m.renderFile path tool =
      (Module.render ⟨Grammar.notes (bannerLines tool (shownName path)) ++ m.body⟩).pushn
      '\n' n := by
  rcases toList_renderFile h hm path tool with ⟨n, htext⟩
  have hname : '\n' ∉ (shownName path).toList := fun hmem => hpath (Text.fileName_subset path hmem)
  rw [← shownName, ← toList_render_notes h (isNote_bannerLines htool hname) (List.cons_ne_nil _ _),
    List.cons_append, List.cons.injEq] at htext
  refine ⟨n + 1, String.toList_inj.1 ?_⟩
  rw [htext.2, Piece.toList_pushn]

/-- A generated file is read as its banner and its module. -/
theorem Module.parse_renderFile (h : m.WellFormed) (hm : m.BeginsSolid) (hpath : '\n' ∉ path.toList)
    (htool : '\n' ∉ tool.toList) :
    ∃ body, Module.parse (m.renderFile path tool) = .ok ⟨body⟩ ∧
      Grammar.RestoresAll (Grammar.notes (bannerLines tool (shownName path)) ++ m.body) body := by
  rcases toList_renderFile h hm path tool with ⟨n, htext⟩
  have hname : '\n' ∉ (shownName path).toList := fun hmem => hpath (Text.fileName_subset path hmem)
  have hend : Token.AtLineEnd (spellAll m.rows ++ List.replicate (n + 1) '\n') :=
    Token.atLineEnd_spellAll (sound_rows h) (by simp [Token.AtLineEnd, List.replicate_succ])
  have hscan : Token.ScansClosed (List.replicate (n + 1) '\n') 0
      (m.rowsBelow (bannerLines tool (shownName path))) := by
    rw [hm.rowsBelow]
    exact (Token.scansClosed (n + 1) (sound_rows h)).notes hend (isNote_bannerLines htool hname)
  rcases hscan ⟨0, 0⟩ with ⟨tokens, htokens, hmarks⟩
  rw [shownName, ← htext, Token.lines_newline] at htokens
  rcases Grammar.ofTokens_reads h hmarks with ⟨body, hbody, hall⟩
  refine ⟨body, ?_, hall⟩
  have hunify : Token.unifyLineEnds (m.renderFile path tool).toList =
      (m.renderFile path tool).toList := by
    rw [renderFile, String.toList_append, String.toList_append, toList_banner, List.append_assoc,
      Token.unifyLineEnds_lines, Token.unifyLineEnds_eq_self]
    · rcases Piece.toList_assemble (sound_rows h) m.head_rows_ne_gap with ⟨k, hk⟩
      rw [← h.isLegible.render_eq] at hk
      have hnone := Token.return_notMem_spellAll (sound_rows h)
      have hall : '\r' ∉ '\n' :: m.render.toList := by
        rw [hk]
        simpa using hnone
      simpa using hall
    · intro text hmem
      rcases isNote_bannerLines htool hname text hmem with ⟨cs, hcs, hn⟩
      exact ⟨by simpa [hcs] using hn, getLast?_bannerLines _ _ text hmem⟩
  rw [Module.parse, Token.scan, hunify, show Token.lines [] .origin _ = _ from htokens]
  exact hbody

end AsyncErasure
