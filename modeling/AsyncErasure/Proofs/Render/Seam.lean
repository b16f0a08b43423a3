import AsyncErasure.Proofs.Render.Banner
import AsyncErasure.Proofs.Token.Shift

namespace AsyncErasure

namespace Token

variable {line : Nat} {rest : List Char} {tokens : List Token} {text : String} {texts : List String}

/-- The line ends of a text are kept. -/
theorem count_unifyLineEnds (cs : List Char) : (unifyLineEnds cs).count '\n' = cs.count '\n' := by
  fun_induction unifyLineEnds cs with
  | case1 cs ih => simp [ih]
  | case2 c cs _ ih => simp [List.count_cons, ih]
  | case3 => rfl

/-- A note at the start of a line, outside of all blocks, and what stands on the lines below. -/
theorem lines_note (hn : IsNote text) (h : lines [] ⟨line + 1, 0⟩ rest = .ok tokens) :
    ∃ comment : Token, comment.lexeme = .comment text false ∧
      lines [] ⟨line, 0⟩ (text.toList ++ '\n' :: rest) = .ok (comment :: tokens) := by
  obtain ⟨cs, hcs, hline⟩ := hn
  have hend : AtLineEnd ('\n' :: rest) := by simp [AtLineEnd]
  obtain ⟨start, stop, -, hstop, hread⟩ := lines_comment [] ⟨line, 0⟩ 0 hline hend
  have hlater : lines [] stop ('\n' :: rest) = .ok tokens := by
    rw [lines_newline, Place.nextLine, hstop]
    exact h
  rw [List.replicate_zero, List.nil_append, ← List.cons_append, ← hcs,
    String.ofList_toList] at hread
  rw [hread, show lines (dedent start _ []).2 stop _ = _ from hlater]
  exact ⟨_, rfl, rfl⟩

theorem lines_notes (hn : ∀ text ∈ texts, IsNote text)
    (h : lines [] ⟨line + texts.length, 0⟩ rest = .ok tokens) :
    ∃ comments : List Token, comments.map Token.lexeme = texts.map (.comment · false) ∧
      lines [] ⟨line, 0⟩ (texts.flatMap (fun text => text.toList ++ ['\n']) ++ rest) =
        .ok (comments ++ tokens) := by
  induction texts generalizing line with
  | nil => exact ⟨[], rfl, h⟩
  | cons text texts ih =>
    rw [List.forall_mem_cons] at hn
    rw [List.length_cons, Nat.add_comm texts.length, ← Nat.add_assoc] at h
    obtain ⟨comments, hcomments, hlater⟩ := ih hn.2 h
    obtain ⟨comment, hcomment, hread⟩ := lines_note hn.1 hlater
    refine ⟨comment :: comments, by rw [List.map_cons, hcomment, hcomments, List.map_cons], ?_⟩
    rw [List.flatMap_cons, List.append_assoc, List.append_assoc, List.singleton_append]
    exact hread

/-- A text ends as many lines down as it has line ends. -/
theorem endLine_of_scan {source : String} (h : scan source = .ok tokens) :
    ∀ t ∈ tokens.getLast?, t.span.endLine = 1 + source.toList.count '\n' := by
  obtain ⟨front, rfl⟩ := (pageReads_of_lines h).endMarker
  intro t ht
  rw [List.getLast?_concat, Option.mem_some_iff] at ht
  rw [← ht, ← count_unifyLineEnds]
  exact Place.line_through ..

end Token

open Token

/-- A banner has three line ends and those of the names in it. -/
theorem count_banner (tool source : String) : (banner tool source).toList.count '\n' =
    3 + tool.toList.count '\n' + source.toList.count '\n' := by
  have htool : "# WARNING: this file is auto-generated by '".toList.count '\n' = 0 := by decide
  have hsource : "# from the original file '".toList.count '\n' = 0 := by decide
  have hlast :
      "# DO NOT CHANGE! Change the original file instead.".toList.count '\n' = 0 := by decide
  have hquote : "'".toList.count '\n' = 0 := by decide
  simp only [toList_banner, bannerLines, List.flatMap_cons, List.flatMap_nil, String.toList_append,
    List.count_append, htool, hsource, hlast, hquote, List.count_singleton_self, List.count_nil]
  omega

namespace Module

variable {m : Module} {path tool : String} {tokens : List Token}

/-- What is read of a generated file below three comments. -/
def BannerStands (m : Module) (path tool : String) (tokens : List Token) : Prop :=
  ∃ comments : List Token, comments.length = 3 ∧
    (∀ t ∈ comments, ∃ text, t.lexeme = .comment text false) ∧
    scan (m.renderFile path tool) = .ok (comments ++ tokens.map (Token.below 3))

theorem toList_renderFile_eq (m : Module) (path tool : String) : (m.renderFile path tool).toList =
    (banner tool (shownName path)).toList ++ (m.render ++ "\n").toList := by
  rw [renderFile, String.append_assoc, String.toList_append]
  rfl

/-- The module ends three lines further down, so no line end is in the names. -/
theorem BannerStands.names (h : scan (m.render ++ "\n") = .ok tokens)
    (hstands : m.BannerStands path tool tokens) :
    '\n' ∉ tool.toList ∧ '\n' ∉ (shownName path).toList := by
  obtain ⟨comments, -, -, hfile⟩ := hstands
  have hend := endLine_of_scan h
  have hfileEnd := endLine_of_scan hfile
  obtain ⟨front, htokens⟩ := (pageReads_of_lines h).endMarker
  rw [toList_renderFile_eq, List.count_append, count_banner] at hfileEnd
  rw [← htokens] at hend hfileEnd
  simp only [List.map_append, List.map_cons, List.map_nil, ← List.append_assoc,
    List.getLast?_concat, Option.mem_some_iff, forall_eq'] at hend hfileEnd
  have hbelow (t : Token) : (t.below 3).span.endLine = t.span.endLine + 3 := rfl
  rw [hbelow, hend] at hfileEnd
  exact ⟨List.count_eq_zero.1 (by omega), List.count_eq_zero.1 (by omega)⟩

/-- A generated file is its banner, read as three comments, and its module, read as it is alone and
three lines further down, if and only if no line end is in the names that the banner shows. -/
theorem bannerStands_iff (h : scan (m.render ++ "\n") = .ok tokens) :
    m.BannerStands path tool tokens ↔ '\n' ∉ tool.toList ∧ '\n' ∉ (shownName path).toList := by
  refine ⟨BannerStands.names h, ?_⟩
  rintro ⟨htool, hname⟩
  have hnotes := isNote_bannerLines htool hname
  have hbelow : lines [] ⟨1 + 3, 0⟩ (unifyLineEnds (m.render ++ "\n").toList) =
      .ok (tokens.map (Token.below 3)) := lines_below h
  obtain ⟨comments, hcomments, hread⟩ := lines_notes hnotes hbelow
  refine ⟨comments, ?_, ?_, ?_⟩
  · exact (List.length_map Token.lexeme).symm.trans (congrArg List.length hcomments)
  · intro t ht
    have hlexeme := List.mem_map_of_mem (f := Token.lexeme) ht
    rw [hcomments] at hlexeme
    obtain ⟨text, -, htext⟩ := List.mem_map.1 hlexeme
    exact ⟨text, htext.symm⟩
  · have hunify (text : String) (hmem : text ∈ bannerLines tool (shownName path)) :
        '\n' ∉ text.toList ∧ text.toList.getLast? ≠ some '\r' := by
      obtain ⟨cs, hcs, hn⟩ := hnotes text hmem
      exact ⟨by simpa [hcs] using hn, getLast?_bannerLines _ _ text hmem⟩
    rw [scan, toList_renderFile_eq, toList_banner, unifyLineEnds_lines hunify]
    exact hread

def twoLines : Module :=
  ⟨[.functionDef .nowhere .sync "f" ⟨[], [], none, [], none⟩ none []
      [.comment .nowhere "# a" false, .blank .nowhere,
        .ret .nowhere (some (.str .nowhere ["'''x\ny'''"]))]]⟩

theorem exists_scan_twoLines : ∃ tokens, scan (twoLines.render ++ "\n") = .ok tokens := by
  have hscan : (scan (twoLines.render ++ "\n")).toOption.any fun _ => true := by decide +kernel
  obtain ⟨tokens, h, -⟩ := scan_of_any hscan
  exact ⟨tokens, h⟩

theorem bannerStands_twoLines : ∃ tokens, scan (twoLines.render ++ "\n") = .ok tokens ∧
    twoLines.BannerStands "lib/pool_async.py" "async-to-sync" tokens := by
  obtain ⟨tokens, h⟩ := exists_scan_twoLines
  have hpath : '\n' ∉ "lib/pool_async.py".toList := by decide
  refine ⟨tokens, h, (bannerStands_iff h).2 ⟨by decide, fun hname => hpath ?_⟩⟩
  exact Text.fileName_subset _ hname

/-- Behind a line end in the name of the tool, the rest of the name is a statement. -/
theorem banner_splices_code : ∃ tokens, scan (twoLines.render ++ "\n") = .ok tokens ∧
    ¬twoLines.BannerStands "lib/pool_async.py" "a\nb = 2 #" tokens := by
  obtain ⟨tokens, h⟩ := exists_scan_twoLines
  have htool : '\n' ∈ "a\nb = 2 #".toList := by decide
  exact ⟨tokens, h, fun hstands => (BannerStands.names h hstands).1 htool⟩

end Module

end AsyncErasure
