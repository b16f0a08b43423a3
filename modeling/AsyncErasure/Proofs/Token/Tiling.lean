import AsyncErasure.Proofs.Token.Reading
import Mathlib.Data.Prod.Lex

namespace AsyncErasure

open Text

namespace Place

/-- The order in which the places of a text come. -/
instance : LinearOrder Place :=
  LinearOrder.lift' (fun p : Place => toLex (p.line, p.col)) fun p q h => by
    have := Prod.mk.inj (toLex.injective h)
    cases p; cases q; simp_all

theorem lt_iff {p q : Place} : p < q ↔ p.line < q.line ∨ p.line = q.line ∧ p.col < q.col :=
  Prod.Lex.toLex_lt_toLex (x := (p.line, p.col)) (y := (q.line, q.col))

variable (p : Place) {cs : List Char}

theorem lt_after (c : Char) : p < p.after c := by
  rw [lt_iff, after]
  split
  · exact .inl (Nat.lt_succ_self _)
  · exact .inr ⟨rfl, Nat.lt_succ_self _⟩

theorem through_nil : p.through [] = p := rfl

theorem through_cons (c : Char) (cs : List Char) :
    p.through (c :: cs) = (p.after c).through cs := rfl

theorem through_append (a b : List Char) :
    p.through (a ++ b) = (p.through a).through b := List.foldl_append

theorem le_through (cs : List Char) : p ≤ p.through cs := by
  induction cs generalizing p with
  | nil => exact le_refl p
  | cons c cs ih => exact (p.lt_after c).le.trans (ih (p.after c))

theorem lt_through (h : cs ≠ []) : p < p.through cs := by
  obtain ⟨c, cs, rfl⟩ := List.exists_cons_of_ne_nil h
  exact (p.lt_after c).trans_le ((p.after c).le_through cs)

/-- Characters other than line ends stand on one line. -/
theorem through_eq_shift (h : '\n' ∉ cs) : p.through cs = p.shift cs.length := by
  induction cs generalizing p with
  | nil => rfl
  | cons c cs ih =>
    rw [List.mem_cons, not_or] at h
    rw [through_cons, after, if_neg (Ne.symm h.1), ih _ h.2, shift, shift, shift, List.length_cons]
    congr 1
    dsimp only
    omega

end Place

theorem Lexeme.text_ofWord (word : String) : (ofWord word).text = word := by
  unfold ofWord
  split
  · rename_i k hk
    exact eq_of_beq (List.find?_some (p := fun k : Keyword => k.text == word) hk)
  · rfl

namespace Token

/-- A lexeme has the characters that it is read from. -/
theorem text_of_munch {c : Char} {cs : List Char} {l : Lexeme} {n : Nat}
    (h : munch c cs = .ok (l, n)) : l.text.toList = c :: cs.take n := by
  by_cases hq : Literal.isQuote c = true
  · simp only [munch, hq, if_true] at h
    cases ht : literalTail c cs <;> rw [ht] at h <;> cases h
    exact String.toList_ofList
  rw [Bool.not_eq_true] at hq
  by_cases hd : (c.isDigit || (c == '.' && startsWithDigit cs)) = true
  · simp only [munch, hq, hd, Bool.false_eq_true, if_true, if_false] at h
    cases h
    exact String.toList_ofList
  rw [Bool.not_eq_true] at hd
  have hword (cs : List Char) : (Lexeme.ofWord (String.ofList cs)).text.toList = cs := by
    rw [Lexeme.text_ofWord, String.toList_ofList]
  by_cases hn : isNameStart c = true
  · simp only [munch, hq, hd, hn, Bool.false_eq_true, if_true, if_false] at h
    split at h
    · rename_i quote tail _
      split at h
      · cases ht : literalTail quote tail <;> rw [ht] at h <;> cases h
        exact String.toList_ofList
      · cases h
        exact hword _
    · cases h
      exact hword _
  rw [Bool.not_eq_true] at hn
  simp only [munch, hq, hd, hn, Bool.false_eq_true, if_false] at h
  split at h
  · rename_i s hs
    cases h
    have hpre : s.chars <+: c :: cs := by
      have := List.find?_some (p := fun s : Symbol => s.chars.isPrefixOf (c :: cs)) hs
      exact List.isPrefixOf_iff_prefix.1 this
    have hlen : s.chars.length = s.chars.length - 1 + 1 := by
      have := List.length_pos_iff.2 s.chars_ne_nil
      omega
    rw [Lexeme.text, Symbol.text, String.toList_ofList, List.prefix_iff_eq_take.1 hpre, hlen,
      List.take_succ_cons]
    simp
  · cases h

/-- The characters of a text that starts at the given place, each where it stands. -/
def placed : Place → List Char → List (Place × Char)
  | _, [] => []
  | place, c :: cs => (place, c) :: placed (place.after c) cs

/-- What stands in a text from the start of a span on, up to its stop. -/
def slice (cs : List Char) (s : Span) : List Char :=
  ((placed .origin cs).filter fun (p, _) => s.start ≤ p && p < s.stop).map Prod.snd

theorem placed_append (place : Place) (a b : List Char) :
    placed place (a ++ b) = placed place a ++ placed (place.through a) b := by
  induction a generalizing place with
  | nil => rfl
  | cons c a ih => rw [List.cons_append, placed, ih, placed, List.cons_append, Place.through_cons]

theorem map_snd_placed (place : Place) (cs : List Char) : (placed place cs).map Prod.snd = cs := by
  induction cs generalizing place with
  | nil => rfl
  | cons c cs ih => rw [placed, List.map_cons, ih]

theorem mem_placed {place : Place} {cs : List Char} {q : Place × Char} (h : q ∈ placed place cs) :
    place ≤ q.1 ∧ q.1 < place.through cs := by
  induction cs generalizing place with
  | nil => cases h
  | cons c cs ih =>
    obtain rfl | h := List.mem_cons.1 h
    · exact ⟨le_refl _, place.lt_through (by simp)⟩
    · obtain ⟨hl, hr⟩ := ih h
      exact ⟨(place.lt_after c).le.trans hl, hr⟩

/-- The slice between two places that the text passes through. -/
theorem slice_append (a b c : List Char) :
    slice (a ++ (b ++ c)) ⟨Place.origin.through a, (Place.origin.through a).through b⟩ = b := by
  unfold slice
  rw [placed_append, placed_append, List.filter_append, List.filter_append]
  rw [List.filter_eq_nil_iff.2, List.filter_eq_self.2, List.filter_eq_nil_iff.2]
  · rw [List.nil_append, List.append_nil, map_snd_placed]
  · intro q hq
    have := (mem_placed hq).1
    simp [this.not_gt]
  · intro q hq
    obtain ⟨hl, hr⟩ := mem_placed hq
    simp [hl, hr]
  · intro q hq
    have := (mem_placed hq).2
    simp [this]

inductive Tile where
  | code (t : Token)
  | comment (text : String)
  | blank (c : Char)
  /-- A line end behind a backslash. -/
  | join

namespace Tile

def chars : Tile → List Char
  | code t => t.text.toList
  | comment text => text.toList
  | blank c => [c]
  | join => ['\\', '\n']

def code? : Tile → Option Token
  | code t => some t
  | _ => none

def comment? : Tile → Option String
  | comment text => some text
  | _ => none

def Fits (place : Place) (rest : List Char) : Tile → Prop
  | code t =>
    t.lexeme.isCode ∧ t.text ≠ "" ∧ t.span = ⟨place, place.through t.text.toList⟩
  | comment text => (∃ body, text.toList = '#' :: body ∧ '\n' ∉ body) ∧ AtLineEnd rest
  | blank c => isMargin c ∨ c = '\n'
  | join => True

def spell (tiles : List Tile) : List Char := tiles.flatMap chars

def Sits : Place → List Tile → List Char → Prop
  | _, [], _ => True
  | place, tile :: tiles, rest =>
    tile.Fits place (spell tiles ++ rest) ∧ Sits (place.through tile.chars) tiles rest

def codes (tiles : List Tile) : List Token := tiles.filterMap code?

def comments (tiles : List Tile) : List String := tiles.filterMap comment?

variable {place : Place} {a b tiles : List Tile} {rest : List Char}

@[simp] theorem spell_nil : spell [] = [] := rfl

@[simp] theorem spell_cons (tile : Tile) (tiles : List Tile) :
    spell (tile :: tiles) = tile.chars ++ spell tiles := rfl

@[simp] theorem spell_append : spell (a ++ b) = spell a ++ spell b := List.flatMap_append

@[simp] theorem codes_append : codes (a ++ b) = codes a ++ codes b := List.filterMap_append

@[simp] theorem comments_append : comments (a ++ b) = comments a ++ comments b :=
  List.filterMap_append

theorem sits_append : Sits place (a ++ b) rest ↔
    Sits place a (spell b ++ rest) ∧ Sits (place.through (spell a)) b rest := by
  induction a generalizing place with
  | nil => simp [Sits, Place.through_nil]
  | cons tile a ih => simp [Sits, ih, and_assoc, Place.through_append]

end Tile

open Tile

def remark? (t : Token) : Option String :=
  match t.lexeme with
  | .comment text _ => some text
  | _ => none

/-- The tiles spell what comes before `rest`, and they hold the code and the comments of the
tokens in order. -/
structure Covers (place : Place) (cs rest : List Char) (tiles : List Tile) (tokens : List Token) :
    Prop where
  spells : spell tiles ++ rest = cs
  sits : Sits place tiles rest
  codes_eq : codes tiles = tokens.filter (·.lexeme.isCode)
  comments_eq : comments tiles = tokens.filterMap remark?

namespace Covers

variable {place : Place} {cs mid rest : List Char} {a b tiles : List Tile}
  {front later tokens : List Token}

theorem append (ha : Covers place cs mid a front)
    (hb : Covers (place.through (spell a)) mid rest b later) :
    Covers place cs rest (a ++ b) (front ++ later) where
  spells := by rw [spell_append, List.append_assoc, hb.spells, ha.spells]
  sits := sits_append.2 ⟨by rw [hb.spells]; exact ha.sits, hb.sits⟩
  codes_eq := by rw [codes_append, List.filter_append, ha.codes_eq, hb.codes_eq]
  comments_eq := by rw [comments_append, List.filterMap_append, ha.comments_eq, hb.comments_eq]

theorem cons {tile : Tile} (ha : Covers place cs mid [tile] front)
    (hb : Covers (place.through tile.chars) mid rest tiles later) :
    Covers place cs rest (tile :: tiles) (front ++ later) :=
  ha.append (b := tiles) (by rwa [spell_cons, spell_nil, List.append_nil])

/-- Tokens of layout are on no tile. -/
theorem layout (h : ∀ t ∈ tokens, t.lexeme.isLayout) : Covers place cs cs [] tokens where
  spells := rfl
  sits := trivial
  codes_eq := by
    refine (List.filter_eq_nil_iff.2 fun t ht => ?_).symm
    simp [Lexeme.isCode, h t ht]
  comments_eq := by
    refine (List.filterMap_eq_nil_iff.2 fun t ht => ?_).symm
    have := h t ht
    unfold remark?
    split <;> simp_all [Lexeme.isLayout]

theorem blanks (place : Place) (margin rest : List Char)
    (h : ∀ c ∈ margin, isMargin c ∨ c = '\n') :
    Covers place (margin ++ rest) rest (margin.map .blank) [] where
  spells := by
    congr 1
    induction margin <;> simp_all [Tile.chars]
  sits := by
    induction margin generalizing place with
    | nil => trivial
    | cons c margin ih =>
      obtain ⟨hc, h⟩ := List.forall_mem_cons.1 h
      exact ⟨hc, ih (place.after c) h⟩
  codes_eq := by induction margin <;> simp_all [codes, code?]
  comments_eq := by induction margin <;> simp_all [comments, comment?]

theorem join : Covers place ('\\' :: '\n' :: rest) rest [.join] [] :=
  ⟨rfl, ⟨trivial, trivial⟩, rfl, rfl⟩

theorem comment {body : List Char} {inline : Bool} {s : Span} (hbody : '\n' ∉ body)
    (hend : AtLineEnd rest) :
    Covers place ('#' :: (body ++ rest)) rest [.comment (String.ofList ('#' :: body))]
      [⟨commentOf body inline, s⟩] where
  spells := by simp [Tile.chars]
  sits := ⟨⟨⟨body, String.toList_ofList, hbody⟩, hend⟩, trivial⟩
  codes_eq := rfl
  comments_eq := rfl

theorem lexeme {c : Char} {l : Lexeme} {n : Nat} (hm : munch c cs = .ok (l, n)) :
    Covers place (c :: cs) (cs.drop n)
      [.code ⟨l, ⟨place, place.through (c :: cs.take n)⟩⟩]
      [⟨l, ⟨place, place.through (c :: cs.take n)⟩⟩] where
  spells := by simp [Tile.chars, Token.text, text_of_munch hm]
  sits := by
    refine ⟨⟨Lexeme.isCode_of_munch hm, ?_, ?_⟩, trivial⟩
    · intro h
      have := text_of_munch hm
      rw [show l.text = "" from h] at this
      cases this
    · rw [Token.text, text_of_munch hm]
  codes_eq := by simp [codes, code?, Lexeme.isCode_of_munch hm]
  comments_eq := by
    have := Lexeme.isCode_of_munch hm
    cases l <;> first | rfl | cases this

/-- Only the order of code and of comments among the tokens counts. -/
theorem permute (h : Covers place cs rest tiles front)
    (hcodes : front.filter (·.lexeme.isCode) = later.filter (·.lexeme.isCode))
    (hcomments : front.filterMap remark? = later.filterMap remark?) :
    Covers place cs rest tiles later :=
  ⟨h.spells, h.sits, h.codes_eq.trans hcodes, h.comments_eq.trans hcomments⟩

end Covers

theorem line_notMem_margin {margin : List Char} (hm : ∀ c ∈ margin, isMargin c) : '\n' ∉ margin :=
  fun h => absurd (hm _ h) (by decide)

theorem through_margin (place : Place) {margin : List Char} (hm : ∀ c ∈ margin, isMargin c) :
    place.through margin = place.shift margin.length :=
  place.through_eq_shift (line_notMem_margin hm)

theorem through_comment (place : Place) {body : List Char} (hbody : '\n' ∉ body) :
    place.through ('#' :: body) = place.shift (body.length + 1) :=
  place.through_eq_shift (by simp [hbody])

theorem remark?_of_isCode {t : Token} (h : t.lexeme.isCode) : remark? t = none := by
  unfold remark?
  split
  · simp_all [Lexeme.isCode, Lexeme.isComment]
  · rfl

theorem filter_isCode_hoisted {bodies : List (List Char)} {home : Place} :
    (bodies.map fun body => Token.mk (commentOf body false) (.point home)).filter
      (·.lexeme.isCode) = [] := by
  rw [List.filter_map]
  simp [Function.comp_def, commentOf, Lexeme.isCode, Lexeme.isComment]

/-- Tiles of a line of code cover it up to where the line stops. -/
theorem exists_covers_of_lineReads {home place : Place} {opened : List Opened} {cs : List Char}
    {line : CodeLine} (h : LineReads home opened place cs line) :
    ∃ tiles, Covers place cs line.rest tiles (line.hoisted ++ line.tokens) ∧
      line.place = place.through (spell tiles) := by
  induction h with
  | eof => exact ⟨[], .layout (by simp [Lexeme.isLayout]), rfl⟩
  | @ends place cs =>
    have hblank := Covers.blanks place ['\n'] cs (by simp)
    exact ⟨[.blank '\n'], hblank.append (.layout (by simp [Lexeme.isLayout])), rfl⟩
  | @margin opened place c cs line hc _ ih =>
    obtain ⟨tiles, hcovers, hplace⟩ := ih
    have hblank := Covers.blanks place [c] cs (by simp [hc])
    have hstep : place.through [c] = place.shift 1 := through_margin place (by simpa using hc)
    rw [← hstep] at hcovers hplace
    exact ⟨.blank c :: tiles, hblank.append hcovers, hplace⟩
  | @join opened place cs line _ ih =>
    obtain ⟨tiles, hcovers, hplace⟩ := ih
    exact ⟨.join :: tiles, Covers.join.append hcovers, hplace⟩
  | @wrap opened place cs line _ _ ih =>
    obtain ⟨tiles, hcovers, hplace⟩ := ih
    have hblank := Covers.blanks place ['\n'] cs (by simp)
    exact ⟨.blank '\n' :: tiles, hblank.append hcovers, hplace⟩
  | @remark place body cs line hbody hend hrest ih =>
    obtain ⟨tiles, hcovers, hplace⟩ := ih
    rw [← through_comment place hbody] at hcovers hplace
    have htext : (String.ofList ('#' :: body)).toList = '#' :: body := String.toList_ofList
    refine ⟨.comment (String.ofList ('#' :: body)) :: tiles, ?_, ?_⟩
    · -- Nothing is hoisted behind a remark, so it comes before all that follows it.
      have hnone : line.hoisted = [] := (hrest.of_atLineEnd hend).1
      rw [hnone, List.nil_append] at hcovers
      rw [CodeLine.cons, hnone]
      exact (Covers.comment hbody hend).cons (by rwa [Tile.chars, htext])
    · rw [spell_cons, Tile.chars, htext, Place.through_append]
      exact hplace
  | @hoist opened place body cs line _ hbody hend _ ih =>
    obtain ⟨tiles, hcovers, hplace⟩ := ih
    rw [← through_comment place hbody] at hcovers hplace
    have htext : (String.ofList ('#' :: body)).toList = '#' :: body := String.toList_ofList
    refine ⟨.comment (String.ofList ('#' :: body)) :: tiles, ?_, ?_⟩
    · rw [← htext] at hcovers
      exact (Covers.comment hbody hend).cons hcovers
    · rw [spell_cons, Tile.chars, htext, Place.through_append]
      exact hplace
  | @lexeme opened inside place c cs line l n hm _ hrest ih =>
    obtain ⟨tiles, hcovers, hplace⟩ := ih
    obtain ⟨bodies, hhoisted⟩ := hrest.hoisted_eq
    have htext : l.text.toList = c :: cs.take n := text_of_munch hm
    have hcode := Lexeme.isCode_of_munch hm
    rw [← htext] at hcovers hplace
    refine ⟨.code ⟨l, ⟨place, place.through (c :: cs.take n)⟩⟩ :: tiles, ?_, ?_⟩
    · -- The lexeme comes behind what is hoisted, which holds no code.
      have hall := (Covers.lexeme hm).cons hcovers
      refine hall.permute ?_ ?_
      · simp only [CodeLine.cons, List.filter_append, hhoisted, filter_isCode_hoisted,
          List.nil_append, List.cons_append, List.filter_cons]
      · simp only [CodeLine.cons, List.filterMap_append, List.filterMap_cons, List.filterMap_nil,
          remark?_of_isCode (t := ⟨l, _⟩) hcode, List.nil_append]
    · rw [spell_cons, Tile.chars, Place.through_append]
      exact hplace

theorem dedent_isLayout {place : Place} {width : Nat} {indents : List Nat} :
    ∀ t ∈ (dedent place width indents).1, t.lexeme.isLayout := by
  intro t ht
  obtain ⟨_, -, rfl⟩ := List.mem_map.1 ht
  rfl

theorem layout_isLayout {place : Place} {width : Nat} {indents inside : List Nat}
    {start : List Token} (h : layout place width indents = .ok (start, inside)) :
    ∀ t ∈ start, t.lexeme.isLayout := by
  unfold layout at h
  split at h
  · cases h
    simp [Lexeme.isLayout]
  · dsimp only at h
    split at h
    · cases h
      exact dedent_isLayout
    · cases h

/-- Tiles cover a page to its end. -/
theorem exists_covers_of_pageReads {indents : List Nat} {place : Place} {cs : List Char}
    {tokens : List Token} (h : PageReads indents place cs tokens) :
    ∃ tiles, Covers place cs [] tiles tokens := by
  have hblank {margin : List Char} (hm : ∀ c ∈ margin, isMargin c) (place : Place)
      (rest : List Char) : Covers place (margin ++ rest) rest (margin.map .blank) [] :=
    .blanks place margin rest fun c hc => .inl (hm c hc)
  have hspell (margin : List Char) : spell (margin.map .blank) = margin := by
    induction margin <;> simp_all [Tile.chars]
  induction h with
  | @eof indents place margin hm =>
    have := hblank hm place []
    rw [List.append_nil] at this
    refine ⟨_, this.append (.layout fun t ht => ?_)⟩
    obtain ht | ht := List.mem_append.1 ht
    · exact dedent_isLayout t ht
    · rw [List.mem_singleton.1 ht]
      rfl
  | @gap indents place margin rest tokens hm _ ih =>
    obtain ⟨tiles, hcovers⟩ := ih
    have hline := Covers.blanks (place.through margin) ['\n'] rest (by simp)
    refine ⟨margin.map .blank ++ .blank '\n' :: tiles, (hblank hm place _).append ?_⟩
    rw [hspell]
    refine hline.append ?_
    rw [through_margin place hm]
    exact hcovers
  | @comment indents place margin body rest tokens width hm hbody hend _ ih =>
    obtain ⟨tiles, hcovers⟩ := ih
    rw [← through_comment _ hbody] at hcovers
    refine ⟨margin.map .blank ++ .comment (String.ofList ('#' :: body)) :: tiles,
      (hblank hm place _).append ?_⟩
    rw [hspell, through_margin place hm]
    refine (Covers.layout dedent_isLayout).append (b := .comment _ :: tiles)
      ((Covers.comment hbody hend).cons ?_)
    rwa [Tile.chars, String.toList_ofList]
  | @code indents inside place margin rest line start tokens hm hl here _ ih =>
    obtain ⟨here, hhere, hplace⟩ := exists_covers_of_lineReads here
    obtain ⟨tiles, hcovers⟩ := ih
    rw [hplace] at hcovers
    refine ⟨margin.map .blank ++ (here ++ tiles), ?_⟩
    rw [List.append_assoc start, List.append_assoc start]
    refine (hblank hm place rest).append ?_
    rw [hspell, through_margin place hm]
    exact (Covers.layout (layout_isLayout hl)).append (hhere.append hcovers)

namespace Tile

variable {place : Place} {tiles : List Tile} {rest : List Char}

/-- The spans of the tokens on tiles are where their texts stand. -/
theorem Sits.slice_eq {front : List Char} (h : Sits (Place.origin.through front) tiles rest) :
    ∀ t ∈ codes tiles, slice (front ++ (spell tiles ++ rest)) t.span = t.text.toList := by
  induction tiles generalizing front with
  | nil => simp [codes]
  | cons tile tiles ih =>
    obtain ⟨hfits, hsits⟩ := h
    rw [← Place.through_append] at hsits
    have hlater := ih hsits
    rw [List.append_assoc, ← List.append_assoc tile.chars, ← spell_cons] at hlater
    cases tile with
    | code t =>
      refine List.forall_mem_cons.2 ⟨?_, hlater⟩
      rw [hfits.2.2, spell_cons, chars, List.append_assoc]
      exact slice_append ..
    | _ => exact hlater

theorem Sits.le_start (h : Sits place tiles rest) : ∀ t ∈ codes tiles, place ≤ t.span.start := by
  induction tiles generalizing place with
  | nil => simp [codes]
  | cons tile tiles ih =>
    obtain ⟨hfits, hsits⟩ := h
    have hlater (t : Token) (ht : t ∈ codes tiles) : place ≤ t.span.start :=
      (place.le_through tile.chars).trans (ih hsits t ht)
    cases tile with
    | code t => exact List.forall_mem_cons.2 ⟨by rw [hfits.2.2], hlater⟩
    | _ => exact hlater

/-- No token on the tiles begins before the one in front of it stops. -/
theorem Sits.pairwise (h : Sits place tiles rest) :
    (codes tiles).Pairwise fun a b => a.span.stop ≤ b.span.start := by
  induction tiles generalizing place with
  | nil => exact .nil
  | cons tile tiles ih =>
    obtain ⟨hfits, hsits⟩ := h
    cases tile with
    | code t =>
      refine List.pairwise_cons.2 ⟨fun u hu => ?_, ih hsits⟩
      rw [hfits.2.2]
      exact hsits.le_start u hu
    | _ => exact ih hsits

theorem Sits.code (h : Sits place tiles rest) :
    ∀ t ∈ codes tiles, t.text ≠ "" ∧ t.span.start < t.span.stop := by
  induction tiles generalizing place with
  | nil => simp [codes]
  | cons tile tiles ih =>
    obtain ⟨hfits, hsits⟩ := h
    cases tile with
    | code t =>
      refine List.forall_mem_cons.2 ⟨⟨hfits.2.1, ?_⟩, ih hsits⟩
      rw [hfits.2.2]
      exact place.lt_through (by simpa using hfits.2.1)
    | _ => exact ih hsits

end Tile

/-- The code among the tokens of a text is what their spans cut out of it, one behind another, and
the rest of the text is its comments, blanks, line ends and joined lines. -/
theorem exists_covers_of_scan {source : String} {tokens : List Token}
    (h : scan source = .ok tokens) :
    (∃ tiles, Covers .origin (unifyLineEnds source.toList) [] tiles tokens) ∧
      (∀ t ∈ tokens.filter (·.lexeme.isCode),
        t.text ≠ "" ∧ t.span.start < t.span.stop ∧
          slice (unifyLineEnds source.toList) t.span = t.text.toList) ∧
      (tokens.filter (·.lexeme.isCode)).Pairwise fun a b => a.span.stop ≤ b.span.start := by
  obtain ⟨tiles, hcovers⟩ := exists_covers_of_pageReads (pageReads_of_lines h)
  refine ⟨⟨tiles, hcovers⟩, ?_, ?_⟩
  · intro t ht
    rw [← hcovers.codes_eq] at ht
    obtain ⟨htext, hspan⟩ := hcovers.sits.code t ht
    have hsits : Sits (Place.origin.through []) tiles [] := hcovers.sits
    have hslice := hsits.slice_eq t ht
    rw [List.nil_append, hcovers.spells] at hslice
    exact ⟨htext, hspan, hslice⟩
  · rw [← hcovers.codes_eq]
    exact hcovers.sits.pairwise

def laidOut : String :=
  "def f(a,  # first\r\n      b):\r\n\treturn '''x\ny''' + \\\r\n  a # second\n"

theorem exists_covers_of_scan_laidOut : ∃ tokens, scan laidOut = .ok tokens ∧
    (∃ tiles, Covers .origin (unifyLineEnds laidOut.toList) [] tiles tokens) ∧
    tokens.filterMap remark? = ["# first", "# second"] ∧
    (tokens.filter (·.lexeme.isCode)).map (fun t => slice (unifyLineEnds laidOut.toList) t.span) =
      ["def", "f", "(", "a", ",", "b", ")", ":", "return", "'''x\ny'''", "+", "a"].map
        String.toList := by
  have hscan : (scan laidOut).toOption.any fun tokens =>
      tokens.filterMap remark? == ["# first", "# second"] &&
        (tokens.filter (·.lexeme.isCode)).map text ==
          ["def", "f", "(", "a", ",", "b", ")", ":", "return", "'''x\ny'''", "+", "a"] := by
    decide +kernel
  obtain ⟨tokens, h, htokens⟩ := scan_of_any hscan
  obtain ⟨hcomments, htexts⟩ := Bool.and_eq_true_iff.1 htokens
  obtain ⟨htiles, hcode, -⟩ := exists_covers_of_scan h
  refine ⟨tokens, h, htiles, eq_of_beq hcomments, ?_⟩
  rw [← eq_of_beq htexts, List.map_map]
  exact List.map_congr_left fun t ht => (hcode t ht).2.2

end Token

end AsyncErasure
