import AsyncErasure.Proofs.Renaming.FormatString

namespace AsyncErasure.FormatString

open Text Literal Lexeme

section Checked

mutual

/-- As `renameText`, but without a result if an index or a depth is out of range. -/
def renameText? (rename : List Char → List Char) (raw : Bool) (cs : List Char) :
    Option (List Char) :=
  match cs with
  | [] => some []
  | c :: cs =>
    if (c = leftBrace ∨ c = rightBrace) ∧ cs.head? = some c then
      (renameText? rename raw (cs.drop 1)).map (c :: c :: ·)
    else if c = leftBrace then (renameField? rename raw 1 none cs).map (c :: ·)
    else if c = '\\' ∧ !raw ∧ cs.head? = some 'N' then
      match h : cs.dropWhile (· ≠ rightBrace) with
      | close :: rest =>
        have := length_lt_of_dropWhile h
        (renameText? rename raw rest).map (c :: cs.takeWhile (· ≠ rightBrace) ++ close :: ·)
      | [] => some (c :: cs)
    else (renameText? rename raw cs).map (c :: ·)
termination_by cs.length
decreasing_by all_goals grind

/-- As `renameField`, but without a result if a literal ends behind the text that it stands in, or
if a field closes at depth zero. -/
def renameField? (rename : List Char → List Char) (raw : Bool) (depth : Nat) (quote : Option Char)
    (cs : List Char) : Option (List Char) :=
  match cs with
  | [] => some []
  | c :: cs =>
    if quote.isSome then
      (renameField? rename raw depth (if quote = some c then none else quote) cs).map (c :: ·)
    else if isQuote c then (renameField? rename raw depth (some c) cs).map (c :: ·)
    else if c = leftBrace then (renameField? rename raw (depth + 1) none cs).map (c :: ·)
    else if c = rightBrace then
      if depth = 0 then none
      else if depth ≤ 1 then (renameText? rename raw cs).map (c :: ·)
      else (renameField? rename raw (depth - 1) none cs).map (c :: ·)
    else if isNameChar c then
      let word := c :: cs.takeWhile isNameChar
      have := length_dropWhile_le isNameChar cs
      if isNameStart c then
        match h : cs.dropWhile isNameChar with
        | q :: rest =>
          have := length_lt_of_dropWhile h
          if isQuote q && isMarkWord word then
            let n := quotedLength q rest
            if (q :: rest).length < n then none
            else
              let literal := (q :: rest).take n
              (if word.any isFormatMark then renameText? rename (word.any isRawMark) literal
                else some literal).bind fun renamed =>
                (renameField? rename raw depth none ((q :: rest).drop n)).map (word ++ renamed ++ ·)
          else (renameField? rename raw depth none (q :: rest)).map (rename word ++ ·)
        | [] => some (rename word)
      else (renameField? rename raw depth none (cs.dropWhile isNameChar)).map (word ++ ·)
    else (renameField? rename raw depth none cs).map (c :: ·)
termination_by cs.length
decreasing_by all_goals grind

end

def renameFields? (rename : String → String) (literal : String) : Option String :=
  let (marks, quoted) := split literal.toList
  let renameWord (word : List Char) : List Char := (rename (String.ofList word)).toList
  (renameText? renameWord (marks.any isRawMark) quoted).map fun cs => String.ofList (marks ++ cs)

variable {rename : List Char → List Char}

/-- A literal ends in the text that it stands in. -/
theorem quotedLength_le {q : Char} (hq : isQuote q) (rest : List Char) :
    quotedLength q rest ≤ (q :: rest).length := by
  obtain ⟨before, after, rfl, hlen⟩ := exists_quoted hq rest
  simp [hlen]

theorem ite_eq_some {α : Type} {p : Prop} [Decidable p] {a? b? : Option α} {a b : α}
    (ha : p → a? = some a) (hb : ¬p → b? = some b) :
    (if p then a? else b?) = some (if p then a else b) := by
  split
  · exact ha ‹_›
  · exact hb ‹_›

mutual

/-- The checks in the text outside fields never fail. -/
theorem renameText?_eq (raw : Bool) (cs : List Char) :
    renameText? rename raw cs = some (renameText rename raw cs) := by
  match cs with
  | [] => rw [renameText?, renameText]
  | c :: cs =>
    rw [renameText?, renameText]
    refine ite_eq_some (fun _ => ?_) fun _ => ite_eq_some (fun _ => ?_) fun _ =>
      ite_eq_some (fun _ => ?_) fun _ => ?_
    · rw [renameText?_eq, Option.map_some]
    · rw [renameField?_eq raw none _ Nat.one_ne_zero, Option.map_some]
    · -- both scanners stop at the same brace
      split
      case h_1 close rest hdrop =>
        split
        case h_1 hdrop' =>
          rw [hdrop] at hdrop'
          cases hdrop'
        case h_2 hdrop' =>
          rw [hdrop, List.cons.injEq] at hdrop'
          obtain ⟨rfl, rfl⟩ := hdrop'
          have := length_lt_of_dropWhile hdrop
          rw [renameText?_eq raw rest, Option.map_some]
      case h_2 hdrop =>
        split
        case h_1 =>
          rw [List.append_nil, List.takeWhile_eq_self_iff.2 (List.dropWhile_eq_nil_iff.1 hdrop)]
        case h_2 hdrop' =>
          rw [hdrop] at hdrop'
          cases hdrop'
    · rw [renameText?_eq, Option.map_some]
termination_by cs.length
decreasing_by all_goals grind

/-- Nor do those inside fields, all of which are open. -/
theorem renameField?_eq (raw : Bool) {depth : Nat} (quote : Option Char) (cs : List Char)
    (hdepth : depth ≠ 0) :
    renameField? rename raw depth quote cs = some (renameField rename raw depth quote cs) := by
  match cs with
  | [] => rw [renameField?, renameField]
  | c :: cs =>
    rw [renameField?, renameField]
    refine ite_eq_some (fun _ => ?_) fun _ => ite_eq_some (fun _ => ?_) fun _ =>
      ite_eq_some (fun _ => ?_) fun _ => ite_eq_some (fun _ => ?_) fun _ =>
      ite_eq_some (fun _ => ?_) fun _ => ?_
    · rw [renameField?_eq raw _ cs hdepth, Option.map_some]
    · rw [renameField?_eq raw (some c) cs hdepth, Option.map_some]
    · rw [renameField?_eq raw none cs (Nat.succ_ne_zero depth), Option.map_some]
    · rw [if_neg hdepth, apply_ite (c :: ·)]
      refine ite_eq_some (fun _ => ?_) fun hdeep => ?_
      · rw [renameText?_eq, Option.map_some]
      · -- A field inside the field is closed, and the outer one is still open.
        rw [renameField?_eq raw none cs (by omega), Option.map_some]
    · have hlen := length_dropWhile_le isNameChar cs
      refine ite_eq_some (fun _ => ?_) fun _ => ?_
      · -- both scanners end the word at the same character
        split
        case h_1 q rest hdrop =>
          symm
          split
          case h_1 hdrop' =>
            rw [hdrop] at hdrop'
            cases hdrop'
          case h_2 hdrop' =>
            rw [hdrop, List.cons.injEq] at hdrop'
            obtain ⟨rfl, rfl⟩ := hdrop'
            have hlt := length_lt_of_dropWhile hdrop
            refine (ite_eq_some (fun hliteral => ?_) fun _ => ?_).symm
            · rw [Bool.and_eq_true] at hliteral
              rw [if_neg (Nat.not_lt.2 (quotedLength_le hliteral.1 rest))]
              dsimp only
              rw [ite_eq_some (fun _ => renameText?_eq _ _) fun _ => rfl, Option.bind_some,
                renameField?_eq raw none _ hdepth, Option.map_some]
            · rw [renameField?_eq raw none _ hdepth, Option.map_some]
        case h_2 hdrop =>
          split
          case h_1 => rfl
          case h_2 hdrop' =>
            rw [hdrop] at hdrop'
            cases hdrop'
      · rw [renameField?_eq raw none _ hdepth, Option.map_some]
    · rw [renameField?_eq raw none cs hdepth, Option.map_some]
termination_by cs.length
decreasing_by all_goals grind

end

theorem renameFields?_eq (f : String → String) (literal : String) :
    renameFields? f literal = some (renameFields f literal) := by
  unfold renameFields? renameFields
  simp only [renameText?_eq, Option.map_some]

end Checked

/-- Whether a text ends inside a word, if it begins inside of one or not. -/
def endsInside (inside : Bool) (cs : List Char) : Bool := cs.foldl (fun _ c => isNameChar c) inside

/-- Every character stays, except that some whole words give way to what is made of them. A whole
word has no other character of a word in front of it or behind it. -/
inductive Respells (f : List Char → List Char) : (inside : Bool) → List Char → List Char → Prop
  | nil {inside : Bool} : Respells f inside [] []
  | char {inside : Bool} {c : Char} {cs ds : List Char} :
    Respells f (isNameChar c) cs ds → Respells f inside (c :: cs) (c :: ds)
  | word {word cs ds : List Char} : IsWord word → Stops cs → Respells f true cs ds →
    Respells f false (word ++ cs) (f word ++ ds)

variable {f : List Char → List Char} {inside : Bool} {word cs ds as bs run rest before : List Char}
  {q : Char}

@[simp] theorem endsInside_nil : endsInside inside [] = inside := rfl

@[simp] theorem endsInside_cons {c : Char} :
    endsInside inside (c :: cs) = endsInside (isNameChar c) cs := rfl

@[simp] theorem endsInside_append :
    endsInside inside (as ++ bs) = endsInside (endsInside inside as) bs := List.foldl_append

theorem endsInside_run (hrun : ∀ c ∈ run, isNameChar c) : endsInside true run = true := by
  induction run with
  | nil => rfl
  | cons c run ih =>
    rw [List.forall_mem_cons] at hrun
    rw [endsInside_cons, hrun.1, ih hrun.2]

theorem endsInside_word (h : IsWord word) : endsInside inside word = true := by
  obtain ⟨c, cs, rfl, hc⟩ := h.exists_cons
  rw [endsInside_cons, isNameChar_of_isNameStart hc]
  exact endsInside_run fun b hb => h.2 b (List.mem_cons_of_mem c hb)

namespace Respells

theorem keep (run : List Char) (h : Respells f (endsInside inside run) cs ds) :
    Respells f inside (run ++ cs) (run ++ ds) := by
  induction run generalizing inside with
  | nil => exact h
  | cons c run ih => exact .char (ih h)

theorem refl (cs : List Char) : Respells f inside cs cs := by
  simpa using keep cs (.nil : Respells f (endsInside inside cs) [] [])

/-- Between two texts there is no word, or there is one that ends with the first. -/
theorem append (h : Respells f inside as bs) (h' : Respells f (endsInside inside as) cs ds)
    (hends : endsInside inside as = false ∨ Stops cs) :
    Respells f inside (as ++ cs) (bs ++ ds) := by
  induction h with
  | nil => exact h'
  | char _ ih => exact .char (ih h' hends)
  | @word word as bs hword hstops _ ih =>
    rw [endsInside_append, endsInside_word hword] at h' hends
    rw [List.append_assoc, List.append_assoc]
    refine .word hword ?_ (ih h' hends)
    cases as with
    | nil => exact hends.resolve_left (by simp)
    | cons a as => exact hstops

end Respells

/-- A text up to the given characters ends with them, if it is not all there is. -/
theorem closingLength_closed (close : List Char) (escaped : Bool) (cs : List Char) :
    closingLength close escaped cs = cs.length ∨
      close <:+ cs.take (closingLength close escaped cs) := by
  induction cs generalizing escaped with
  | nil => exact .inl rfl
  | cons c cs ih =>
    have hcons {escaped : Bool} : closingLength close escaped cs + 1 = (c :: cs).length ∨
        close <:+ (c :: cs).take (closingLength close escaped cs + 1) :=
      (ih escaped).imp (congrArg (· + 1)) fun h => h.trans (List.suffix_cons c _)
    rw [closingLength]
    split_ifs with hesc hback hbegins
    · exact hcons
    · exact hcons
    · rw [← List.prefix_iff_eq_take.1 hbegins]
      exact .inr (List.suffix_refl close)
    · exact hcons

/-- A literal ends with its quote, if it is not all there is. -/
theorem quoted_closed (hq : isQuote q) (h : quotedLength q (before ++ rest) = before.length + 1) :
    rest = [] ∨ [q] <:+ before := by
  have hback := ne_backslash_of_isQuote hq
  have hcut (close body : List Char)
      (hlen : closingLength close false (body ++ rest) = body.length) :
      rest = [] ∨ close <:+ body := by
    refine (closingLength_closed close false (body ++ rest)).imp (fun hall => ?_) fun hclose => ?_
    · rw [hlen, List.length_append] at hall
      exact List.length_eq_zero_iff.1 (by omega)
    · rwa [hlen, List.take_left] at hclose
  rw [quotedLength, shortLength_eq hback, longLength_eq hback] at h
  split at h
  case isTrue htriple =>
    obtain ⟨a, b, body, rfl⟩ : ∃ a b body, before = a :: b :: body := by
      rcases before with _ | ⟨a, _ | ⟨b, body⟩⟩
      · simp at h
      · simp at h
      · exact ⟨a, b, body, rfl⟩
    refine (hcut [q, q, q] body (by simpa using h)).imp_right fun hclose => ?_
    have hlast : [q] <:+ [q, q, q] := ⟨[q, q], rfl⟩
    exact (hlast.trans hclose).trans ⟨[a, b], rfl⟩
  case isFalse => exact hcut [q] before (by omega)

theorem endsInside_quoted (hq : isQuote q)
    (h : quotedLength q (before ++ rest) = before.length + 1) :
    endsInside inside (q :: before) = false ∨ rest = [] := by
  rcases quoted_closed hq h with hrest | ⟨ds, rfl⟩
  · exact .inr hrest
  · rw [endsInside_cons, endsInside_append, endsInside_cons, isNameChar_of_isQuote hq]
    exact .inl rfl

/-- What a step reads keeps all but whole words if what comes behind it does. The scanner looks for
words only where one may begin. -/
theorem scanSteps_respells (f : List Char → List Char) :
    ScanSteps (fun raw cs => ∀ inside : Bool, Respells f inside cs (renameText f raw cs))
      fun raw depth quote cs => ∀ inside : Bool, (∀ q ∈ quote, isQuote q) →
        (quote = none → inside → Stops cs) →
          Respells f inside cs (renameField f raw depth quote cs) where
  text_nil inside := by
    rw [renameText]
    exact .nil
  text_doubled hc ih inside := by
    rw [renameText_doubled hc]
    exact .char (.char (ih _))
  text_field hcs ih inside := by
    have hname : isNameChar leftBrace = false := by decide +kernel
    rw [renameText_field hcs]
    exact .char (ih _ nofun (by simp [hname]))
  text_named hname hhead ih inside := by
    rw [renameText_named hname hhead]
    exact .char (.keep _ (.char (ih _)))
  text_unclosed hname hhead inside := by
    rw [renameText_unclosed hname hhead]
    exact .refl _
  text_char hdouble hleft hnamed ih inside := by
    rw [renameText_char hdouble hleft hnamed]
    exact .char (ih _)
  nil inside _ _ := by
    rw [renameField]
    exact .nil
  quoted {raw depth q c cs} ih inside hquote _ := by
    have hq := hquote q rfl
    rw [renameField_quoted]
    refine .char (ih _ ?_ ?_)
    · split
      · nofun
      · exact hquote
    · intro hnone hname
      obtain rfl : q = c := by simpa using hnone
      rw [isNameChar_of_isQuote hq] at hname
      cases hname
  openQuote hc ih inside _ _ := by
    rw [renameField_openQuote hc]
    exact .char (ih _ (fun _ h => Option.some.inj h ▸ hc) nofun)
  left ih inside _ _ := by
    have hname : isNameChar leftBrace = false := by decide +kernel
    rw [renameField_left]
    exact .char (ih _ nofun (by simp [hname]))
  last hdepth ih inside _ _ := by
    rw [renameField_right, if_pos hdepth]
    exact .char (ih _)
  right hdepth ih inside _ _ := by
    have hname : isNameChar rightBrace = false := by decide +kernel
    rw [renameField_right, if_neg hdepth]
    exact .char (ih _ nofun (by simp [hname]))
  char hquote hleft hright hname ih inside _ _ := by
    rw [renameField_char hquote hleft hright hname]
    exact .char (ih _ nofun (by simp [hname]))
  number hchars hc hrest ih inside _ _ := by
    rw [renameField_number hchars hc hrest]
    exact .keep _ (ih _ nofun fun _ _ => hrest)
  literal {raw depth word inner rest q} hword hmark hq hquoted hinner ih inside _ _ := by
    -- only a literal that the end of the text cuts off can end inside a word
    have hends : endsInside true (q :: inner) = false ∨ rest = [] := endsInside_quoted hq hquoted
    have hstops : endsInside true (q :: inner) → Stops rest := by
      intro h
      rw [hends.resolve_left (by simp [h])]
      nofun
    rw [renameField_literal hword hmark hq hquoted, List.append_assoc]
    refine .keep _ ?_
    rw [endsInside_word hword]
    refine .append ?_ (ih _ nofun fun _ => hstops) ?_
    · split
      · exact hinner _
      · exact .refl _
    · cases h : endsInside true (q :: inner) with
      | false => exact .inl rfl
      | true => exact .inr (hstops h)
  word {raw depth word rest} hword hrest hplain ih inside _ hinside := by
    obtain rfl : inside = false := by
      obtain ⟨c, cs, rfl, hc⟩ := hword.exists_cons
      cases inside with
      | false => rfl
      | true => exact absurd (isNameChar_of_isNameStart hc) (by simp [hinside rfl rfl c rfl])
    rw [renameField_word hword hrest hplain]
    exact .word hword hrest (ih _ nofun fun _ _ => hrest)

/-- A whole word of a text, which may begin inside of a word. -/
def IsWholeWord (inside : Bool) (word cs : List Char) : Prop :=
  ∃ before after, cs = before ++ word ++ after ∧ IsWord word ∧ endsInside inside before = false ∧
    Stops after

theorem isWholeWord_iff : IsWholeWord inside word cs ↔ ∃ n < cs.length + 1, word <+: cs.drop n ∧
    IsWord word ∧ endsInside inside (cs.take n) = false ∧ Stops (cs.drop (n + word.length)) := by
  constructor
  · rintro ⟨before, after, rfl, hword, hbefore, hafter⟩
    refine ⟨before.length, by simp only [List.length_append]; omega, ?_⟩
    rw [← List.length_append, List.drop_left, List.append_assoc, List.drop_left, List.take_left]
    exact ⟨List.prefix_append .., hword, hbefore, hafter⟩
  · rintro ⟨n, -, ⟨after, hdrop⟩, hword, hbefore, hafter⟩
    refine ⟨cs.take n, after, ?_, hword, hbefore, ?_⟩
    · rw [List.append_assoc, hdrop, List.take_append_drop]
    · rwa [← List.drop_drop, ← hdrop, List.drop_left] at hafter

instance : Decidable (Stops cs) :=
  decidable_of_iff (cs.head?.all (!isNameChar ·)) (by simp [Stops, Option.all_eq_true])

instance : Decidable (IsWholeWord inside word cs) := decidable_of_iff' _ isWholeWord_iff

/-- Nothing changes in a text whose words stay as they are. -/
theorem Respells.eq_of_words (h : Respells f inside cs ds)
    (hf : ∀ word, IsWholeWord inside word cs → f word = word) : ds = cs := by
  induction h with
  | nil => rfl
  | @char inside c cs ds _ ih =>
    rw [ih fun word ⟨before, after, hcs, hrest⟩ =>
      hf word ⟨c :: before, after, by rw [hcs]; rfl, hrest⟩]
  | @word word cs ds hword hstops _ ih =>
    rw [hf word ⟨[], cs, rfl, hword, rfl, hstops⟩, ih fun other ⟨before, after, hcs, hrest⟩ => ?_]
    refine hf other ⟨word ++ before, after, by rw [hcs]; simp, ?_⟩
    rwa [endsInside_append, endsInside_word hword]

section Frame

def IsHarmless (word : List Char) : Prop :=
  word ≠ [] ∧ ∀ c ∈ word, isQuote c = false ∧ c ≠ '\\' ∧ c ≠ '\n'

theorem IsWord.isHarmless (h : IsWord word) : IsHarmless word := by
  obtain ⟨c, cs, rfl, -⟩ := h.exists_cons
  refine ⟨List.cons_ne_nil c cs, fun b hb => ⟨(not_special_of_nameChar (h.2 b hb)).1, ?_, ?_⟩⟩
  · rintro rfl
    exact absurd (h.2 _ hb) (by decide +kernel)
  · rintro rfl
    exact absurd (h.2 _ hb) (by decide +kernel)

/-- Length of the rest of a literal up to the closing quotes, these included. Behind a backslash a
character stands for itself, and in a literal of one line no line ends. -/
def closingTail (close : List Char) (line escaped : Bool) : List Char → Option Nat
  | [] => none
  | c :: cs =>
    if escaped then (closingTail close line false cs).map (· + 1)
    else if c = '\\' then (closingTail close line true cs).map (· + 1)
    else if close <+: c :: cs then some close.length
    else if line && c == '\n' then none
    else (closingTail close line false cs).map (· + 1)

theorem shortTail_eq (hq : isQuote q) (cs : List Char) :
    Token.shortTail q cs = closingTail [q] true false cs := by
  have hback := ne_backslash_of_isQuote hq
  have hline : q ≠ '\n' := by
    rintro rfl
    exact absurd hq (by decide)
  fun_induction Token.shortTail q cs with
  | case1 => rfl
  | case2 c cs ih => simp [closingTail, ih, Function.comp_def]
  | case3 cs hcs => simp [closingTail, hline]
  | case4 cs hcs hc => simp [closingTail, hback]
  | case5 c cs hcs hc hne ih =>
    by_cases hc' : c = '\\'
    · subst hc'
      cases cs with
      | nil => simp [closingTail, Token.shortTail]
      | cons b cs => exact (hcs b cs rfl rfl).elim
    · simp [closingTail, hc, hc', Ne.symm hne, ih]

theorem longTail_eq (hq : isQuote q) (cs : List Char) :
    Token.longTail q cs = closingTail [q, q, q] false false cs := by
  have hback := ne_backslash_of_isQuote hq
  fun_induction Token.longTail q cs with
  | case1 => rfl
  | case2 c cs ih => simp [closingTail, ih, Function.comp_def]
  | case3 c cs _ hc =>
    have hne : c ≠ '\\' := hc.1 ▸ hback
    rw [closingTail, if_neg Bool.false_ne_true, if_neg hne, if_pos (triple_prefix_iff.2 hc)]
    rfl
  | case4 c cs hcs hc ih =>
    by_cases hc' : c = '\\'
    · subst hc'
      cases cs with
      | nil => simp [closingTail, Token.longTail]
      | cons b cs => exact (hcs b cs rfl rfl).elim
    · rw [closingTail, if_neg Bool.false_ne_true, if_neg hc', if_neg (mt triple_prefix_iff.1 hc),
        if_neg (by simp), ih]

/-- Quoted contents are one literal if they end where the quotes close. -/
theorem literalTail_eq_length_iff (hq : isQuote q) (cs : List Char) :
    Token.literalTail q cs = .ok cs.length ↔
      if isTriple q cs then closingTail [q, q, q] false false (cs.drop 2) = some (cs.drop 2).length
      else closingTail [q] true false cs = some cs.length := by
  rw [Token.literalTail, shortTail_eq hq, longTail_eq hq]
  simp only [isTriple, decide_eq_true_eq]
  split
  case isTrue htriple =>
    have htwo : 2 ≤ cs.length := by
      have := congrArg List.length htriple
      simp at this
      omega
    rw [List.length_drop]
    cases closingTail [q, q, q] false false (cs.drop 2) with
    | none => simp
    | some n => simp; omega
  case isFalse =>
    cases closingTail [q] true false cs <;> simp

variable {close : List Char} {line escaped : Bool}

/-- A word is passed as a whole, also behind a backslash. -/
theorem closingTail_word (hclose : ∀ c ∈ close, isQuote c) (hne : close ≠ [])
    (hword : IsHarmless word) : closingTail close line escaped (word ++ cs) =
      (closingTail close line false cs).map (· + word.length) := by
  obtain ⟨hword, hchars⟩ := hword
  induction word generalizing escaped with
  | nil => exact absurd rfl hword
  | cons c word ih =>
    rw [List.forall_mem_cons] at hchars
    obtain ⟨⟨hquote, hback, hline⟩, hchars⟩ := hchars
    have hrest : closingTail close line false (word ++ cs) =
        (closingTail close line false cs).map (· + word.length) := by
      cases word with
      | nil => simp
      | cons => exact ih (by simp) hchars
    have hbegins : ¬close <+: c :: (word ++ cs) := by
      obtain ⟨b, close, rfl⟩ := List.exists_cons_of_ne_nil hne
      intro h
      rw [List.cons_prefix_cons] at h
      simp [h.1, hquote] at hclose
    have hopen : ¬(line && c == '\n') = true := by simp [hline]
    rw [List.cons_append, closingTail, if_neg hback, if_neg hbegins, if_neg hopen, ite_self, hrest,
      Option.map_map, List.length_cons]
    rfl

namespace Respells

variable (hf : ∀ word, IsWord word → IsHarmless (f word))
include hf

/-- Quotes come where they came before. -/
theorem prefix_iff (hclose : ∀ c ∈ close, isQuote c) (h : Respells f inside cs ds) :
    close <+: cs ↔ close <+: ds := by
  induction h generalizing close with
  | nil => rfl
  | char _ ih =>
    cases close with
    | nil => simp
    | cons b close =>
      rw [List.cons_prefix_cons, List.cons_prefix_cons, ih (List.forall_mem_cons.1 hclose).2]
  | @word word cs ds hword hstops _ _ =>
    cases close with
    | nil => simp
    | cons b close =>
      have hno {w : List Char} (hw : IsHarmless w) (rest : List Char) :
          ¬b :: close <+: w ++ rest := by
        obtain ⟨c, w, rfl⟩ := List.exists_cons_of_ne_nil hw.1
        intro h
        rw [List.cons_append, List.cons_prefix_cons] at h
        have hc := (hw.2 c (List.mem_cons_self ..)).1
        rw [← h.1, hclose b (List.mem_cons_self ..)] at hc
        cases hc
      exact iff_of_false (hno hword.isHarmless cs) (hno (hf word hword) ds)

/-- A literal that ends with the text ends with it still. -/
theorem closingTail_eq_length (hclose : ∀ c ∈ close, isQuote c) (hne : close ≠ [])
    (h : Respells f inside cs ds) (hlen : closingTail close line escaped cs = some cs.length) :
    closingTail close line escaped ds = some ds.length := by
  induction h generalizing escaped with
  | nil => cases hlen
  | @char inside c cs ds h ih =>
    have hsame : close <+: c :: cs ↔ close <+: c :: ds :=
      prefix_iff hf hclose (.char h : Respells f inside _ _)
    rw [closingTail] at hlen ⊢
    simp only [← hsame]
    split_ifs at hlen ⊢ with hesc hback hbegins
    · rw [ih (Token.eq_of_map_add hlen)]
      rfl
    · rw [ih (Token.eq_of_map_add hlen)]
      rfl
    · -- the text ends with what closes it, which holds no word
      have heq : close = c :: cs := hbegins.eq_of_length (Option.some.inj hlen)
      have hkeep : ds = cs := h.eq_of_words fun word ⟨before, after, hcs, hword, _⟩ => by
        obtain ⟨b, bs, rfl, hb⟩ := hword.exists_cons
        have hmem : b ∈ close := by simp [heq, hcs]
        have hname := isNameChar_of_isNameStart hb
        rw [isNameChar_of_isQuote (hclose b hmem)] at hname
        cases hname
      rw [hkeep, heq]
    · rw [ih (Token.eq_of_map_add hlen)]
      rfl
  | @word word cs ds hword hstops _ ih =>
    rw [closingTail_word hclose hne hword.isHarmless, List.length_append, Nat.add_comm] at hlen
    rw [closingTail_word hclose hne (hf word hword), ih (Token.eq_of_map_add hlen),
      List.length_append, Nat.add_comm]
    rfl

omit hf in
theorem of_cons {c : Char} (hc : isNameChar c = false) (h : Respells f inside (c :: cs) ds) :
    ∃ ds', ds = c :: ds' ∧ Respells f false cs ds' := by
  generalize hall : c :: cs = all at h
  cases h with
  | nil => cases hall
  | char h =>
    obtain ⟨rfl, rfl⟩ := List.cons.inj hall
    exact ⟨_, rfl, hc ▸ h⟩
  | @word word xs ys hword =>
    obtain ⟨b, bs, rfl, hb⟩ := hword.exists_cons
    have hname := isNameChar_of_isNameStart hb
    rw [← (List.cons.inj hall).1, hc] at hname
    cases hname

/-- Quoted contents stay one literal, in the same quotes. -/
theorem literalTail_eq_length (hq : isQuote q) (h : Respells f inside cs ds)
    (hlen : Token.literalTail q cs = .ok cs.length) :
    Token.literalTail q ds = .ok ds.length ∧ isTriple q ds = isTriple q cs := by
  have hsame : isTriple q ds = isTriple q cs := by
    have hopens (cs : List Char) : cs.take 2 = [q, q] ↔ [q, q] <+: cs := by
      rw [List.prefix_iff_eq_take, eq_comm]
      rfl
    simp only [isTriple, hopens, decide_eq_decide]
    exact (h.prefix_iff hf (by simp [hq])).symm
  rw [literalTail_eq_length_iff hq] at hlen ⊢
  refine ⟨?_, hsame⟩
  rw [hsame]
  split at hlen
  case isTrue htriple =>
    obtain ⟨body, rfl⟩ : ∃ body, cs = q :: q :: body :=
      ⟨cs.drop 2, by rw [← List.take_append_drop 2 cs, of_decide_eq_true htriple]; rfl⟩
    obtain ⟨ds, rfl, htail⟩ := h.of_cons (isNameChar_of_isQuote hq)
    obtain ⟨body', rfl, hbody⟩ := htail.of_cons (isNameChar_of_isQuote hq)
    rw [if_pos htriple]
    exact hbody.closingTail_eq_length hf (by simp [hq]) (List.cons_ne_nil _ _) hlen
  case isFalse htriple =>
    rw [if_neg htriple]
    exact h.closingTail_eq_length hf (by simp [hq]) (List.cons_ne_nil _ _) hlen

end Respells

end Frame

end AsyncErasure.FormatString

namespace AsyncErasure.Convention

open FormatString Literal

theorem renameFields_respells (c : Convention) (text : String) :
    Respells (onWords c.rename) false text.toList (renameFields c.rename text).toList := by
  have hsplit := split_append text.toList
  rw [renameFields, String.toList_ofList]
  nth_rewrite 1 [← hsplit]
  exact .keep _ ((scanSteps_respells _).text ..)

/-- Renaming the fields of a text substitutes whole words only: nothing is out of range on the way,
every other character stays, a text in which no whole word is renamed stays, and a literal stays one
literal with the same marks and quotes if what names become can stand in a literal. -/
theorem renameFields_words (c : Convention) (text : String) :
    renameFields? c.rename text = some (renameFields c.rename text) ∧
      Respells (onWords c.rename) false text.toList (renameFields c.rename text).toList ∧
      ((∀ p ∈ c.renames, ¬IsWholeWord false p.1.toList text.toList) →
        renameFields c.rename text = text) ∧
      ((Lexeme.string text).isWhole → (∀ p ∈ c.renames, IsHarmless p.2.toList) →
        KeepsFrame text (renameFields c.rename text)) := by
  have hwords := c.renameFields_respells text
  refine ⟨renameFields?_eq c.rename text, hwords, fun hnone => ?_, fun hwhole hnames => ?_⟩
  · refine String.toList_inj.1 (hwords.eq_of_words fun word hword => ?_)
    have hlookup : c.renames.lookup (String.ofList word) = none := by
      refine List.lookup_eq_none_iff.2 fun p hp => ?_
      rw [bne_iff_ne]
      intro heq
      exact hnone p hp (by rwa [← heq, String.toList_ofList])
    rw [onWords, rename, hlookup, Option.getD_none, String.toList_ofList]
  · have hf (word : List Char) (hword : IsWord word) : IsHarmless (onWords c.rename word) := by
      rcases rename_eq c (String.ofList word) with heq | ⟨p, hp, heq⟩
      · rw [onWords, heq, String.toList_ofList]
        exact hword.isHarmless
      · rw [onWords, heq]
        exact hnames p hp
    obtain ⟨marks, q, rest, htext, hmarks, hq, hlen⟩ := Lexeme.isWhole_string.1 hwhole
    have hquoted :=
      (scanSteps_respells (onWords c.rename)).text (marks.any isRawMark) (q :: rest) false
    obtain ⟨rest', hout, hrest⟩ := hquoted.of_cons (Lexeme.isNameChar_of_isQuote hq)
    have hrenamed : (renameFields c.rename text).toList = marks ++ q :: rest' := by
      rw [← String.ofList_toList (s := text), htext,
        renameFields_eq c.rename (Lexeme.isQuote_eq_false hmarks) hq, hout, String.toList_ofList]
    obtain ⟨htail, htriple⟩ := hrest.literalTail_eq_length hf hq hlen
    have hsplit := Lexeme.split_literal hmarks hq
    refine ⟨Lexeme.isWhole_string.2 ⟨marks, q, rest', hrenamed, hmarks, hq, htail⟩, ?_, ?_⟩
    · rw [hrenamed, htext, hsplit, hsplit]
    · simp only [opening, hrenamed, htext, hsplit, htriple]

def quotedWords : String :=
  "f'aconn \x7baconn.aconn_cls:1alist\x7d \x7bf\"\x7balist\x7d\"\x7d \x7b\"alist\"\x7d'"

/-- No whole word in it has another name. -/
def plainWords : String := "f'\x7b1alist\x7d \x7balists\x7d'"

theorem renameFields_words_quotedWords :
    renameFields standard.rename plainWords = plainWords ∧
      KeepsFrame quotedWords (renameFields standard.rename quotedWords) ∧
      renameFields standard.rename quotedWords =
        "f'aconn \x7bconn.conn_cls:1alist\x7d \x7bf\"\x7blist\x7d\"\x7d \x7b\"alist\"\x7d'" := by
  have hnone : ∀ p ∈ standard.renames, ¬IsWholeWord false p.1.toList plainWords.toList := by
    decide +kernel
  have hwhole : (Lexeme.string quotedWords).isWhole := by decide +kernel
  have hnames (p : String × String) (hp : p ∈ standard.renames) : IsHarmless p.2.toList :=
    (isStable_standard.isWord p hp).isHarmless
  exact ⟨(standard.renameFields_words plainWords).2.2.1 hnone,
    (standard.renameFields_words quotedWords).2.2.2 hwhole hnames, by decide +kernel⟩

end AsyncErasure.Convention
