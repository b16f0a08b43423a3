import AsyncErasure.Proofs.Grammar.Beside
import AsyncErasure.Proofs.Grammar.Conservation
import AsyncErasure.Proofs.Tree.Essence

namespace AsyncErasure.Grammar

open Cursor Rule Block

variable {α β : Type} {c c' d d' : Cursor}

theorem bind_of_ok {p : Rule α} {f : α → Rule β} {a : α} (h : p c = .ok (a, d)) :
    (p >>= f) c = f a d := by
  rw [bind_apply, h]

/-- Where the first rule gives statements whose final blocks hold code, the second one gives the
like, and leads on to the like place. -/
def Follows (told : α → List Stmt) (ahead : Cursor → Cursor → Prop) (p q : Rule α) (c c' : Cursor) :
    Prop :=
  ∀ a d, p c = .ok (a, d) → holdFinals (told a) →
    ∃ a' d', q c' = .ok (a', d') ∧ essence (told a) = essence (told a') ∧ ahead d d'

namespace Follows

variable {told : α → List Stmt} {ahead : Cursor → Cursor → Prop} {p q : Rule α} {f g : β → Rule α}

/-- First a rule within the line. -/
theorem line {G : β → Prop} {r : Rule β} (h : c.Level c')
    (hr : ∀ extra d, Agrees (.line extra) G r r d)
    (hf : ∀ b d d', d.Level d' → Follows told ahead (f b) (g b) d d') :
    Follows told ahead (r >>= f) (r >>= g) c c' := by
  intro a d hrun hfine
  obtain ⟨b, m, hb, hrest⟩ := eq_ok_of_bind hrun
  obtain ⟨m', hb', hm⟩ := h.copy hr hb
  rw [bind_of_ok hb']
  exact hf b m m' hm a d hrest hfine

/-- Past the same token the cursors are level, whatever came before. -/
theorem expect {l : Lexeme} {f g : Unit → Rule α} (h : c.Beside c') (hl : l.isLayout = false)
    (hf : c.advance.Level c'.advance → Follows told ahead (f ()) (g ()) c.advance c'.advance) :
    Follows told ahead (Rule.expect l >>= f) (Rule.expect l >>= g) c c' := by
  by_cases hnext : c.next.lexeme = l
  · intro a d hrun hfine
    rw [bind_apply, expect_apply l c hnext] at hrun
    rw [bind_apply, expect_apply l c' (h.next_eq ▸ hnext)]
    exact hf (h.advance (hnext ▸ hl)) a d hrun hfine
  · intro a d hrun
    simp [Rule.expect, hnext, Rule.fail] at hrun

theorem pure {a a' : α} (heq : essence (told a) = essence (told a')) (h : ahead c c') :
    Follows told ahead (Pure.pure a) (Pure.pure a') c c' := by
  intro b d hrun _
  cases hrun
  exact ⟨a', c', rfl, heq, h⟩

theorem fail (fault : Fault) : Follows told ahead (Rule.fail fault) q c c' := nofun

theorem spanned {start start' : Place} {make make' : Span → α}
    (heq : ∀ s s', essence (told (make s)) = essence (told (make' s'))) (h : ahead c c') :
    Follows told ahead (spanFrom start >>= fun span => Pure.pure (make span))
      (spanFrom start' >>= fun span => Pure.pure (make' span)) c c' := pure (heq _ _) h

theorem peek {f g : Lexeme → Rule α}
    (h : Follows told ahead (f c.next.lexeme) (g c'.next.lexeme) c c') :
    Follows told ahead (Rule.peek >>= f) (Rule.peek >>= g) c c' := h

theorem place {f g : Place → Rule α}
    (h : ∀ start start', Follows told ahead (f start) (g start') c c') :
    Follows told ahead (Rule.place >>= f) (Rule.place >>= g) c c' := h _ _

theorem sees {l : Lexeme} {f g : Bool → Rule α} (hl : c.next.lexeme = l ↔ c'.next.lexeme = l)
    (hyes : c.next.lexeme = l → Follows told ahead (f true) (g true) c c')
    (hno : c.next.lexeme ≠ l → Follows told ahead (f false) (g false) c c') :
    Follows told ahead (Rule.sees l >>= f) (Rule.sees l >>= g) c c' := by
  intro a d hrun hfine
  rw [bind_apply, sees_apply] at hrun ⊢
  by_cases hnext : c.next.lexeme = l
  · rw [beq_iff_eq.2 hnext] at hrun
    rw [beq_iff_eq.2 (hl.1 hnext)]
    exact hyes hnext a d hrun hfine
  · rw [beq_eq_false_iff_ne.2 hnext] at hrun
    rw [beq_eq_false_iff_ne.2 (mt hl.2 hnext)]
    exact hno hnext a d hrun hfine

theorem accept {l : Lexeme} {f g : Bool → Rule α} (hl : c.next.lexeme = l ↔ c'.next.lexeme = l)
    (hyes : c.next.lexeme = l → Follows told ahead (f true) (g true) c.advance c'.advance)
    (hno : c.next.lexeme ≠ l → Follows told ahead (f false) (g false) c c') :
    Follows told ahead (Rule.accept l >>= f) (Rule.accept l >>= g) c c' := by
  intro a d hrun hfine
  rw [bind_apply, accept_apply] at hrun ⊢
  by_cases hnext : c.next.lexeme = l
  · rw [if_pos hnext] at hrun
    rw [if_pos (hl.1 hnext)]
    exact hyes hnext a d hrun hfine
  · rw [if_neg hnext] at hrun
    rw [if_neg (mt hl.2 hnext)]
    exact hno hnext a d hrun hfine

/-- The statement that a rule gives, as the only one. -/
theorem singleton {r r' : Rule Stmt} (h : Follows List.singleton ahead r r' c c') :
    Follows id ahead (List.singleton <$> r) (List.singleton <$> r') c c' := by
  intro ss d hrun hfine
  rw [map_eq_pure_bind] at hrun
  obtain ⟨s, m, hs, hdone⟩ := eq_ok_of_bind hrun
  cases hdone
  obtain ⟨s', d', hs', heq, hd⟩ := h s d hs hfine
  exact ⟨[s'], d', by rw [map_apply, hs']; rfl, heq, hd⟩

theorem advance {f g : Unit → Rule α} (h : Follows told ahead (f ()) (g ()) c.advance c'.advance) :
    Follows told ahead (Rule.advance >>= f) (Rule.advance >>= g) c c' := h

/-- First a rule that gives statements, which are kept. -/
theorem andThen {γ : Type} {before : γ → List Stmt} {middle : Cursor → Cursor → Prop}
    {r r' : Rule γ}
    {f g : γ → Rule α} (hr : Follows before middle r r' c c')
    (hkeep : ∀ b, Ensures (fun a _ => holdFinals (told a) → holdFinals (before b)) (f b))
    (hf : ∀ b b' d d', essence (before b) = essence (before b') → middle d d' →
      Follows told ahead (f b) (g b') d d') : Follows told ahead (r >>= f) (r' >>= g) c c' := by
  intro a d hrun hfine
  obtain ⟨b, m, hb, hrest⟩ := eq_ok_of_bind hrun
  obtain ⟨b', m', hb', heq, hm⟩ := hr b m hb (hkeep b _ _ _ hrest hfine)
  rw [bind_of_ok hb']
  exact hf b b' m m' heq hm a d hrest hfine

/-- First a rule that gives a block. -/
theorem block {middle : Cursor → Cursor → Prop} {r r' : Rule (List Stmt)} {f g : List Stmt → Rule α}
    (hr : Follows id middle r r' c c')
    (hkeep : ∀ body, Ensures (fun a _ => holdFinals (told a) → holdFinals body) (f body))
    (hf : ∀ body body' d d', essence body = essence body' → middle d d' →
      Follows told ahead (f body) (g body') d d') : Follows told ahead (r >>= f) (r' >>= g) c c' :=
  andThen hr hkeep hf

/-- At the end of a line. -/
theorem newline {f g : Unit → Rule α} (h : c.Beside c')
    (hf : ∀ d d', d.Along d' → Follows told ahead (f ()) (g ()) d d') :
    Follows told ahead (Grammar.newline >>= f) (Grammar.newline >>= g) c c' := by
  intro a d hrun hfine
  obtain ⟨⟨⟩, m, hnew, hrest⟩ := eq_ok_of_bind hrun
  suffices hstep : ∃ m', Grammar.newline c' = .ok ((), m') ∧ m.Along m' by
    obtain ⟨m', hnew', hm⟩ := hstep
    rw [bind_of_ok hnew']
    exact hf m m' hm a d hrest hfine
  cases hl : c.next.lexeme with
  | newline written =>
    simp [Grammar.newline, hl] at hnew
    exact ⟨c'.advance, by simp [Grammar.newline, ← h.next_eq, hl], hnew ▸ h.ahead (by simp [hl])⟩
  | endMarker =>
    simp [Grammar.newline, hl] at hnew
    exact ⟨c', by simp [Grammar.newline, ← h.next_eq, hl], hnew ▸ h.toAlong⟩
  | _ => simp [Grammar.newline, hl, Rule.fail] at hnew

end Follows

namespace Cursor

variable {as as' : List Stmt}

/-- The comments ahead are read, and something else comes behind them. -/
structure Uncovers (c : Cursor) (as : List Stmt) (d : Cursor) : Prop where
  read : many comment c = .ok (as, d)
  streams : d.Streams
  tokens : d.tokens = c.tokens.dropWhile (·.lexeme.isComment)
  next : d.next.lexeme.isComment = false
  comments : ∀ s ∈ as, s.isComment

theorem exists_uncovers (h : c.Streams) : ∃ as d, Uncovers c as d := by
  suffices hitems : ∃ as d, Repeats comment c as d ∧ d.Streams ∧
      d.tokens = c.tokens.dropWhile (·.lexeme.isComment) ∧ d.next.lexeme.isComment = false ∧
        ∀ s ∈ as, s.isComment by
    obtain ⟨as, d, has, hd, htokens, hnext, hall⟩ := hitems
    exact ⟨as, d, has.many, hd, htokens, hnext, hall⟩
  -- Each comment is a round of the loop, with one token fewer left behind it.
  induction hsize : c.size generalizing c with
  | zero => exact absurd c.one_le_size (by omega)
  | succ n ih =>
    cases hl : c.next.lexeme with
    | comment text inline =>
      have hlater := h.later_ne_nil (by rw [hl]; rfl)
      have hstep := size_advance hlater
      obtain ⟨as, d, has, hd, htokens, hnext, hall⟩ := ih (h.step hlater) (by omega)
      refine ⟨.comment c.next.span text inline :: as, d, .item ?_ (by omega) has, hd, ?_, hnext, ?_⟩
      · simp [comment, commentIf, hl]
      · rw [htokens, tokens_advance hlater, List.dropWhile_cons_of_pos (by rw [hl]; rfl)]
      · exact List.forall_mem_cons.2 ⟨rfl, hall⟩
    | _ =>
      have hno : c.next.lexeme.isComment = false := by rw [hl]; rfl
      refine ⟨[], c, .done (by simp [comment, commentIf, hl]), h, ?_, hno, nofun⟩
      rw [tokens, List.dropWhile_cons_of_neg (by simp [hno])]

/-- The same code is ahead, and what comes next is the same and no comment. -/
structure Alike (c c' : Cursor) : Prop extends Along c c' where
  same : c.next.lexeme = c'.next.lexeme
  next : c.next.lexeme.isComment = false

/-- Past the comments on both sides the same comes next. -/
theorem Along.uncovers (h : c.Along c') (hd : Uncovers c as d) (hd' : Uncovers c' as' d') :
    d.Alike d' := by
  have hahead : d.Along d' := by
    refine ⟨?_, hd.streams, hd'.streams⟩
    rw [hd.tokens, hd'.tokens, Token.code_dropWhile, Token.code_dropWhile, h.code]
  have hsame := hahead.lexeme_eq (Lexeme.isAside_of_not_comment hd.next)
      (Lexeme.isAside_of_not_comment hd'.next)
  exact ⟨hahead, hsame, hd.next⟩

/-- The same code is ahead, and either both cursors are in front of one of the words or neither. -/
structure Keyed (words : List Keyword) (c c' : Cursor) : Prop extends Along c c' where
  sees : ∀ k ∈ words, c.next.lexeme = .keyword k ↔ c'.next.lexeme = .keyword k

theorem Uncovers.commentsBefore_eq (h : Uncovers c as d) (words : List Keyword) :
    commentsBefore words c =
    if ∃ k ∈ words, d.next.lexeme = .keyword k then .ok (as, d) else .ok ([], c) := by
  obtain ⟨hread, -, htokens, -, -⟩ := h
  have hhead : ((c.next :: c.later).dropWhile (·.lexeme.isComment)).head? = some d.next :=
    congrArg List.head? htokens.symm
  obtain ⟨⟨l, span⟩, later, reached⟩ := d
  simp only [commentsBefore, bind_apply, get_apply, hhead]
  cases l with
  | keyword k => by_cases hk : k ∈ words <;> simp [hk, hread]
  | _ => simp

/-- In front of a word there are no comments. -/
theorem Uncovers.next_eq (h : Uncovers c as d) {k : Keyword} (hl : c.next.lexeme = .keyword k) :
    d.next.lexeme = .keyword k := by
  have htokens : d.tokens = (c.next :: c.later).dropWhile (·.lexeme.isComment) := h.tokens
  rw [List.dropWhile_cons_of_neg (by simp [hl, Lexeme.isComment])] at htokens
  rw [(List.cons.inj htokens).1, hl]

/-- The comments before a word are passed on both sides or on neither. -/
theorem Along.commentsBefore (h : c.Along c') (words : List Keyword) : ∃ as d as' d',
    Grammar.commentsBefore words c = .ok (as, d) ∧ Grammar.commentsBefore words c' = .ok (as', d') ∧
      Keyed words d d' ∧ (∀ s ∈ as, s.isComment) ∧ ∀ s ∈ as', s.isComment := by
  obtain ⟨as, d, hd⟩ := exists_uncovers h.left
  obtain ⟨as', d', hd'⟩ := exists_uncovers h.right
  have hahead := h.uncovers hd hd'
  rw [hd.commentsBefore_eq, hd'.commentsBefore_eq, ← hahead.same]
  split
  · exact ⟨as, d, as', d', rfl, rfl, ⟨hahead.toAlong, fun k _ => by rw [hahead.same]⟩, hd.comments,
      hd'.comments⟩
  · rename_i hno
    refine ⟨[], c, [], c', rfl, rfl, ⟨h, fun k hk => ⟨fun hl => ?_, fun hl => ?_⟩⟩, nofun, nofun⟩
    · exact absurd ⟨k, hk, hd.next_eq hl⟩ hno
    · exact absurd ⟨k, hk, hahead.same ▸ hd'.next_eq hl⟩ hno

end Cursor

/-- A loop whose rounds take tokens goes on until its rule gives nothing. -/
theorem repeats_of_many {p : Rule (Option α)} {as : List α} (hp : ∀ d, Rounds (.closing []) p p d)
    (hs : c.Scanned) (h : many p c = .ok (as, d)) : Repeats p c as d := by
  suffices hitems : ∀ n c as, c.Scanned → c.size ≤ n → takeItems p n c = .ok (as, d) →
      Repeats p c as d from
    hitems c.size c as hs (Nat.le_refl _) h
  -- The bound counts the tokens left, and every round that gives something takes one.
  intro n
  induction n with
  | zero => exact fun c _ _ hn => absurd c.one_le_size (by omega)
  | succ n ih =>
    intro c as hs hn h
    obtain ⟨o, m, hround, h⟩ := eq_ok_of_bind h
    cases o with
    | none =>
      cases h
      exact .done hround
    | some a =>
      obtain ⟨read, hm, hne⟩ := (hp c hs.upTo).2.1 _ m hround
      have hlt := hm.size_lt (hne rfl)
      obtain ⟨later, e, hlater, h⟩ := eq_ok_of_bind h
      cases h
      exact .item hround hlt (ih m later (hs.rest hm) (by omega) hlater)

namespace Follows

variable {told : α → List Stmt} {ahead : Cursor → Cursor → Prop} {f g : List Stmt → Rule α}

/-- A loop whose rounds follow one another. What is told of a round is a statement, not a
comment. -/
theorem loop {told : α → Stmt} {p q : Rule (Option α)}
    (hs : ∀ {c c' : Cursor}, ahead c c' → c.Scanned ∧ c'.Scanned)
    (hp : ∀ d, Rounds (.closing []) p p d) (hq : ∀ d, Rounds (.closing []) q q d)
    (hsome : ∀ a, essence [told a] ≠ [])
    (hround : ∀ c c', ahead c c' → Follows (fun o => (o.map told).toList) ahead p q c c')
    (h : ahead c c') :
    Follows (List.map told) ahead (many p) (many q) c c' := by
  intro as d hrun hfine
  suffices hitems : ∃ bs d', Repeats q c' bs d' ∧ essence (as.map told) = essence (bs.map told) ∧
      ahead d d' by
    obtain ⟨bs, d', hbs, hrest⟩ := hitems
    exact ⟨bs, d', hbs.many, hrest⟩
  have has := repeats_of_many hp (hs h).1 hrun
  clear hrun
  induction has generalizing c' with
  | @done c d hnone =>
    obtain ⟨o, d', ho, heq, hd⟩ := hround c c' h none d hnone rfl
    cases o with
    | none => exact ⟨[], d', .done ho, rfl, hd⟩
    | some b => exact absurd heq.symm (hsome b)
  | @item c m d a as hitem _ _ hloop =>
    have hfines : holdFinals ([told a] ++ as.map told) := hfine
    rw [holdFinals_append, Bool.and_eq_true] at hfines
    obtain ⟨o, m', ho, heq, hm⟩ := hround c c' h (some a) m hitem hfines.1
    cases o with
    | none => exact absurd heq (hsome a)
    | some b =>
      obtain ⟨bs, d', hbs, heqs, hd⟩ := hloop hm hfines.2
      obtain ⟨read, hmove, hne⟩ := (hq c' (hs h).2.upTo).2.1 _ m' ho
      refine ⟨b :: bs, d', .item ho (hmove.size_lt (hne rfl)) hbs, ?_, hd⟩
      have heq : essence [told a] = essence [told b] := heq
      rw [List.map_cons, List.map_cons, essence_cons, essence_cons (told b), heq, heqs]

/-- Past comments, wherever they stand. -/
theorem comments (h : c.Along c')
    (hf : ∀ as as' d d', (∀ s ∈ as, s.isComment) → (∀ s ∈ as', s.isComment) → d.Alike d' →
      Follows told ahead (f as) (g as') d d') :
        Follows told ahead (many comment >>= f) (many comment >>= g) c c' := by
  obtain ⟨as, d, hd⟩ := exists_uncovers h.left
  obtain ⟨as', d', hd'⟩ := exists_uncovers h.right
  intro a e hrun hfine
  rw [bind_of_ok hd.read] at hrun
  rw [bind_of_ok hd'.read]
  exact hf as as' d d' hd.comments hd'.comments (h.uncovers hd hd') a e hrun hfine

/-- Past the comments before a word. -/
theorem commentsBefore (h : c.Along c') (words : List Keyword)
    (hf : ∀ as as' d d', (∀ s ∈ as, s.isComment) → (∀ s ∈ as', s.isComment) → Keyed words d d' →
      Follows told ahead (f as) (g as') d d') :
    Follows told ahead (Grammar.commentsBefore words >>= f) (Grammar.commentsBefore words >>= g)
      c c' := by
  obtain ⟨as, d, as', d', has, has', hd, hall, hall'⟩ := h.commentsBefore words
  intro a e hrun hfine
  rw [bind_of_ok has] at hrun
  rw [bind_of_ok has']
  exact hf as as' d d' hall hall' hd a e hrun hfine

end Follows

section Deep

def deep : Rule (List Stmt) := fun c => parseStatements c.size c

theorem parseStatements_agrees_deep {depth : Nat} (hd : c.size ≤ depth) :
    Advances (.closing []) (parseStatements depth) deep c := by
  have h : Advances (.closing []) (nestStatements (fail .invalid) depth)
      (nestStatements (fail .invalid) c.size) c := nestStatements_agree hd (Nat.le_refl _)
  rw [← parseStatements_eq_nestStatements, ← parseStatements_eq_nestStatements] at h
  exact h.congr rfl (by simp [deep])

theorem deep_agrees : Advances (.closing []) deep deep c :=
  (parseStatements_agrees_deep (Nat.le_refl _)).congr rfl rfl

theorem deep_eq (hs : c.Scanned) : deep c = statement deep c := by
  have hinside : Advances (.closing []) (statement (parseStatements c.size)) (statement deep) c :=
    statement_agrees (fun d hd => parseStatements_agrees_deep (Nat.le_of_lt hd))
      (Nat.le_refl c.size)
  rw [hinside.eq hs, statement_parseStatements hs (Nat.le_refl _), deep]

theorem parseStatements_comment {depth : Nat} {ss : List Stmt} (hl : c.next.lexeme.isComment)
    (h : parseStatements depth c = .ok (ss, d)) : essence ss = [] ∧ d = c.advance := by
  cases depth with
  | zero => cases h
  | succ depth =>
    cases hnext : c.next.lexeme with
    | comment text inline =>
      simp [parseStatements, statement, comment, commentIf, hnext] at h
      exact ⟨h.1 ▸ rfl, h.2.symm⟩
    | _ => rw [hnext] at hl; cases hl

theorem deep_comment (hl : c.next.lexeme.isComment) :
    ∃ ss, deep c = .ok (ss, c.advance) ∧ essence ss = [] := by
  cases hnext : c.next.lexeme with
  | comment text inline =>
    exact ⟨[.comment c.next.span text inline],
      by simp [deep, Cursor.size, parseStatements, statement, comment, commentIf, hnext], rfl⟩
  | _ => rw [hnext] at hl; cases hl

end Deep

section Loop

variable {self : Rule (List Stmt)} {closed : Lexeme → Bool} {as : List (List Stmt)}

/-- A round of the loop over statements has come to its end, or has passed a line end, or has read a
statement. -/
theorem unit_cases {o : Option (List Stmt)} (h : unit self closed c = .ok (o, d)) :
    (closed c.next.lexeme ∧ o = none ∧ d = c) ∨
      (closed c.next.lexeme = false ∧ c.next.lexeme.isNewline ∧ o = some [] ∧ d = c.advance) ∨
      (closed c.next.lexeme = false ∧ c.next.lexeme.isNewline = false ∧
        ∃ ss, self c = .ok (ss, d) ∧ o = some ss) := by
  cases hclosed : closed c.next.lexeme with
  | true =>
    simp [unit, hclosed] at h
    exact .inl ⟨rfl, h.1.symm, h.2.symm⟩
  | false =>
    have hread {l : Lexeme} (hl : c.next.lexeme = l) : closed l = false := hl ▸ hclosed
    cases hl : c.next.lexeme with
    | newline written =>
      simp [unit, hl, hread hl] at h
      exact .inr (.inl ⟨rfl, rfl, h.1.symm, h.2.symm⟩)
    | _ =>
      rw [unit, bind_apply, peek_apply, hl] at h
      dsimp only at h
      rw [if_neg (by simp [hread hl])] at h
      obtain ⟨ss, m, hss, hdone⟩ := eq_ok_of_bind h
      cases hdone
      exact .inr (.inr ⟨rfl, rfl, ss, hss, rfl⟩)

theorem unit_closed (h : closed c.next.lexeme) :
    unit self closed c = .ok (none, c) := by simp [unit, h]

theorem unit_newline (h : closed c.next.lexeme = false) (hl : c.next.lexeme.isNewline) :
    unit self closed c = .ok (some [], c.advance) := by
  cases hnext : c.next.lexeme with
  | newline written => simp [unit, hnext, hnext ▸ h]
  | _ => rw [hnext] at hl; cases hl

theorem unit_statement {ss : List Stmt} (h : closed c.next.lexeme = false)
    (hl : c.next.lexeme.isNewline = false)
    (hs : self c = .ok (ss, d)) : unit self closed c = .ok (some ss, d) := by
  cases hnext : c.next.lexeme with
  | newline written => rw [hnext] at hl; cases hl
  | _ => simp [unit, hnext, hnext ▸ h, hs]

theorem unit_deep_lt {ss : List Stmt} (hs : c.Scanned) (h : unit deep closed c = .ok (some ss, d)) :
    d.size < c.size := by
  have hround : Rounds (.closing []) (unit deep closed) (unit deep closed) c :=
    unit_agrees (fun _ _ => deep_agrees) closed (Nat.lt_succ_self _)
  obtain ⟨read, hm, hne⟩ := (hround hs.upTo).2.1 _ _ h
  exact hm.size_lt (hne rfl)

/-- Comments of their own are passed on one side before the other goes on. -/
theorem Cursor.Along.skip (hclosed : ∀ l, closed l → l.isComment = false) (h : c.Along c') :
    ∃ m, c.Along m ∧ m.next.lexeme.isAside = false ∧ ∀ bs d, Repeats (unit deep closed) m bs d →
      ∃ bs', Repeats (unit deep closed) c' bs' d ∧ essence bs.flatten = essence bs'.flatten := by
  induction hsize : c'.size generalizing c' with
  | zero => exact absurd c'.one_le_size (by omega)
  | succ n ih =>
    cases haside : c'.next.lexeme.isAside with
    | false => exact ⟨c', h, haside, fun bs d hbs => ⟨bs, hbs, rfl⟩⟩
    | true =>
      -- The comment is a statement by itself, of which nothing is left.
      have hcomment := Lexeme.isComment_of_isAside haside
      obtain ⟨ss, hss, hnone⟩ := deep_comment hcomment
      have hround : unit deep closed c' = .ok (some ss, c'.advance) := by
        refine unit_statement ?_ ?_ hss
        · exact Bool.eq_false_iff.2 fun hc => by simp [hclosed _ hc] at hcomment
        · exact Lexeme.isNewline_of_isComment hcomment
      have hstep := size_advance (h.right.later_ne_nil (Lexeme.isLayout_of_isComment hcomment))
      obtain ⟨m, hm, hstop, hrest⟩ := ih (h.symm.pass haside).symm (by omega)
      refine ⟨m, hm, hstop, fun bs d hbs => ?_⟩
      obtain ⟨bs', hbs', heq⟩ := hrest bs d hbs
      exact ⟨ss :: bs', .item hround (by omega) hbs',
        by rw [List.flatten_cons, essence_append, hnone, heq]; rfl⟩

end Loop

def FollowsTo (depth : Nat) : Prop := ∀ c c' : Cursor, c.Along c' → c.next.lexeme.isAside = false →
  c'.next.lexeme.isAside = false → Follows id Along (parseStatements depth) deep c c'

section Compound

variable {depth : Nat} (ih : FollowsTo depth)
include ih

theorem units_follow {closed : Lexeme → Bool} {as : List (List Stmt)}
    (hclosed : ∀ l, closed l → l.isComment = false)
    (has : Repeats (unit (parseStatements depth) closed) c as d) (h : c.Along c')
    (hfine : holdFinals as.flatten) : ∃ bs d', Repeats (unit deep closed) c' bs d' ∧
      essence as.flatten = essence bs.flatten ∧ d.Along d' ∧ closed d.next.lexeme ∧
        d.next.lexeme = d'.next.lexeme := by
  induction has generalizing c' with
  | @done c d hround =>
    obtain ⟨hend, -, rfl⟩ | ⟨-, -, ho, -⟩ | ⟨-, -, ss, -, ho⟩ := unit_cases hround
    · -- What closes the block is no comment, so on the other side only comments stand before it.
      obtain ⟨m, hm, hstop, hrest⟩ := h.skip hclosed
      have hnext := hm.lexeme_eq (Lexeme.isAside_of_not_comment (hclosed _ hend)) hstop
      obtain ⟨bs, hbs, heq⟩ := hrest [] m (.done (unit_closed (hnext ▸ hend)))
      exact ⟨bs, m, hbs, heq, hm, hend, hnext⟩
    · cases ho
    · cases ho
  | @item c m d a as hround hlt _ hloop =>
    have hfines : holdFinals a ∧ holdFinals as.flatten := by
      simpa [holdFinals] using hfine
    cases haside : c.next.lexeme.isAside with
    | true =>
      -- The comment need not be there on the other side.
      have hcomment := Lexeme.isComment_of_isAside haside
      obtain ⟨-, ho, -⟩ | ⟨-, hnew, -, -⟩ | ⟨-, -, ss, hss, ho⟩ := unit_cases hround
      · cases ho
      · simp [Lexeme.isNewline_of_isComment hcomment] at hnew
      · cases ho
        obtain ⟨hnone, rfl⟩ := parseStatements_comment hcomment hss
        obtain ⟨bs, d', hbs, heq, hrest⟩ := hloop (h.pass haside) hfines.2
        exact ⟨bs, d', hbs, by rw [List.flatten_cons, essence_append, hnone, heq]; rfl, hrest⟩
    | false =>
      -- Past its own comments the other side stands in front of the same token.
      obtain ⟨k, hk, hstop, hskip⟩ := h.skip hclosed
      have hnext := hk.lexeme_eq haside hstop
      obtain ⟨b, k', hround', heq, hahead⟩ : ∃ b k', unit deep closed k = .ok (some b, k') ∧
          essence a = essence b ∧ m.Along k' := by
        obtain ⟨-, ho, -⟩ | ⟨hopen, hnew, ho, rfl⟩ | ⟨hopen, hnew, ss, hss, ho⟩ := unit_cases hround
        · cases ho
        · cases ho
          refine ⟨[], k.advance, unit_newline (hnext ▸ hopen) (hnext ▸ hnew), rfl,
            hk.advance haside hstop ?_⟩
          rintro hl
          rw [hl] at hnew
          cases hnew
        · cases ho
          obtain ⟨b, k', hb, heq, hahead⟩ := ih c k hk haside hstop a m hss hfines.1
          exact ⟨b, k', unit_statement (hnext ▸ hopen) (hnext ▸ hnew) hb, heq, hahead⟩
      obtain ⟨bs, d', hbs, heqs, hrest⟩ := hloop hahead hfines.2
      obtain ⟨bs', hbs', heqs'⟩ := hskip (b :: bs) d'
          (.item hround' (unit_deep_lt hk.right.scanned hround') hbs)
      refine ⟨bs', d', hbs', ?_, hrest⟩
      rw [← heqs', List.flatten_cons, List.flatten_cons, essence_append, essence_append, heq, heqs]

theorem statementsUpTo_follow {closed : Lexeme → Bool}
    (hclosed : ∀ l, closed l → l.isComment = false)
    (h : c.Along c') : Follows id (fun d d' => d.Along d' ∧ closed d.next.lexeme ∧
      d.next.lexeme = d'.next.lexeme)
      (statementsUpTo (parseStatements depth) closed) (statementsUpTo deep closed) c c' := by
  intro ss d hrun hfine
  rw [statementsUpTo_eq, map_eq_pure_bind] at hrun
  obtain ⟨as, m, has, hdone⟩ := eq_ok_of_bind hrun
  cases hdone
  have hrounds := repeats_of_many (fun d =>
      unit_agrees (fun _ _ => parseStatements_agrees depth) closed
    (Nat.lt_succ_self _)) h.left.scanned has
  obtain ⟨bs, d', hbs, heq, hrest⟩ := units_follow ih hclosed hrounds h hfine
  exact ⟨bs.flatten, d', by simp [statementsUpTo_eq, hbs.many], heq, hrest⟩

end Compound

end AsyncErasure.Grammar
