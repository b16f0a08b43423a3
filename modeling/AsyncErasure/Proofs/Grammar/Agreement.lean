import AsyncErasure.Proofs.Grammar.Reading

namespace AsyncErasure.Grammar

/-- Where tokens are taken to end, which is at layout, and what stands behind them. -/
structure Edge where
  stop : Lexeme → Bool
  extra : List Token
  goesOn : ∀ l : Lexeme, l.isLayout = false → stop l = false

namespace Edge

def closing (extra : List Token) : Edge :=
  ⟨(· == .endMarker), extra, fun l h => by cases l <;> first | rfl | cases h⟩

def line (extra : List Token) : Edge := ⟨Lexeme.isLayout, extra, fun _ => id⟩

variable (edge : Edge)

@[simp] theorem stop_symbol (s : Symbol) : edge.stop (.symbol s) = false := edge.goesOn _ rfl

@[simp] theorem stop_keyword (k : Keyword) : edge.stop (.keyword k) = false := edge.goesOn _ rfl

@[simp] theorem stop_name (id : String) : edge.stop (.name id) = false := edge.goesOn _ rfl

@[simp] theorem stop_number (text : String) : edge.stop (.number text) = false := edge.goesOn _ rfl

@[simp] theorem stop_string (text : String) : edge.stop (.string text) = false := edge.goesOn _ rfl

@[simp] theorem stop_comment (text : String) (inline : Bool) :
    edge.stop (.comment text inline) = false :=
  edge.goesOn _ rfl

@[simp] theorem stop_closing (extra : List Token) (l : Lexeme) :
    (closing extra).stop l = (l == .endMarker) := rfl

@[simp] theorem extra_closing (extra : List Token) : (closing extra).extra = extra := rfl

end Edge

namespace Cursor

def before (extra : List Token) (c : Cursor) : Cursor := { c with later := c.later ++ extra }

def UpTo (stop : Lexeme → Bool) (c : Cursor) : Prop :=
  ∃ (inner : List Token) (last : Token), c.tokens = inner ++ [last] ∧ stop last.lexeme ∧
    ∀ t ∈ inner, stop t.lexeme = false

namespace UpTo

variable {stop : Lexeme → Bool} {c c' : Cursor} {read : List Token}

theorem later_ne_nil (h : c.UpTo stop) (hne : stop c.next.lexeme = false) : c.later ≠ [] := by
  obtain ⟨inner, last, htokens, hlast, -⟩ := h
  rintro hnil
  rw [tokens, hnil] at htokens
  cases inner with
  | nil =>
    obtain ⟨rfl, -⟩ := List.cons.inj htokens
    simp [hne] at hlast
  | cons t ts => simp at htokens

theorem step (h : c.UpTo stop) (hlater : c.later ≠ []) : c.advance.UpTo stop := by
  obtain ⟨inner, last, htokens, hlast, hinner⟩ := h
  rw [tokens_advance hlater] at htokens
  cases inner with
  | nil => exact absurd (List.cons.inj htokens).2 c.advance.tokens_ne_nil
  | cons t ts =>
    exact ⟨ts, last, (List.cons.inj htokens).2, hlast, (List.forall_mem_cons.1 hinner).2⟩

theorem rest (h : c.UpTo stop) (hm : c.Moves read c') : c'.UpTo stop := by
  induction hm with
  | stay => exact h
  | step hlater _ ih => exact ih (h.step hlater)

theorem moves_advance (h : c.UpTo stop) (hne : stop c.next.lexeme = false) :
    c.Moves [c.next] c.advance := .step (h.later_ne_nil hne) (.stay _)

end UpTo

theorem Scanned.upTo {c : Cursor} (h : c.Scanned) : c.UpTo (· == .endMarker) := by
  obtain ⟨inner, last, htokens, hlast, hinner⟩ := h
  exact ⟨inner, last, htokens, beq_iff_eq.2 hlast, fun t ht =>
    beq_eq_false_iff_ne.2 (hinner t ht).ne_end⟩

variable {extra : List Token} {c : Cursor}

@[simp] theorem next_before (extra : List Token) (c : Cursor) : (c.before extra).next = c.next :=
  rfl

@[simp] theorem before_nil (c : Cursor) : c.before [] = c := by simp [before]

theorem advance_before (h : c.later ≠ []) : (c.before extra).advance = c.advance.before extra := by
  obtain ⟨next, later, reached⟩ := c
  cases later with
  | nil => exact absurd rfl h
  | cons t ts => rfl

theorem second_before (h : c.later ≠ []) : (c.before extra).second = c.second := by
  obtain ⟨next, later, reached⟩ := c
  cases later with
  | nil => exact absurd rfl h
  | cons t ts => rfl

theorem size_le_before (extra : List Token) (c : Cursor) : c.size ≤ (c.before extra).size := by
  simp only [before, size, List.length_append]
  omega

theorem Moves.size_le {c c' : Cursor} {read : List Token} (h : c.Moves read c') :
    c'.size ≤ c.size := by
  rw [h.size_eq]
  exact Nat.le_add_left ..

theorem Moves.size_lt {c c' : Cursor} {read : List Token} (h : c.Moves read c') (hne : read ≠ []) :
    c'.size < c.size := by
  have := h.size_eq
  have := List.length_pos_iff.2 hne
  omega

def Faults (c : Cursor) (e : Error) : Prop :=
  ∃ read c', c.Moves read c' ∧ e.place = c'.next.span.start

theorem Moves.faults {c c' : Cursor} {read : List Token} {e : Error} (h : c.Moves read c')
    (he : c'.Faults e) : c.Faults e := by
  obtain ⟨more, c'', hm, hplace⟩ := he
  exact ⟨read ++ more, c'', h.trans hm, hplace⟩

end Cursor

open Cursor Rule

variable {α β : Type} {edge : Edge} {G : α → Prop} {H : β → Prop} {p q : Rule α}
  {f g : α → Rule β} {c : Cursor}

/-- The second rule comes to the same as the first, whatever is behind the closing token. They read
along the tokens up to it, where they also fail; a result that asks for it takes a token. -/
def Agrees (edge : Edge) (G : α → Prop) (p q : Rule α) (c : Cursor) : Prop :=
  c.UpTo edge.stop →
    q (c.before edge.extra) = (p c).map (fun r => (r.1, r.2.before edge.extra)) ∧
    (∀ a c', p c = .ok (a, c') → ∃ read, c.Moves read c' ∧ (G a → read ≠ [])) ∧
    ∀ e, p c = .error e → c.Faults e

/-- Every result takes a token. -/
abbrev Advances (edge : Edge) (p q : Rule α) (c : Cursor) : Prop :=
  Agrees edge (fun _ => True) p q c

/-- No result need take a token. -/
abbrev Stays (edge : Edge) (p q : Rule α) (c : Cursor) : Prop :=
  Agrees edge (fun _ => False) p q c

/-- A result other than none takes a token. -/
abbrev Rounds (edge : Edge) (p q : Rule (Option α)) (c : Cursor) : Prop :=
  Agrees edge (fun o => o.isSome) p q c

def tailItem (closed : Lexeme → Bool) (item : Rule α) : Rule (Option α) := do
  if ← accept Symbol.comma then
    if closed (← peek) then return none else return some (← item)
  else return none

theorem listTail_eq (closed : Lexeme → Bool) (item : Rule α) :
    listTail closed item = many (tailItem closed item) := rfl

namespace Agrees

theorem mono {G' : α → Prop} (h : Agrees edge G p q c) (hG : ∀ a, G' a → G a) :
    Agrees edge G' p q c := by
  intro hs
  obtain ⟨heq, hread, hfault⟩ := h hs
  refine ⟨heq, fun a c' ha => ?_, hfault⟩
  obtain ⟨read, hm, hne⟩ := hread a c' ha
  exact ⟨read, hm, fun h => hne (hG a h)⟩

/-- Only what the rules come to at the two cursors counts. -/
theorem congr {p' q' : Rule α} (h : Agrees edge G p q c) (hp : p' c = p c)
    (hq : q' (c.before edge.extra) = q (c.before edge.extra)) : Agrees edge G p' q' c := by
  intro hs
  rw [hp, hq]
  exact h hs

theorem eq (h : Agrees (.closing []) G p q c) (hs : c.Scanned) : q c = p c := by
  have heq := (h hs.upTo).1
  simp only [Edge.extra_closing, before_nil] at heq
  exact heq.trans (by cases p c <;> rfl)

theorem stays (h : Agrees edge G p q c) : Stays edge p q c := h.mono fun _ => False.elim

/-- Where every result asks for a token, one is taken. -/
theorem advances (h : Agrees edge G p q c) (hG : ∀ a c', p c = .ok (a, c') → G a) :
    Advances edge p q c := by
  refine fun hs => ⟨(h hs).1, fun a c' ha => ?_, (h hs).2.2⟩
  obtain ⟨read, hm, hne⟩ := (h hs).2.1 a c' ha
  exact ⟨read, hm, fun _ => hne (hG a c' ha)⟩

theorem pure {a : α} (h : ¬G a) : Agrees edge G (pure a) (pure a) c := by
  refine fun _ => ⟨rfl, fun a' c' hc => ?_, nofun⟩
  cases hc
  exact ⟨[], .stay c, fun ha => absurd ha h⟩

theorem done {a : α} : Stays edge (Pure.pure a) (Pure.pure a) c := pure id

theorem nothing : Rounds edge (Pure.pure (none : Option α)) (Pure.pure none) c := pure (by simp)

theorem fail (fault : Fault) : Agrees edge G (Rule.fail fault) (Rule.fail fault) c :=
  fun _ => ⟨rfl, nofun, fun _ he => ⟨[], c, .stay c, Except.error.inj he ▸ rfl⟩⟩

/-- One rule after another. What is left to be taken, the second one takes. -/
theorem andThen (hp : Agrees edge G p q c)
    (hf : ∀ a read c', c.Moves read c' → (G a → read ≠ []) →
      Agrees edge (fun b => H b ∧ read = []) (f a) (g a) c') :
    Agrees edge H (p >>= f) (q >>= g) c := by
  intro hs
  obtain ⟨heq, hread, hfault⟩ := hp hs
  rw [bind_apply, bind_apply, heq]
  cases hpc : p c with
  | error e => exact ⟨rfl, nofun, fun e' he => Except.error.inj he ▸ hfault e hpc⟩
  | ok r =>
    obtain ⟨a, m⟩ := r
    obtain ⟨read, hm, hne⟩ := hread a m hpc
    obtain ⟨heq', hread', hfault'⟩ := hf a read m hm hne (hs.rest hm)
    refine ⟨heq', fun b c' hb => ?_, fun e he => hm.faults (hfault' e he)⟩
    -- If neither rule has taken a token, the second one was to take one.
    obtain ⟨more, hm', hne'⟩ := hread' b c' hb
    refine ⟨read ++ more, hm.trans hm', fun hH hnil => ?_⟩
    obtain ⟨hread, hmore⟩ := List.append_eq_nil_iff.1 hnil
    exact hne' ⟨hH, hread⟩ hmore

/-- First a rule that takes a token. -/
theorem bind (hp : Advances edge p q c)
    (hf : ∀ a c', c'.size < c.size → Stays edge (f a) (g a) c') :
    Agrees edge H (p >>= f) (q >>= g) c :=
  hp.andThen fun a _ c' hm hne =>
    (hf a c' (hm.size_lt (hne trivial))).mono fun _ h => hne trivial h.2

/-- First a rule that may take no token. -/
theorem next (hp : Agrees edge G p q c)
    (hf : ∀ a c', c'.size ≤ c.size → Agrees edge H (f a) (g a) c') :
    Agrees edge H (p >>= f) (q >>= g) c :=
  hp.andThen fun a _ c' hm _ => (hf a c' hm.size_le).mono fun _ => And.left

theorem map {k : α → β} (hp : Agrees edge G p q c) (hG : ∀ a, H (k a) → G a) :
    Agrees edge H (k <$> p) (k <$> q) c := by
  rw [map_eq_pure_bind, map_eq_pure_bind]
  exact hp.andThen fun a _ _ _ hne => .pure fun h => hne (hG a h.1) h.2

theorem known {a : α} (h : Agrees edge H (f a) (g a) c) :
    Agrees edge H (Pure.pure a >>= f) (Pure.pure a >>= g) c := h

/-- What a rule gives, in place of nothing. -/
theorem given (h : Agrees edge G p q c) : Stays edge (some <$> p) (some <$> q) c :=
  h.map fun _ => False.elim

theorem ite {b : Prop} [Decidable b] {p' q' : Rule α} (hyes : b → Agrees edge G p q c)
    (hno : ¬b → Agrees edge G p' q' c) :
    Agrees edge G (if b then p else p') (if b then q else q') c := by
  split
  · exact hyes ‹_›
  · exact hno ‹_›

section Look

theorem peek {f g : Lexeme → Rule β}
    (h : ∀ l, c.next.lexeme = l → Agrees edge H (f l) (g l) c) :
    Agrees edge H (Rule.peek >>= f) (Rule.peek >>= g) c := h _ rfl

/-- A rule that only looks at what comes next. -/
theorem look {r : Rule α} (h : c.UpTo edge.stop → ∃ a, r c = .ok (a, c) ∧
      r (c.before edge.extra) = .ok (a, c.before edge.extra))
    (hf : ∀ a, r c = .ok (a, c) → Agrees edge H (f a) (g a) c) :
    Agrees edge H (r >>= f) (r >>= g) c := by
  intro hs
  obtain ⟨a, ha, ha'⟩ := h hs
  rw [bind_apply, bind_apply, ha, ha']
  exact hf a ha hs

/-- Past the last token the second one does not matter. -/
theorem peekSecond {f g : Lexeme → Rule β}
    (hin : edge.stop c.next.lexeme = false →
      Agrees edge H (f c.second.lexeme) (g c.second.lexeme) c)
    (hend : edge.stop c.next.lexeme = true → ∀ l l', Agrees edge H (f l) (g l') c) :
    Agrees edge H (Rule.peekSecond >>= f) (Rule.peekSecond >>= g) c := by
  intro hs
  rw [bind_apply, bind_apply, peekSecond_apply, peekSecond_apply]
  cases hstop : edge.stop c.next.lexeme with
  | true => exact hend hstop _ _ hs
  | false =>
    rw [second_before (hs.later_ne_nil hstop)]
    exact hin hstop hs

theorem sees {l : Lexeme} {f g : Bool → Rule β}
    (hyes : c.next.lexeme = l → Agrees edge H (f true) (g true) c)
    (hno : c.next.lexeme ≠ l → Agrees edge H (f false) (g false) c) :
    Agrees edge H (Rule.sees l >>= f) (Rule.sees l >>= g) c := by
  intro hs
  rw [bind_apply, bind_apply, sees_apply, sees_apply, next_before]
  by_cases hl : c.next.lexeme = l
  · rw [beq_iff_eq.2 hl]
    exact hyes hl hs
  · rw [beq_eq_false_iff_ne.2 hl]
    exact hno hl hs

theorem get {f g : Cursor → Rule β} (h : Agrees edge H (f c) (g (c.before edge.extra)) c) :
    Agrees edge H (MonadState.get >>= f) (MonadState.get >>= g) c := h

theorem place {f g : Place → Rule β} (h : ∀ start, Agrees edge H (f start) (g start) c) :
    Agrees edge H (Rule.place >>= f) (Rule.place >>= g) c := h c.next.span.start

/-- On the tokens of a text. -/
theorem scanned (h : c.UpTo edge.stop → Agrees edge G p q c) : Agrees edge G p q c :=
  fun hs => h hs hs

theorem spanFrom {start : Place} {f g : Span → Rule β}
    (h : ∀ span, Agrees edge H (f span) (g span) c) :
    Agrees edge H (Rule.spanFrom start >>= f) (Rule.spanFrom start >>= g) c := h ⟨start, c.reached⟩

/-- What is made from the span of what has been read. -/
theorem spanned {start : Place} {make : Span → β} :
    Stays edge (Rule.spanFrom start >>= fun span => Pure.pure (make span))
      (Rule.spanFrom start >>= fun span => Pure.pure (make span)) c :=
  spanFrom fun _ => done

end Look

section Step

variable {f g : Unit → Rule β}

/-- Past a token that is not the last one. -/
theorem advance (hne : edge.stop c.next.lexeme = false)
    (h : c.advance.size < c.size → Stays edge (f ()) (g ()) c.advance) :
    Agrees edge H (Rule.advance >>= f) (Rule.advance >>= g) c := by
  intro hs
  have hm := hs.moves_advance hne
  obtain ⟨heq, hread, hfault⟩ := h (hm.size_lt (by simp)) (hs.rest hm)
  rw [bind_apply, bind_apply, advance_apply, advance_apply, advance_before (hs.later_ne_nil hne)]
  refine ⟨heq, fun b c' hb => ?_, fun e he => hm.faults (hfault e he)⟩
  obtain ⟨read, hm', -⟩ := hread b c' hb
  exact ⟨c.next :: read, hm.trans hm', fun _ => by simp⟩

theorem accept {l : Lexeme} {f g : Bool → Rule β} (hl : edge.stop l = false)
    (hyes : c.next.lexeme = l → c.advance.size < c.size →
      Stays edge (f true) (g true) c.advance)
    (hno : c.next.lexeme ≠ l → Agrees edge H (f false) (g false) c) :
    Agrees edge H (Rule.accept l >>= f) (Rule.accept l >>= g) c := by
  by_cases heq : c.next.lexeme = l
  · intro hs
    have := advance (f := fun _ => f true) (g := fun _ => g true) (H := H) (heq ▸ hl) (hyes heq) hs
    simpa [heq] using this
  · intro hs
    simpa [heq] using hno heq hs

theorem expect {l : Lexeme} (hl : edge.stop l = false)
    (h : c.next.lexeme = l → c.advance.size < c.size → Stays edge (f ()) (g ()) c.advance) :
    Agrees edge H (Rule.expect l >>= f) (Rule.expect l >>= g) c := by
  by_cases heq : c.next.lexeme = l
  · intro hs
    have hadvance := advance (H := H) (heq ▸ hl) (h heq) hs
    rw [bind_apply, bind_apply, expect_apply l c heq, expect_apply l (c.before edge.extra) heq]
    exact hadvance
  · have hfail (c : Cursor) (heq : c.next.lexeme ≠ l) :
        Rule.expect l c = Rule.fail (.expected l) c := by simp [Rule.expect, heq]
    have hfailed : Agrees edge H (Rule.fail (.expected l)) (Rule.fail (.expected l)) c := fail _
    refine hfailed.congr ?_ ?_
    · rw [bind_apply, hfail c heq]
      rfl
    · rw [bind_apply, hfail (c.before edge.extra) heq]
      rfl

theorem name {f g : String → Rule β}
    (h : ∀ id, c.advance.size < c.size → Stays edge (f id) (g id) c.advance) :
    Agrees edge H (Rule.name >>= f) (Rule.name >>= g) c := by
  intro hs
  cases hl : c.next.lexeme with
  | name id =>
    have hadvance : Agrees edge H (Rule.advance >>= fun _ => f id)
        (Rule.advance >>= fun _ => g id) c :=
      advance (by simp [hl]) (h id)
    rw [bind_apply, bind_apply, name_apply hl,
      name_apply (show (c.before edge.extra).next.lexeme = _ from hl)]
    exact hadvance hs
  | _ =>
    have hfailed : Agrees edge H (Rule.fail .expectedName) (Rule.fail .expectedName) c := fail _
    refine (hfailed.congr ?_ ?_) hs <;> simp [bind_apply, Rule.name, hl, Rule.fail]

theorem advanced (hne : edge.stop c.next.lexeme = false) :
    Advances edge Rule.advance Rule.advance c :=
  bind_pure Rule.advance ▸ advance hne fun _ => done

theorem accepted {l : Lexeme} (hl : edge.stop l = false) :
    Stays edge (Rule.accept l) (Rule.accept l) c :=
  bind_pure (Rule.accept l) ▸ accept hl (fun _ _ => done) fun _ => done

theorem identifier : Advances edge Rule.name Rule.name c :=
  bind_pure Rule.name ▸ name fun _ _ => done

end Step

section Loop

/-- A loop whose rounds take tokens does not use up its bound. -/
theorem takeItems {p q : Rule (Option α)} {n m : Nat}
    (hp : ∀ c', c'.size ≤ c.size → Rounds edge p q c') (hn : c.size ≤ n) (hm : c.size ≤ m) :
    Stays edge (Rule.takeItems p n) (Rule.takeItems q m) c := by
  induction n generalizing c m with
  | zero => exact absurd c.one_le_size (by omega)
  | succ n ih =>
    obtain ⟨m, rfl⟩ := Nat.exists_eq_add_of_le' (c.one_le_size.trans hm)
    refine (hp c (Nat.le_refl _)).andThen fun o read c' hmove hne => ?_
    cases o with
    | none => exact pure (by simp)
    | some a =>
      -- A round that gives something has taken a token, so the smaller bounds still allow for the
      -- rest.
      have hlt := hmove.size_lt (hne rfl)
      refine next (ih (fun d hd => hp d (by omega)) (by omega) (by omega)) fun as _ _ => pure ?_
      exact fun h => hne rfl h.2

theorem many {p q : Rule (Option α)} (hp : ∀ c', c'.size ≤ c.size → Rounds edge p q c') :
    Stays edge (Rule.many p) (Rule.many q) c :=
  takeItems hp (Nat.le_refl _) (c.size_le_before edge.extra)

/-- A loop whose first round takes a token. -/
theorem many_of_advances {p q : Rule (Option α)} (hfirst : Advances edge p q c)
    (hp : ∀ c', c'.size ≤ c.size → Rounds edge p q c') :
    Advances edge (Rule.many p) (Rule.many q) c := by
  obtain ⟨n, hn⟩ := Nat.exists_eq_add_of_le' c.one_le_size
  obtain ⟨m, hm⟩ := Nat.exists_eq_add_of_le' (c.one_le_size.trans (c.size_le_before edge.extra))
  have hround : Advances edge (Rule.takeItems p (n + 1)) (Rule.takeItems q (m + 1)) c := by
    refine bind hfirst fun o c' hlt => ?_
    cases o with
    | none => exact done
    | some a =>
      have hle := c.size_le_before edge.extra
      exact next (takeItems (fun d hd => hp d (by omega)) (by omega) (by omega)) fun _ _ _ => done
  refine hround.congr ?_ ?_
  · rw [Rule.many, hn]
  · rw [Rule.many, hm]

theorem growTimes {p q : α → Rule (Option α)} {n m : Nat} {a : α}
    (hp : ∀ a c', c'.size ≤ c.size → Rounds edge (p a) (q a) c') (hn : c.size ≤ n)
    (hm : c.size ≤ m) : Stays edge (Rule.growTimes p n a) (Rule.growTimes q m a) c := by
  induction n generalizing c m a with
  | zero => exact absurd c.one_le_size (by omega)
  | succ n ih =>
    obtain ⟨m, rfl⟩ := Nat.exists_eq_add_of_le' (c.one_le_size.trans hm)
    refine (hp a c (Nat.le_refl _)).andThen fun o read c' hmove hne => ?_
    cases o with
    | none => exact pure (by simp)
    | some b =>
      have hlt := hmove.size_lt (hne rfl)
      exact (ih (fun b d hd => hp b d (by omega)) (by omega) (by omega)).mono fun _ h => h.1

theorem grow {p q : α → Rule (Option α)} {a : α}
    (hp : ∀ a c', c'.size ≤ c.size → Rounds edge (p a) (q a) c') :
    Stays edge (Rule.grow p a) (Rule.grow q a) c :=
  growTimes hp (Nat.le_refl _) (c.size_le_before edge.extra)

theorem listGo {closed : Lexeme → Bool} {p q : Rule α} {n m : Nat}
    (hp : ∀ c', c'.size ≤ c.size → Advances edge p q c') (hn : c.size ≤ n) (hm : c.size ≤ m) :
    Stays edge (Rule.listUpTo.go closed p n) (Rule.listUpTo.go closed q m) c := by
  induction n generalizing c m with
  | zero => exact absurd c.one_le_size (by omega)
  | succ n ih =>
    obtain ⟨m, rfl⟩ := Nat.exists_eq_add_of_le' (c.one_le_size.trans hm)
    refine peek fun l _ => ite (fun _ => done) fun _ => ?_
    refine bind (hp c (Nat.le_refl _)) fun a c' hlt => ?_
    refine accept (by simp) (fun _ hlt' => ?_) fun _ => done
    exact next (ih (fun d hd => hp d (by omega)) (by omega) (by omega)) fun as _ _ => done

theorem listUpTo {closed : Lexeme → Bool} {p q : Rule α}
    (hp : ∀ c', c'.size ≤ c.size → Advances edge p q c') :
    Stays edge (Rule.listUpTo closed p) (Rule.listUpTo closed q) c :=
  listGo hp (Nat.le_refl _) (c.size_le_before edge.extra)

end Loop

section Part

theorem after {l : Lexeme} (hl : edge.stop l = false)
    (hp : c.advance.size < c.size → Advances edge p q c.advance) :
    Rounds edge (Rule.after l p) (Rule.after l q) c :=
  accept hl (fun _ hlt => next (hp hlt) fun _ _ _ => done) fun _ => nothing

theorem tailItem {closed : Lexeme → Bool}
    (hp : c.advance.size < c.size → Advances edge p q c.advance) :
    Rounds edge (Grammar.tailItem closed p) (Grammar.tailItem closed q) c := by
  refine accept (by simp) (fun _ hlt => ?_) fun _ => nothing
  exact peek fun l _ => ite (fun _ => done) fun _ => next (hp hlt) fun _ _ _ => done

theorem listTail {closed : Lexeme → Bool} (hp : ∀ c', c'.size < c.size → Advances edge p q c') :
    Stays edge (Rule.listTail closed p) (Rule.listTail closed q) c := by
  rw [listTail_eq, listTail_eq]
  exact many fun c' hle => tailItem fun hlt => hp _ (by omega)

/-- Where a rule fails, another one starts over at the same cursor. -/
theorem orElse {p' q' : Rule α} (hp : Agrees edge G p q c) (hq : Agrees edge G p' q' c) :
    Agrees edge G (Rule.orElse p p') (Rule.orElse q q') c := by
  intro hs
  obtain ⟨heq, hread, -⟩ := hp hs
  unfold Rule.orElse
  rw [heq]
  cases hpc : p c with
  | error e => exact hq hs
  | ok r => exact ⟨rfl, fun a c' ha => hread a c' (hpc.trans ha), nofun⟩

end Part

end Agrees

end AsyncErasure.Grammar
