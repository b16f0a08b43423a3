import AsyncErasure.Proofs.Grammar.Cursor
import AsyncErasure.Proofs.Grammar.Outcome
import AsyncErasure.Proofs.Token.Origin

namespace AsyncErasure.Grammar

namespace Cursor

def tokens (c : Cursor) : List Token := c.next :: c.later

inductive Moves : Cursor → List Token → Cursor → Prop
  | stay (c : Cursor) : Moves c [] c
  | step {c c' : Cursor} {read : List Token} :
    c.later ≠ [] → Moves c.advance read c' → Moves c (c.next :: read) c'

/-- As on the tokens of a text: an end marker closes what is left of them. -/
def Scanned (c : Cursor) : Prop := Token.Closed c.tokens

variable {c m c' : Cursor} {a b read : List Token}

theorem tokens_ne_nil (c : Cursor) : c.tokens ≠ [] := List.cons_ne_nil c.next c.later

theorem tokens_advance (h : c.later ≠ []) : c.tokens = c.next :: c.advance.tokens := by
  obtain ⟨next, later, reached⟩ := c
  cases later with
  | nil => exact absurd rfl h
  | cons t ts => rfl

namespace Moves

theorem trans (h : c.Moves a m) (h' : m.Moves b c') : c.Moves (a ++ b) c' := by
  induction h with
  | stay => exact h'
  | step hlater _ ih => exact .step hlater (ih h')

theorem tokens_eq (h : c.Moves read c') : c.tokens = read ++ c'.tokens := by
  induction h with
  | stay => rfl
  | step hlater _ ih => rw [tokens_advance hlater, ih, List.cons_append]

theorem size_eq (h : c.Moves read c') : c.size = read.length + c'.size := by
  have hlength := congrArg List.length h.tokens_eq
  simpa [tokens, size] using hlength

end Moves

namespace Scanned

/-- The next token closes what is left, or another one does. -/
theorem next_or (h : c.Scanned) : c.next.lexeme = .endMarker ∧ c.later = [] ∨
    c.next.lexeme.IsInner ∧ c.later ≠ [] := by
  obtain ⟨inner, stop, htokens, hstop, hinner⟩ := h
  cases inner with
  | nil =>
    obtain ⟨hnext, hlater⟩ := List.cons.inj htokens
    exact .inl ⟨hnext ▸ hstop, hlater⟩
  | cons t ts =>
    obtain ⟨hnext, hlater⟩ := List.cons.inj htokens
    refine .inr ⟨hnext ▸ hinner t (List.mem_cons_self ..), ?_⟩
    rw [hlater]
    exact List.append_ne_nil_of_right_ne_nil ts (List.cons_ne_nil stop [])

theorem isInner (h : c.Scanned) (hne : c.next.lexeme ≠ .endMarker) : c.next.lexeme.IsInner :=
  h.next_or.elim (fun hend => absurd hend.1 hne) And.left

theorem later_ne_nil (h : c.Scanned) (hne : c.next.lexeme ≠ .endMarker) : c.later ≠ [] :=
  h.next_or.elim (fun hend => absurd hend.1 hne) And.right

theorem later_eq_nil (h : c.Scanned) (hend : c.next.lexeme = .endMarker) : c.later = [] :=
  h.next_or.elim And.right fun hinner => absurd hend hinner.1.ne_end

theorem step (h : c.Scanned) (hlater : c.later ≠ []) : c.advance.Scanned := by
  obtain ⟨inner, stop, htokens, hstop, hinner⟩ := h
  rw [tokens_advance hlater] at htokens
  cases inner with
  | nil => exact absurd (List.cons.inj htokens).2 c.advance.tokens_ne_nil
  | cons t ts =>
    exact ⟨ts, stop, (List.cons.inj htokens).2, hstop, (List.forall_mem_cons.1 hinner).2⟩

/-- What is left of the tokens of a text. -/
theorem rest (h : c.Scanned) (hm : c.Moves read c') : c'.Scanned := by
  induction hm with
  | stay => exact h
  | step hlater _ ih => exact ih (h.step hlater)

theorem moves_advance (h : c.Scanned) (hne : c.next.lexeme ≠ .endMarker) :
    c.Moves [c.next] c.advance := .step (h.later_ne_nil hne) (.stay _)

end Scanned

end Cursor

open Cursor Rule

variable {α β : Type} {p : Rule α} {f : α → Rule β} {c : Cursor}

/-- Whenever the rule succeeds at the cursor, the relation holds of the tokens that it has read and
its result. -/
def Accounts (R : List Token → α → Prop) (p : Rule α) (c : Cursor) : Prop :=
  c.Scanned → ∀ a c', p c = .ok (a, c') → ∃ read, c.Moves read c' ∧ R read a

namespace Accounts

variable {R : List Token → α → Prop} {S : List Token → β → Prop}

theorem pure {a : α} (h : R [] a) : Accounts R (pure a) c := by
  intro _ a' c' hc
  cases hc
  exact ⟨[], .stay c, h⟩

theorem fail (fault : Fault) : Accounts R (Rule.fail fault) c := by
  intro _ a c' hc
  cases hc

/-- Only what the rule comes to at the cursor counts. -/
theorem congr {q : Rule α} (h : Accounts R p c) (hq : q c = p c) : Accounts R q c := by
  intro hs
  rw [hq]
  exact h hs

theorem mono {R' : List Token → α → Prop} (h : Accounts R p c)
    (hR : ∀ read a, R read a → R' read a) : Accounts R' p c := by
  intro hs a c' hc
  obtain ⟨read, hm, hr⟩ := h hs a c' hc
  exact ⟨read, hm, hR read a hr⟩

theorem bind (hp : Accounts R p c)
    (hf : ∀ a read c', c.Moves read c' → R read a →
      Accounts (fun more b => S (read ++ more) b) (f a) c') : Accounts S (p >>= f) c := by
  intro hs b c' hc
  obtain ⟨a, m, ha, hb⟩ := eq_ok_of_bind hc
  obtain ⟨read, hm, hr⟩ := hp hs a m ha
  obtain ⟨more, hm', hr'⟩ := hf a read m hm hr (hs.rest hm) b c' hb
  exact ⟨read ++ more, hm.trans hm', hr'⟩

theorem map {g : α → β} (hp : Accounts R p c) (hg : ∀ read a, R read a → S read (g a)) :
    Accounts S (g <$> p) c := by
  rw [map_eq_pure_bind]
  refine hp.bind fun a read _ _ hr => .pure ?_
  rw [List.append_nil]
  exact hg read a hr

/-- Behind a token that is not the last one. -/
theorem advance {f : Unit → Rule β} (hne : c.next.lexeme ≠ .endMarker)
    (h : Accounts (fun more b => S (c.next :: more) b) (f ()) c.advance) :
    Accounts S (Rule.advance >>= f) c := by
  intro hs b c' hc
  have hm := hs.moves_advance hne
  obtain ⟨more, hm', hr⟩ := h (hs.rest hm) b c' hc
  exact ⟨c.next :: more, hm.trans hm', hr⟩

theorem accept {l : Lexeme} {f : Bool → Rule β} (hl : l ≠ .endMarker)
    (hyes : c.next.lexeme = l → Accounts (fun more b => S (c.next :: more) b) (f true) c.advance)
    (hno : c.next.lexeme ≠ l → Accounts S (f false) c) : Accounts S (Rule.accept l >>= f) c := by
  intro hs b c' hc
  rw [bind_apply, accept_apply] at hc
  split at hc
  · rename_i a m hm
    split at hm
    · rename_i heq
      cases hm
      exact advance (f := fun _ => f true) (heq ▸ hl) (hyes heq) hs b c' hc
    · rename_i hneq
      cases hm
      exact hno hneq hs b c' hc
  · cases hc

theorem expect {l : Lexeme} {f : Unit → Rule β} (hl : l ≠ .endMarker)
    (h : c.next.lexeme = l → Accounts (fun more b => S (c.next :: more) b) (f ()) c.advance) :
    Accounts S (Rule.expect l >>= f) c := by
  intro hs b c' hc
  by_cases heq : c.next.lexeme = l
  · rw [bind_apply, expect_apply l c heq] at hc
    exact advance (heq ▸ hl) (h heq) hs b c' hc
  · have hfail : Rule.expect l c = Rule.fail (.expected l) c := by simp [Rule.expect, heq]
    rw [bind_apply, hfail] at hc
    cases hc

theorem name {f : String → Rule β}
    (h : ∀ id, c.next.lexeme = .name id → isIdentifier id →
      Accounts (fun more b => S (c.next :: more) b) (f id) c.advance) :
    Accounts S (Rule.name >>= f) c := by
  intro hs b c' hc
  cases hl : c.next.lexeme with
  | name id =>
    rw [bind_apply, name_apply hl] at hc
    have hid := (hs.isInner (by simp [hl])).named id hl
    exact advance (f := fun _ => f id) (by simp [hl]) (h id hl hid) hs b c' hc
  | _ =>
    have hfail : Rule.name c = Rule.fail .expectedName c := by simp [Rule.name, hl]
    rw [bind_apply, hfail] at hc
    cases hc

theorem peek {f : Lexeme → Rule β} (h : Accounts S (f c.next.lexeme) c) :
    Accounts S (Rule.peek >>= f) c := h

theorem sees {l : Lexeme} {f : Bool → Rule β} (h : Accounts S (f (c.next.lexeme == l)) c) :
    Accounts S (Rule.sees l >>= f) c := h

theorem get {f : Cursor → Rule β} (h : Accounts S (f c) c) : Accounts S (MonadState.get >>= f) c :=
  h

theorem spanFrom {start : Place} {f : Span → Rule β} (h : ∀ span, Accounts S (f span) c) :
    Accounts S (Rule.spanFrom start >>= f) c := h ⟨start, c.reached⟩

theorem orElse {q : Rule α} (hp : Accounts R p c) (hq : Accounts R q c) :
    Accounts R (Rule.orElse p q) c := by
  intro hs a c' hc
  unfold Rule.orElse at hc
  split at hc
  · rename_i hok
    exact hp hs a c' (hok.trans hc)
  · exact hq hs a c' hc

section Loop

variable {step : List Token → Option α → Prop} {L : List Token → List α → Prop}
  {p : Rule (Option α)} (hp : ∀ c, Accounts step p c) (hstop : L [] [])
  (hnone : ∀ read, step read none → L read [])
  (hsome : ∀ read more a as, step read (some a) → L more as → L (read ++ more) (a :: as))
include hp hstop hnone hsome

theorem takeItems (n : Nat) (c : Cursor) : Accounts L (takeItems p n) c := by
  induction n generalizing c with
  | zero => exact .pure hstop
  | succ n ih =>
    refine (hp c).bind fun o read c' _ hr => ?_
    cases o with
    | none => exact .pure (by simpa using hnone read hr)
    | some a =>
      refine (ih c').bind fun as more _ _ hmore => .pure ?_
      rw [List.append_nil]
      exact hsome read more a as hr hmore

/-- A loop reads what its rounds read. -/
theorem many (c : Cursor) : Accounts L (many p) c := takeItems hp hstop hnone hsome c.size c

end Loop

/-- A loop whose rounds read something ends only where its rule gives nothing. -/
theorem ended_of_many {p : Rule (Option α)}
    (hp : ∀ c, Accounts (fun read o => o.isSome → read ≠ []) p c)
    {c' : Cursor} {as : List α} (hs : c.Scanned) (h : Rule.many p c = .ok (as, c')) :
    ∃ m, m.Scanned ∧ p m = .ok (none, c') := by
  suffices hloop : ∀ n c as, c.Scanned → c.size ≤ n → Rule.takeItems p n c = .ok (as, c') →
      ∃ m, m.Scanned ∧ p m = .ok (none, c') from hloop c.size c as hs (Nat.le_refl _) h
  intro n
  induction n with
  | zero => exact fun c as _ hn _ => absurd c.one_le_size (by omega)
  | succ n ih =>
    intro c as hs hn h
    obtain ⟨o, m, hpm, hrest⟩ := eq_ok_of_bind h
    obtain ⟨read, hm, hread⟩ := hp c hs o m hpm
    cases o with
    | none =>
      cases hrest
      exact ⟨c, hs, hpm⟩
    | some a =>
      obtain ⟨as', m', hloop, hdone⟩ := eq_ok_of_bind hrest
      cases hdone
      have hlength := List.length_pos_iff.2 (hread rfl)
      exact ih m as' (hs.rest hm) (by have := hm.size_eq; omega) hloop

/-- What holds of the tokens read so far and of a value that grows is kept by every step. -/
theorem grow {G : List Token → α → Prop} {p : α → Rule (Option α)}
    (hp : ∀ read a c, G read a → Accounts (fun more o => G (read ++ more) (o.getD a)) (p a) c)
    {read : List Token} {a : α} (ha : G read a) :
    Accounts (fun more b => G (read ++ more) b) (grow p a) c := by
  suffices h : ∀ n read a c, G read a →
      Accounts (fun more b => G (read ++ more) b) (growTimes p n a) c from h c.size read a c ha
  intro n
  induction n with
  | zero => exact fun read a c ha => .pure (by rwa [List.append_nil])
  | succ n ih =>
    intro read a c ha
    refine (hp read a c ha).bind fun o more c' _ ho => ?_
    simp only [← List.append_assoc]
    cases o with
    | none => exact .pure (by rwa [List.append_nil])
    | some b => exact ih (read ++ more) b c' ho

/-- A list with commas reads its items and the commas behind them. -/
theorem listUpTo {L : List Token → List α → Prop} {closed : Lexeme → Bool} {item : Rule α}
    (hitem : ∀ c, Accounts R item c)
    (hnil : L [] []) (hlast : ∀ read a, R read a → L read [a])
    (hcons : ∀ read t more a as, R read a → t.lexeme = .symbol .comma → L more as →
      L (read ++ t :: more) (a :: as)) : Accounts L (listUpTo closed item) c := by
  suffices h : ∀ n c, Accounts L (listUpTo.go closed item n) c from h c.size c
  intro n
  induction n with
  | zero => exact fun c => .pure hnil
  | succ n ih =>
    intro c
    refine .peek ?_
    split
    · exact .pure hnil
    · refine (hitem c).bind fun a read c' _ hr => ?_
      refine .accept (by simp) (fun hcomma => ?_) fun _ => .pure (by simpa using hlast read a hr)
      refine (ih c'.advance).bind fun as more _ _ hmore => .pure ?_
      rw [List.append_nil]
      exact hcons read c'.next more a as hr hcomma hmore

end Accounts

def Coded (read : List Token) : Prop := ∀ t ∈ read, t.lexeme.isCode

@[simp] theorem coded_nil : Coded [] := nofun

@[simp] theorem coded_cons {t : Token} {read : List Token} :
    Coded (t :: read) ↔ t.lexeme.isCode ∧ Coded read := List.forall_mem_cons

@[simp] theorem coded_append {a b : List Token} : Coded (a ++ b) ↔ Coded a ∧ Coded b :=
  List.forall_mem_append

theorem ne_endMarker_of_isCode {l : Lexeme} (h : l.isCode) : l ≠ .endMarker := by
  rintro rfl
  cases h

theorem isCode_of_symbol {l : Lexeme} : (∃ s, l = .symbol s) → l.isCode := by
  rintro ⟨s, rfl⟩
  rfl

/-- Whenever the rule succeeds at the cursor, it has read code alone, and its result has the
property; if it must, it has read something. -/
def Obtains (must : Bool) (S : α → Prop) (p : Rule α) (c : Cursor) : Prop :=
  Accounts (fun read a => (must → read ≠ []) ∧ Coded read ∧ S a) p c

namespace Obtains

variable {must : Bool} {P : α → Prop} {S : β → Prop}

theorem relax (h : Obtains must P p c) : Obtains false P p c :=
  Accounts.mono h fun _ _ ⟨_, hq, hp⟩ => ⟨nofun, hq, hp⟩

theorem weaken {P' : α → Prop} (h : Obtains must P p c) (hP : ∀ a, P a → P' a) :
    Obtains must P' p c :=
  Accounts.mono h fun _ a ⟨hne, hq, hp⟩ => ⟨hne, hq, hP a hp⟩

theorem pure {a : α} (h : P a) : Obtains false P (Pure.pure a) c :=
  Accounts.pure ⟨nofun, coded_nil, h⟩

theorem fail (fault : Fault) : Obtains must P (Rule.fail fault) c := Accounts.fail fault

theorem identified {id : String} (hc : c.next.lexeme = .name id)
    (h : isIdentifier id → Obtains must P p c) : Obtains must P p c := fun hs =>
  h ((hs.isInner (by simp [hc])).named id hc) hs

/-- The second token comes next when the first one is passed. -/
theorem second (hl : c.next.lexeme.isCode)
    (h : c.second = c.advance.next → Obtains must P p c) : Obtains must P p c := fun hs =>
  h (second_of_later (hs.later_ne_nil (ne_endMarker_of_isCode hl))) hs

/-- First a rule that reads something. -/
theorem bind (hp : Obtains true P p c) (hf : ∀ a c', P a → Obtains false S (f a) c') :
    Obtains must S (p >>= f) c := by
  refine Accounts.bind hp fun a read c' _ ⟨hne, hq, ha⟩ => ?_
  refine Accounts.mono (hf a c' ha) fun more b ⟨_, hq', hb⟩ => ⟨fun _ => ?_, ?_, hb⟩
  · simp [hne rfl]
  · simp [hq, hq']

/-- First a rule that may read nothing. -/
theorem next (hp : Obtains false P p c) (hf : ∀ a c', P a → Obtains must S (f a) c') :
    Obtains must S (p >>= f) c := by
  refine Accounts.bind hp fun a read c' _ ⟨_, hq, ha⟩ => ?_
  refine Accounts.mono (hf a c' ha) fun more b ⟨hne, hq', hb⟩ => ⟨fun hm => ?_, ?_, hb⟩
  · simp [hne hm]
  · simp [hq, hq']

theorem map {g : α → β} (hp : Obtains must P p c) (hg : ∀ a, P a → S (g a)) :
    Obtains must S (g <$> p) c :=
  Accounts.map hp fun _ a ⟨hne, hq, ha⟩ => ⟨hne, hq, hg a ha⟩

theorem peek {f : Lexeme → Rule β} (h : Obtains must S (f c.next.lexeme) c) :
    Obtains must S (Rule.peek >>= f) c := h

theorem peekSecond {f : Lexeme → Rule β} (h : Obtains must S (f c.second.lexeme) c) :
    Obtains must S (Rule.peekSecond >>= f) c := h

theorem sees {l : Lexeme} {f : Bool → Rule β} (h : Obtains must S (f (c.next.lexeme == l)) c) :
    Obtains must S (Rule.sees l >>= f) c := h

/-- First a rule that only looks at what comes next. -/
theorem look (hp : ∃ a, p c = .ok (a, c) ∧ P a) (hf : ∀ a, P a → Obtains must S (f a) c) :
    Obtains must S (p >>= f) c := by
  obtain ⟨a, ha, hP⟩ := hp
  intro hs b c' hc
  rw [bind_apply, ha] at hc
  exact hf a hP hs b c' hc

theorem place {f : Place → Rule β} (h : ∀ start, Obtains must S (f start) c) :
    Obtains must S (Rule.place >>= f) c := h c.next.span.start

theorem spanFrom {start : Place} {f : Span → Rule β} (h : ∀ span, Obtains must S (f span) c) :
    Obtains must S (Rule.spanFrom start >>= f) c := h ⟨start, c.reached⟩

/-- What is made from the span of what has been read. -/
theorem spanned {start : Place} {make : Span → β} (h : ∀ span, S (make span)) :
    Obtains false S (Rule.spanFrom start >>= fun span => Pure.pure (make span)) c :=
  spanFrom fun span => pure (h span)

theorem orElse {q : Rule α} (hp : Obtains must P p c) (hq : Obtains must P q c) :
    Obtains must P (Rule.orElse p q) c := Accounts.orElse hp hq

/-- Past the next token and on. -/
theorem passed {p : Rule β} (hl : c.next.lexeme.isCode) (h : Obtains false S p c.advance) :
    Accounts (fun more b => (must → c.next :: more ≠ []) ∧ Coded (c.next :: more) ∧ S b) p
      c.advance :=
  Accounts.mono h fun more b ⟨_, hq, hb⟩ => ⟨nofun, by simp [hq, hl], hb⟩

theorem advance {f : Unit → Rule β} (hl : c.next.lexeme.isCode)
    (h : Obtains false S (f ()) c.advance) : Obtains must S (Rule.advance >>= f) c :=
  Accounts.advance (ne_endMarker_of_isCode hl) (passed hl h)

theorem accept {l : Lexeme} {f : Bool → Rule β} (hl : l.isCode)
    (hyes : c.next.lexeme = l → Obtains false S (f true) c.advance)
    (hno : c.next.lexeme ≠ l → Obtains must S (f false) c) :
    Obtains must S (Rule.accept l >>= f) c :=
  Accounts.accept (ne_endMarker_of_isCode hl) (fun h => passed (h ▸ hl) (hyes h)) hno

theorem expect {l : Lexeme} {f : Unit → Rule β} (hl : l.isCode)
    (h : Obtains false S (f ()) c.advance) : Obtains must S (Rule.expect l >>= f) c :=
  Accounts.expect (ne_endMarker_of_isCode hl) fun hc => passed (hc ▸ hl) h

theorem advanced (hl : c.next.lexeme.isCode) : Obtains true (fun _ => True) Rule.advance c :=
  bind_pure Rule.advance ▸ advance hl (pure trivial)

theorem expected {l : Lexeme} (hl : l.isCode) : Obtains true (fun _ => True) (Rule.expect l) c :=
  bind_pure (Rule.expect l) ▸ expect hl (pure trivial)

theorem accepted {l : Lexeme} (hl : l.isCode) : Obtains false (fun _ => True) (Rule.accept l) c :=
  bind_pure (Rule.accept l) ▸ accept hl (fun _ => pure trivial) fun _ => pure trivial

theorem name {f : String → Rule β}
    (h : ∀ id, isIdentifier id → Obtains false S (f id) c.advance) :
    Obtains must S (Rule.name >>= f) c :=
  Accounts.name fun id hc hid => passed (by rw [hc]; rfl) (h id hid)

theorem identifier : Obtains true (isIdentifier ·) Rule.name c :=
  bind_pure Rule.name ▸ name fun _ hid => pure hid

section Loop

variable {p : Rule (Option α)} (hp : ∀ c, Obtains false (fun o => ∀ a ∈ o, P a) p c)
include hp

theorem takeItems (n : Nat) (c : Cursor) :
    Obtains false (fun as => ∀ a ∈ as, P a) (Rule.takeItems p n) c := by
  refine Accounts.takeItems hp ⟨nofun, coded_nil, nofun⟩ ?_ ?_ n c
  · intro read ⟨_, hq, _⟩
    exact ⟨nofun, hq, nofun⟩
  · intro read more a as ⟨_, hq, ha⟩ ⟨_, hq', has⟩
    exact ⟨nofun, by simp [hq, hq'], List.forall_mem_cons.2 ⟨ha a rfl, has⟩⟩

theorem many (c : Cursor) : Obtains false (fun as => ∀ a ∈ as, P a) (Rule.many p) c :=
  takeItems hp c.size c

/-- A loop whose first round gives something. -/
theorem many_cons (hc : Obtains true (fun o => ∃ a, o = some a ∧ P a) p c) :
    Obtains true (fun as => as ≠ [] ∧ ∀ a ∈ as, P a) (Rule.many p) c := by
  refine Obtains.bind hc fun o c' ho => ?_
  obtain ⟨a, rfl, ha⟩ := ho
  refine (takeItems hp _ c').next fun as _ has => pure ?_
  exact ⟨List.cons_ne_nil a as, List.forall_mem_cons.2 ⟨ha, has⟩⟩

end Loop

theorem grow {p : α → Rule (Option α)} {a : α}
    (hp : ∀ a c, P a → Obtains false (fun o => ∀ b ∈ o, P b) (p a) c) (ha : P a) :
    Obtains false P (Rule.grow p a) c := by
  refine Accounts.mono (Accounts.grow (G := fun read b => Coded read ∧ P b) ?_ ⟨coded_nil, ha⟩)
    fun read b ⟨hq, hb⟩ => ⟨nofun, hq, hb⟩
  intro read b c ⟨hq, hb⟩
  refine Accounts.mono (hp b c hb) fun more o ⟨_, hq', ho⟩ => ⟨by simp [hq, hq'], ?_⟩
  cases o with
  | none => exact hb
  | some d => exact ho d rfl

theorem listUpTo {closed : Lexeme → Bool} {item : Rule α} (hitem : ∀ c, Obtains true P item c) :
    Obtains false (fun as => ∀ a ∈ as, P a) (Rule.listUpTo closed item) c := by
  refine Accounts.listUpTo hitem ⟨nofun, coded_nil, nofun⟩ ?_ ?_
  · intro read a ⟨_, hq, ha⟩
    exact ⟨nofun, hq, by simpa using ha⟩
  · intro read t more a as ⟨_, hq, ha⟩ ht ⟨_, hq', has⟩
    exact ⟨nofun, by simp [hq, hq', isCode_of_symbol ⟨_, ht⟩], List.forall_mem_cons.2 ⟨ha, has⟩⟩

theorem after {l : Lexeme} (hl : l.isCode) (hp : ∀ c, Obtains must P p c) :
    Obtains false (fun o => ∀ a ∈ o, P a) (Rule.after l p) c := by
  refine accept hl (fun _ => ?_) fun _ => pure nofun
  exact (hp c.advance).relax.next fun a _ ha => pure (by simpa using ha)

theorem after_of_next {l : Lexeme} (hl : l.isCode) (hc : c.next.lexeme = l)
    (hp : ∀ c, Obtains must P p c) :
    Obtains true (fun o => ∃ a, o = some a ∧ P a) (Rule.after l p) c :=
  accept hl (fun _ => (hp c.advance).relax.next fun a _ ha => pure ⟨a, rfl, ha⟩) fun h =>
    absurd hc h

theorem listTail {closed : Lexeme → Bool} {item : Rule α} (hitem : ∀ c, Obtains true P item c) :
    Obtains false (fun as => ∀ a ∈ as, P a) (Rule.listTail closed item) c := by
  refine many (fun c => accept rfl (fun _ => .peek ?_) fun _ => pure nofun) c
  split
  · exact pure nofun
  · exact (hitem _).bind fun a _ ha => pure (by simpa using ha)

end Obtains

end AsyncErasure.Grammar
