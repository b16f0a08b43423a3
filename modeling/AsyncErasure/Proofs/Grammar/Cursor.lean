import AsyncErasure.Grammar.Statement

namespace AsyncErasure.Grammar

inductive Passes : List Lexeme → Cursor → Cursor → Prop
  | nil (c : Cursor) : Passes [] c c
  | cons {l : Lexeme} {ls : List Lexeme} {c c' : Cursor} :
    c.next.lexeme = l → c.later ≠ [] → Passes ls c.advance c' → Passes (l :: ls) c c'

section Passes

variable {a b ls : List Lexeme} {l : Lexeme} {c c' : Cursor}

@[simp] theorem passes_nil : Passes [] c c' ↔ c = c' := by
  constructor
  · intro h
    cases h
    rfl
  · rintro rfl
    exact .nil c

@[simp] theorem passes_cons :
    Passes (l :: ls) c c' ↔ c.next.lexeme = l ∧ c.later ≠ [] ∧ Passes ls c.advance c' := by
  constructor
  · intro h
    cases h with
    | cons hl hc h => exact ⟨hl, hc, h⟩
  · rintro ⟨hl, hc, h⟩
    exact .cons hl hc h

@[simp] theorem passes_append : Passes (a ++ b) c c' ↔ ∃ m, Passes a c m ∧ Passes b m c' := by
  induction a generalizing c with
  | nil => simp
  | cons l a ih => simp [ih, and_assoc]

theorem Cursor.size_advance (h : c.later ≠ []) : c.size = c.advance.size + 1 := by
  obtain ⟨next, later, reached⟩ := c
  cases later with
  | nil => exact absurd rfl h
  | cons t ts => rfl

theorem Cursor.size_advance_le (c : Cursor) : c.advance.size ≤ c.size := by
  obtain ⟨next, later, reached⟩ := c
  cases later with
  | nil => exact Nat.le_refl _
  | cons t ts => exact Nat.le_succ _

theorem Passes.size_eq (h : Passes ls c c') : c.size = ls.length + c'.size := by
  induction h with
  | nil => simp
  | cons _ hc _ ih =>
    rw [Cursor.size_advance hc, ih, List.length_cons]
    omega

theorem Cursor.one_le_size (c : Cursor) : 1 ≤ c.size := Nat.le_add_left ..

theorem Passes.head (h : Passes (l :: ls) c c') : c.next.lexeme = l := (passes_cons.1 h).1

/-- The token after the next one is the second that is passed. -/
theorem second_of_later (h : c.later ≠ []) : c.second = c.advance.next := by
  obtain ⟨next, later, reached⟩ := c
  cases later with
  | nil => exact absurd rfl h
  | cons t ts => rfl

end Passes

namespace Rule

variable {α β : Type} {c c' : Cursor}

@[simp ↓] theorem bind_apply (p : Rule α) (f : α → Rule β) (c : Cursor) :
    (p >>= f) c = match p c with
      | .ok (a, c') => f a c'
      | .error e => .error e := by
  change (StateT.bind p f) c = _
  unfold StateT.bind
  cases p c <;> rfl

@[simp] theorem pure_apply (a : α) (c : Cursor) : (pure a : Rule α) c = .ok (a, c) := rfl

@[simp] theorem map_apply (f : α → β) (p : Rule α) (c : Cursor) :
    (f <$> p) c = match p c with
      | .ok (a, c') => .ok (f a, c')
      | .error e => .error e := by
  change (StateT.map f p) c = _
  unfold StateT.map
  cases p c <;> rfl

@[simp] theorem get_apply (c : Cursor) : (get : Rule Cursor) c = .ok (c, c) := rfl

@[simp] theorem peek_apply (c : Cursor) : peek c = .ok (c.next.lexeme, c) := rfl

@[simp] theorem peekSecond_apply (c : Cursor) : peekSecond c = .ok (c.second.lexeme, c) := rfl

@[simp] theorem advance_apply (c : Cursor) : advance c = .ok ((), c.advance) := rfl

@[simp] theorem place_apply (c : Cursor) : place c = .ok (c.next.span.start, c) := rfl

@[simp] theorem spanFrom_apply (start : Place) (c : Cursor) :
    spanFrom start c = .ok (⟨start, c.reached⟩, c) := rfl

@[simp] theorem sees_apply (l : Lexeme) (c : Cursor) :
    sees l c = .ok (c.next.lexeme == l, c) := rfl

@[simp] theorem accept_apply (l : Lexeme) (c : Cursor) :
    accept l c = if c.next.lexeme = l then .ok (true, c.advance) else .ok (false, c) := by
  by_cases h : c.next.lexeme = l <;> simp [accept, h]

theorem expect_apply (l : Lexeme) (c : Cursor) (h : c.next.lexeme = l) :
    expect l c = .ok ((), c.advance) := by
  simp [expect, h]

theorem name_apply {id : String} (h : c.next.lexeme = .name id) : name c = .ok (id, c.advance) := by
  simp [name, h]

@[simp] theorem after_apply (l : Lexeme) (p : Rule α) (c : Cursor) :
    after l p c = if c.next.lexeme = l then
      match p c.advance with
      | .ok (a, c') => .ok (some a, c')
      | .error e => .error e
      else .ok (none, c) := by
  by_cases h : c.next.lexeme = l <;> simp [after, h]

inductive Repeats (p : Rule (Option α)) : Cursor → List α → Cursor → Prop
  | done {c c' : Cursor} : p c = .ok (none, c') → Repeats p c [] c'
  | item {c m c' : Cursor} {a : α} {as : List α} :
    p c = .ok (some a, m) → m.size < c.size → Repeats p m as c' → Repeats p c (a :: as) c'

theorem Repeats.takeItems {p : Rule (Option α)} {as : List α} (h : Repeats p c as c') {n : Nat}
    (hn : c.size ≤ n) : takeItems p n c = .ok (as, c') := by
  induction h generalizing n with
  | @done c c' hp =>
    have := c.one_le_size
    obtain ⟨n, rfl⟩ : ∃ k, n = k + 1 := ⟨n - 1, by omega⟩
    simp [Rule.takeItems, hp]
  | @item c m c' a as hp hm _ ih =>
    obtain ⟨n, rfl⟩ : ∃ k, n = k + 1 := ⟨n - 1, by omega⟩
    simp [Rule.takeItems, hp, ih (n := n) (by omega)]

theorem Repeats.many {p : Rule (Option α)} {as : List α} (h : Repeats p c as c') :
    many p c = .ok (as, c') := h.takeItems (Nat.le_refl _)

inductive Lists (closed : Lexeme → Bool) (p : Rule α) : Cursor → List α → Cursor → Prop
  | close {c : Cursor} : closed c.next.lexeme → Lists closed p c [] c
  | last {c c' : Cursor} {a : α} : closed c.next.lexeme = false → p c = .ok (a, c') →
    c'.next.lexeme ≠ .symbol .comma → Lists closed p c [a] c'
  | item {c m c' : Cursor} {a : α} {as : List α} : closed c.next.lexeme = false →
    p c = .ok (a, m) → m.next.lexeme = .symbol .comma → m.advance.size < c.size →
    Lists closed p m.advance as c' → Lists closed p c (a :: as) c'

theorem Lists.listUpTo {closed : Lexeme → Bool} {p : Rule α} {as : List α}
    (h : Lists closed p c as c') : listUpTo closed p c = .ok (as, c') := by
  suffices hgo : ∀ n, c.size ≤ n → Rule.listUpTo.go closed p n c = .ok (as, c') from
    hgo _ (Nat.le_refl _)
  induction h with
  | @close c hc =>
    intro n hn
    have := c.one_le_size
    obtain ⟨n, rfl⟩ : ∃ k, n = k + 1 := ⟨n - 1, by omega⟩
    simp [Rule.listUpTo.go, hc]
  | @last c c' a hc hp hne =>
    intro n hn
    have := c.one_le_size
    obtain ⟨n, rfl⟩ : ∃ k, n = k + 1 := ⟨n - 1, by omega⟩
    simp [Rule.listUpTo.go, hc, hp, hne]
  | @item c m c' a as hc hp hcomma hm _ ih =>
    intro n hn
    obtain ⟨n, rfl⟩ : ∃ k, n = k + 1 := ⟨n - 1, by omega⟩
    simp [Rule.listUpTo.go, hc, hp, hcomma, ih n (by omega)]

/-- A value that grows to another one, whatever comes after that. -/
def Grows (p : α → Rule (Option α)) (a : α) (c : Cursor) (b : α) (c' : Cursor) : Prop :=
  ∃ n, n + c'.size ≤ c.size ∧ ∀ m, growTimes p (n + m) a c = growTimes p m b c'

theorem Grows.refl (p : α → Rule (Option α)) (a : α) (c : Cursor) : Grows p a c a c :=
  ⟨0, by simp, fun m => by rw [Nat.zero_add]⟩

theorem Grows.step {p : α → Rule (Option α)} {a b d : α} {m : Cursor} (h : Grows p a c b m)
    (hp : p b m = .ok (some d, c')) (hs : c'.size < m.size) : Grows p a c d c' := by
  obtain ⟨n, hn, hgrow⟩ := h
  refine ⟨n + 1, by omega, fun k => ?_⟩
  rw [Nat.add_assoc, hgrow, Nat.add_comm 1 k]
  simp [growTimes, hp]

theorem Grows.grow {p : α → Rule (Option α)} {a b : α} (h : Grows p a c b c')
    (hp : p b c' = .ok (none, c')) : grow p a c = .ok (b, c') := by
  obtain ⟨n, hn, hgrow⟩ := h
  have := c'.one_le_size
  obtain ⟨k, hk⟩ : ∃ k, c.size = n + (k + 1) := ⟨c.size - n - 1, by omega⟩
  rw [Rule.grow, hk, hgrow]
  simp [growTimes, hp]

section Loops

variable {γ : Type} {items : List β} {f : β → List Lexeme}

/-- A loop over items reads them all if its rule reads each one in front of the next. -/
theorem Repeats.of_passes (told : α → γ) (wanted : β → γ) {p : Rule (Option α)}
    {Q : Cursor → Prop} {m : Cursor} (c' : Cursor)
    (h : Passes (items.flatMap f) c m) (hend : p m = .ok (none, c')) (hQ : Q m)
    (hnext : ∀ x ∈ items, ∀ a b, Passes (f x) a b → Q a)
    (hitem : ∀ x ∈ items, ∀ a b, Passes (f x) a b → a.size ≤ c.size → Q b →
      b.size < a.size ∧ ∃ v, p a = .ok (some v, b) ∧ told v = wanted x) :
    ∃ as, Repeats p c as c' ∧ as.map told = items.map wanted := by
  induction items generalizing c with
  | nil =>
    obtain rfl := passes_nil.1 h
    exact ⟨[], .done hend, rfl⟩
  | cons x xs ih =>
    rw [List.flatMap_cons, passes_append] at h
    obtain ⟨b, hx, hxs⟩ := h
    have hle : b.size ≤ c.size := by
      rw [hx.size_eq]
      omega
    have hQb : Q b := by
      cases xs with
      | nil => exact passes_nil.1 hxs ▸ hQ
      | cons y ys =>
        rw [List.flatMap_cons, passes_append] at hxs
        obtain ⟨n, hy, -⟩ := hxs
        exact hnext y (by simp) b n hy
    obtain ⟨hlt, v, hv, htold⟩ := hitem x (by simp) c b hx (Nat.le_refl _) hQb
    obtain ⟨as, has, hmap⟩ := ih hxs (fun y hy => hnext y (List.mem_cons_of_mem _ hy))
      fun y hy a b hab hs => hitem y (List.mem_cons_of_mem _ hy) a b hab (Nat.le_trans hs hle)
    exact ⟨v :: as, .item hv hlt has, by simp [htold, hmap]⟩

def listed (f : β → List Lexeme) (items : List β) : List Lexeme :=
  [Lexeme.symbol .comma].intercalate (items.map f)

theorem intercalate_cons (l : Lexeme) (x : β) (xs : List β) :
    [l].intercalate ((x :: xs).map f) = f x ++ xs.flatMap fun y => l :: f y := by
  induction xs generalizing x with
  | nil => simp
  | cons y ys ih =>
    rw [List.map_cons, List.map_cons, List.intercalate_cons_cons, ← List.map_cons, ih]
    simp

theorem listed_cons (x : β) (xs : List β) :
    listed f (x :: xs) = f x ++ xs.flatMap fun y => .symbol .comma :: f y :=
  intercalate_cons _ x xs

theorem Lists.of_passes (told : α → γ) (wanted : β → γ) (closed : Lexeme → Bool) {p : Rule α}
    (h : Passes (listed f items) c c')
    (hcomma : closed (.symbol .comma) = false) (hend : closed c'.next.lexeme)
    (hitem : ∀ x ∈ items, ∀ a b, Passes (f x) a b → a.size ≤ c.size →
      b.next.lexeme = .symbol .comma ∨ closed b.next.lexeme →
      closed a.next.lexeme = false ∧ ∃ v, p a = .ok (v, b) ∧ told v = wanted x) :
    ∃ as, Lists closed p c as c' ∧ as.map told = items.map wanted := by
  induction items generalizing c with
  | nil =>
    obtain rfl := passes_nil.1 h
    exact ⟨[], .close hend, rfl⟩
  | cons x xs ih =>
    rw [listed_cons, passes_append] at h
    obtain ⟨m, hx, hxs⟩ := h
    have hle : m.size ≤ c.size := by
      rw [hx.size_eq]
      omega
    cases xs with
    | nil =>
      obtain rfl := passes_nil.1 hxs
      obtain ⟨hc, v, hv, htold⟩ := hitem x (by simp) c m hx (Nat.le_refl _) (.inr hend)
      refine ⟨[v], .last hc hv ?_, by simp [htold]⟩
      intro hne
      rw [hne, hcomma] at hend
      cases hend
    | cons y ys =>
      rw [List.flatMap_cons, List.cons_append, passes_cons] at hxs
      obtain ⟨hn, hlater, hys⟩ := hxs
      rw [← listed_cons] at hys
      have hsize := Cursor.size_advance hlater
      obtain ⟨hc, v, hv, htold⟩ := hitem x (by simp) c m hx (Nat.le_refl _) (.inl hn)
      obtain ⟨as, has, hmap⟩ := ih hys fun z hz a b hab hs =>
        hitem z (List.mem_cons_of_mem _ hz) a b hab (by omega)
      exact ⟨v :: as, .item hc hv hn (by omega) has, by simp [htold, hmap]⟩

/-- The items behind a first one, each behind a comma, with or without a comma behind the last. -/
theorem listTail_of_passes (told : α → γ) (wanted : β → γ) {closed : Lexeme → Bool} {p : Rule α}
    {trailing : Bool}
    (h : Passes ((items.flatMap fun x => .symbol .comma :: f x) ++
      if trailing then [Lexeme.symbol .comma] else []) c c')
    (hne : c'.next.lexeme ≠ .symbol .comma) (hend : trailing → closed c'.next.lexeme)
    (hitem : ∀ x ∈ items, ∀ a b, Passes (f x) a b → a.size < c.size →
      b.next.lexeme = .symbol .comma ∨ b = c' →
      closed a.next.lexeme = false ∧ ∃ v, p a = .ok (v, b) ∧ told v = wanted x) :
    ∃ as, listTail closed p c = .ok (as, c') ∧ as.map told = items.map wanted := by
  obtain ⟨m, hm, htail⟩ := passes_append.1 h
  have hlast : (m.next.lexeme = .symbol .comma ∨ m = c') ∧
      (do
        if ← accept Symbol.comma then
          if closed (← peek) then return none else return some (← p)
        else return none : Rule (Option α)) m = .ok (none, c') := by
    cases trailing with
    | true =>
      simp only [if_true, passes_cons, passes_nil] at htail
      obtain ⟨hn, -, rfl⟩ := htail
      exact ⟨.inl hn, by simp [hn, hend]⟩
    | false =>
      obtain rfl := passes_nil.1 htail
      exact ⟨.inr rfl, by simp [hne]⟩
  obtain ⟨as, has, hmap⟩ := Repeats.of_passes told wanted c'
    (Q := fun b => b.next.lexeme = .symbol .comma ∨ b = c') hm hlast.2 hlast.1
    (fun x _ a b hab => .inl hab.head) fun x hx a b hab hs hQ => by
      obtain ⟨hn, hlater, hab⟩ := passes_cons.1 hab
      have hsize := Cursor.size_advance hlater
      obtain ⟨hc, v, hv, htold⟩ := hitem x hx a.advance b hab (by omega) hQ
      have hle := hab.size_eq
      exact ⟨by omega, v, by simp [hn, hc, hv], htold⟩
  exact ⟨as, has.many, hmap⟩

end Loops

end Rule

def clauseItem (self : Level → Rule Expr) : Rule (Option Clause) := do
  if ← startsClause then return some (← clause self) else return none

theorem clauses_eq (self : Level → Rule Expr) : clauses self = Rule.many (clauseItem self) := rfl

end AsyncErasure.Grammar
