import AsyncErasure.Proofs.Grammar.Cursor
import AsyncErasure.Proofs.Render.Legibility
import AsyncErasure.Proofs.Tree.Shape

namespace AsyncErasure

/-- How strongly a lexeme goes on with the expression before it. Behind the comma of a tuple all
that begins an expression does. -/
def Lexeme.grip : Lexeme → Nat
  | .string _ => 18
  | .symbol .dot | .symbol (.opening .round) | .symbol (.opening .square) => 17
  | .symbol s =>
    match BinOp.ofSymbol? s with
    | some op => op.level.rank
    | none =>
      if (CmpOp.ofSymbol? s).isSome then 7
      else if s = .walrus then 3
      else if s = .comma || Grammar.startsExpr (.symbol s) then 2 else 0
  | .keyword .in_ | .keyword .is_ | .keyword .not_ => 7
  | .keyword .and_ => 5
  | .keyword .or_ => 4
  | .keyword .if_ => 3
  | .keyword .from_ => 1
  | l => if Grammar.startsExpr l then 2 else 0

def Level.limit : Level → Nat
  | named => 3
  | yielded => 1
  | level => level.rank

theorem Level.rank_injective {a b : Level} (h : a.rank = b.rank) : a = b := by
  cases a <;> cases b <;> first | rfl | cases h

namespace Grammar

open Rule Lexeme Fragment

variable {c c' : Cursor} {n : Nat} {level : Level} {self : Level → Rule Expr} {ls : List Lexeme}
  {e : Expr}

theorem ne_of_grip_lt {l m : Lexeme} (h : l.grip < n) (hm : n ≤ m.grip) : l ≠ m := by
  rintro rfl
  omega

theorem grip_symbol (op : BinOp) : (Lexeme.symbol op.symbol).grip = op.level.rank := by
  cases op <;> rfl

theorem startsExpr_of_grip_lt {l : Lexeme} (h : l.grip < 2) : startsExpr l = false := by
  cases l with
  | symbol s =>
    have hall : ∀ s ∈ Symbol.all, (Lexeme.symbol s).grip < 2 → startsExpr (.symbol s) = false := by
      decide
    exact hall s s.mem_all h
  | keyword k =>
    revert h
    cases k <;> decide
  | name id => simp [grip, startsExpr] at h
  | number text => simp [grip, startsExpr] at h
  | string text => simp [grip] at h
  | _ => rfl

/-- No lexeme goes on with an expression just as strongly as a sign binds. -/
theorem grip_ne_signed (l : Lexeme) : l.grip ≠ Level.signed.rank := by
  cases l with
  | symbol s =>
    have hall : ∀ s ∈ Symbol.all, (Lexeme.symbol s).grip ≠ Level.signed.rank := by decide
    exact hall s s.mem_all
  | keyword k => cases k <;> decide
  | name id => simp [grip, startsExpr, Level.rank]
  | number text => simp [grip, startsExpr, Level.rank]
  | _ => simp [grip, startsExpr, Level.rank]

theorem comparisonOp_none (h : c.next.lexeme.grip < 7) : comparisonOp c = .ok (none, c) := by
  have hsymbol : ∀ s ∈ Symbol.all, (Lexeme.symbol s).grip < 7 → CmpOp.ofSymbol? s = none := by
    decide
  rw [comparisonOp, bind_apply, peek_apply]
  dsimp only
  generalize c.next.lexeme = l at h ⊢
  split
  case h_1 s =>
    rw [hsymbol s s.mem_all h]
    rfl
  case h_2 | h_3 | h_4 => exact absurd h (by decide)
  case h_5 => rfl

theorem binaryOp_none (h : c.next.lexeme.grip < level.rank) :
    binaryOp level c = .ok (none, c) := by
  cases hl : c.next.lexeme with
  | symbol s =>
    cases hop : BinOp.ofSymbol? s with
    | none => simp [binaryOp, hl, hop]
    | some op =>
      have hsymbol : op.symbol = s := by simpa using List.find?_some hop
      have hnot : s ∉ grouped level := by
        rw [← hsymbol, symbol_mem_grouped]
        rintro ⟨rfl, -⟩
        rw [hl, ← hsymbol, grip_symbol] at h
        omega
      simp [binaryOp, hl, hnot]
  | _ => simp [binaryOp, hl]

theorem signOp_none (h : 14 < c.next.lexeme.opens) : signOp c = .ok (none, c) := by
  have hall : ∀ s ∈ Symbol.all, 14 < (Lexeme.symbol s).opens → UnaryOp.ofSymbol? s = none := by
    decide
  cases hl : c.next.lexeme with
  | symbol s =>
    rw [hl] at h
    simp [signOp, hl, hall s s.mem_all h]
  | _ => simp [signOp, hl]

/-- At the cursor the rule reads the lexemes as the expression, up to spans, wherever they are not
gone on with. -/
def Takes (p : Rule Expr) (c : Cursor) (ls : List Lexeme) (n : Nat) (e : Expr) : Prop :=
  ∀ c', Passes ls c c' → c'.next.lexeme.grip < n →
    ∃ e', p c = .ok (e', c') ∧ e'.shape = e.shape

def Opens (n : Nat) (ls : List Lexeme) : Prop :=
  ∃ l ms, ls = l :: ms ∧ startsExpr l ∧ n ≤ l.opens ∧
    (l.isWord → ∀ m ∈ ms.head?, m ≠ .symbol .assign ∧ m ≠ .symbol .walrus)

theorem opens_of_heads {fs : List Fragment} (h : Heads n fs) : Opens n (lexemes fs) := by
  obtain ⟨l, gs, rfl, -, hs, ho, hn⟩ := h
  exact ⟨l, lexemes gs, rfl, hs, ho, hn⟩

theorem Opens.mono {m : Nat} (h : Opens n ls) (hm : m ≤ n) : Opens m ls := by
  obtain ⟨l, ms, hls, hs, ho, hn⟩ := h
  exact ⟨l, ms, hls, hs, Nat.le_trans hm ho, hn⟩

theorem Opens.head (h : Opens n ls) (hp : Passes ls c c') :
    startsExpr c.next.lexeme ∧ n ≤ c.next.lexeme.opens := by
  obtain ⟨l, ms, rfl, hs, ho, -⟩ := h
  rw [hp.head]
  exact ⟨hs, ho⟩

/-- The second lexeme neither assigns to the first nor names it. -/
theorem Opens.second (h : Opens n ls) (hp : Passes ls c c') (hw : c.next.lexeme.isWord)
    {s : Symbol} (hs : s = .assign ∨ s = .walrus) (hne : c'.next.lexeme ≠ .symbol s) :
    c.second.lexeme ≠ .symbol s := by
  obtain ⟨l, ms, rfl, -, -, hn⟩ := h
  obtain ⟨hl, hlater, hms⟩ := passes_cons.1 hp
  rw [second_of_later hlater]
  cases ms with
  | nil => rwa [passes_nil.1 hms]
  | cons m ms =>
    rw [hms.head]
    obtain ⟨ha, hwalrus⟩ := hn (hl ▸ hw) m (by simp)
    obtain rfl | rfl := hs
    · exact ha
    · exact hwalrus

def extendBinary (self : Level → Rule Expr) (start : Place) (level : Level) (left : Expr) :
    Rule (Option Expr) := do
  match ← binaryOp level with
  | some op =>
    advance
    let right ← self level.next
    return some (.binOp (← spanFrom start) op left right)
  | none => return none

theorem extendBinary_none {start : Place} {left : Expr} (h : c.next.lexeme.grip < level.rank) :
    extendBinary self start level left c = .ok (none, c) := by
  simp [extendBinary, binaryOp_none h]

theorem binaryLevel_eq (self : Level → Rule Expr) (level : Level) :
    binaryLevel self level = (do
      let start ← place
      let first ← self level.next
      grow (extendBinary self start level) first) := rfl

def comparisonLink (self : Level → Rule Expr) : Rule (Option Comparison) := do
  match ← comparisonOp with
  | some op => return some ⟨op, ← self .bitOr⟩
  | none => return none

theorem comparisonLink_none (self : Level → Rule Expr) (h : c.next.lexeme.grip < 7) :
    comparisonLink self c = .ok (none, c) := by
  simp [comparisonLink, comparisonOp_none h]

theorem comparison_eq (self : Level → Rule Expr) :
    comparison self = (do
      let start ← place
      let left ← self .bitOr
      let links ← many (comparisonLink self)
      if links.isEmpty then return left else return .compare (← spanFrom start) left links) := rfl

/-- What the next stronger level reads, each level between conditional expressions and atoms reads
as well. -/
theorem takes_next (hl : 3 ≤ level.rank) (ho : Opens (level.rank + 1) ls)
    (h : Takes (self level.next) c ls level.next.rank e) :
    Takes (parseLevel self level) c ls level.rank e := by
  intro c' hp hg
  obtain ⟨-, hopen⟩ := ho.head hp
  have hrank : level.rank < level.next.rank := by
    have hlt : c.next.lexeme.opens ≤ 17 := by
      unfold opens
      split <;> omega
    rw [Level.rank_next]
    omega
  obtain ⟨e', he, hs⟩ := h c' hp (by omega)
  refine ⟨e', ?_, hs⟩
  have hne {l : Lexeme} (hm : l.opens ≤ level.rank) : c.next.lexeme ≠ l := by
    rintro rfl
    omega
  have hgrip {l : Lexeme} (hm : level.rank ≤ l.grip) : c'.next.lexeme ≠ l := ne_of_grip_lt hg hm
  -- No rule goes on behind what it has read: the grip of what follows is below its own.
  cases level with
  | named | yielded | tuple => exact absurd hl (by decide)
  | test =>
    rw [Level.next] at he
    simp [parseLevel, expression, hne (l := .keyword .lambda_) (by decide), he,
      hgrip (l := .keyword .if_) (by decide)]
  | disjunction =>
    simp [parseLevel, boolLevel, BoolOp.level, BoolOp.keyword, he,
      hgrip (l := .keyword .or_) (by decide)]
  | conjunction =>
    simp [parseLevel, boolLevel, BoolOp.level, BoolOp.keyword, he,
      hgrip (l := .keyword .and_) (by decide)]
  | negation =>
    rw [Level.next] at he
    simp [parseLevel, negation, hne (l := .keyword .not_) (by decide), he]
  | comparison =>
    rw [Level.next] at he
    have hmany := (Repeats.done (comparisonLink_none self hg)).many
    simp [parseLevel, comparison_eq, he, hmany]
  | bitOr | bitXor | bitAnd | shift | sum | product =>
    have hgrow := fun start => (Grows.refl (extendBinary self start _) e' c').grow
      (extendBinary_none hg)
    simp [parseLevel, binaryLevel_eq, he, hgrow]
  | signed =>
    rw [Level.next] at he
    simp [parseLevel, signed, signOp_none hopen, he]
  | power =>
    rw [Level.next] at he
    simp [parseLevel, power, he, hgrip (l := .symbol .doubleStar) (by decide)]
  | awaited =>
    rw [Level.next] at he
    simp [parseLevel, awaited, he, hne (l := .keyword .await_) (by decide)]
  | atom => exact absurd hrank (by decide)

theorem takes_tuple (ho : Opens 3 ls) (h : Takes (self .test) c ls 3 e) :
    Takes (parseLevel self .tuple) c ls 2 e := by
  intro c' hp hg
  obtain ⟨-, hopen⟩ := ho.head hp
  obtain ⟨e', he, hs⟩ := h c' hp (by omega)
  have hstar : c.next.lexeme ≠ .symbol .star := by
    intro hl
    rw [hl] at hopen
    exact absurd hopen (by decide)
  refine ⟨e', ?_, hs⟩
  simp [parseLevel, starExpressions, itemOrTuple, starOr, hstar, he,
    ne_of_grip_lt hg (m := .symbol .comma) (by decide)]

theorem takes_yielded (ho : Opens 2 ls) (h : Takes (self .tuple) c ls 2 e) :
    Takes (parseLevel self .yielded) c ls 1 e := by
  intro c' hp hg
  obtain ⟨-, hopen⟩ := ho.head hp
  obtain ⟨e', he, hs⟩ := h c' hp (by omega)
  have hyield : c.next.lexeme ≠ .keyword .yield_ := by
    intro hl
    rw [hl] at hopen
    exact absurd hopen (by decide)
  exact ⟨e', by simp [parseLevel, hyield, he], hs⟩

theorem takes_named (ho : Opens 3 ls) (h : Takes (self .test) c ls 3 e) :
    Takes (parseLevel self .named) c ls 3 e := by
  intro c' hp hg
  obtain ⟨e', he, hs⟩ := h c' hp hg
  refine ⟨e', ?_, hs⟩
  rw [parseLevel, namedExpression]
  simp only [bind_apply, peek_apply, peekSecond_apply]
  cases hl : c.next.lexeme with
  | name id =>
    have hsecond := ho.second hp (by rw [hl]; rfl) (.inr rfl)
      (ne_of_grip_lt hg (m := .symbol .walrus) (by decide))
    cases hm : c.second.lexeme with
    | symbol s =>
      cases s <;> first | exact he | exact absurd hm hsecond
    | _ => exact he
  | _ => exact he

/-- What some level reads, every weaker level reads as well. -/
theorem takes_of_le (weak : Level) {strong : Level} (hr : weak.rank ≤ strong.rank)
    (hs : 3 ≤ strong.rank)
    (ho : Opens strong.rank ls)
    (h : ∀ d, 20 * c.size + 18 ≤ d + strong.rank → Takes (parseAt d strong) c ls strong.rank e)
    (d : Nat) (hd : 20 * c.size + 18 ≤ d + weak.rank) :
    Takes (parseAt d weak) c ls weak.limit e := by
  have hsize := c.one_le_size
  have hbound (l : Level) : l.rank ≤ 17 := by cases l <;> decide
  -- From conditional expressions on each level calls the next one.
  have hstep (k : Nat) : ∀ (l : Level), 3 ≤ l.rank → l.rank + k = strong.rank → ∀ d,
      20 * c.size + 18 ≤ d + l.rank → Takes (parseAt d l) c ls l.rank e := by
    induction k with
    | zero =>
      intro l _ hl d hd
      obtain rfl := Level.rank_injective hl
      exact h d hd
    | succ k ih =>
      intro l hl hk d hd
      have := hbound strong
      have := hbound l
      have hnext := Level.rank_next l
      obtain ⟨d, rfl⟩ : ∃ d', d = d' + 1 := ⟨d - 1, by omega⟩
      exact takes_next hl (ho.mono (by omega)) (ih l.next (by omega) (by omega) d (by omega))
  have htest (d : Nat) (hd : 20 * c.size + 18 ≤ d + 3) : Takes (parseAt d .test) c ls 3 e :=
    hstep (strong.rank - 3) .test (by decide) (by change 3 + _ = _; omega) d hd
  have htuple (d : Nat) (hd : 20 * c.size + 18 ≤ d + 2) : Takes (parseAt d .tuple) c ls 2 e := by
    obtain ⟨d, rfl⟩ : ∃ d', d = d' + 1 := ⟨d - 1, by omega⟩
    exact takes_tuple (ho.mono hs) (htest d (by omega))
  cases weak with
  | named =>
    simp only [Level.rank] at hd
    obtain ⟨d, rfl⟩ : ∃ d', d = d' + 1 := ⟨d - 1, by omega⟩
    exact takes_named (ho.mono hs) (htest d (by omega))
  | yielded =>
    simp only [Level.rank] at hd
    obtain ⟨d, rfl⟩ : ∃ d', d = d' + 1 := ⟨d - 1, by omega⟩
    exact takes_yielded (ho.mono (by omega)) (htuple d (by omega))
  | tuple => exact htuple d hd
  | _ => exact hstep _ _ (by decide) (Nat.add_sub_cancel' hr) d hd

end Grammar

end AsyncErasure
