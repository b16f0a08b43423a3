import AsyncErasure.Proofs.Grammar.Cursor
import AsyncErasure.Proofs.Grammar.Outcome

namespace AsyncErasure.Grammar

open Rule

variable {σ α β : Type}

/-- Whenever the invariant holds of a line and a cursor and the rule succeeds there, it holds of a
line no higher and of the cursor that the rule comes to, and the relation holds of that line and the
result. -/
def Carries (I : σ → Nat → Cursor → Prop) (before after : σ) (lo : Nat) (K : Nat → α → Prop)
    (p : Rule α) (c : Cursor) : Prop :=
  I before lo c → ∀ a c', p c = .ok (a, c') → ∃ hi, lo ≤ hi ∧ I after hi c' ∧ K hi a

namespace Carries

variable {I : σ → Nat → Cursor → Prop} {before mid after s : σ} {lo : Nat} {J : Nat → α → Prop}
  {K : Nat → β → Prop} {p : Rule α} {f : α → Rule β} {c : Cursor}

theorem pure {a : α} (h : J lo a) : Carries I s s lo J (Pure.pure a) c := by
  intro hs a' c' hc
  cases hc
  exact ⟨lo, Nat.le_refl lo, hs, h⟩

/-- Only what the rule comes to at the cursor counts. -/
theorem congr {q : Rule α} (h : Carries I before after lo J p c) (hq : q c = p c) :
    Carries I before after lo J q c := by
  intro hs
  rw [hq]
  exact h hs

theorem fail (fault : Fault) : Carries I before after lo J (Rule.fail fault) c := by
  intro _ a c' hc
  cases hc

theorem next (hp : Carries I before mid lo J p c)
    (hf : ∀ a m c', J m a → Carries I mid after m K (f a) c') :
    Carries I before after lo K (p >>= f) c := by
  intro hs b c' hc
  obtain ⟨a, m, ha, hb⟩ := eq_ok_of_bind hc
  obtain ⟨k, hk, hm, hj⟩ := hp hs a m ha
  obtain ⟨hi, hhi, hdone⟩ := hf a k m hj hm b c' hb
  exact ⟨hi, Nat.le_trans hk hhi, hdone⟩

theorem weaken {J' : Nat → α → Prop} (h : Carries I before after lo J p c)
    (hJ : ∀ hi a, J hi a → J' hi a) : Carries I before after lo J' p c := by
  intro hs a c' hc
  obtain ⟨hi, hle, hafter, hj⟩ := h hs a c' hc
  exact ⟨hi, hle, hafter, hJ hi a hj⟩

theorem map {g : α → β} (hp : Carries I before after lo J p c)
    (hg : ∀ hi a, J hi a → K hi (g a)) : Carries I before after lo K (g <$> p) c := by
  rw [map_eq_pure_bind]
  exact hp.next fun a hi c' hj => pure (hg hi a hj)

/-- First a rule that stays on the line. -/
theorem silent (hp : Carries I before mid lo (fun hi _ => hi = lo) p c)
    (hf : ∀ a c', Carries I mid after lo K (f a) c') : Carries I before after lo K (p >>= f) c :=
  hp.next fun a _ c' hm => hm ▸ hf a c'

theorem peek {f : Lexeme → Rule β} (h : Carries I before after lo K (f c.next.lexeme) c) :
    Carries I before after lo K (Rule.peek >>= f) c := h

theorem sees {l : Lexeme} {f : Bool → Rule β}
    (h : Carries I before after lo K (f (c.next.lexeme == l)) c) :
    Carries I before after lo K (Rule.sees l >>= f) c := h

theorem place {f : Place → Rule β}
    (h : ∀ start, c.next.span.start = start → Carries I before after lo K (f start) c) :
    Carries I before after lo K (Rule.place >>= f) c := h c.next.span.start rfl

theorem get {f : Cursor → Rule β} (h : Carries I before after lo K (f c) c) :
    Carries I before after lo K (get >>= f) c := h

/-- First a rule that only looks at what comes next. -/
theorem look {P : α → Prop} (hp : ∃ a, p c = .ok (a, c) ∧ P a)
    (hf : ∀ a, Carries I before after lo K (f a) c) : Carries I before after lo K (p >>= f) c := by
  obtain ⟨a, ha, -⟩ := hp
  intro hs b c' hc
  rw [bind_apply, ha] at hc
  exact hf a hs b c' hc

section Loop

variable {S : Nat → Nat → Option α → Prop} {L : Nat → Nat → List α → Prop} {p : Rule (Option α)}
  (hp : ∀ lo c, Carries I s s lo (S lo) p c) (hstop : ∀ lo, L lo lo [])
  (hnone : ∀ lo hi, S lo hi none → L lo hi [])
  (hsome : ∀ lo mid hi a as, S lo mid (some a) → L mid hi as → L lo hi (a :: as))
include hp hstop hnone hsome

/-- A loop carries what its rounds carry. -/
theorem many (lo : Nat) (c : Cursor) : Carries I s s lo (L lo) (Rule.many p) c := by
  -- The bound on the rounds is what the loop recurses on.
  suffices h : ∀ n lo c, Carries I s s lo (L lo) (takeItems p n) c from h c.size lo c
  intro n
  induction n with
  | zero => exact fun lo c => .pure (hstop lo)
  | succ n ih =>
    intro lo c
    refine (hp lo c).next fun o mid c' ho => ?_
    cases o with
    | none => exact .pure (hnone lo mid ho)
    | some a => exact (ih mid c').next fun as hi c' has => .pure (hsome lo mid hi a as ho has)

end Loop

/-- A loop whose rounds give lists, of which the relation holds piece by piece. -/
theorem manyBlocks (R : Nat → Nat → List β → Prop) (hnil : ∀ lo, R lo lo [])
    (happend : ∀ {lo mid hi as bs}, R lo mid as → R mid hi bs → R lo hi (as ++ bs))
    {p : Rule (Option α)} (block : α → List β)
    (hp : ∀ lo c, Carries I s s lo (fun hi o => R lo hi (o.elim [] block)) p c) (lo : Nat)
    (c : Cursor) : Carries I s s lo (fun hi as => R lo hi (as.flatMap block)) (Rule.many p) c := by
  refine many (L := fun lo hi as => R lo hi (as.flatMap block)) hp hnil (fun _ _ h => h)
    (fun lo mid hi a as ha has => ?_) lo c
  rw [List.flatMap_cons]
  exact happend ha has

end Carries

end AsyncErasure.Grammar
