import AsyncErasure.Proofs.Token.Bare
import AsyncErasure.Proofs.Tree.Block

namespace AsyncErasure

open Token

def Stmt.isDecorated : Stmt → Bool
  | functionDef _ _ _ _ _ decorators _ | classDef _ _ _ _ decorators _ => !decorators.isEmpty
  | _ => false

theorem Stmt.blocks_of_not_code {s : Stmt} (h : s.isCode = false) : s.blocks = [] := by
  cases s <;> first | rfl | cases h

/-- What comes next is a decorated definition that goes over the line, or comments and then such a
definition. -/
def Block.IsAdorned (n : Nat) (ss : List Stmt) : Prop :=
  ∃ (front : List Stmt) (d : Stmt) (back : List Stmt), ss = front ++ d :: back ∧
    (∀ s ∈ front, s.isCode = false) ∧ d.isDecorated ∧ d.span.line ≤ n ∧ n ≤ d.span.endLine

/-- From one line to another, what lies between a statement that stands apart and the one before
it. -/
def Block.Gaps (tokens : List Token) (lo hi : Nat) : List Stmt → Prop
  | [] => lo = hi
  | s :: ss =>
    (lo + 1 < s.span.line →
      ∃ n, lo < n ∧ n < s.span.line ∧ (Skips tokens n ∨ IsAdorned n (s :: ss))) ∧
    Gaps tokens s.span.endLine hi ss

structure Spread (tokens : List Token) (lo hi : Nat) (ss : List Stmt) : Prop where
  gaps : Block.Gaps tokens lo hi ss
  nested : ∀ s ∈ ss, ∀ body ∈ s.blocksInsideOut, ∃ lo hi, Block.Gaps tokens lo hi body

def SpreadTo (tokens : List Token) (hi : Nat) (ss : List Stmt) : Prop :=
  ∃ lo, Spread tokens lo hi ss

def IsSpread (tokens : List Token) (ss : List Stmt) : Prop := ∃ hi, SpreadTo tokens hi ss

structure Stmt.Reaches (tokens : List Token) (lo hi : Nat) (s : Stmt) : Prop where
  line : s.span.line = lo
  endLine : s.span.endLine = hi
  blocks : ∀ body ∈ s.blocks, IsSpread tokens body

variable {tokens : List Token} {lo lo' mid hi n line : Nat} {s d : Stmt} {ss ts cs : List Stmt}

namespace Block

theorem IsAdorned.append (h : IsAdorned n ss) (ts : List Stmt) : IsAdorned n (ss ++ ts) := by
  obtain ⟨front, d, back, rfl, h⟩ := h
  exact ⟨front, d, back ++ ts, by simp, h⟩

theorem gaps_append (h : Gaps tokens lo mid ss) (h' : Gaps tokens mid hi ts) :
    Gaps tokens lo hi (ss ++ ts) := by
  induction ss generalizing lo with
  | nil =>
    obtain rfl : lo = mid := h
    exact h'
  | cons s ss ih =>
    refine ⟨fun hfar => ?_, ih h.2⟩
    obtain ⟨n, hlo, hhi, hn⟩ := h.1 hfar
    exact ⟨n, hlo, hhi, hn.imp_right (IsAdorned.append · ts)⟩

/-- Behind the statements that come first, the block goes on from where the last of them ends. -/
theorem gaps_of_append (h : Gaps tokens lo hi (ss ++ s :: ts)) :
    Gaps tokens s.span.endLine hi ts := by
  induction ss generalizing lo with
  | nil => exact h.2
  | cons x ss ih => exact ih h.2

/-- Comments of a decorated definition, and the definition behind them. -/
theorem gaps_adorned (hskips : ∀ n, lo < n → n < d.span.line → Skips tokens n)
    (hcs : ∀ s ∈ cs, s.isCode = false ∧ d.span.line ≤ s.span.line ∧
      s.span.line ≤ s.span.endLine ∧ s.span.line ≤ d.span.endLine)
    (hd : d.isDecorated) : Gaps tokens lo d.span.endLine (cs ++ [d]) := by
  induction cs generalizing lo with
  | nil =>
    refine ⟨fun hfar => ⟨lo + 1, by omega, hfar, .inl (hskips _ (by omega) hfar)⟩, rfl⟩
  | cons s cs ih =>
    have hall := List.forall_mem_cons.1 hcs
    obtain ⟨-, hline, hend, hhi⟩ := hall.1
    refine ⟨fun hfar => ⟨lo + 1, by omega, hfar, ?_⟩, ih (fun n hlo hn => by omega) hall.2⟩
    rcases Nat.lt_or_ge (lo + 1) d.span.line with hlt | hge
    · exact .inl (hskips _ (by omega) hlt)
    · exact .inr ⟨s :: cs, d, [], rfl, fun s hs => (hcs s hs).1, hd, hge, by omega⟩

end Block

namespace Spread

theorem empty : Spread tokens lo lo [] := ⟨rfl, nofun⟩

theorem append (h : Spread tokens lo mid ss) (h' : Spread tokens mid hi ts) :
    Spread tokens lo hi (ss ++ ts) :=
  ⟨Block.gaps_append h.gaps h'.gaps, List.forall_mem_append.2 ⟨h.nested, h'.nested⟩⟩

theorem nested_of_blocks (h : ∀ body ∈ s.blocks, IsSpread tokens body) :
    ∀ body ∈ s.blocksInsideOut, ∃ lo hi, Block.Gaps tokens lo hi body := by
  intro body hbody
  obtain ⟨own, hown, hin⟩ := Stmt.mem_blocksInsideOut.1 hbody
  obtain ⟨hi, lo, hspread⟩ := h own hown
  rcases hin with rfl | ⟨x, hx, hin⟩
  · exact ⟨lo, hi, hspread.gaps⟩
  · exact hspread.nested x hx body hin

/-- A statement below lines that the tokens skip. -/
theorem single (hskips : ∀ n, lo < n → n < s.span.line → Skips tokens n)
    (hblocks : ∀ body ∈ s.blocks, IsSpread tokens body) : Spread tokens lo s.span.endLine [s] where
  gaps := ⟨fun hfar => ⟨lo + 1, by omega, hfar, .inl (hskips _ (by omega) hfar)⟩, rfl⟩
  nested := List.forall_mem_singleton.2 (nested_of_blocks hblocks)

/-- Comments of a decorated definition, and the definition behind them. -/
theorem adorned (hskips : ∀ n, lo < n → n < line → Skips tokens n)
    (hcs : ∀ s ∈ cs, s.isCode = false ∧ line ≤ s.span.line ∧ s.span.line ≤ s.span.endLine ∧
      s.span.line ≤ hi)
    (hd : d.isDecorated) (hreach : d.Reaches tokens line hi) : Spread tokens lo hi (cs ++ [d]) := by
  obtain ⟨rfl, rfl, hblocks⟩ := hreach
  refine ⟨Block.gaps_adorned hskips hcs hd, List.forall_mem_append.2 ⟨fun s hs => ?_,
    List.forall_mem_singleton.2 (nested_of_blocks hblocks)⟩⟩
  refine nested_of_blocks ?_
  rw [Stmt.blocks_of_not_code (hcs s hs).1]
  exact nofun

/-- Statements that go on from further down, behind a line that the tokens skip. -/
theorem from_above (h : Spread tokens lo hi (s :: ss)) (hle : lo' ≤ lo)
    (hfar : lo + 1 < s.span.line) :
    Spread tokens lo' hi (s :: ss) := by
  refine ⟨⟨fun _ => ?_, h.gaps.2⟩, h.nested⟩
  obtain ⟨n, hlo, hhi, hn⟩ := h.gaps.1 hfar
  exact ⟨n, by omega, hhi, hn⟩

end Spread

/-- A statement that reaches from below lines that the tokens skip. -/
theorem Stmt.Reaches.spread (h : s.Reaches tokens line hi)
    (hskips : ∀ n, lo < n → n < line → Skips tokens n) : Spread tokens lo hi [s] := by
  obtain ⟨rfl, rfl, hblocks⟩ := h
  exact .single hskips hblocks

theorem Spread.to (h : Spread tokens lo hi ss) : SpreadTo tokens hi ss := ⟨lo, h⟩

theorem SpreadTo.isSpread (h : SpreadTo tokens hi ss) : IsSpread tokens ss := ⟨hi, h⟩

theorem SpreadTo.append (h : SpreadTo tokens mid ss) (h' : Spread tokens mid hi ts) :
    SpreadTo tokens hi (ss ++ ts) :=
  h.imp fun _ h => h.append h'

end AsyncErasure
