namespace AsyncErasure

/-- Binding strength of expression forms, weakest first. A form stands bare wherever at most its
own strength is asked for. -/
inductive Level where
  | named
  | yielded
  | tuple
  | test
  | disjunction
  | conjunction
  | negation
  | comparison
  | bitOr
  | bitXor
  | bitAnd
  | shift
  | sum
  | product
  | signed
  | power
  | awaited
  | atom
deriving DecidableEq, Repr

namespace Level

def rank : Level → Nat
  | named => 0
  | yielded => 1
  | tuple => 2
  | test => 3
  | disjunction => 4
  | conjunction => 5
  | negation => 6
  | comparison => 7
  | bitOr => 8
  | bitXor => 9
  | bitAnd => 10
  | shift => 11
  | sum => 12
  | product => 13
  | signed => 14
  | power => 15
  | awaited => 16
  | atom => 17

instance : LT Level := ⟨fun a b => a.rank < b.rank⟩

instance (a b : Level) : Decidable (a < b) := inferInstanceAs (Decidable (a.rank < b.rank))

/-- The next stronger level; atoms are the strongest. -/
def next : Level → Level
  | named => yielded
  | yielded => tuple
  | tuple => test
  | test => disjunction
  | disjunction => conjunction
  | conjunction => negation
  | negation => comparison
  | comparison => bitOr
  | bitOr => bitXor
  | bitXor => bitAnd
  | bitAnd => shift
  | shift => sum
  | sum => product
  | product => signed
  | signed => power
  | power => awaited
  | awaited => atom
  | atom => atom

theorem rank_next (l : Level) : l.next.rank = min (l.rank + 1) 17 := by
  cases l <;> rfl

end Level

end AsyncErasure
