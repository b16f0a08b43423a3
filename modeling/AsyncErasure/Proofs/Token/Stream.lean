import AsyncErasure.Proofs.Token.Reading

namespace AsyncErasure

def Lexeme.endsLine : Lexeme → Bool
  | newline _ | indent | dedent | comment _ _ => true
  | _ => false

namespace Token

inductive Phase where
  /-- A line may begin. -/
  | fresh
  /-- Code of the line has been read. -/
  | within
  /-- A remark has been read, and the line has to end. -/
  | remarked
  | closed

structure Position where
  phase : Phase
  depth : Nat
  opened : List Bracket

def Position.start : Position := ⟨.fresh, 0, []⟩

/-- The lexemes that may come next, and where they lead. -/
inductive Step : Position → Lexeme → Position → Prop
  | newline {phase : Phase} {depth : Nat} (written : Bool) (h : phase ≠ .closed) :
      Step ⟨phase, depth, []⟩ (.newline written) ⟨.fresh, depth, []⟩
  | indent {depth : Nat} : Step ⟨.fresh, depth, []⟩ .indent ⟨.fresh, depth + 1, []⟩
  | dedent {depth : Nat} : Step ⟨.fresh, depth + 1, []⟩ .dedent ⟨.fresh, depth, []⟩
  | endMarker : Step ⟨.fresh, 0, []⟩ .endMarker ⟨.closed, 0, []⟩
  | remark {phase : Phase} {depth : Nat} (text : String) (h : phase = .fresh ∨ phase = .within) :
      Step ⟨phase, depth, []⟩ (.comment text true) ⟨.remarked, depth, []⟩
  | comment {depth : Nat} (text : String) :
      Step ⟨.fresh, depth, []⟩ (.comment text false) ⟨.fresh, depth, []⟩
  | code {phase : Phase} {depth : Nat} {opened inside : List Bracket} {l : Lexeme}
      (hl : l.isCode) (h : phase = .fresh ∨ phase = .within)
      (hn : l.nesting opened = some inside) :
      Step ⟨phase, depth, opened⟩ l ⟨.within, depth, inside⟩

namespace Step

variable {p q : Position} {l : Lexeme}

theorem depth_eq (h : Step p l q) :
    (if l = .dedent then 1 else 0) + q.depth = p.depth + if l = .indent then 1 else 0 := by
  cases h with
  | indent | dedent => simp <;> omega
  | code hl => cases l <;> first | exact Nat.zero_add _ | cases hl
  | _ => simp

theorem nesting_eq (h : Step p l q) : l.nesting p.opened = some q.opened := by
  cases h with
  | code _ _ hn => exact hn
  | _ => rfl

theorem endsLine (h : Step p l q) (hq : q.phase = .fresh) : l.endsLine := by
  cases h <;> first | rfl | cases hq

/-- Nothing follows the end marker, and it alone closes the stream. -/
theorem closed_iff (h : Step p l q) : p.phase ≠ .closed ∧ (l = .endMarker ↔ q.phase = .closed) := by
  cases h with
  | newline _ hp => exact ⟨hp, by simp⟩
  | remark _ hp => exact ⟨by rintro rfl; simp at hp, by simp⟩
  | code hl hp =>
    refine ⟨by rintro rfl; simp at hp, ?_⟩
    simp only [reduceCtorEq, iff_false]
    rintro rfl
    cases hl
  | _ => simp

end Step

inductive Run : Position → List Lexeme → Position → Prop
  | nil {p : Position} : Run p [] p
  | cons {p q r : Position} {l : Lexeme} {ls : List Lexeme} (first : Step p l q)
      (later : Run q ls r) : Run p (l :: ls) r

theorem Run.append {p q r : Position} {a b : List Lexeme} (ha : Run p a q) (hb : Run q b r) :
    Run p (a ++ b) r := by
  induction ha with
  | nil => exact hb
  | cons first _ ih => exact .cons first (ih hb)

theorem Run.split {p r : Position} {a b : List Lexeme} (h : Run p (a ++ b) r) :
    ∃ q, Run p a q ∧ Run q b r := by
  induction a generalizing p with
  | nil => exact ⟨p, .nil, h⟩
  | cons l a ih =>
    cases h with
    | cons first later =>
      obtain ⟨q, ha, hb⟩ := ih later
      exact ⟨q, .cons first ha, hb⟩

structure LeadsTo (front : List Lexeme) (p : Position) : Prop where
  depth : front.count .dedent + p.depth = front.count .indent
  opened : balance [] front = some p.opened
  fresh : p.phase = .fresh →
    front = [] ∨ ∃ (init : List Lexeme) (l : Lexeme), front = init ++ [l] ∧ l.endsLine
  inner : p.phase ≠ .closed → .endMarker ∉ front
  closed : p.phase = .closed → ∃ inner, front = inner ++ [Lexeme.endMarker] ∧
    .endMarker ∉ inner

namespace LeadsTo

variable {p q : Position} {l : Lexeme} {front ls : List Lexeme}

theorem start : LeadsTo [] .start :=
  ⟨rfl, rfl, fun _ => .inl rfl, fun _ => List.not_mem_nil, nofun⟩

theorem balance_snoc (h : LeadsTo front p) : balance [] (front ++ [l]) = l.nesting p.opened := by
  rw [balance_append, h.opened]
  exact Option.bind_fun_some _

theorem count_snoc (m : Lexeme) :
    (front ++ [l]).count m = front.count m + if l = m then 1 else 0 := by
  rw [List.count_append, List.count_singleton]
  simp

/-- One step keeps what the lexemes read so far tell. -/
theorem step (h : LeadsTo front p) (hs : Step p l q) : LeadsTo (front ++ [l]) q := by
  obtain ⟨hopen, hend⟩ := hs.closed_iff
  refine ⟨?_, ?_, fun hq => .inr ⟨front, l, rfl, hs.endsLine hq⟩, ?_, ?_⟩
  · have hfront := h.depth
    have hstep := hs.depth_eq
    rw [count_snoc, count_snoc]
    omega
  · rw [h.balance_snoc, hs.nesting_eq]
  · intro hq
    have hl : l ≠ .endMarker := mt hend.1 hq
    simp [h.inner hopen, hl.symm]
  · intro hq
    exact ⟨front, by rw [hend.2 hq], h.inner hopen⟩

/-- So does a run. -/
theorem run (h : LeadsTo front p) (hr : Run p ls q) : LeadsTo (front ++ ls) q := by
  induction hr generalizing front with
  | nil => rwa [List.append_nil]
  | cons first _ ih =>
    rw [← List.singleton_append, ← List.append_assoc]
    exact ih (h.step first)

end LeadsTo

theorem nesting_of_nest {place : Place} {opened inside : List Opened} {l : Lexeme}
    (h : nest place opened l = .ok inside) :
    l.nesting (opened.map Prod.fst) = some (inside.map Prod.fst) := by
  unfold nest at h
  split at h
  · cases h
    rfl
  · split at h
    · cases h
    · rename_i b _ o p outer
      split at h
      · rename_i ho
        cases h
        simp [Lexeme.nesting, ho]
      · cases h
  · cases h
    unfold Lexeme.nesting
    split <;> simp_all

/-- A line of code leads from inside the line to where the next line may begin. -/
theorem run_of_lineReads {home place : Place} {opened : List Opened} {cs : List Char}
    {line : CodeLine} (h : LineReads home opened place cs line) (depth : Nat) {phase : Phase}
    (hp : phase = .fresh ∨ phase = .within) :
    Run ⟨phase, depth, opened.map Prod.fst⟩ (line.tokens.map Token.lexeme) ⟨.fresh, depth, []⟩ := by
  have hopen : phase ≠ .closed := by
    rintro rfl
    simp at hp
  induction h generalizing phase with
  | eof | ends => exact .cons (.newline _ hopen) .nil
  | margin _ _ ih | join _ ih | wrap _ _ ih | hoist _ _ _ _ ih => exact ih hp hopen
  | remark _ hend hrest _ =>
    obtain ⟨-, written, htokens⟩ := hrest.of_atLineEnd hend
    rw [CodeLine.cons, htokens]
    exact .cons (.remark _ hp) (.cons (.newline written (by simp)) .nil)
  | lexeme hm hn _ ih =>
    exact .cons (.code (Lexeme.isCode_of_munch hm) hp (nesting_of_nest hn))
      (ih (.inr rfl) (by simp))

theorem run_hoisted (bodies : List (List Char)) (home : Place) (depth : Nat) :
    Run ⟨.fresh, depth, []⟩
      ((bodies.map fun body => Token.mk (commentOf body false) (.point home)).map Token.lexeme)
      ⟨.fresh, depth, []⟩ := by
  induction bodies with
  | nil => exact .nil
  | cons body bodies ih => exact .cons (.comment _) ih

theorem run_dedent (place : Place) (width : Nat) (indents : List Nat) :
    Run ⟨.fresh, indents.length, []⟩ ((dedent place width indents).1.map Token.lexeme)
      ⟨.fresh, (dedent place width indents).2.length, []⟩ := by
  unfold dedent
  induction indents with
  | nil => exact .nil
  | cons w indents ih =>
    rw [List.takeWhile_cons, List.dropWhile_cons]
    split
    · exact .cons .dedent ih
    · exact .nil

theorem run_layout {place : Place} {width : Nat} {indents inside : List Nat} {start : List Token}
    (h : layout place width indents = .ok (start, inside)) :
    Run ⟨.fresh, indents.length, []⟩ (start.map Token.lexeme) ⟨.fresh, inside.length, []⟩ := by
  unfold layout at h
  split at h
  · cases h
    exact .cons .indent .nil
  · dsimp only at h
    split at h
    · cases h
      exact run_dedent place width indents
    · cases h

theorem dedent_pos {place : Place} {width : Nat} {indents : List Nat} (h : ∀ w ∈ indents, 0 < w) :
    ∀ w ∈ (dedent place width indents).2, 0 < w :=
  fun w hw => h w ((List.dropWhile_suffix _).subset hw)

theorem layout_pos {place : Place} {width : Nat} {indents inside : List Nat} {start : List Token}
    (h : layout place width indents = .ok (start, inside)) (hpos : ∀ w ∈ indents, 0 < w) :
    ∀ w ∈ inside, 0 < w := by
  unfold layout at h
  split at h
  · rename_i hlt
    cases h
    exact List.forall_mem_cons.2 ⟨by omega, hpos⟩
  · dsimp only at h
    split at h
    · cases h
      exact dedent_pos hpos
    · cases h

/-- A page leads from a line start to the end of the stream. -/
theorem run_of_pageReads {indents : List Nat} {place : Place} {cs : List Char} {tokens : List Token}
    (h : PageReads indents place cs tokens) (hpos : ∀ w ∈ indents, 0 < w) :
    Run ⟨.fresh, indents.length, []⟩ (tokens.map Token.lexeme) ⟨.closed, 0, []⟩ := by
  induction h with
  | @eof indents place margin _ =>
    have hall : (dedent (place.shift margin.length) 0 indents).2 = [] :=
      List.dropWhile_eq_nil_iff.2 fun w hw => decide_eq_true (hpos w hw)
    have hrun := run_dedent (place.shift margin.length) 0 indents
    rw [hall] at hrun
    rw [List.map_append]
    exact hrun.append (.cons .endMarker .nil)
  | gap _ _ ih => exact ih hpos
  | @comment indents place margin body rest tokens width _ _ _ _ ih =>
    rw [List.map_append, List.map_cons]
    exact (run_dedent _ width indents).append (.cons (.comment _) (ih (dedent_pos hpos)))
  | @code indents inside place margin rest line start tokens _ hl here _ ih =>
    obtain ⟨bodies, hhoisted⟩ := here.hoisted_eq
    rw [hhoisted]
    simp only [List.map_append, List.append_assoc]
    refine (run_layout hl).append ((run_hoisted bodies _ _).append ?_)
    exact (run_of_lineReads here inside.length (.inl rfl)).append (ih (layout_pos hl hpos))

/-- The shape of a stream of tokens: it is closed once, blocks and brackets are closed in order,
lines and blocks begin and end outside brackets, and comments stand between lines or at their
ends. -/
structure IsStream (ls : List Lexeme) : Prop where
  closed : ∃ inner, ls = inner ++ [Lexeme.endMarker] ∧ .endMarker ∉ inner
  indented : ∀ front back, ls = front ++ back → front.count .dedent ≤ front.count .indent
  dedented : ls.count .dedent = ls.count .indent
  nested : balance [] ls = some []
  flat : ∀ (front : List Lexeme) (l : Lexeme) (back : List Lexeme), ls = front ++ l :: back →
    l.isLayout → balance [] front = some []
  remark : ∀ (front : List Lexeme) (text : String) (back : List Lexeme),
    ls = front ++ Lexeme.comment text true :: back →
    ∃ written later, back = .newline written :: later
  comment : ∀ (front : List Lexeme) (text : String) (back : List Lexeme),
    ls = front ++ Lexeme.comment text false :: back →
    front = [] ∨ ∃ (init : List Lexeme) (l : Lexeme), front = init ++ [l] ∧ l.endsLine

theorem Run.isStream {ls : List Lexeme} (h : Run .start ls ⟨.closed, 0, []⟩) : IsStream ls := by
  have hall := LeadsTo.start.run h
  have hsplit {front back : List Lexeme} {l : Lexeme} (hls : ls = front ++ l :: back) :
      ∃ p q, LeadsTo front p ∧ Step p l q ∧ Run q back ⟨.closed, 0, []⟩ := by
    rw [hls] at h
    obtain ⟨p, hfront, hback⟩ := h.split
    cases hback with
    | cons first later => exact ⟨p, _, LeadsTo.start.run hfront, first, later⟩
  refine ⟨hall.closed rfl, ?_, hall.depth, hall.opened, ?_, ?_, ?_⟩
  · rintro front back rfl
    obtain ⟨p, hfront, -⟩ := h.split
    have := (LeadsTo.start.run hfront).depth
    rw [List.nil_append] at this
    omega
  · intro front l back hls hl
    obtain ⟨p, q, hfront, hstep, -⟩ := hsplit hls
    rw [hfront.opened]
    cases hstep with
    | code hcode => exact absurd (Lexeme.isLayout_of_isCode hcode) (by simp [hl])
    | remark | comment => cases hl
    | _ => rfl
  · intro front text back hls
    obtain ⟨p, q, -, hstep, hrun⟩ := hsplit hls
    cases hstep with
    | code hcode => cases hcode
    | remark =>
      cases hrun with
      | cons first later =>
        cases first with
        | newline written => exact ⟨written, _, rfl⟩
        | remark _ hp | code _ hp => simp at hp
  · intro front text back hls
    obtain ⟨p, q, hfront, hstep, -⟩ := hsplit hls
    cases hstep with
    | code hcode => cases hcode
    | comment => exact hfront.fresh rfl

theorem scan_isStream {source : String} {tokens : List Token} (h : scan source = .ok tokens) :
    IsStream (tokens.map Token.lexeme) :=
  (run_of_pageReads (pageReads_of_lines h) (by simp)).isStream

/-- A comment in brackets, one behind code and one left of its block. -/
theorem scan_isStream_remarks : ∃ tokens,
    scan "if a:\n    f(  # b\n    [c])  # d\n# e\n" = .ok tokens ∧
      tokens.map Token.lexeme =
        [.keyword .if_, .name "a", .symbol .colon, .newline true, .indent, .comment "# b" false,
          .name "f", .symbol (.opening .round), .symbol (.opening .square), .name "c",
          .symbol (.closing .square), .symbol (.closing .round), .comment "# d" true, .newline true,
          .dedent, .comment "# e" false, .endMarker] ∧
      IsStream (tokens.map Token.lexeme) := by
  have hscan : (scan "if a:\n    f(  # b\n    [c])  # d\n# e\n").toOption.any fun tokens =>
      tokens.map Token.lexeme =
        [.keyword .if_, .name "a", .symbol .colon, .newline true, .indent, .comment "# b" false,
          .name "f", .symbol (.opening .round), .symbol (.opening .square), .name "c",
          .symbol (.closing .square), .symbol (.closing .round), .comment "# d" true, .newline true,
          .dedent, .comment "# e" false, .endMarker] := by
    decide +kernel
  obtain ⟨tokens, h, htokens⟩ := scan_of_any hscan
  exact ⟨tokens, h, of_decide_eq_true htokens, scan_isStream h⟩

end Token

end AsyncErasure
