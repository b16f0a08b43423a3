import AsyncErasure.Grammar.Module
import AsyncErasure.Proofs.Grammar.Formation
import AsyncErasure.Proofs.Tree.Comment
import Mathlib.Data.List.Infix

namespace AsyncErasure.Grammar

open Rule Cursor Formed

variable {α β : Type} {p : Rule α} {f : α → Rule β} {c : Cursor}

def heard (read : List Token) : List Comment := read.filterMap Token.comment?

@[simp] theorem heard_nil : heard [] = [] := rfl

@[simp] theorem heard_append (a b : List Token) : heard (a ++ b) = heard a ++ heard b :=
  List.filterMap_append

/-- The lexemes that a rule may pass without keeping them: no comment and not the end marker. -/
def passable : Lexeme → Bool
  | .comment _ _ | .endMarker => false
  | _ => true

theorem ne_endMarker_of_passable {l : Lexeme} (h : passable l) : l ≠ .endMarker := by
  rintro rfl
  cases h

theorem passable_of_isCode {l : Lexeme} (h : l.isCode) : passable l := by
  cases l with
  | comment | endMarker => cases h
  | _ => rfl

theorem heard_cons {t : Token} (ht : passable t.lexeme) (read : List Token) :
    heard (t :: read) = heard read := by
  refine List.filterMap_cons_none ?_
  unfold Token.comment?
  split
  · rename_i hl
    rw [hl] at ht
    cases ht
  · rfl

theorem Coded.heard_eq {read : List Token} (h : Coded read) : heard read = [] := by
  induction read with
  | nil => rfl
  | cons t read ih =>
    rw [coded_cons] at h
    rw [heard_cons (passable_of_isCode h.1), ih h.2]

/-- Whenever the rule succeeds at the cursor, the relation holds of the comments it has read and
its result; if it must, it has read something. -/
def Tells (must : Bool) (K : List Comment → α → Prop) (p : Rule α) (c : Cursor) : Prop :=
  Accounts (fun read a => (must → read ≠ []) ∧ K (heard read) a) p c

theorem Obtains.tells {must : Bool} {P : α → Prop} (h : Obtains must P p c) :
    Tells must (fun told a => told = [] ∧ P a) p c :=
  h.mono fun _ _ ⟨hne, hq, hp⟩ => ⟨hne, hq.heard_eq, hp⟩

namespace Tells

variable {must : Bool} {J : List Comment → α → Prop} {K : List Comment → β → Prop}

theorem congr {q : Rule α} (h : Tells must J p c) (hq : q c = p c) : Tells must J q c :=
  Accounts.congr h hq

theorem relax (h : Tells must J p c) : Tells false J p c :=
  Accounts.mono h fun _ _ ⟨_, hj⟩ => ⟨nofun, hj⟩

theorem weaken {J' : List Comment → α → Prop} (h : Tells must J p c)
    (hJ : ∀ told a, J told a → J' told a) : Tells must J' p c :=
  Accounts.mono h fun _ _ ⟨hne, hj⟩ => ⟨hne, hJ _ _ hj⟩

theorem pure {a : α} (h : J [] a) : Tells false J (Pure.pure a) c := Accounts.pure ⟨nofun, h⟩

theorem fail (fault : Fault) : Tells must J (Rule.fail fault) c := Accounts.fail fault

/-- First a rule that reads something. -/
theorem bind (hp : Tells true J p c)
    (hf : ∀ told a c', J told a → Tells false (fun more b => K (told ++ more) b) (f a) c') :
    Tells must K (p >>= f) c := by
  refine Accounts.bind hp fun a read c' _ ⟨hne, hj⟩ => ?_
  refine Accounts.mono (hf _ a c' hj) fun more b ⟨_, hk⟩ => ⟨fun _ => by simp [hne rfl], ?_⟩
  rwa [heard_append]

/-- First a rule that may read nothing. -/
theorem next (hp : Tells false J p c)
    (hf : ∀ told a c', J told a → Tells must (fun more b => K (told ++ more) b) (f a) c') :
    Tells must K (p >>= f) c := by
  refine Accounts.bind hp fun a read c' _ ⟨_, hj⟩ => ?_
  refine Accounts.mono (hf _ a c' hj) fun more b ⟨hne, hk⟩ => ⟨fun hm => by simp [hne hm], ?_⟩
  rwa [heard_append]

/-- First a rule that reads something but no comment. -/
theorem behind {P : α → Prop} (hp : Obtains true P p c)
    (hf : ∀ a c', P a → Tells false K (f a) c') : Tells must K (p >>= f) c :=
  bind hp.tells fun _ a c' ⟨hnone, ha⟩ => by
    subst hnone
    exact hf a c' ha

/-- First a rule that may read nothing, and no comment. -/
theorem past {P : α → Prop} (hp : Obtains false P p c)
    (hf : ∀ a c', P a → Tells must K (f a) c') : Tells must K (p >>= f) c :=
  next hp.tells fun _ a c' ⟨hnone, ha⟩ => by
    subst hnone
    exact hf a c' ha

/-- First a rule that may read something, but no comment. -/
theorem silent (hp : Tells false (fun told _ => told = []) p c)
    (hf : ∀ a c', Tells must K (f a) c') :
    Tells must K (p >>= f) c :=
  next hp fun _ a c' hnone => by
    subst hnone
    exact hf a c'

theorem map {g : α → β} (hp : Tells must J p c) (hg : ∀ told a, J told a → K told (g a)) :
    Tells must K (g <$> p) c :=
  Accounts.map hp fun _ a ⟨hne, hj⟩ => ⟨hne, hg _ a hj⟩

theorem peek {f : Lexeme → Rule β} (h : Tells must K (f c.next.lexeme) c) :
    Tells must K (Rule.peek >>= f) c := h

theorem sees {l : Lexeme} {f : Bool → Rule β} (h : Tells must K (f (c.next.lexeme == l)) c) :
    Tells must K (Rule.sees l >>= f) c := h

theorem place {f : Place → Rule β} (h : ∀ start, Tells must K (f start) c) :
    Tells must K (Rule.place >>= f) c := h c.next.span.start

theorem get {f : Cursor → Rule β} (h : Tells must K (f c) c) : Tells must K (get >>= f) c := h

theorem spanned {start : Place} {make : Span → β} (h : ∀ span, K [] (make span)) :
    Tells false K (spanFrom start >>= fun span => Pure.pure (make span)) c :=
  Accounts.spanFrom fun span => pure (h span)

/-- First a rule that only looks at what comes next. -/
theorem look {P : α → Prop} (hp : ∃ a, p c = .ok (a, c) ∧ P a)
    (hf : ∀ a, P a → Tells must K (f a) c) : Tells must K (p >>= f) c := by
  obtain ⟨a, ha, hP⟩ := hp
  intro hs b c' hc
  rw [bind_apply, ha] at hc
  exact hf a hP hs b c' hc

theorem advance {f : Unit → Rule β} (hl : passable c.next.lexeme)
    (h : Tells false K (f ()) c.advance) : Tells must K (Rule.advance >>= f) c :=
  Accounts.advance (ne_endMarker_of_passable hl)
    (Accounts.mono h fun _ _ ⟨_, hk⟩ => ⟨nofun, by rwa [heard_cons hl]⟩)

theorem accept {l : Lexeme} {f : Bool → Rule β} (hl : passable l)
    (hyes : c.next.lexeme = l → Tells false K (f true) c.advance)
    (hno : c.next.lexeme ≠ l → Tells must K (f false) c) : Tells must K (Rule.accept l >>= f) c :=
  Accounts.accept (ne_endMarker_of_passable hl) (fun h => Accounts.mono (hyes h) fun _ _ ⟨_, hk⟩ =>
    ⟨nofun, by rwa [heard_cons (h ▸ hl)]⟩) hno

theorem accepted {l : Lexeme} (hl : passable l) :
    Tells false (fun told _ => told = []) (Rule.accept l) c :=
  bind_pure (Rule.accept l) ▸ accept hl (fun _ => pure rfl) fun _ => pure rfl

end Tells

section Simple

theorem atLineEnd_looks (c : Cursor) : ∃ b, atLineEnd c = .ok (b, c) ∧ True := by
  cases hl : c.next.lexeme with
  | comment text inline => cases inline <;> simp [atLineEnd, hl]
  | _ => simp [atLineEnd, hl]

theorem atSimpleEnd_looks (c : Cursor) : ∃ b, atSimpleEnd c = .ok (b, c) ∧ True := by
  obtain ⟨b, hb, -⟩ := atLineEnd_looks c
  cases b with
  | true => simp [atSimpleEnd, hb]
  | false =>
    cases hl : c.next.lexeme with
    | symbol s => cases s <;> simp [atSimpleEnd, hb, hl]
    | _ => simp [atSimpleEnd, hb, hl]

theorem augmentedOp_looks (c : Cursor) :
    ∃ op, augmentedOp c = .ok (op, c) ∧ (op.isSome → ∃ s, c.next.lexeme = .symbol s) := by
  cases hl : c.next.lexeme with
  | symbol s =>
    exact ⟨_, by simp only [augmentedOp, bind_apply, peek_apply, hl]; rfl, fun _ => ⟨s, rfl⟩⟩
  | _ => exact ⟨none, by simp [augmentedOp, hl], nofun⟩

theorem newline_tells (c : Cursor) : Tells false (fun told _ => told = []) newline c := by
  refine .peek ?_
  split
  · rename_i written hl
    exact bind_pure Rule.advance ▸ .advance (by rw [hl]; rfl) (.pure rfl)
  · exact .pure rfl
  · exact .fail _

theorem dottedName_obtains (c : Cursor) : Obtains true (fun path => isPath path) dottedName c := by
  refine .name fun first hfirst => ?_
  refine (Obtains.many (fun c => .after rfl fun c => .identifier) _).next
    fun rest c hrest => .pure ?_
  exact Token.isPath_intercalate (List.cons_ne_nil _ _) (List.forall_mem_cons.2 ⟨hfirst, hrest⟩)

theorem aliased_obtains {isName : String → Bool} {path : Rule String}
    (hpath : ∀ c, Obtains true (fun id => isName id) path c) (c : Cursor) :
    Obtains true (fun a => a.fits isName) (aliased path) c := by
  refine (hpath c).bind fun id c hid => ?_
  refine (Obtains.after rfl fun c => .identifier).next fun asName c has => .pure ?_
  refine Bool.and_eq_true_iff.2 ⟨hid, ?_⟩
  cases asName with
  | none => rfl
  | some asName => exact has asName rfl

theorem commaSeparated_obtains {P : α → Prop} {item : Rule α} (hitem : ∀ c, Obtains true P item c)
    (c : Cursor) : Obtains true (fun as => as ≠ [] ∧ ∀ a ∈ as, P a) (commaSeparated item) c := by
  refine (hitem c).bind fun first c hfirst => ?_
  refine (Obtains.listTail hitem).next fun rest c hrest => .pure ?_
  exact ⟨List.cons_ne_nil _ _, List.forall_mem_cons.2 ⟨hfirst, hrest⟩⟩

theorem dots_obtains (c : Cursor) : Obtains false (fun o => ∀ n ∈ o, True) dots c := by
  refine .peek ?_
  split
  · rename_i hl
    exact .advance (by rw [hl]; rfl) (.pure fun _ _ => trivial)
  · rename_i hl
    exact .advance (by rw [hl]; rfl) (.pure fun _ _ => trivial)
  · exact .pure nofun

theorem importedNames_obtains (c : Cursor) :
    Obtains true (fun names => names ≠ [] → Fits.imported names) importedNames c := by
  have hnames {names : List Alias} (h : ∀ a ∈ names, a.fits isIdentifier) :
      names ≠ [] → Fits.imported names := fun hne => by
    simp only [Fits.imported, Bool.or_eq_true, Bool.and_eq_true, List.all_eq_true]
    exact .inr ⟨by simpa using hne, h⟩
  have hitem (c : Cursor) : Obtains true (fun a => a.fits isIdentifier) (aliased name) c :=
    aliased_obtains (fun c => .identifier) c
  refine .accept rfl (fun _ => .pure fun _ => rfl) fun _ => .accept rfl (fun _ => ?_) fun _ => ?_
  · refine (Obtains.listUpTo hitem).next fun names c h => .expect rfl (.pure (hnames h))
  · exact (commaSeparated_obtains hitem c).weaken fun names h => hnames h.2

theorem importFrom_obtains (start : Place) (hl : c.next.lexeme.isCode) :
    Obtains true (fun s => s.isFormed) (importFrom start) c := by
  refine .advance hl ((Obtains.many dots_obtains _).next fun levels c _ => .sees ?_)
  have hrest (path : Option String) (hpath : path.all isPath) (c : Cursor) (level : Nat) :
      Obtains false (fun s : Stmt => s.isFormed)
        (if level = 0 ∧ path.isNone then fail .expectedModule
        else do
          expect Keyword.import_
          let names ← importedNames
          if names.isEmpty then fail .expectedName
          else return .importFrom (← spanFrom start) path names level) c := by
    split
    · exact .fail _
    · rename_i hsome
      refine .expect rfl ((importedNames_obtains _).bind fun names c hnames => ?_)
      split
      · exact .fail _
      · rename_i hne
        refine .spanned fun _ => ?_
        simp only [Stmt.isFormed, Bool.and_eq_true, Bool.or_eq_true]
        refine ⟨⟨hpath, ?_⟩, hnames (by simpa using hne)⟩
        cases path with
        | some path => exact .inl rfl
        | none => exact .inr (by simpa using hsome)
  dsimp only
  split
  · exact hrest none rfl c _
  · have hpath := (dottedName_obtains c).map (g := some) (S := fun o => o.all isPath) fun _ h => h
    exact hpath.bind fun path c h => hrest path h c _

theorem expressionStatement_obtains (start : Place) (c : Cursor) :
    Obtains true (fun s => s.isFormed) (expressionStatement start) c := by
  refine .sees ((expr_forms .yielded c).bind fun first c hf =>
    .accept rfl (fun _ => ?_) fun _ => ?_)
  · refine (expr_forms .test _).bind fun hint c hh => ?_
    refine (Obtains.after rfl fun c => expr_forms .yielded c).next fun value c hv => .spanned
      fun _ => ?_
    simp only [Stmt.isFormed, Bool.and_eq_true]
    refine ⟨⟨⟨hf, hh⟩, expr?_eq_true.2 hv⟩, ?_⟩
    cases first.isName <;> simp
  refine .look (augmentedOp_looks c) fun op hop => ?_
  cases op with
  | some op =>
    refine .advance (isCode_of_symbol (hop rfl)) ?_
    refine (expr_forms .yielded _).bind fun value c hv => .spanned fun _ => ?_
    exact Bool.and_eq_true_iff.2 ⟨hf, hv⟩
  | none =>
    refine (Obtains.many (fun c => .after rfl fun c => expr_forms .yielded c) c).next
      fun rest c hr => ?_
    split
    · exact .spanned fun _ => hf
    · rename_i value hlast
      refine .spanned fun _ => ?_
      simp only [Stmt.isFormed, Bool.and_eq_true, exprs_eq_true, List.forall_mem_cons]
      exact ⟨⟨rfl, hf, fun e he => hr e (List.mem_of_mem_dropLast he)⟩,
        hr value (List.mem_of_getLast? hlast)⟩

theorem simpleStatement_obtains (c : Cursor) :
    Obtains true (fun s => s.isFormed) simpleStatement c := by
  have hwords {make : Span → List String → Stmt} (hl : c.next.lexeme.isCode)
      (hmake : ∀ span names, (make span names).isFormed =
        (!names.isEmpty && names.all isIdentifier))
      (start : Place) : Obtains true (fun s : Stmt => s.isFormed) (do
        advance
        let names ← commaSeparated name
        return make (← spanFrom start) names) c := by
    refine .advance hl ((commaSeparated_obtains (fun c => .identifier) _).bind fun names c h => ?_)
    refine .spanned fun span => ?_
    rw [hmake, Bool.and_eq_true, List.all_eq_true]
    exact ⟨by simpa using h.1, h.2⟩
  refine .place fun start => .peek ?_
  split
  -- `pass`, `break` and `continue`
  iterate 3
    · rename_i hl
      exact .advance (by rw [hl]; rfl) (.spanned fun _ => rfl)
  -- `return`
  · rename_i hl
    refine .advance (by rw [hl]; rfl) (.look (atSimpleEnd_looks _) fun ends _ => ?_)
    dsimp only
    split
    · show Obtains false _ (Rule.spanFrom start >>= fun span => pure (Stmt.ret span none)) _
      exact .spanned fun _ => rfl
    · have hvalue := (expr_forms .tuple c.advance).map (g := some) (S := fun o => expr? .elements o)
        fun _ h => h
      exact hvalue.bind fun value c hv => .spanned fun _ => hv
  -- `raise`
  · rename_i hl
    refine .advance (by rw [hl]; rfl) (.look (atSimpleEnd_looks _) fun ends _ => ?_)
    split
    · exact .spanned fun _ => rfl
    · refine (expr_forms .test _).bind fun exc c he => ?_
      refine (Obtains.after rfl fun c => expr_forms .test c).next fun cause c hc => .spanned
        fun _ => ?_
      simp only [Stmt.isFormed, Bool.and_eq_true, expr?_eq_true]
      exact ⟨⟨fun _ h => Option.some.inj h ▸ he, hc⟩, rfl⟩
  -- `assert`
  · rename_i hl
    refine .advance (by rw [hl]; rfl) ((expr_forms .test _).bind fun test c ht => ?_)
    refine (Obtains.after rfl fun c => expr_forms .test c).next fun msg c hm => .spanned fun _ => ?_
    exact Bool.and_eq_true_iff.2 ⟨ht, expr?_eq_true.2 hm⟩
  -- `del`
  · rename_i hl
    have htarget (c : Cursor) : Forms .plain (starOr expr .bitOr) c :=
      starOr_forms expr_forms c .bitOr
    refine .advance (by rw [hl]; rfl) ((htarget _).bind fun first c hf => ?_)
    refine Obtains.next (Obtains.many (P := fun e => e.isFormed .plain) (fun c => ?_) c)
      fun rest c hr => .spanned fun _ => ?_
    · refine .accept rfl (fun _ => .look (atSimpleEnd_looks _) fun ends _ => ?_) fun _ =>
        .pure nofun
      split
      · exact .pure nofun
      · exact (htarget _).bind fun e c he => .pure fun _ h => Option.some.inj h ▸ he
    · simp only [Stmt.isFormed, Bool.and_eq_true, exprs_eq_true]
      exact ⟨rfl, List.forall_mem_cons.2 ⟨hf, hr⟩⟩
  -- `global` and `nonlocal`
  iterate 2
    · rename_i hl
      exact hwords (by rw [hl]; rfl) (fun _ _ => rfl) start
  -- `import`
  · rename_i hl
    refine .advance (by rw [hl]; rfl) ?_
    refine (commaSeparated_obtains (aliased_obtains dottedName_obtains) _).bind fun names c h => ?_
    refine .spanned fun _ => ?_
    simp only [Stmt.isFormed, Bool.and_eq_true, List.all_eq_true]
    exact ⟨by simpa using h.1, h.2⟩
  · rename_i hl
    exact importFrom_obtains start (by rw [hl]; rfl)
  · exact expressionStatement_obtains start c

end Simple

structure Kept (told : List Comment) (ss : List Stmt) : Prop where
  comments : told = ss.flatMap Walk.ofStmt
  formed : ∀ s ∈ ss, s.isFormed

namespace Kept

variable {told more : List Comment} {ss ts : List Stmt} {s : Stmt}

theorem nil : Kept [] [] := ⟨rfl, nofun⟩

theorem append (h : Kept told ss) (h' : Kept more ts) : Kept (told ++ more) (ss ++ ts) :=
  ⟨by rw [h.comments, h'.comments, List.flatMap_append],
    List.forall_mem_append.2 ⟨h.formed, h'.formed⟩⟩

theorem stmts (h : Kept told ss) : Formed.stmts ss := stmts_eq_true.2 h.formed

/-- A statement other than a comment holds what the statements right below it hold. -/
theorem single (hs : (Node.stmt s).comment? = none) (hf : s.isFormed)
    (htold : told = s.children.flatMap Walk.ofStmt) : Kept told [s] := by
  refine ⟨?_, fun x hx => List.mem_singleton.1 hx ▸ hf⟩
  rw [List.flatMap_singleton, Walk.ofStmt_eq, hs, htold]
  rfl

theorem simple (hs : s.isSimple) (hf : s.isFormed) : Kept [] [s] := by
  cases s with
  | functionDef | classDef | forLoop | whileLoop | branch | withBlock | tryBlock | comment
  | blank => cases hs
  | _ => exact single rfl hf rfl

end Kept

section Blocks

theorem Tells.many {P : α → Prop} {p : Rule (Option α)} (block : α → List Stmt)
    (hp : ∀ c, Tells false (fun told o => Kept told (o.elim [] block) ∧ ∀ a ∈ o, P a) p c)
    (c : Cursor) :
    Tells false (fun told as => Kept told (as.flatMap block) ∧ ∀ a ∈ as, P a) (many p) c := by
  refine Accounts.many hp ⟨nofun, .nil, nofun⟩ ?_ ?_ c
  · intro read ⟨_, hk, _⟩
    exact ⟨nofun, hk, nofun⟩
  · intro read more a as ⟨_, hk, ha⟩ ⟨_, hks, has⟩
    refine ⟨nofun, ?_, List.forall_mem_cons.2 ⟨ha a rfl, has⟩⟩
    rw [heard_append, List.flatMap_cons]
    exact hk.append hks

/-- A comment that is passed and kept. -/
theorem told_comment {must : Bool} {text : String} {inline : Bool}
    (hl : c.next.lexeme = .comment text inline) : Tells must (fun told o => Kept told o.toList) (do
      advance
      return some (.comment c.next.span text inline)) c := by
  refine Accounts.advance (by simp [hl]) (.pure ⟨nofun, ?_, ?_⟩)
  · simp [heard, Token.comment?, hl, Walk.ofStmt_eq, Node.comment?, Stmt.children]
  · exact fun s hs => List.mem_singleton.1 hs ▸ rfl

theorem commentIf_tells (wanted : Bool → Bool) (c : Cursor) :
    Tells false (fun told o => Kept told o.toList) (commentIf wanted) c := by
  refine .get ?_
  dsimp only
  split
  · rename_i text inline hl
    split
    · exact told_comment hl
    · exact .pure .nil
  · exact .pure .nil

theorem comment_tells (c : Cursor) : Tells false (fun told o => Kept told o.toList) comment c :=
  commentIf_tells _ c

theorem comment_tells_of_next {text : String} {inline : Bool}
    (hl : c.next.lexeme = .comment text inline) :
    Tells true (fun told o => Kept told o.toList) comment c := by
  refine .get ?_
  dsimp only
  split
  · rename_i hl
    exact told_comment hl
  · rename_i hne
    exact absurd hl (hne text inline)

theorem inlineComment_tells (c : Cursor) : Tells false Kept inlineComment c :=
  (commentIf_tells id c).next fun told o c hk => .pure (by rwa [List.append_nil])

theorem comments_tells (c : Cursor) : Tells false Kept (Rule.many comment) c := by
  refine (Tells.many (P := fun _ => True) (fun s => [s]) (fun c => ?_) c).weaken fun told ss h => ?_
  · refine (comment_tells c).weaken fun told o hk => ⟨?_, fun _ _ => trivial⟩
    cases o <;> exact hk
  · simpa using h.1

theorem commentsBefore_tells (words : List Keyword) (c : Cursor) :
    Tells false Kept (commentsBefore words) c := by
  refine .get ?_
  split
  · split
    · exact comments_tells c
    · exact .pure .nil
  · exact .pure .nil

theorem simpleStatement_tells (c : Cursor) :
    Tells true (fun told s => Kept told [s]) simpleStatement c := by
  intro hs s c' hc
  obtain ⟨read, hm, hne, hq, hf⟩ := simpleStatement_obtains c hs s c' hc
  exact ⟨read, hm, hne, hq.heard_eq ▸ Kept.simple (spans_simpleStatement hc).1 hf⟩

theorem simpleLine_tells (c : Cursor) : Tells true Kept simpleLine c := by
  refine (simpleStatement_tells c).bind fun told first c hfirst => ?_
  refine Tells.next (Tells.many (P := fun _ => True) (fun s => [s]) (fun c => ?_) c)
    fun more rest c hrest => ?_
  · refine .accept rfl (fun _ => .look (atLineEnd_looks _) fun ends _ => ?_) fun _ =>
      .pure ⟨.nil, nofun⟩
    split
    · exact .pure ⟨.nil, nofun⟩
    · exact (simpleStatement_tells _).bind fun told s c hk =>
        .pure ⟨by simpa using hk, fun _ _ => trivial⟩
  refine (inlineComment_tells c).next fun last trailing c ht => .silent (newline_tells c)
    fun _ c => ?_
  refine .pure ?_
  have := (hfirst.append hrest.1).append ht
  simpa using this

def Guarded.stmts (g : Guarded) : List Stmt :=
  g.body ++ (g.handlers.flatMap Handler.body ++ g.orelse)

/-- Statements put at the end of the last block come last. -/
theorem Guarded.append_stmts (g : Guarded) (cs : List Stmt) :
    (g.append cs).stmts = g.stmts ++ cs := by
  unfold Guarded.append
  split
  · rename_i hempty
    rw [List.isEmpty_iff] at hempty
    split
    · rename_i h hlast
      obtain ⟨hs, hsplit⟩ := List.getLast?_eq_some_iff.1 hlast
      simp [stmts, hempty, hsplit]
    · rename_i hnone
      simp [stmts, hempty, List.getLast?_eq_none_iff.1 hnone]
  · simp [stmts]

structure Guarded.IsFormed (g : Guarded) : Prop where
  body : Formed.stmts g.body
  handlers : Formed.handlers g.handlers
  orelse : Formed.stmts g.orelse

theorem stmts_append {ss ts : List Stmt} (hs : Formed.stmts ss) (ht : Formed.stmts ts) :
    Formed.stmts (ss ++ ts) := by
  rw [stmts_eq_true] at hs ht ⊢
  exact List.forall_mem_append.2 ⟨hs, ht⟩

theorem Guarded.IsFormed.append {g : Guarded} (hg : g.IsFormed) {cs : List Stmt}
    (hc : Formed.stmts cs) :
    (g.append cs).IsFormed ∧ (g.append cs).handlers.isEmpty = g.handlers.isEmpty := by
  unfold Guarded.append
  split
  · split
    · rename_i h hlast
      obtain ⟨hs, hsplit⟩ := List.getLast?_eq_some_iff.1 hlast
      have hhandlers := handlers_eq_true.1 hg.handlers
      rw [hsplit, List.forall_mem_append] at hhandlers
      obtain ⟨hinit, hh⟩ := hhandlers
      have hh := hh h (List.mem_singleton_self h)
      have happend : { h with body := h.body ++ cs }.isFormed := by
        obtain ⟨type, name, body⟩ := h
        simp only [Handler.isFormed, Bool.and_eq_true] at hh ⊢
        exact ⟨hh.1, stmts_append hh.2 hc⟩
      refine ⟨⟨hg.body, ?_, hg.orelse⟩, by cases hs <;> simp [hsplit]⟩
      rw [handlers_eq_true, hsplit, List.dropLast_concat]
      exact List.forall_mem_append.2 ⟨hinit, fun x hx => List.mem_singleton.1 hx ▸ happend⟩
    · exact ⟨⟨stmts_append hg.body hc, hg.handlers, hg.orelse⟩, rfl⟩
  · exact ⟨⟨hg.body, hg.handlers, stmts_append hg.orelse hc⟩, rfl⟩

section Compound

variable {self : Rule (List Stmt)} (hself : ∀ c, Tells true Kept self c) (c : Cursor)
include hself

theorem unit_tells (closed : Lexeme → Bool) :
    Accounts (fun read o => (o.isSome → read ≠ []) ∧ Kept (heard read) (o.getD []))
      (unit self closed)
      c := by
  refine .peek ?_
  split
  · exact .pure ⟨nofun, .nil⟩
  · split
    · rename_i written hl
      refine .advance (by rw [hl]; simp) (.pure ⟨nofun, ?_⟩)
      exact heard_cons (by rw [hl]; rfl) [] ▸ .nil
    · refine Accounts.bind (hself c) fun ss read c _ ⟨hne, hk⟩ => .pure ?_
      rw [List.append_nil]
      exact ⟨fun _ => hne rfl, hk⟩

theorem statementsUpTo_tells (closed : Lexeme → Bool) :
    Tells false Kept (statementsUpTo self closed) c := by
  refine Tells.map (Tells.many (P := fun _ => True) id (fun c => ?_) c) fun told units h => ?_
  · refine Accounts.mono (unit_tells hself c closed) fun read o ⟨_, hk⟩ =>
      ⟨nofun, ?_, fun _ _ => trivial⟩
    cases o <;> exact hk
  · simpa using h.1

/-- The loop over the statements of a block ends only where the block does. -/
theorem closed_of_statementsUpTo {closed : Lexeme → Bool} {c' : Cursor} {ss : List Stmt}
    (hs : c.Scanned) (h : statementsUpTo self closed c = .ok (ss, c')) : closed c'.next.lexeme := by
  rw [statementsUpTo_eq, map_eq_pure_bind] at h
  obtain ⟨units, m, hmany, hdone⟩ := eq_ok_of_bind h
  cases hdone
  obtain ⟨n, -, hend⟩ := Accounts.ended_of_many (fun c => (unit_tells hself c closed).mono
    fun _ _ hu => hu.1) hs hmany
  rw [unit, bind_apply, peek_apply] at hend
  dsimp only at hend
  split at hend
  · rename_i hclosed
    cases hend
    exact hclosed
  · -- A round that goes on gives something.
    refine absurd ((?_ : Ensures (fun o _ => o.isSome) _) _ _ _ hend) (by simp)
    split
    · exact .next fun _ => .pure fun _ => rfl
    · exact .next fun _ => .pure fun _ => rfl

theorem block_tells : Tells true Kept (block self) c := by
  refine .look (atLineEnd_looks c) fun ends _ => ?_
  split
  · refine (inlineComment_tells c).next fun told trailing c ht => ?_
    refine .silent (newline_tells c) fun _ c => (comments_tells c).next fun more comments c hc => ?_
    refine .peek ?_
    split
    · rename_i hindent
      refine .advance (by rw [eq_of_beq hindent]; rfl) ?_
      refine (statementsUpTo_tells hself _ _).next fun rest body c hb => ?_
      refine .silent ((Tells.accepted rfl).map fun _ _ h => h) fun _ c => ?_
      exact .pure (by simpa using (ht.append hc).append hb)
    · exact .fail _
  · exact simpleLine_tells c

theorem colonBlock_tells : Tells true Kept (colonBlock self) c :=
  .behind (.expected rfl) fun _ c _ => (block_tells hself c).relax

theorem blockBefore_tells (words : List Keyword) : Tells true Kept (blockBefore self words) c := by
  refine (colonBlock_tells hself c).bind fun told body c hb => ?_
  exact (commentsBefore_tells words c).next fun more cs c hc => .pure (by simpa using hb.append hc)

theorem clauseBlock_tells (word : Keyword) : Tells false Kept (clauseBlock self word) c := by
  refine Tells.next (J := fun told o => Kept told (o.getD [])) ?_ fun told o c hk => ?_
  · refine .accept rfl (fun _ => ?_) fun _ => .pure .nil
    exact (colonBlock_tells hself _).bind fun told body c hk => .pure (by simpa using hk)
  · exact .pure (by simpa using hk)

theorem functionDef_tells (start : Place) (mode : Mode) {decorators : List Expr}
    (hd : exprs .plain decorators) :
    Tells true (fun told s => Kept told [s]) (functionDef self start mode decorators) c := by
  refine .behind (.expected rfl) fun _ c _ => .behind .identifier fun name c hname => ?_
  refine .behind (.expected rfl) fun _ c _ => ?_
  refine .past (parameters_forms expr_forms c _ true) fun params c hp => ?_
  refine .behind (.expected rfl) fun _ c _ => ?_
  refine .past (.after rfl fun c => expr_forms .test c) fun returns c hr => ?_
  refine (colonBlock_tells hself c).bind fun told body c hb => .spanned fun _ => ?_
  refine .single rfl ?_ (by simpa [Stmt.children] using hb.comments)
  simp only [Stmt.isFormed, Bool.and_eq_true]
  exact ⟨⟨⟨⟨hname, hp⟩, expr?_eq_true.2 hr⟩, hd⟩, hb.stmts⟩

theorem classDef_tells (start : Place) {decorators : List Expr} (hd : exprs .plain decorators) :
    Tells true (fun told s => Kept told [s]) (classDef self start decorators) c := by
  refine .behind (.expected rfl) fun _ c _ => .behind .identifier fun name c hname => ?_
  have hbody (bases : List Expr) (keywords : List Argument) (hb : exprs .plain bases)
      (hk : arguments keywords) (c : Cursor) : Tells false (fun told s => Kept told [s]) (do
        let body ← colonBlock self
        return .classDef (← spanFrom start) name bases keywords decorators body) c := by
    refine (colonBlock_tells hself c).bind fun told body c hs => .spanned fun _ => ?_
    refine .single rfl ?_ (by simpa [Stmt.children] using hs.comments)
    simp only [Stmt.isFormed, Bool.and_eq_true]
    exact ⟨⟨⟨⟨hname, hb⟩, hk⟩, hd⟩, hs.stmts⟩
  refine .accept rfl (fun _ => ?_) fun _ => ?_
  · refine .past (callArguments_forms expr_forms _) fun args c h => ?_
    exact .behind (.expected rfl) fun _ c _ => hbody args.1 args.2 h.1 h.2 c
  · exact hbody [] [] rfl rfl c

/-- A block and the alternative behind it. -/
theorem branch_tells (n : Nat) (hl : passable c.next.lexeme) :
    Tells true (fun told s => Kept told [s]) (branch self n) c := by
  induction n generalizing c with
  | zero => exact .fail _
  | succ n ih =>
    refine .place fun start => .advance hl (.behind (expr_forms .named _) fun test c ht => ?_)
    refine (blockBefore_tells hself c _).bind fun told body c hb => .sees ?_
    have hdone {more : List Comment} {orelse : List Stmt} (ho : Kept more orelse) (span : Span) :
        Kept (told ++ (more ++ [])) [.branch span test body orelse] := by
      refine .single rfl ?_ ?_
      · simp only [Stmt.isFormed, Bool.and_eq_true]
        exact ⟨⟨ht, hb.stmts⟩, ho.stmts⟩
      · simpa [Stmt.children] using (hb.append ho).comments
    split
    · rename_i helif
      have hnext := ih c (by rw [eq_of_beq helif]; rfl)
      exact (hnext.map (K := Kept) fun _ _ h => h).bind fun more orelse c ho => .spanned (hdone ho)
    · exact (clauseBlock_tells hself c _).next fun more orelse c ho => .spanned (hdone ho)

theorem whileLoop_tells (start : Place) :
    Tells true (fun told s => Kept told [s]) (whileLoop self start) c := by
  refine .behind (.expected rfl) fun _ c _ => .behind (expr_forms .named c) fun test c ht => ?_
  refine (blockBefore_tells hself c _).bind fun told body c hb => ?_
  refine (clauseBlock_tells hself c _).next fun more orelse c ho => .spanned fun _ =>
    .single rfl ?_ ?_
  · simp only [Stmt.isFormed, Bool.and_eq_true]
    exact ⟨⟨ht, hb.stmts⟩, ho.stmts⟩
  · simpa [Stmt.children] using (hb.append ho).comments

theorem forLoop_tells (start : Place) (mode : Mode) :
    Tells true (fun told s => Kept told [s]) (forLoop self start mode) c := by
  refine .behind (.expected rfl) fun _ c _ => .behind (targetList_forms expr_forms c)
    fun target c ht => ?_
  refine .behind (.expected rfl) fun _ c _ => .behind (expr_forms .tuple c) fun iter c hi => ?_
  refine (blockBefore_tells hself c _).bind fun told body c hb => ?_
  refine (clauseBlock_tells hself c _).next fun more orelse c ho => .spanned fun _ =>
    .single rfl ?_ ?_
  · simp only [Stmt.isFormed, Bool.and_eq_true]
    exact ⟨⟨⟨ht, hi⟩, hb.stmts⟩, ho.stmts⟩
  · simpa [Stmt.children] using (hb.append ho).comments

omit hself in
theorem withItem_obtains : Obtains true (fun i => i.isFormed) withItem c := by
  refine (expr_forms .test c).bind fun context c hc => ?_
  refine (Obtains.after rfl fun c => starOr_forms expr_forms c .bitOr).next
    fun target c ht => .pure ?_
  exact Bool.and_eq_true_iff.2 ⟨hc, expr?_eq_true.2 ht⟩

omit hself in
theorem withItems_obtains :
    Obtains true (fun is => is ≠ [] ∧ ∀ i ∈ is, i.isFormed) withItems c := by
  refine .sees ?_
  split
  · refine .orElse (.expect rfl ?_) (commaSeparated_obtains withItem_obtains c)
    refine (Obtains.listUpTo withItem_obtains).next fun is c his => .expect rfl (.sees ?_)
    split
    · exact .fail _
    · rename_i hne
      exact .pure ⟨by simp at hne; exact hne.2, his⟩
  · exact commaSeparated_obtains withItem_obtains c

theorem withBlock_tells (start : Place) (mode : Mode) :
    Tells true (fun told s => Kept told [s]) (withBlock self start mode) c := by
  refine .behind (.expected rfl) fun _ c _ => .behind (withItems_obtains c)
    fun is c ⟨hne, his⟩ => ?_
  refine (colonBlock_tells hself c).bind fun told body c hb => .spanned fun _ => ?_
  refine .single rfl ?_ (by simpa [Stmt.children] using hb.comments)
  simp only [Stmt.isFormed, Bool.and_eq_true, List.all_eq_true]
  exact ⟨⟨by simpa using hne, his⟩, hb.stmts⟩

theorem handler_tells :
    Tells true (fun told h => Kept told h.2.body ∧ h.2.isFormed) (handler self) c := by
  have hbody (star : Bool) (type : Option Expr) (name : Option String) (ht : expr? .plain type)
      (hn : name.all isIdentifier) (hname : type.isSome || name.isNone) (c : Cursor) :
      Tells false (fun told (h : Bool × Handler) => Kept told h.2.body ∧ h.2.isFormed) (do
        let body ← blockBefore self [.except_, .else_, .finally_]
        return (star, ⟨type, name, body⟩)) c := by
    refine (blockBefore_tells hself c _).bind fun told body c hb => .pure ?_
    rw [List.append_nil]
    simp only [Handler.isFormed, Bool.and_eq_true]
    exact ⟨hb, ⟨⟨ht, hn⟩, hname⟩, hb.stmts⟩
  refine .behind (.expected rfl) fun _ c _ => .past (.accepted rfl) fun star c _ => .sees ?_
  dsimp only
  split
  · exact hbody star none none rfl rfl rfl c
  · refine .behind (expr_forms .test c) fun type c ht => ?_
    refine .past (.after rfl fun c => .identifier) fun name c hn => ?_
    refine hbody star (some type) name ht ?_ rfl c
    cases name with
    | none => rfl
    | some name => exact hn name rfl

theorem tryBlock_tells (start : Place) :
    Tells true (fun told s => Kept told [s]) (tryBlock self start) c := by
  refine .behind (.expected rfl) fun _ c _ => (blockBefore_tells hself c _).bind
    fun ta body c hb => ?_
  refine Tells.next (Tells.many (P := fun h => h.2.isFormed) (fun h => h.2.body)
    (fun c => .sees ?_) c)
    fun tb handlers c ⟨hh, hformed⟩ => ?_
  · split
    · refine (handler_tells hself c).bind fun told h c hk => .pure ⟨by simpa using hk.1, ?_⟩
      exact fun _ hx => Option.some.inj hx ▸ hk.2
    · exact .pure ⟨.nil, nofun⟩
  refine (clauseBlock_tells hself c _).next fun tc orelse c ho => ?_
  refine (commentsBefore_tells _ c).next fun td cs c hc => ?_
  refine (clauseBlock_tells hself c _).next fun te final c hl => ?_
  dsimp only
  split
  · exact .fail _
  · rename_i hne
    refine .spanned fun span => ?_
    have hg : Guarded.IsFormed ⟨body, handlers.map Prod.snd, orelse⟩ :=
      ⟨hb.stmts, handlers_eq_true.2 (List.forall_mem_map.2 hformed), ho.stmts⟩
    obtain ⟨⟨hbody, hhandlers, horelse⟩, hempty⟩ := hg.append hc.stmts
    refine .single rfl ?_ ?_
    · simp only [Stmt.isFormed, Bool.and_eq_true, hempty]
      exact ⟨⟨⟨⟨hbody, hhandlers⟩, horelse⟩, hl.stmts⟩, by cases handlers <;> simp_all⟩
    · have hstmts := Guarded.append_stmts ⟨body, handlers.map Prod.snd, orelse⟩ cs
      have hall := ((((hb.append hh).append ho).append hc).append hl).comments
      rw [Stmt.children, ← List.append_assoc _ _ final, ← List.append_assoc _ _ final]
      refine Eq.trans ?_ (congrArg (fun ss => (ss ++ final).flatMap Walk.ofStmt) hstmts.symm)
      simpa [Guarded.stmts, List.flatMap_map] using hall

theorem asyncStatement_tells (start : Place) {decorators : List Expr}
    (hd : exprs .plain decorators) :
    Tells true (fun told s => Kept told [s]) (asyncStatement self start decorators) c := by
  refine .behind (.expected rfl) fun _ c _ => .peek ?_
  split
  · exact (functionDef_tells hself c start .async hd).relax
  · split
    · exact (forLoop_tells hself c start .async).relax
    · exact .fail _
  · split
    · exact (withBlock_tells hself c start .async).relax
    · exact .fail _
  · exact .fail _

omit hself in
theorem decorator_tells : Tells false (fun told o => Kept told (o.elim [] Prod.snd) ∧
    ∀ line ∈ o, line.1.isFormed .plain) decorator c := by
  refine .accept rfl (fun _ => .behind (expr_forms .named _) fun value c hv => ?_) fun _ =>
    .pure ⟨.nil, nofun⟩
  refine (inlineComment_tells c).next fun told trailing c ht => .silent (newline_tells c)
    fun _ c => ?_
  refine (comments_tells c).next fun more comments c hc => .pure ⟨by simpa using ht.append hc, ?_⟩
  exact fun _ hx => Option.some.inj hx ▸ hv

theorem decorated_tells : Tells true Kept (decorated self) c := by
  refine .place fun start => ?_
  refine Tells.next (Tells.many (P := fun line => line.1.isFormed .plain) Prod.snd
    decorator_tells c)
    fun told lines c ⟨hk, hlines⟩ => .peek ?_
  have hd : exprs .plain (lines.map Prod.fst) := exprs_eq_true.2 (List.forall_mem_map.2 hlines)
  have hdone {p : Rule Stmt} (hp : Tells true (fun told s => Kept told [s]) p c) :
      Tells true (fun more ss => Kept (told ++ more) ss) (do
        let definition ← p
        return lines.flatMap Prod.snd ++ [definition]) c :=
    hp.bind fun more s c hs => .pure (by simpa using hk.append hs)
  dsimp only
  split
  · exact hdone (functionDef_tells hself c start .sync hd)
  · exact hdone (classDef_tells hself c start hd)
  · exact hdone (asyncStatement_tells hself c start hd)
  · exact hdone (.fail _)

theorem statement_tells : Tells true Kept (statement self) c := by
  have hone {p : Rule Stmt} (hp : Tells true (fun told s => Kept told [s]) p c) :
      Tells true Kept (List.singleton <$> p) c := hp.map fun _ _ h => h
  refine .place fun start => .peek ?_
  split
  · rename_i text inline hl
    exact (comment_tells_of_next hl).bind fun told o c hk => .pure (by rwa [List.append_nil])
  · exact .fail _
  · exact decorated_tells hself c
  · exact hone (functionDef_tells hself c start .sync rfl)
  · exact hone (classDef_tells hself c start rfl)
  · rename_i hl
    exact hone ((branch_tells hself c c.size (by rw [hl]; rfl)).congr rfl)
  · exact hone (whileLoop_tells hself c start)
  · exact hone (forLoop_tells hself c start .sync)
  · exact hone (tryBlock_tells hself c start)
  · exact hone (withBlock_tells hself c start .sync)
  · exact hone (asyncStatement_tells hself c start rfl)
  · exact simpleLine_tells c

end Compound

theorem parseStatements_tells (depth : Nat) (c : Cursor) :
    Tells true Kept (parseStatements depth) c := by
  induction depth generalizing c with
  | zero => exact .fail _
  | succ depth ih => exact statement_tells ih c

end Blocks

end AsyncErasure.Grammar
