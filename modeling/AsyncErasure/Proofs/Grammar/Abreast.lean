import AsyncErasure.Proofs.Grammar.Aside

namespace AsyncErasure.Grammar

open Cursor Rule Block

variable {α : Type} {c c' d d' : Cursor}

section Line

theorem simpleLine_level (h : c.Level c') : Follows id Along simpleLine simpleLine c c' := by
  refine .line h (fun _ _ => simpleStatement_agrees) fun first d d' hd => ?_
  refine .line hd (fun _ _ => .many fun _ _ => nextSimple_agrees) fun rest e e' he => ?_
  refine .line he (fun _ _ => inlineComment_agrees) fun trailing k k' hk => ?_
  exact .newline hk.toBeside fun _ _ h => .pure rfl h

/-- Code comes next on both sides. -/
theorem Cursor.Along.beside (h : c.Along c') (hcode : c.next.lexeme.isCode)
    (hout : c'.next.lexeme.isAside = false) : c.Beside c' := by
  have hloose := Lexeme.isLoose_of_isCode hcode
  have hnext := h.lexeme_eq (Lexeme.isLoose_eq_false_iff.1 hloose).1 hout
  exact ⟨h, hloose, hnext ▸ hloose⟩

/-- A line of simple statements, whatever came before it. -/
theorem simpleLine_follows (h : c.Along c') (hout : c'.next.lexeme.isAside = false) :
    Follows id Along simpleLine simpleLine c c' := by
  intro ss d hrun hfine
  obtain ⟨first, m, hfirst, -⟩ := eq_ok_of_bind hrun
  obtain ⟨read, hm, hne, hcoded, -⟩ := simpleStatement_obtains c h.left.scanned first m hfirst
  have hcode : c.next.lexeme.isCode := by
    cases hm with
    | stay => exact absurd rfl (hne rfl)
    | step _ _ => exact (coded_cons.1 hcoded).1
  have hbeside := h.beside hcode hout
  -- The cursors may have come here in different ways, but the statement does not look at that.
  have hlevel : c.Level { c' with reached := c.reached } :=
    ⟨⟨⟨h.code, h.left, ⟨h.right.scanned, h.right.run⟩⟩, hbeside.here, hbeside.there⟩, rfl⟩
  have hanew : Anew simpleLine c' :=
    (simpleStatement_anew (hbeside.next_eq ▸ Lexeme.isLayout_of_isCode hcode)).bind
  rw [← hanew c.reached]
  exact simpleLine_level hlevel ss d hrun hfine

end Line

section Block

variable {depth : Nat} (ih : FollowsTo depth)
include ih

omit ih in
/-- The end of a block, at a dedent or with the text. -/
theorem closeBlock_follows {ss ss' : List Stmt} (h : c.Along c')
    (hnext : c.next.lexeme = c'.next.lexeme)
    (heq : essence ss = essence ss') :
    Follows id Along (discard (accept .dedent) >>= fun _ => pure ss)
      (discard (accept .dedent) >>= fun _ => pure ss') c c' := by
  have hdedent (c : Cursor) : (discard (accept .dedent) : Rule Unit) c =
      .ok ((), if c.next.lexeme = .dedent then c.advance else c) := by
    by_cases hl : c.next.lexeme = .dedent <;> simp [discard, map_const, hl]
  intro a d hrun _
  rw [bind_of_ok (hdedent c)] at hrun
  rw [bind_of_ok (hdedent c'), ← hnext]
  cases hrun
  refine ⟨ss', _, rfl, heq, ?_⟩
  split
  · rename_i hl
    exact h.advance (by rw [hl]; rfl) (by rw [← hnext, hl]; rfl) (by rw [hl]; nofun)
  · exact h

theorem block_follows (h : c.Level c') :
    Follows id Along (block (parseStatements depth)) (block deep) c c' := by
  have hends {extra : List Token} {d : Cursor} : Stays (.line extra) atLineEnd atLineEnd d :=
    bind_pure atLineEnd ▸ atLineEnd_agrees fun _ => .done
  refine .line h (fun _ _ => hends) fun ends d d' hd => ?_
  split
  · refine .line hd (fun _ _ => inlineComment_agrees) fun trailing e e' he => ?_
    refine .newline he.toBeside fun i i' hi => .comments hi fun as as' j j' has has' hj => .peek ?_
    rw [← hj.same]
    split
    · rename_i hindent
      have hindent := eq_of_beq hindent
      have hinside := hj.toAlong.advance (by rw [hindent]; rfl) (by rw [← hj.same, hindent]; rfl)
          (by rw [hindent]; nofun)
      have hclosed (l : Lexeme) (hl : l == .dedent || l == .endMarker) : l.isComment = false := by
        cases l <;> first | rfl | cases hl
      refine .advance (.block (statementsUpTo_follow ih hclosed hinside) (fun body => ?_)
        fun body body' k k' heq ⟨hk, _, hnext⟩ => closeBlock_follows hk hnext ?_)
      · exact .next fun _ => .pure fun _ hfine => by simp_all
      · simp [essence_comments has, essence_comments has', heq]
    · exact .fail _
  · exact simpleLine_level hd

theorem colonBlock_follows (h : c.Beside c') :
    Follows id Along (colonBlock (parseStatements depth)) (colonBlock deep) c c' :=
  .expect h rfl fun hd => block_follows ih hd

theorem blockBefore_follows (h : c.Beside c') (words : List Keyword) :
    Follows id (Keyed words) (blockBefore (parseStatements depth) words) (blockBefore deep words)
      c c' := by
  refine .block (colonBlock_follows ih h) (fun body => ?_) fun body body' d d' heq hd => ?_
  · exact .next fun comments => .pure fun _ hfine => by simp_all
  · refine .commentsBefore hd words fun as as' e e' has has' he => .pure ?_ he
    rw [id, id, essence_append, essence_append, heq, essence_comments has, essence_comments has']

/-- A clause that comes on both sides or on neither. -/
theorem clauseBlock_follows {words : List Keyword} {word : Keyword} (hw : word ∈ words)
    (h : Keyed words c c') :
    Follows id Along (clauseBlock (parseStatements depth) word) (clauseBlock deep word) c c' := by
  have hyes {self : Rule (List Stmt)} {c : Cursor} (hl : c.next.lexeme = .keyword word) :
      clauseBlock self word c = colonBlock self c.advance := by
    simp only [clauseBlock, bind_apply, after_apply, if_pos hl]
    cases colonBlock self c.advance <;> rfl
  have hno {self : Rule (List Stmt)} {c : Cursor} (hl : c.next.lexeme ≠ .keyword word) :
      clauseBlock self word c = .ok ([], c) := by
    simp [clauseBlock, hl]
  intro ss d hrun hfine
  by_cases hl : c.next.lexeme = .keyword word
  · have hl' := (h.sees word hw).1 hl
    have hlevel := (h.toAlong.beside (hl ▸ rfl) (hl' ▸ rfl)).advance (by rw [hl]; rfl)
    rw [hyes hl] at hrun
    rw [hyes hl']
    exact colonBlock_follows ih hlevel.toBeside ss d hrun hfine
  · rw [hno hl] at hrun
    rw [hno fun hl' => hl ((h.sees word hw).2 hl')]
    cases hrun
    exact ⟨[], c', rfl, rfl, h.toAlong⟩

end Block

section Compound

variable {depth : Nat} (ih : FollowsTo depth)

/-- The end of a statement whose last block is read alike. -/
theorem lastBlock_follows {p q : Rule (List Stmt)} {make make' : Span → List Stmt → Stmt}
    {start start' : Place}
    (hp : Follows id Along p q c c') (hin : ∀ s body, body ∈ (make s body).blocks)
    (heq : ∀ s s' body body', essence body = essence body' →
      essence [make s body] = essence [make' s' body']) :
    Follows List.singleton Along (p >>= fun body => spanFrom start >>= fun s => pure (make s body))
      (q >>= fun body => spanFrom start' >>= fun s => pure (make' s body)) c c' :=
  .block hp (fun body => .spanned fun _ hfine => holdFinals_of_mem hfine (hin _ body))
    fun body body' _ _ hbody hd => .spanned (fun s s' => heq s s' body body' hbody) hd

include ih

theorem functionDef_follows {start start' : Place} {mode : Mode}
    {decorators decorators' : List Expr}
    (h : c.Beside c') (hd : Shape.exprs decorators = Shape.exprs decorators') :
    Follows List.singleton Along (functionDef (parseStatements depth) start mode decorators)
      (functionDef deep start' mode decorators') c c' := by
  refine .expect h rfl fun h => .line h (fun _ _ => .identifier) fun id d d' h =>
    .expect h.toBeside rfl fun h => ?_
  refine .line h (fun _ _ => parameters_agrees (agreeBelow_expr _) _ _ (Nat.le_refl _))
    fun params e e' h => ?_
  refine .expect h.toBeside rfl fun h => .line h (fun _ _ => after_expr_agrees (by simp) _)
    fun returns i i' h => ?_
  refine lastBlock_follows (colonBlock_follows ih h.toBeside) (fun _ _ => .head _)
    fun s s' body body' heq => ?_
  show [Stmt.functionDef _ _ _ _ _ (Shape.exprs decorators) (essence body)] =
    [Stmt.functionDef _ _ _ _ _ (Shape.exprs decorators') (essence body')]
  rw [hd, heq]

theorem classDef_follows {start start' : Place} {decorators decorators' : List Expr}
    (h : c.Beside c') (hd : Shape.exprs decorators = Shape.exprs decorators') :
    Follows List.singleton Along (classDef (parseStatements depth) start decorators)
      (classDef deep start' decorators') c c' := by
  refine .expect h rfl fun h => .line h (fun _ _ => .identifier) fun id d d' h => ?_
  refine .line h (fun _ _ => .accepted (by simp)) fun opened e e' h => ?_
  -- With bases or without, the body comes last.
  have hbody (arguments : List Expr × List Argument) {k k' : Cursor} (h : k.Level k') :
      Follows List.singleton Along (colonBlock (parseStatements depth) >>= fun body =>
        spanFrom start >>= fun s =>
          pure (.classDef s id arguments.1 arguments.2 decorators body))
        (colonBlock deep >>= fun body => spanFrom start' >>= fun s =>
          pure (.classDef s id arguments.1 arguments.2 decorators' body)) k k' := by
    refine lastBlock_follows (colonBlock_follows ih h.toBeside) (fun _ _ => .head _)
      fun s s' body body' heq => ?_
    show [Stmt.classDef _ _ _ _ (Shape.exprs decorators) (essence body)] =
      [Stmt.classDef _ _ _ _ (Shape.exprs decorators') (essence body')]
    rw [hd, heq]
  split
  · refine .line h (fun _ _ => callArguments_agree (agreeBelow_expr _) (Nat.lt_succ_self _))
      fun arguments i i' h => ?_
    exact .expect h.toBeside rfl fun h => hbody arguments h
  · exact hbody ([], []) h

/-- A branch whose further branches are read alike. -/
theorem branchWith_follows {nested nested' : Rule Stmt} (h : c.Beside c')
    (hl : c.next.lexeme.isLayout = false)
    (hnested : ∀ d d', d.Beside d' → d.next.lexeme.isLayout = false →
      Follows List.singleton Along nested nested' d d') :
    Follows List.singleton Along (branchWith (parseStatements depth) nested)
      (branchWith deep nested') c c' := by
  refine .place fun start start' => .advance
    (.line (h.advance hl) (fun _ _ => expr_agrees .named _) fun test d d' h => ?_)
  refine .block (blockBefore_follows ih h.toBeside _) (fun body => ?_)
    fun body body' e e' heq h => ?_
  · have hbody {s : Span} {orelse : List Stmt} (hfine : holdFinals [.branch s test body orelse]) :
      holdFinals body :=
      holdFinals_of_mem hfine (.head _)
    refine .next fun _ => ?_
    split
    · exact .next fun _ => .spanned fun _ => hbody
    · exact .next fun _ => .spanned fun _ => hbody
  have hin (s : Span) (orelse : List Stmt) : orelse ∈ (Stmt.branch s test body orelse).blocks :=
    .tail _ (.head _)
  have hlast (s s' : Span) (orelse orelse' : List Stmt)
      (horelse : essence orelse = essence orelse') :
      essence [.branch s test body orelse] = essence [.branch s' test body' orelse'] := by
    show [Stmt.branch _ _ (essence body) (essence orelse)] =
      [Stmt.branch _ _ (essence body') (essence orelse')]
    rw [heq, horelse]
  refine .sees (h.sees .elif_ (by simp)) (fun helif => ?_) fun _ => ?_
  · have hbeside := h.toAlong.beside (helif ▸ rfl) ((h.sees .elif_ (by simp)).1 helif ▸ rfl)
    exact lastBlock_follows (.singleton (hnested e e' hbeside (by rw [helif]; rfl))) hin hlast
  · exact lastBlock_follows (clauseBlock_follows ih (by simp) h) hin hlast

omit ih in
/-- The tokens left allow for all branches. -/
theorem branch_deep_eq (hs : c.Scanned) (hne : c.next.lexeme ≠ .endMarker) :
    branch deep c.size c = branchWith deep (fun d => branch deep d.size d) c := by
  obtain ⟨n, hn⟩ := Nat.exists_eq_add_of_le' c.one_le_size
  have hdeep (d : Cursor) (_ : d.size < c.size) : Advances (.closing []) deep deep d := deep_agrees
  have hinside : Advances (.closing []) (branchWith deep fun d => branch deep d.size d)
      (branchWith deep (branch deep n)) c := by
    refine branchWith_agrees hdeep hne (Nat.le_refl _) fun d hd hne => ?_
    have hbranch : Advances (.closing []) (branch deep d.size) (branch deep n) d :=
      branch_agrees hdeep hne (by omega) (Nat.le_refl _) (by omega)
    exact hbranch.congr rfl rfl
  rw [hn, branch_succ]
  exact hinside.eq hs

theorem branch_follows (n : Nat) (h : c.Beside c') (hl : c.next.lexeme.isLayout = false) :
    Follows List.singleton Along (branch (parseStatements depth) n) (fun d => branch deep d.size d)
      c c' := by
  -- The induction is on the bound of the first side; the other one unrolls by itself.
  induction n generalizing c c' with
  | zero => exact .fail _
  | succ n hbranch =>
    intro s d hrun hfine
    rw [branch_succ] at hrun
    dsimp only
    rw [branch_deep_eq h.right.scanned (h.next_eq ▸ isLayout_endMarker hl)]
    exact branchWith_follows ih h hl (fun d d' hd hl => hbranch hd hl) s d hrun hfine

/-- The blocks of a loop: its body and its alternatives. -/
theorem loopBlocks_follow {make : Span → List Stmt → List Stmt → Stmt} {start start' : Place}
    (h : c.Beside c')
    (hblocks : ∀ s body orelse, (make s body orelse).blocks = [body, orelse])
    (heq : ∀ s s' body body' orelse orelse', essence body = essence body' →
      essence orelse = essence orelse' →
      essence [make s body orelse] = essence [make s' body' orelse']) :
    Follows List.singleton Along (do
        let body ← blockBefore (parseStatements depth) [.else_]
        let orelse ← clauseBlock (parseStatements depth) .else_
        return make (← spanFrom start) body orelse) (do
        let body ← blockBefore deep [.else_]
        let orelse ← clauseBlock deep .else_
        return make (← spanFrom start') body orelse) c c' := by
  refine .block (blockBefore_follows ih h _) (fun body => ?_) fun body body' d d' hbody h => ?_
  · exact .next fun orelse => .spanned fun _ hfine =>
      holdFinals_of_mem hfine (hblocks _ body orelse ▸ .head _)
  exact lastBlock_follows (clauseBlock_follows ih (by simp) h)
    (fun s orelse => hblocks s body orelse ▸ .tail _ (.head _))
    fun s s' orelse orelse' => heq s s' body body' orelse orelse' hbody

theorem whileLoop_follows {start start' : Place} (h : c.Beside c') :
    Follows List.singleton Along (whileLoop (parseStatements depth) start) (whileLoop deep start')
      c c' := by
  refine .expect h rfl fun h => .line h (fun _ _ => expr_agrees .named _) fun test d d' h => ?_
  refine loopBlocks_follow ih h.toBeside (fun _ _ _ => rfl)
    fun s s' body body' orelse orelse' hb ho => ?_
  show [Stmt.whileLoop _ _ (essence body) (essence orelse)] =
    [Stmt.whileLoop _ _ (essence body') (essence orelse')]
  rw [hb, ho]

theorem forLoop_follows {start start' : Place} {mode : Mode} (h : c.Beside c') :
    Follows List.singleton Along (forLoop (parseStatements depth) start mode)
      (forLoop deep start' mode) c c' := by
  refine .expect h rfl fun h => ?_
  refine .line h (fun _ _ => targetList_agrees (agreeBelow_expr _) (Nat.lt_succ_self _))
    fun target d d' h => ?_
  refine .expect h.toBeside rfl fun h => .line h (fun _ _ => expr_agrees .tuple _)
    fun iter e e' h => ?_
  refine loopBlocks_follow ih h.toBeside (fun _ _ _ => rfl)
    fun s s' body body' orelse orelse' hb ho => ?_
  show [Stmt.forLoop _ _ _ _ (essence body) (essence orelse)] =
    [Stmt.forLoop _ _ _ _ (essence body') (essence orelse')]
  rw [hb, ho]

theorem withBlock_follows {start start' : Place} {mode : Mode} (h : c.Beside c') :
    Follows List.singleton Along (withBlock (parseStatements depth) start mode)
      (withBlock deep start' mode) c c' := by
  refine .expect h rfl fun h => .line h (fun _ _ => withItems_agree) fun items d d' h => ?_
  refine lastBlock_follows (colonBlock_follows ih h.toBeside) (fun _ _ => .head _)
    fun s s' body body' heq => ?_
  show [Stmt.withBlock _ _ _ (essence body)] = [Stmt.withBlock _ _ _ (essence body')]
  rw [heq]

end Compound

section Guarded

namespace Guarded

def close (g : Guarded) (s : Span) (final : List Stmt) (star : Bool) : Stmt :=
  .tryBlock s g.body g.handlers g.orelse final star

variable {g : Guarded} {s : Span} {final comments : List Stmt} {star : Bool}

theorem holdFinals_close : holdFinals [g.close s final star] =
    ((!g.handlers.isEmpty || final.any Stmt.isCode) && (holdFinals g.body &&
      (g.handlers.all (holdFinals ∘ Handler.body) &&
        (holdFinals g.orelse && holdFinals final)))) := by
  simp [close, holdFinals_singleton, Stmt.blocks, Stmt.holdsFinal]

theorem holdFinals_of_append {ss : List Stmt} (h : holdFinals [(g.append ss).close s final star]) :
    holdFinals [g.close s final star] := by
  rw [holdFinals_close] at h ⊢
  obtain ⟨body, handlers, orelse⟩ := g
  unfold append at h
  split at h
  · split at h
    · rename_i x hlast
      obtain ⟨front, rfl⟩ := List.getLast?_eq_some_iff.1 hlast
      simp_all
    · simp_all
  · simp_all

/-- Comments behind the last block make no difference. -/
theorem essence_append (h : ∀ s ∈ comments, s.isComment) :
    essence [(g.append comments).close s final star] = essence [g.close s final star] := by
  obtain ⟨body, handlers, orelse⟩ := g
  have hnone := essence_comments h
  simp only [append, close, essence_tryBlock]
  split
  · split
    · rename_i x hlast
      obtain ⟨front, rfl⟩ := List.getLast?_eq_some_iff.1 hlast
      simp [Handler.essence, hnone]
    · simp [hnone]
  · simp [hnone]

end Guarded

variable {depth : Nat} (ih : FollowsTo depth)
include ih

theorem handler_follows (h : c.Beside c') :
    Follows (fun x => [x.2.alone x.1]) (Keyed [.except_, .else_, .finally_])
      (handler (parseStatements depth)) (handler deep) c c' := by
  refine .expect h rfl fun h => .line h (fun _ _ => .accepted (by simp)) fun star d d' h => ?_
  have hbody (type : Option Expr) (name : Option String) {k k' : Cursor} (h : k.Level k') :
      Follows (fun x : Bool × Handler => [x.2.alone x.1]) (Keyed [.except_, .else_, .finally_])
        (blockBefore (parseStatements depth) [.except_, .else_, .finally_] >>= fun body =>
          pure (star, ⟨type, name, body⟩))
        (blockBefore deep [.except_, .else_, .finally_] >>= fun body =>
          pure (star, ⟨type, name, body⟩)) k k' := by
    refine .block (blockBefore_follows ih h.toBeside _)
      (fun body => .pure fun _ hfine => holdFinals_of_mem hfine (.tail _ (.head _)))
      fun body body' e e' heq he => .pure ?_ he
    show [Stmt.tryBlock _ _ [⟨_, _, essence body⟩] _ _ _] =
      [Stmt.tryBlock _ _ [⟨_, _, essence body'⟩] _ _ _]
    rw [heq]
  have hnext : d.next.lexeme = d'.next.lexeme := by rw [h.next_eq]
  refine .sees (by rw [hnext]) (fun _ => hbody none none h) fun _ => ?_
  refine .line h (fun _ _ => expr_agrees .test _) fun type e e' h => ?_
  exact .line h (fun _ _ => .after (by simp) fun _ => .identifier) fun name i i' h =>
    hbody (some type) name h

theorem handlers_follow (h : Keyed [.except_, .else_, .finally_] c c') :
    Follows (List.map fun x => x.2.alone x.1) (Keyed [.except_, .else_, .finally_])
      (many (nextHandler (parseStatements depth))) (many (nextHandler deep)) c c' := by
  refine .loop (fun h => ⟨h.left.scanned, h.right.scanned⟩)
    (fun d => nextHandler_agrees (fun _ _ => parseStatements_agrees depth) (Nat.le_refl _))
    (fun d => nextHandler_agrees (fun _ _ => deep_agrees) (Nat.le_refl _))
    (fun x => List.cons_ne_nil _ _)
    (fun d d' h => ?_) h
  refine .sees (h.sees .except_ (by simp)) (fun hl => ?_) fun _ => .pure rfl h
  have hbeside := h.toAlong.beside (hl ▸ rfl) ((h.sees .except_ (by simp)).1 hl ▸ rfl)
  exact .andThen (handler_follows ih hbeside) (fun x => .pure fun _ hfine => hfine)
    fun x x' e e' heq he => .pure heq he

omit ih in
theorem holdFinals_alone (hs : List (Bool × Handler)) : holdFinals (hs.map fun x => x.2.alone x.1) =
    (hs.map Prod.snd).all (holdFinals ∘ Handler.body) := by
  induction hs with
  | nil => rfl
  | cons x hs ih =>
    rw [List.map_cons, ← List.singleton_append, holdFinals_append, ih]
    simp [holdFinals_singleton, Handler.alone, Stmt.blocks, Stmt.holdsFinal]

omit ih in
/-- Handlers that are told alike are as many, starred alike, and alike in what is left of them. -/
theorem handlers_alike {hs hs' : List (Bool × Handler)}
    (h : essence (hs.map fun x => x.2.alone x.1) = essence (hs'.map fun x => x.2.alone x.1)) :
    hs.isEmpty = hs'.isEmpty ∧ hs.any Prod.fst = hs'.any Prod.fst ∧
      (hs.map Prod.snd).map Handler.essence = (hs'.map Prod.snd).map Handler.essence := by
  have hkeys : hs.map (fun x => (x.1, x.2.essence)) = hs'.map fun x => (x.1, x.2.essence) := by
    refine keys_eq_of_essence (fun x => x.2.alone x.1) (fun x => essence_tryBlock ..) ?_ h
    rintro ⟨star, x⟩ ⟨star', x'⟩ h
    simp_all [Handler.alone]
  refine ⟨by simpa using congrArg List.isEmpty hkeys, ?_, ?_⟩
  · simpa [List.any_map, Function.comp_def] using congrArg (·.any Prod.fst) hkeys
  · simpa [Function.comp_def] using congrArg (·.map Prod.snd) hkeys

omit ih in
/-- A final block that is needed holds code, so it is not empty on the other side either. -/
theorem guarded_of_essence {handlers : List Handler} {final final' : List Stmt}
    (hguard : !handlers.isEmpty || final.any Stmt.isCode) (h : essence final = essence final') :
    ¬(handlers.isEmpty && final'.isEmpty) := by
  rw [Bool.and_eq_true]
  rintro ⟨hnone, hlost⟩
  have hcode : final.any Stmt.isCode := by simpa [hnone] using hguard
  refine essence_ne_nil hcode ?_
  rw [h, List.isEmpty_iff.1 hlost, essence_nil]

theorem tryBlock_follows {start start' : Place} (h : c.Beside c') :
    Follows List.singleton Along (tryBlock (parseStatements depth) start) (tryBlock deep start')
      c c' := by
  refine .expect h rfl fun h => ?_
  -- What the first side has read, block by block.
  intro stmt d hrun hfine
  obtain ⟨body, m₁, hbody, hrun⟩ := eq_ok_of_bind hrun
  obtain ⟨handlers, m₂, hhandlers, hrun⟩ := eq_ok_of_bind hrun
  obtain ⟨orelse, m₃, horelse, hrun⟩ := eq_ok_of_bind hrun
  obtain ⟨comments, m₄, hcomments, hrun⟩ := eq_ok_of_bind hrun
  obtain ⟨final, m₅, hfinal, hrun⟩ := eq_ok_of_bind hrun
  split at hrun
  · cases hrun
  cases hrun
  have hfines := Guarded.holdFinals_of_append (g := ⟨body, handlers.map Prod.snd, orelse⟩) hfine
  simp only [Guarded.holdFinals_close, Bool.and_eq_true] at hfines
  obtain ⟨hguard, hfine₁, hfine₂, hfine₃, hfine₅⟩ := hfines
  -- The other side reads the like; comments before the final block may go to another block there.
  obtain ⟨body', m₁', hbody', heq₁, h₁⟩ := blockBefore_follows ih h.toBeside _ body m₁ hbody hfine₁
  obtain ⟨handlers', m₂', hhandlers', heq₂, h₂⟩ := handlers_follow ih h₁ handlers m₂ hhandlers
    ((holdFinals_alone handlers).trans hfine₂)
  obtain ⟨orelse', m₃', horelse', heq₃, h₃⟩ :=
    clauseBlock_follows ih (by simp) h₂ orelse m₃ horelse hfine₃
  obtain ⟨as, n, comments', m₄', has, hcomments', h₄, hall, hall'⟩ := h₃.commentsBefore [.finally_]
  cases hcomments.symm.trans has
  obtain ⟨final', m₅', hfinal', heq₅, h₅⟩ :=
    clauseBlock_follows ih (by simp) h₄ final d hfinal hfine₅
  obtain ⟨hempty, hstar, hessences⟩ := handlers_alike heq₂
  rw [id, id] at heq₁ heq₃ heq₅
  have hguard' : ¬(handlers'.isEmpty && final'.isEmpty) := by
    simpa [hempty] using guarded_of_essence hguard heq₅
  refine ⟨(Guarded.append ⟨body', handlers'.map Prod.snd, orelse'⟩ comments').close
    ⟨start', m₅'.reached⟩ final'
    (handlers'.any Prod.fst), m₅', ?_, ?_, h₅⟩
  · refine (bind_of_ok hbody').trans <| (bind_of_ok hhandlers').trans <|
      (bind_of_ok horelse').trans <|
      (bind_of_ok hcomments').trans <| (bind_of_ok hfinal').trans ?_
    rw [if_neg hguard']
    rfl
  · show essence [(Guarded.append _ comments).close _ final _] =
      essence [(Guarded.append _ comments').close _ final' _]
    rw [Guarded.essence_append hall, Guarded.essence_append hall']
    simp only [Guarded.close, essence_tryBlock, hessences, hstar, heq₁, heq₃, heq₅]

end Guarded

section Decorated

variable {depth : Nat} (ih : FollowsTo depth)

/-- A decorator with its comments, as the only one of a class. -/
def carrier (line : Expr × List Stmt) : Stmt := .classDef .nowhere "" [] [] [line.1] line.2

theorem decorators_follow (h : c.Alike c') :
    Follows (List.map carrier) Alike (many decorator) (many decorator) c c' := by
  refine .loop (fun h => ⟨h.left.scanned, h.right.scanned⟩) (fun _ => decorator_agrees)
    (fun _ => decorator_agrees) (fun x => List.cons_ne_nil _ _) (fun d d' h => ?_) h
  refine .accept (by rw [h.same]) (fun hl => ?_) fun _ => .pure rfl h
  have hlevel := (h.toAlong.beside (hl ▸ rfl) (h.same ▸ hl ▸ rfl)).advance (by rw [hl]; rfl)
  refine .line hlevel (fun _ _ => expr_agrees .named _) fun value e e' h => ?_
  refine .line h (fun _ _ => inlineComment_agrees) fun trailing i i' h => ?_
  refine .newline h.toBeside fun j j' h => .comments h fun as as' k k' has has' h => .pure ?_ h
  show [Stmt.classDef _ _ _ _ _ (essence (trailing ++ as))] =
    [Stmt.classDef _ _ _ _ _ (essence (trailing ++ as'))]
  rw [essence_append, essence_append, essence_comments has, essence_comments has']

/-- What comes of decorator lines: the decorators, and the comments among them. -/
theorem carriers_eq {lines lines' : List (Expr × List Stmt)}
    (h : essence (lines.map carrier) = essence (lines'.map carrier)) :
    Shape.exprs (lines.map Prod.fst) = Shape.exprs (lines'.map Prod.fst) ∧
      essence (lines.flatMap Prod.snd) = essence (lines'.flatMap Prod.snd) := by
  have hkeys : lines.map (fun x => (x.1.shape, essence x.2)) = lines'.map fun x =>
      (x.1.shape, essence x.2) := by
    refine keys_eq_of_essence (fun x => .classDef .nowhere "" [] [] [x.1] x.2) (fun x => rfl) ?_ h
    rintro ⟨value, body⟩ ⟨value', body'⟩ h
    simp_all
  have hcomments (lines : List (Expr × List Stmt)) : essence (lines.flatMap Prod.snd) =
      (lines.map fun x => (x.1.shape, essence x.2)).flatMap Prod.snd := by
    induction lines with
    | nil => rfl
    | cons x lines ih => rw [List.flatMap_cons, essence_append, ih]; rfl
  constructor
  · simpa [Shape.exprs_eq_map, Function.comp_def] using congrArg (·.map Prod.fst) hkeys
  · rw [hcomments, hcomments, hkeys]

theorem holdFinals_carriers (lines : List (Expr × List Stmt)) :
    holdFinals (lines.map carrier) = holdFinals (lines.flatMap Prod.snd) := by
  induction lines with
  | nil => rfl
  | cons x lines ih =>
    rw [List.map_cons, ← List.singleton_append, holdFinals_append, List.flatMap_cons,
      holdFinals_append, ih]
    simp [holdFinals_singleton, carrier, Stmt.blocks, Stmt.holdsFinal]

include ih

theorem asyncStatement_follows {start start' : Place} {decorators decorators' : List Expr}
    (h : c.Beside c')
    (hd : Shape.exprs decorators = Shape.exprs decorators') :
    Follows List.singleton Along (asyncStatement (parseStatements depth) start decorators)
      (asyncStatement deep start' decorators') c c' := by
  have hempty : decorators'.isEmpty = decorators.isEmpty := by
    cases decorators <;> cases decorators' <;> first | rfl | cases hd
  refine .expect h rfl fun h => .peek ?_
  rw [← h.next_eq]
  split
  · exact functionDef_follows ih h.toBeside hd
  · rw [hempty]
    split
    · exact forLoop_follows ih h.toBeside
    · exact .fail _
  · rw [hempty]
    split
    · exact withBlock_follows ih h.toBeside
    · exact .fail _
  · exact .fail _

theorem decorated_follows (h : c.Alike c') :
    Follows id Along (decorated (parseStatements depth)) (decorated deep) c c' := by
  refine .place fun start start' => .andThen (decorators_follow h) (fun lines => ?_)
    fun lines lines' d d' heq h => ?_
  · refine .next fun l => ?_
    dsimp only
    split
    all_goals exact .next fun _ => .pure fun _ hfine => by simp_all [holdFinals_carriers]
  obtain ⟨hd, hcomments⟩ := carriers_eq heq
  have hdefined {p q : Rule Stmt} (hp : Follows List.singleton Along p q d d') :
      Follows id Along (p >>= fun s => pure (lines.flatMap Prod.snd ++ [s]))
        (q >>= fun s => pure (lines'.flatMap Prod.snd ++ [s])) d d' := by
    refine .andThen hp (fun s => .pure fun _ hfine => ?_) fun s s' e e' hs he => .pure ?_ he
    · rw [id, holdFinals_append, Bool.and_eq_true] at hfine
      exact hfine.2
    · have hs : essence [s] = essence [s'] := hs
      rw [id, id, essence_append, essence_append, hcomments, hs]
  have hword {k : Keyword} (hl : d.next.lexeme = .keyword k) : d.Beside d' :=
    h.toAlong.beside (hl ▸ rfl) (h.same ▸ hl ▸ rfl)
  refine .peek ?_
  rw [← h.same]
  dsimp only
  split
  · exact hdefined (functionDef_follows ih (hword ‹_›) hd)
  · exact hdefined (classDef_follows ih (hword ‹_›) hd)
  · exact hdefined (asyncStatement_follows ih (hword ‹_›) hd)
  · exact .fail _

theorem statement_follows (h : c.Along c') (hout : c.next.lexeme.isAside = false)
    (hout' : c'.next.lexeme.isAside = false) :
    Follows id Along (statement (parseStatements depth)) (statement deep) c c' := by
  have hnext := h.lexeme_eq hout hout'
  have hword {l : Lexeme} (hl : c.next.lexeme = l) (hcode : l.isCode) : c.Beside c' :=
    h.beside (hl ▸ hcode) hout'
  refine .place fun start start' => .peek ?_
  rw [← hnext]
  split
  · rename_i text inline hl
    intro ss d hrun _
    simp [comment, commentIf, hl] at hrun
    obtain ⟨rfl, rfl⟩ := hrun
    exact ⟨[.comment c'.next.span text inline], c'.advance,
      by simp [comment, commentIf, ← hnext, hl], rfl, h.advance hout hout' (by simp [hl])⟩
  · exact .fail _
  · rename_i hl
    exact decorated_follows ih ⟨h, hnext, by rw [hl]; rfl⟩
  · exact .singleton (functionDef_follows ih (hword ‹_› rfl) rfl)
  · exact .singleton (classDef_follows ih (hword ‹_› rfl) rfl)
  · rename_i hl
    have hbranch := branch_follows ih c.size (hword hl rfl) (by rw [hl]; rfl)
    exact .singleton fun s d hrun => hbranch s d hrun
  · exact .singleton (whileLoop_follows ih (hword ‹_› rfl))
  · exact .singleton (forLoop_follows ih (hword ‹_› rfl))
  · exact .singleton (tryBlock_follows ih (hword ‹_› rfl))
  · exact .singleton (withBlock_follows ih (hword ‹_› rfl))
  · exact .singleton (asyncStatement_follows ih (hword ‹_› rfl) rfl)
  · exact simpleLine_follows h hout'

end Decorated

theorem parseStatements_follows (depth : Nat) : FollowsTo depth := by
  induction depth with
  | zero => exact fun _ _ _ _ _ => .fail _
  | succ depth ih =>
    intro c c' h hout hout' ss d hrun hfine
    rw [deep_eq h.right.scanned]
    exact statement_follows ih h hout hout' ss d hrun hfine

/-- A module is read alike wherever comments of their own stand, if it can do without them. -/
theorem wholeModule_follows (h : c.Along c') :
    Follows Module.body (fun _ _ => True) wholeModule wholeModule c c' := by
  intro m d hrun hfine
  obtain ⟨body, n, hbody, hdone⟩ := eq_ok_of_bind (f := fun body => pure (Module.mk body))
    (by rwa [wholeModule, map_eq_pure_bind] at hrun)
  cases hdone
  obtain ⟨body', d', hbody', heq, -⟩ := statementsUpTo_follow (parseStatements_follows c.size)
    (fun l hl => by rw [eq_of_beq hl]; rfl) h body d hbody hfine
  -- The depth of a module is that of its first cursor, which is deep enough.
  have hdeep : Stays (.closing []) (statementsUpTo (parseStatements c'.size) (· == .endMarker))
      (statementsUpTo deep (· == .endMarker)) c' :=
    statementsUpTo_agree (k := c'.size + 1) (fun e he => parseStatements_agrees_deep (by omega)) _
      (by omega)
  rw [hdeep.eq h.right.scanned] at hbody'
  exact ⟨⟨body'⟩, d', by rw [wholeModule, map_apply, hbody'], heq, trivial⟩

end AsyncErasure.Grammar
