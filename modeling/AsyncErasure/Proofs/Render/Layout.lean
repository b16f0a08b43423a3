import AsyncErasure.Proofs.Render.Row

namespace AsyncErasure

open Fragment Lexeme

namespace Fragment

variable {a fs : List Fragment} {p : Char → Bool}

structure Prints (fs : List Fragment) : Prop where
  begins : ∃ l gs, fs = .lexeme l :: gs
  spelled : Spelled isBreak fs

theorem Prints.isCode (h : Prints fs) : Row.IsCode fs :=
  ⟨h.begins, h.spelled.legible, h.spelled.balanced, h.spelled.unified⟩

namespace Spelled

theorem colon (h : Spelled isBreak fs) : Spelled isBreak (fs ++ [Fragment.sign .colon]) :=
  h.append (signBreak rfl) leads_colon

theorem signBetween {s : Symbol} (hf : isFlat (.symbol s)) :
    Spelled (fun _ => true) [Fragment.blank, Fragment.sign s, Fragment.blank] :=
  (signBlank hf nil).blank

/-- An optional expression behind what leads to it. -/
theorem option (ha : Spelled isBreak a) {lead : List Fragment} (hs : Spelled (fun _ => true) lead)
    (hl : Leads isBreak lead) {slot : Slot} {e : Option Expr} (hf : Fits.expr? slot e)
    (context : Level) : Spelled isBreak (a ++ Spelling.behind lead context e) := by
  cases e with
  | none => exact (List.append_nil a).symm ▸ ha
  | some e =>
    have he := e.reads.inContext hf context
    exact ha.append (hs.append_of_head he (by simp)) (leads_append hl)

theorem lead (mode : Mode) (k : Keyword) (h : Spelled p fs) : Spelled p (lead mode k ++ fs) := by
  cases mode with
  | sync => exact wordBlank k h
  | async => exact wordBlank .async_ (wordBlank k h)

theorem renamed (ha : Spelled isBreak a) {id : Option String} (hid : id.all isIdentifier) :
    Spelled isBreak (a ++ renamed id) := by
  cases id with
  | none => exact (List.append_nil a).symm ▸ ha
  | some id => exact ha.append (wordBlank .as_ (name hid)).blank leads_blank

theorem path {text : String} (h : isPath text) : Spelled isBreak (path text) := by
  have hid := List.all_eq_true.1 h
  have hdotted (ids : List (List Char)) (hids : ∀ id ∈ ids, isIdentifier (String.ofList id)) :
      Spelled isDotted ([Fragment.sign .dot].intercalate
        (ids.map fun id => [Fragment.name (String.ofList id)])) := by
    induction ids with
    | nil => exact nil
    | cons id ids ih =>
      cases ids with
      | nil => simpa using nameDotted (hids id (by simp))
      | cons id' ids =>
        have hrest := ih fun x hx => hids x (List.mem_cons_of_mem _ hx)
        rw [List.map_cons, List.map_cons, List.intercalate_cons_cons, List.append_assoc]
        refine (nameDotted (hids id (by simp))).append ?_ ⟨'.', _, rfl, rfl⟩
        refine (sign rfl).append hrest ?_
        cases ids with
        | nil => exact leads_name (hids id' (by simp)) .dot
        | cons => exact leads_name (hids id' (by simp)) .dot
  exact (hdotted _ hid).mono fun d hd => by simp [isDotted, hd]

theorem imported {id : String} (h : id = "*" ∨ isIdentifier id) :
    Spelled isBreak (imported id) := by
  unfold Fragment.imported
  split
  · exact signBreak rfl
  · rename_i hne
    exact name (h.resolve_left hne)

def endsDots (d : Char) : Bool := ends (.symbol .dot) d && ends (.symbol .ellipsis) d

theorem ellipses (n : Nat) :
    Spelled (ends (.symbol .ellipsis)) (List.replicate n (Fragment.sign .ellipsis)) := by
  induction n with
  | zero => exact nil
  | succ n ih =>
    rw [List.replicate_succ, ← List.singleton_append]
    refine (sign rfl).append_of_imp ih ?_ fun _ h => h
    cases n with
    | zero => exact .inl rfl
    | succ n => exact .inr ⟨'.', _, rfl, by decide⟩

/-- Two dots in a row, which a third one would make an ellipsis. -/
theorem doubleDot : Spelled (ends (.symbol .dot)) [Fragment.sign .dot, Fragment.sign .dot] := by
  refine ⟨fun rest hr => ⟨?_, (sign rfl).legible rest hr⟩, ?_, by decide⟩
  · have hrest : ∀ d ∈ rest.head?, d ≠ '.' := by
      rintro d hd rfl
      exact absurd (hr _ hd) (by decide)
    refine ⟨'.', [], rfl, ?_⟩
    change Token.munch '.' ('.' :: rest) = _
    have hsymbol : Symbol.munch ('.' :: '.' :: rest) = some .dot := by
      cases rest with
      | nil => rfl
      | cons d rest =>
        have hd := (hrest d rfl).symm
        simp [Symbol.munch, Symbol.all, Symbol.chars, List.isPrefixOf, hd, Bracket.opening,
          Bracket.closing]
    have hquote : Literal.isQuote '.' = false := rfl
    have hname : Text.isNameStart '.' = false := by decide +kernel
    simp [Token.munch, Token.startsWithDigit, hsymbol, hquote, hname, Symbol.chars, pure,
      Except.pure]
  · exact fun opened => rfl

theorem dots (level : Nat) : Spelled endsDots (dots level) := by
  have hends (d : Char) (h : endsDots d) : ends (.symbol .dot) d ∧ ends (.symbol .ellipsis) d := by
    simpa [endsDots] using h
  have hsingle : Spelled endsDots (List.replicate (level % 3) (Fragment.sign .dot)) := by
    obtain h | h | h : level % 3 = 0 ∨ level % 3 = 1 ∨ level % 3 = 2 := by omega
    · exact h ▸ nil
    · exact h ▸ (sign rfl).mono fun d hd => (hends d hd).1
    · exact h ▸ doubleDot.mono fun d hd => (hends d hd).1
  refine (ellipses _).append_of_imp hsingle ?_ fun d hd => (hends d hd).2
  cases level % 3 with
  | zero => exact .inl rfl
  | succ n => exact .inr ⟨'.', _, rfl, by decide⟩

end Spelled

end Fragment

namespace Expr

/-- Expressions begin with a lexeme that opens one, whatever brackets they need. -/
theorem head_fragmentsIn {e : Expr} {slot : Slot} (hf : e.fits slot) (hs : slot.slice = false)
    (context : Level) :
    ∃ l gs, e.fragmentsIn context = .lexeme l :: gs ∧ Grammar.startsExpr l := by
  have hheads {n : Nat} {fs : List Fragment} (h : Heads n fs) :
      ∃ l gs, fs = .lexeme l :: gs ∧ Grammar.startsExpr l := by
    obtain ⟨l, gs, hfs, -, hs, -⟩ := h
    exact ⟨l, gs, hfs, hs⟩
  cases hform : e.isForm with
  | true =>
    obtain h | ⟨h, -⟩ := fragmentsIn_cases context hform <;> rw [h]
    · exact ⟨_, _, rfl, rfl⟩
    · exact hheads (e.begins.form slot hf hform)
  | false =>
    unfold fragmentsIn enclosed
    split
    · exact ⟨_, _, rfl, rfl⟩
    rename_i hb
    cases e with
    | named s target value =>
      simp only [fits, Bool.and_eq_true] at hf
      obtain ⟨l, gs, h, hl⟩ := hheads (target.begins.heads hf.1.2 .atom (by decide))
      exact ⟨l, gs ++ blank :: sign .walrus :: blank :: value.fragmentsIn .test, by
        rw [fragments, ← fragmentsIn, h]; rfl, hl⟩
    | tuple s elts parenthesized =>
      have hbare : (tuple s elts parenthesized).fragmentsIn .tuple =
          (tuple s elts parenthesized).fragments := by
        simp only [needsBrackets, Bool.or_eq_true, not_or] at hb
        rw [fragmentsIn, enclosed, if_neg]
        simp [needsBrackets, hb, show ¬Level.tuple < Level.tuple by decide]
      exact hbare ▸ hheads ((tuple s elts parenthesized).begins.item slot hf hs .tuple (by decide))
    | starred s value => exact ⟨_, _, rfl, rfl⟩
    | slice => simp [fits, hs] at hf
    | _ => cases hform

end Expr

namespace Spelling

theorem begins_append {a b : List Fragment} (h : ∃ l gs, a = .lexeme l :: gs) :
    ∃ l gs, a ++ b = Fragment.lexeme l :: gs := by
  obtain ⟨l, gs, rfl⟩ := h
  exact ⟨l, gs ++ b, rfl⟩

theorem spelled_commas {α : Type} {f : α → List Fragment} {xs : List α}
    (h : ∀ x ∈ xs, Spelled isBreak (f x)) : Spelled isBreak (commas (xs.map f)) := by
  refine .commas fun x hx => ?_
  obtain ⟨y, hy, rfl⟩ := List.mem_map.1 hx
  exact h y hy

theorem spelled_targets {slot : Slot} {es : List Expr} (hf : Fits.exprs slot es) (context : Level) :
    Spelled isBreak (commas (Spelling.exprs context es)) :=
  .commas (Expr.spelled_exprs (fun e _ => e.reads) hf)

theorem spelled_alias {named : String → List Fragment} {isName : String → Bool} {a : Alias}
    (h : ∀ id, isName id → Spelled isBreak (named id)) (hf : a.fits isName) :
    Spelled isBreak (a.fragments named) := by
  rw [Alias.fits, Bool.and_eq_true] at hf
  exact (h _ hf.1).renamed hf.2

theorem spelled_withItem {i : WithItem} (hf : i.fits) : Spelled isBreak i.fragments := by
  rw [WithItem.fits, Bool.and_eq_true] at hf
  exact (i.context.reads.inContext hf.1 .test).option (.wordBetween .as_) leads_blank hf.2 .test

theorem prints_decorator {e : Expr} (hf : e.fits .plain) :
    Prints (sign .atSign :: e.fragmentsIn .test) :=
  ⟨⟨_, _, rfl⟩, .signHeads rfl (by simp) (e.reads.inContext hf .test)
    (e.begins.heads hf _ (by decide))⟩

theorem prints_handler {star : Bool} {type : Option Expr} {name : Option String}
    (ht : Fits.expr? .plain type) (hn : name.all isIdentifier) :
    Prints (handler star type name) := by
  have hword : Spelled isBreak (word .except_ :: if star then [sign .star] else []) := by
    cases star with
    | false => exact .word _
    | true =>
      have hexcept : Spelled (ends (.keyword .except_)) [word .except_] :=
        .single (isWhole_keyword _) (return_notMem (isWhole_keyword _) (by simp)) rfl
      exact hexcept.append (.signBreak rfl) ⟨'*', [], rfl, by decide +kernel⟩
  refine ⟨begins_append ⟨_, _, rfl⟩, ?_⟩
  cases type with
  | none => exact hword.colon
  | some e =>
    have he := (e.reads.inContext ht .test).renamed hn
    refine hword.append ?_ leads_blank
    exact (List.append_assoc .. ▸ he.colon).blank

theorem spelled_condition {test : Expr} (hf : test.fits .plain) :
    Spelled isBreak (condition test) := by
  cases test <;> exact Expr.reads _ |>.inContext hf _

theorem prints_expr {e : Expr} {slot : Slot} (hf : e.fits slot) (hs : slot.slice = false)
    (context : Level) : Prints (e.fragmentsIn context) := by
  obtain ⟨l, gs, h, -⟩ := Expr.head_fragmentsIn hf hs context
  exact ⟨⟨l, gs, h⟩, e.reads.inContext hf context⟩

theorem prints_annotated {target : Expr} (simple : Bool) (hf : target.fits .element) :
    Prints (annotated target simple) := by
  unfold annotated
  split
  · exact ⟨⟨_, _, rfl⟩, ((target.reads.inContext hf .test).enclose .round).mono fun d hd => by
      simp [isDotted, hd]⟩
  · exact prints_expr hf rfl .test

theorem prints_word (k : Keyword) {fs : List Fragment} (h : Spelled isBreak fs) :
    Prints (word k :: blank :: fs) :=
  ⟨⟨_, _, rfl⟩, .wordBlank k h⟩

theorem prints_lead (mode : Mode) (k : Keyword) {fs : List Fragment} (h : Spelled isBreak fs) :
    Prints (lead mode k ++ fs) :=
  ⟨by cases mode <;> exact ⟨_, _, rfl⟩, h.lead mode k⟩

theorem Prints.append {a b : List Fragment} (ha : Prints a) (hb : Spelled isBreak b)
    (hl : Leads isBreak b) : Prints (a ++ b) :=
  ⟨begins_append ha.begins, ha.spelled.append hb hl⟩

/-- The targets of an assignment and its value. -/
theorem prints_assigned {targets : List Expr} {value : Expr} (ht : Fits.exprs .elements targets)
    (hv : value.fits .elements) :
    Prints ((targets.flatMap fun e => e.fragmentsIn .tuple ++ [blank, sign .assign, blank]) ++
      value.fragmentsIn .yielded) := by
  induction targets with
  | nil => exact prints_expr hv rfl _
  | cons e es ih =>
    rw [Fits.exprs, Bool.and_eq_true] at ht
    rw [List.flatMap_cons, List.append_assoc, List.append_assoc]
    exact Prints.append (prints_expr ht.1 rfl _) (Spelled.signBlank rfl (ih ht.2).spelled).blank
      leads_blank

theorem spelled_imports {names : List Alias} (hf : Fits.imported names) :
    Spelled isBreak (commas (names.map (Alias.fragments imported))) := by
  rw [Fits.imported, Bool.or_eq_true, beq_iff_eq, Bool.and_eq_true, List.all_eq_true] at hf
  obtain rfl | ⟨-, hf⟩ := hf
  · exact .signBreak rfl
  · exact spelled_commas fun a ha => spelled_alias (fun _ h => .imported (.inr h)) (hf a ha)

theorem spelled_source {path : Option String} (hf : path.all isPath) (level : Nat)
    {fs : List Fragment} (h : Spelled isBreak fs) :
    Spelled isBreak (dots level ++ (path.elim [] Fragment.path ++ blank :: fs)) := by
  cases path with
  | none => exact (Spelled.dots level).append h.blank ⟨' ', _, rfl, by decide⟩
  | some text =>
    refine (Spelled.dots level).append ((Spelled.path hf).append h.blank leads_blank) ?_
    obtain ⟨id, ids, hids⟩ := List.exists_cons_of_ne_nil (List.splitOn_ne_nil '.' text.toList)
    have hid : isIdentifier (String.ofList id) :=
      List.all_eq_true.1 (Option.all_some ▸ hf) id (by simp [hids])
    obtain ⟨gs, hpath⟩ : ∃ gs, Fragment.path text = Fragment.name (String.ofList id) :: gs := by
      rw [Fragment.path, hids]
      cases ids <;> exact ⟨_, rfl⟩
    rw [Option.elim_some, hpath, List.cons_append]
    have hleads (s : Symbol) : Leads (ends (.symbol s))
        (Fragment.name (String.ofList id) :: (gs ++ blank :: fs)) := Spelled.leads_name hid s
    obtain ⟨c, cs, hc, hdot⟩ := hleads .dot
    obtain ⟨c', cs', hc', hellipsis⟩ := hleads .ellipsis
    obtain ⟨rfl, rfl⟩ := List.cons.inj (hc.symm.trans hc')
    exact ⟨c, cs, hc, by simp [Spelled.endsDots, hdot, hellipsis]⟩

/-- The row that a statement begins with. -/
theorem prints_heading (opener : Keyword) {s : Stmt} (hf : s.fits) (hc : s.isCode) :
    Prints (heading opener s) := by
  cases s with
  | functionDef s mode name params returns ds body =>
    simp only [Stmt.fits, Bool.and_eq_true] at hf
    have hparams := Spelled.commas (Expr.spelled_parameters (fun e _ => e.reads) hf.1.1.1.2)
    have hhead := ((Spelled.name hf.1.1.1.1).append (hparams.enclose .round)
      leads_enclose_round).mono (p := isBreak) fun d hd => by simp [isDotted, hd]
    have hreturns := (hhead.option (.signBetween (s := .arrow) rfl) leads_blank hf.1.1.2
        .test).colon
    simpa [heading] using prints_lead mode .def_ hreturns
  | classDef s name bases keywords ds body =>
    simp only [Stmt.fits, Bool.and_eq_true, Fits.arguments_eq_true] at hf
    have hname := Spelled.name hf.1.1.1.1
    rw [heading]
    split
    · exact prints_word _ hname.colon
    · have harguments : ∀ x ∈ Spelling.exprs .test bases ++ arguments keywords,
          Spelled isBreak x := by
        intro x hx
        obtain hx | hx := List.mem_append.1 hx
        · exact Expr.spelled_exprs (fun e _ => e.reads) hf.1.1.1.2 x hx
        · rw [arguments_eq_map] at hx
          obtain ⟨a, ha, rfl⟩ := List.mem_map.1 hx
          exact Expr.spelled_argument a.value.reads (hf.1.1.2 a ha)
      have hhead := (hname.append ((Spelled.commas harguments).enclose .round)
        leads_enclose_round).mono (p := isBreak) fun d hd => by simp [isDotted, hd]
      exact prints_word _ hhead.colon
  | ret s value =>
    exact ⟨⟨_, _, rfl⟩, (Spelled.word .return_).option (.blank .nil) leads_blank hf .tuple⟩
  | delete s targets =>
    simp only [Stmt.fits, Bool.and_eq_true] at hf
    exact prints_word _ (spelled_targets hf.2 .test)
  | assign s targets value =>
    simp only [Stmt.fits, Bool.and_eq_true] at hf
    exact prints_assigned hf.1.2 hf.2
  | augAssign s target op value =>
    simp only [Stmt.fits, Bool.and_eq_true] at hf
    refine Prints.append (prints_expr hf.1 rfl .tuple) ?_ leads_blank
    exact (Spelled.signBlank (by cases op <;> rfl) (value.reads.inContext hf.2 _)).blank
  | annAssign s target hint value simple =>
    simp only [Stmt.fits, Bool.and_eq_true] at hf
    refine Prints.append (prints_annotated simple hf.1.1.1) (.signBlank rfl ?_) leads_colon
    exact (hint.reads.inContext hf.1.1.2 .test).option (.signBetween rfl) leads_blank hf.1.2 _
  | forLoop s mode target iter body orelse =>
    simp only [Stmt.fits, Bool.and_eq_true] at hf
    have hiter := (iter.reads.inContext hf.1.1.2 .tuple).colon
    exact prints_lead mode .for_ ((target.reads.inContext hf.1.1.1 .tuple).append
      (Spelled.wordBlank .in_ hiter).blank leads_blank)
  | whileLoop s test body orelse | branch s test body orelse =>
    simp only [Stmt.fits, Bool.and_eq_true] at hf
    exact prints_word _ (spelled_condition hf.1.1).colon
  | withBlock s mode items body =>
    simp only [Stmt.fits, Fits.withItems, Bool.and_eq_true, List.all_eq_true] at hf
    exact prints_lead mode .with_ (spelled_commas fun i hi =>
      spelled_withItem (hf.1.1.2 i hi)).colon
  | raise s exc cause =>
    simp only [Stmt.fits, Bool.and_eq_true] at hf
    cases exc with
    | none => exact ⟨⟨_, _, rfl⟩, .word _⟩
    | some exc =>
      exact prints_word _ ((exc.reads.inContext hf.1.1 .test).option (.wordBetween .from_)
        leads_blank hf.1.2 _)
  | tryBlock => exact ⟨⟨_, _, rfl⟩, (Spelled.word .try_).colon⟩
  | assert s test msg =>
    simp only [Stmt.fits, Bool.and_eq_true] at hf
    exact prints_word _ ((test.reads.inContext hf.1 .test).option (.signBlank rfl .nil) leads_comma
      hf.2 _)
  | importModules s names =>
    simp only [Stmt.fits, Bool.and_eq_true, List.all_eq_true] at hf
    exact prints_word _ (spelled_commas fun a ha => spelled_alias (fun _ h => .path h) (hf.2 a ha))
  | importFrom s path names level =>
    simp only [Stmt.fits, Bool.and_eq_true] at hf
    exact prints_word _ (spelled_source hf.1.1 level (.wordBlank _ (spelled_imports hf.2)))
  | global s names | nonlocal s names =>
    simp only [Stmt.fits, Bool.and_eq_true, List.all_eq_true] at hf
    exact prints_word _ (spelled_commas fun id hid => .name (hf.2 id hid))
  | expr s value => exact prints_expr hf rfl _
  | pass | breakLoop | continueLoop => exact ⟨⟨_, _, rfl⟩, .word _⟩
  | comment | blank => cases hc

theorem heading_mapBlocks (opener : Keyword) (f : List Stmt → List Stmt) (s : Stmt) :
    heading opener (s.mapBlocks f) = heading opener s := by
  cases s with
  | raise s exc cause => cases exc <;> rfl
  | _ => rfl

theorem prints_detached (opener : Keyword) {s : Stmt} (hf : s.detached.fits) (hc : s.isCode) :
    Prints (heading opener s) := by
  cases s with
  | withBlock s mode items body =>
    have hitems := (Stmt.fits_of_withBlock hf).1
    exact prints_lead mode .with_ (spelled_commas fun i hi => spelled_withItem (hitems i hi)).colon
  | comment | blank => cases hc
  | _ =>
    rw [← heading_mapBlocks opener Block.detach]
    exact prints_heading opener hf rfl

end Spelling

namespace Row

theorem Sound.mono {rows : List Row} {r r' : Bool} {i j : Nat} (h : Sound r i rows) (hr : r → r')
    (hi : i ≤ j) : Sound r' j rows := by
  induction rows generalizing r r' i j with
  | nil => trivial
  | cons row rows ih =>
    cases row with
    | code depth fs => exact ⟨Nat.le_trans h.1 (by omega), h.2⟩
    | comment depth text => exact ⟨h.1, h.2.1, ih h.2.2 id (by omega)⟩
    | remark depth text => exact ⟨hr h.1, h.2.1, ih h.2.2 id hi⟩
    | gap => exact ih h id hi

end Row

namespace Rows

open Row

/-- Rows that may follow a statement of the given depth, whose last line may be `bare`. -/
structure Settles (bare : Bool) (depth : Nat) (rows : List Row) : Prop where
  sound : Sound bare depth rows
  nextDepth : nextDepth rows ≤ depth

/-- The first row of a statement that carries code. -/
theorem head_rows (opener : Keyword) (depth : Nat) {s : Stmt} (h : s.isCode) :
    ∃ fs rows, s.rows opener depth = .code depth fs :: rows := by
  cases s with
  | functionDef _ _ _ _ _ ds | classDef _ _ _ _ ds =>
    rw [Stmt.rows]
    cases ds <;> exact ⟨_, _, rfl⟩
  | forLoop | whileLoop | branch | withBlock | tryBlock =>
    rw [Stmt.rows]
    exact ⟨_, _, rfl⟩
  | comment | blank => cases h
  | _ => exact ⟨_, _, Stmt.rows_simple opener depth rfl⟩

theorem nextDepth_stmts (depth : Nat) (begun pending : Bool) (ss : List Stmt) {rest : List Row}
    (hn : nextDepth rest ≤ depth) : nextDepth (stmts depth begun pending ss ++ rest) ≤ depth := by
  induction ss generalizing begun pending with
  | nil => exact hn
  | cons s ss ih =>
    rw [stmts]
    split
    · exact ih ..
    · have hs : nextDepth (s.rows .if_ depth ++ (stmts depth true false ss ++ rest)) ≤ depth := by
        cases hc : s.isCode with
        | true =>
          obtain ⟨fs, rows, h⟩ := head_rows .if_ depth hc
          rw [h]
          exact Nat.le_refl _
        | false =>
          cases s with
          | comment s text inline => cases inline <;> exact ih ..
          | blank => exact ih ..
          | _ => cases hc
      cases pending <;> simpa [nextDepth] using hs

theorem isRemark_of_isCommentText {text : String} (h : isCommentText text) : IsRemark text := by
  unfold isCommentText at h
  split at h
  · rename_i cs hcs
    exact ⟨cs, hcs, by simp_all⟩
  · cases h

/-- A statement whose rows are sound before whatever may follow it. -/
def Sits (s : Stmt) : Prop :=
  ∀ (opener : Keyword) (depth indent : Nat) (remarkable : Bool) (rest : List Row),
    s.IsLegible → s.isCode → depth ≤ indent + 1 → Settles s.endsBare depth rest →
    Sound remarkable indent (s.rows opener depth ++ rest)

/-- The flags tell whether a remark is allowed next, whether the last line before the statements is
bare, and whether a remark that came next would stand behind a bare line. -/
theorem sound_stmts {ss : List Stmt} (ih : ∀ s ∈ ss, Sits s) {depth outer indent : Nat}
    {begun pending allowed before remarkable : Bool} {rest : List Row}
    (hs : ∀ s ∈ ss, s.IsLegible) (hfit : Block.remarksFit begun allowed ss)
    (ha : allowed → remarkable) (hb : before → remarkable)
    (hp : pending → allowed = false) (hr : Sound (Block.endsBare before ss) outer rest)
    (hn : Row.nextDepth rest ≤ depth) (hd : outer ≤ depth) (hi : outer ≤ indent)
    (hdepth : depth ≤ indent + 1) :
    Sound remarkable indent (stmts depth begun pending ss ++ rest) := by
  induction ss generalizing begun pending allowed before remarkable indent with
  | nil => exact hr.mono hb hi
  | cons s ss ihs =>
    rw [List.forall_mem_cons] at ih hs
    rw [Block.remarksFit] at hfit
    rw [Block.endsBare] at hr
    rw [stmts]
    split at hfit
    · rename_i hblank
      rw [if_pos hblank] at hr ⊢
      exact ihs ih.2 hs.2 hfit (fun h => ha (Bool.and_eq_true_iff.1 h).1) hb
        (fun h => by simp [h]) hr hi hdepth
    · rename_i hblank
      rw [if_neg hblank] at hr ⊢
      simp only [Bool.and_eq_true, Bool.or_eq_true, Bool.not_eq_true'] at hfit
      have htail {indent : Nat} (hi : outer ≤ indent) (hdepth : depth ≤ indent + 1) :
          Sound s.endsBare indent (stmts depth true false ss ++ rest) :=
        ihs ih.2 hs.2 hfit.2 id id (absurd · Bool.false_ne_true) hr hi hdepth
      have hnext := nextDepth_stmts depth true false ss hn
      have hrows {flag : Bool} (hflag : allowed → flag) : Sound flag indent
          (s.rows .if_ depth ++ (stmts depth true false ss ++ rest)) := by
        cases hc : s.isCode with
        | true => exact ih.1 .if_ depth indent flag _ hs.1 hc hdepth ⟨htail hd (by omega), hnext⟩
        | false =>
          cases s with
          | comment s text inline =>
            have hremark := isRemark_of_isCommentText hs.1.detached
            cases inline with
            | true =>
              have hallowed : allowed := by simpa [Stmt.isRemark] using hfit.1
              exact ⟨hflag hallowed, hremark, htail hi hdepth⟩
            | false => exact ⟨hremark, hnext, htail (by omega) (by omega)⟩
          | blank => simp [Stmt.isBlank] at hblank
          | _ => cases hc
      rw [List.append_assoc, List.append_assoc]
      cases pending with
      | false => exact hrows ha
      | true => exact hrows (by simp [hp rfl])

theorem sound_block {body : List Stmt} (ih : ∀ s ∈ body, Sits s) {depth : Nat} {rest : List Row}
    (hf : Fits.block (Block.detached body))
    (hb : Block.remarksFit false true body ∧ ∀ s ∈ body, s.RemarksFit)
    (hr : Settles (Block.endsBare true body) depth rest) :
    Sound true depth (stmts (depth + 1) false false body ++ rest) := by
  rw [Fits.block_eq, Bool.and_eq_true, Block.fits_detached] at hf
  exact sound_stmts ih (fun s hs => ⟨hf.2 s hs, hb.2 s hs⟩) hb.1 id id nofun
    hr.sound (Nat.le_succ_of_le hr.nextDepth)
    (Nat.le_succ _) (Nat.le_refl _) (Nat.le_refl _)

theorem settles_code {bare : Bool} {depth : Nat} {fs : List Fragment} {rows : List Row}
    (hfs : Prints fs) (hr : Sound true depth rows) : Settles bare depth (.code depth fs :: rows) :=
  ⟨⟨Nat.le_succ _, hfs.isCode, hr⟩, Nat.le_refl _⟩

theorem endsBare_mono {before before' : Bool} (h : before → before') (body : List Stmt) :
    Block.endsBare before body → Block.endsBare before' body := by
  induction body generalizing before before' with
  | nil => exact h
  | cons s ss ih =>
    rw [Block.endsBare, Block.endsBare]
    refine ih ?_
    split
    · exact h
    · exact id

theorem settles_clause {body : List Stmt} (ih : ∀ s ∈ body, Sits s) (k : Keyword) {bare : Bool}
    {depth : Nat} {rest : List Row} (hf : Fits.clause (Block.detached body))
    (hb : Block.remarksFit false true body ∧ ∀ s ∈ body, s.RemarksFit)
    (hr : Settles (Block.endsBare bare body) depth rest) :
    Settles bare depth (clause k depth body ++ rest) := by
  cases body with
  | nil => exact hr
  | cons s ss =>
    rw [Fits.clause_eq, Block.isEmpty_detached, List.isEmpty_cons, Bool.false_or] at hf
    rw [clause_eq, List.isEmpty_cons]
    have hrest := hr.sound.mono (endsBare_mono (fun _ => rfl) _) (Nat.le_refl _)
    exact settles_code ⟨⟨_, _, rfl⟩, (Spelled.word k).colon⟩
      (sound_block ih hf hb ⟨hrest, hr.nextDepth⟩)

theorem settles_alternative {body : List Stmt} (ih : ∀ s ∈ body, Sits s) {bare : Bool} {depth : Nat}
    {rest : List Row} (hf : Fits.clause (Block.detached body))
    (hb : Block.remarksFit false true body ∧ ∀ s ∈ body, s.RemarksFit)
    (hr : Settles (Block.endsBare bare body) depth rest) :
    Settles bare depth (alternative depth body ++ rest) := by
  cases body with
  | nil => exact hr
  | cons s ss =>
    rw [alternative]
    split
    · rename_i h
      obtain ⟨hbranch, hempty⟩ := Bool.and_eq_true_iff.1 h
      obtain rfl := List.isEmpty_iff.1 hempty
      cases s with
      | branch s test body orelse =>
        rw [Fits.clause_eq, Block.isEmpty_detached, List.isEmpty_cons, Bool.false_or, Fits.block_eq,
          Bool.and_eq_true, Block.fits_detached] at hf
        refine ⟨ih _ (by simp) .elif_ depth depth bare rest ⟨hf.2 _ (by simp), hb.2 _ (by simp)⟩ rfl
          (Nat.le_succ _) hr, ?_⟩
        rw [Stmt.rows]
        exact Nat.le_refl _
      | _ => cases hbranch
    · exact settles_clause ih .else_ hf hb hr

theorem settles_handlers {hs : List Handler} (ih : ∀ s ∈ hs.flatMap Handler.body, Sits s)
    (star : Bool) {bare : Bool} {depth : Nat} {rest : List Row}
    (hf : Fits.handlers (Block.mapHandlers Block.detach hs))
    (hb : ∀ body ∈ hs.map Handler.body,
      Block.remarksFit false true body ∧ ∀ s ∈ body, s.RemarksFit)
    (hr : Settles (Block.handlersEndBare bare hs) depth rest) :
    Settles bare depth (handlers star depth hs ++ rest) := by
  induction hs generalizing bare with
  | nil => exact hr
  | cons h hs ihs =>
    obtain ⟨type, name, body⟩ := h
    simp only [Block.mapHandlers, Handler.mapBlocks, Fits.handlers, Handler.fits,
      Bool.and_eq_true] at hf
    simp only [List.flatMap_cons, List.mem_append] at ih
    rw [List.map_cons, List.forall_mem_cons] at hb
    rw [handlers, Handler.rows, List.append_assoc, List.cons_append]
    exact settles_code (Spelling.prints_handler hf.1.1.1.1 hf.1.1.1.2)
      (sound_block (fun s hs => ih s (.inl hs)) hf.1.2 hb.1
        (ihs (fun s hs => ih s (.inr hs)) hf.2 hb.2 hr))

theorem sound_decorators {exprs : List Expr} {depth indent : Nat} {remarkable : Bool}
    {rows : List Row} (hf : Fits.exprs .plain exprs) (hi : depth ≤ indent + 1)
    (hr : ∀ r i, depth ≤ i + 1 → Sound r i rows) :
    Sound remarkable indent (decorators depth exprs ++ rows) := by
  induction exprs generalizing indent remarkable with
  | nil => exact hr _ _ hi
  | cons e es ih =>
    rw [Fits.exprs, Bool.and_eq_true] at hf
    exact ⟨hi, (Spelling.prints_decorator hf.1).isCode, ih hf.2 (Nat.le_succ _)⟩

/-- The rows of every statement that fits are sound. -/
theorem sits (s : Stmt) : Sits s := by
  induction s using Stmt.childInduction with
  | step s ih =>
  rintro opener depth indent remarkable rest ⟨hf, hremarks⟩ hc hd hr
  have hhead := (Spelling.prints_detached opener hf hc).isCode
  rw [Stmt.remarksFit_iff] at hremarks
  cases s with
  | functionDef | classDef =>
    simp only [Stmt.detached, Stmt.mapBlocks, Stmt.detach, Stmt.fits, Bool.and_eq_true] at hf
    simp only [Stmt.children] at ih
    simp only [Stmt.blocks, List.forall_mem_singleton] at hremarks
    rw [Stmt.rows, List.append_assoc]
    exact sound_decorators hf.1.2 hd fun r i hi => ⟨hi, hhead, sound_block ih hf.2 hremarks hr⟩
  | forLoop | whileLoop =>
    simp only [Stmt.detached, Stmt.mapBlocks, Stmt.detach, Stmt.fits, Bool.and_eq_true] at hf
    simp only [Stmt.children, List.mem_append] at ih
    simp only [Stmt.blocks, List.forall_mem_cons] at hremarks
    rw [Stmt.rows, List.append_assoc]
    exact ⟨hd, hhead, sound_block (fun x hx => ih x (.inl hx)) hf.1.2 hremarks.1
      (settles_clause (fun x hx => ih x (.inr hx)) .else_ hf.2 hremarks.2.1 hr)⟩
  | branch =>
    simp only [Stmt.detached, Stmt.mapBlocks, Stmt.detach, Stmt.fits, Bool.and_eq_true] at hf
    simp only [Stmt.children, List.mem_append] at ih
    simp only [Stmt.blocks, List.forall_mem_cons] at hremarks
    rw [Stmt.rows, List.append_assoc]
    exact ⟨hd, hhead, sound_block (fun x hx => ih x (.inl hx)) hf.1.2 hremarks.1
      (settles_alternative (fun x hx => ih x (.inr hx)) hf.2 hremarks.2.1 hr)⟩
  | withBlock =>
    simp only [Stmt.children] at ih
    simp only [Stmt.blocks, List.forall_mem_singleton] at hremarks
    rw [Stmt.rows]
    exact ⟨hd, hhead, sound_block ih (Stmt.fits_of_withBlock hf).2 hremarks hr⟩
  | tryBlock =>
    simp only [Stmt.detached, Stmt.mapBlocks, Stmt.detach, Stmt.fits, Bool.and_eq_true] at hf
    simp only [Stmt.children, List.mem_append] at ih
    simp only [Stmt.blocks, List.forall_mem_cons, List.forall_mem_append] at hremarks
    obtain ⟨hbody, hhandlers, horelse, hfinal, -⟩ := hremarks
    rw [Stmt.rows, List.append_assoc, List.append_assoc, List.append_assoc]
    have hclosed := settles_clause (fun x hx => ih x (.inr (.inr (.inr hx)))) .finally_ hf.1.1.2
      hfinal hr
    have helse := settles_clause (fun x hx => ih x (.inr (.inr (.inl hx)))) .else_
        hf.1.1.1.2 horelse
      hclosed
    exact ⟨hd, hhead, sound_block (fun x hx => ih x (.inl hx)) hf.1.1.1.1.1 hbody
      (settles_handlers (fun x hx => ih x (.inr (.inl hx))) _ hf.1.1.1.1.2 hhandlers helse)⟩
  | comment | blank => cases hc
  | _ =>
    rw [Stmt.rows_simple opener depth rfl]
    exact ⟨hd, hhead, hr.sound⟩

end Rows

theorem Module.IsLegible.remarksFit {m : Module} (h : m.IsLegible) :
    Block.remarksFit false true m.body ∧ ∀ s ∈ m.body, s.RemarksFit := by
  have hremarks := h.remarks
  rw [blocksInsideOut, Stmt.insideOut_eq, List.forall_mem_append,
    List.forall_mem_singleton] at hremarks
  exact ⟨hremarks.2, fun s hs body hbody => hremarks.1 body (List.mem_flatMap.2 ⟨s, hs, hbody⟩)⟩

/-- The rows of a legible module make a page, unless a remark comes first. -/
theorem Module.IsLegible.sound_rows {m : Module} (h : m.IsLegible)
    (hfirst : Block.remarksFit false false m.body) : Row.Sound false 0 m.rows := by
  have hnothing : Bool.false → Bool.false := id
  have hrows : Row.Sound false 0 (Rows.stmts 0 false false m.body ++ []) :=
    Rows.sound_stmts (fun s _ => Rows.sits s)
      (fun s hs => ⟨Block.fits_detached.1 h.detached s hs, h.remarksFit.2 s hs⟩) hfirst id hnothing
      nofun trivial (Nat.le_refl _)
      (Nat.le_refl 0) (Nat.le_refl _) (Nat.zero_le _)
  rwa [List.append_nil] at hrows

theorem Module.head_rows_ne_gap (m : Module) : m.rows.head? ≠ some .gap := by
  rw [rows]
  generalize m.body = ss
  induction ss with
  | nil => simp [Rows.stmts]
  | cons s ss ih =>
    rw [Rows.stmts]
    split
    · exact ih
    · rename_i hblank
      cases hc : s.isCode with
      | true =>
        obtain ⟨fs, rows, h⟩ := Rows.head_rows .if_ 0 hc
        simp [h]
      | false =>
        cases s with
        | comment s text inline => cases inline <;> simp [Stmt.rows]
        | blank => simp [Stmt.isBlank] at hblank
        | _ => cases hc

/-- The text of a legible module is scanned to the marks of its rows. -/
theorem Module.IsLegible.scan_render {m : Module} (h : m.IsLegible)
    (hfirst : Block.remarksFit false false m.body) :
    ∃ tokens, Token.scan m.render = .ok tokens ∧
      tokens.map Token.mark = Token.marks false 0 0 m.rows := by
  obtain ⟨k, hk⟩ := Piece.toList_assemble (h.sound_rows hfirst) m.head_rows_ne_gap
  exact Token.exists_scan k (h.sound_rows hfirst) (h.render_eq ▸ hk)

theorem Module.sound_rows {m : Module} (h : m.WellFormed) : Row.Sound false 0 m.rows :=
  h.isLegible.sound_rows (Fits.remarksFit_of_stmts h nofun)

theorem Module.scan_render {m : Module} (h : m.WellFormed) :
    ∃ tokens, Token.scan m.render = .ok tokens ∧
      tokens.map Token.mark = Token.marks false 0 0 m.rows :=
  h.isLegible.scan_render (Fits.remarksFit_of_stmts h nofun)

end AsyncErasure
