import AsyncErasure.Proofs.Render.Legibility
import AsyncErasure.Proofs.Render.Remark
import AsyncErasure.Proofs.Token.Page
import AsyncErasure.Proofs.Tree.Child
import AsyncErasure.Render.Statement

namespace AsyncErasure

open Fragment

namespace Fragment

def path (text : String) : List Fragment :=
  [sign .dot].intercalate ((text.toList.splitOn '.').map fun id => [name (String.ofList id)])

def imported (id : String) : List Fragment := if id = "*" then [sign .star] else [name id]

/-- The dots before the path of a module; three in a row are one symbol. -/
def dots (level : Nat) : List Fragment :=
  List.replicate (level / 3) (sign .ellipsis) ++ List.replicate (level % 3) (sign .dot)

def renamed (id : Option String) : List Fragment :=
  id.elim [] fun id => [blank, word .as_, blank, name id]

def lead (mode : Mode) (k : Keyword) : List Fragment :=
  if mode = .async then [word .async_, blank, word k, blank] else [word k, blank]

end Fragment

namespace Spelling

def condition (test : Expr) : List Fragment :=
  match test with
  | .named .. => test.fragmentsIn .named
  | _ => test.fragmentsIn .tuple

def annotated (target : Expr) (simple : Bool) : List Fragment :=
  if !simple && target.isName then enclose .round (target.fragmentsIn .test)
  else target.fragmentsIn .test

end Spelling

open Spelling

def Alias.fragments (named : String → List Fragment) (a : Alias) : List Fragment :=
  named a.name ++ renamed a.asName

def WithItem.fragments (i : WithItem) : List Fragment :=
  i.context.fragmentsIn .test ++ behind [blank, word .as_, blank] .test i.target

def Spelling.handler (star : Bool) (type : Option Expr) (name : Option String) : List Fragment :=
  (word .except_ :: if star then [sign .star] else []) ++
    match type with
    | none => [sign .colon]
    | some e => blank :: (e.fragmentsIn .test ++ (renamed name ++ [sign .colon]))

/-- The row that a statement begins with, behind its decorators; `opener` opens a branch. -/
def Spelling.heading (opener : Keyword) : Stmt → List Fragment
  | .functionDef _ mode name params returns _ _ =>
    lead mode .def_ ++ Fragment.name name :: (enclose .round (commas params.fragments) ++
      (behind [blank, sign .arrow, blank] .test returns ++ [sign .colon]))
  | .classDef _ name bases keywords _ _ =>
    word .class_ :: blank :: Fragment.name name ::
      ((if bases.isEmpty && keywords.isEmpty then []
        else enclose .round (commas (exprs .test bases ++ arguments keywords))) ++ [sign .colon])
  | .ret _ value => word .return_ :: behind [blank] .tuple value
  | .delete _ targets => word .del_ :: blank :: commas (exprs .test targets)
  | .assign _ targets value =>
    (targets.flatMap fun e => e.fragmentsIn .tuple ++ [blank, sign .assign, blank]) ++
      value.fragmentsIn .yielded
  | .augAssign _ target op value =>
    target.fragmentsIn .tuple ++ blank :: sign op.assignSymbol :: blank ::
      value.fragmentsIn .yielded
  | .annAssign _ target hint value simple =>
    annotated target simple ++ sign .colon :: blank :: (hint.fragmentsIn .test ++
      behind [blank, sign .assign, blank] .yielded value)
  | .forLoop _ mode target iter _ _ =>
    lead mode .for_ ++ (target.fragmentsIn .tuple ++ blank :: word .in_ :: blank ::
      (iter.fragmentsIn .tuple ++ [sign .colon]))
  | .whileLoop _ test _ _ => word .while_ :: blank :: (condition test ++ [sign .colon])
  | .branch _ test _ _ => word opener :: blank :: (condition test ++ [sign .colon])
  | .withBlock _ mode items _ =>
    lead mode .with_ ++ (commas (items.map WithItem.fragments) ++ [sign .colon])
  | .raise _ none _ => [word .raise_]
  | .raise _ (some exc) cause =>
    word .raise_ :: blank :: (exc.fragmentsIn .test ++
      behind [blank, word .from_, blank] .test cause)
  | .tryBlock .. => [word .try_, sign .colon]
  | .assert _ test msg =>
    word .assert_ :: blank :: (test.fragmentsIn .test ++ behind [sign .comma, blank] .test msg)
  | .importModules _ names => word .import_ :: blank :: commas (names.map (Alias.fragments path))
  | .importFrom _ path names level =>
    word .from_ :: blank :: (dots level ++ (path.elim [] Fragment.path ++ blank :: word .import_ ::
      blank :: commas (names.map (Alias.fragments imported))))
  | .global _ names => word .global_ :: blank :: commas (names.map ([name ·]))
  | .nonlocal _ names => word .nonlocal_ :: blank :: commas (names.map ([name ·]))
  | .expr _ value => value.fragmentsIn .yielded
  | .pass _ => [word .pass_]
  | .breakLoop _ => [word .break_]
  | .continueLoop _ => [word .continue_]
  | .comment .. | .blank _ => []

namespace Rows

def decorators (depth : Nat) (exprs : List Expr) : List Row :=
  exprs.map fun e => .code depth (sign .atSign :: e.fragmentsIn .test)

def opening (depth : Nat) (k : Keyword) : Row := .code depth [word k, sign .colon]

end Rows

mutual

def Stmt.rows (opener : Keyword) (depth : Nat) : Stmt → List Row
  | s@(.functionDef _ _ _ _ _ decorators body) | s@(.classDef _ _ _ _ decorators body) =>
    Rows.decorators depth decorators ++
      .code depth (heading opener s) :: Rows.stmts (depth + 1) false false body
  | s@(.forLoop _ _ _ _ body orelse) | s@(.whileLoop _ _ body orelse) =>
    .code depth (heading opener s) :: Rows.stmts (depth + 1) false false body ++
      Rows.clause .else_ depth orelse
  | s@(.branch _ _ body orelse) =>
    .code depth (heading opener s) :: Rows.stmts (depth + 1) false false body ++
      Rows.alternative depth orelse
  | s@(.withBlock _ _ _ body) =>
    .code depth (heading opener s) :: Rows.stmts (depth + 1) false false body
  | s@(.tryBlock _ body handlers orelse final star) =>
    .code depth (heading opener s) :: Rows.stmts (depth + 1) false false body ++
      Rows.handlers star depth handlers ++ Rows.clause .else_ depth orelse ++
      Rows.clause .finally_ depth final
  | .comment _ text inline => [if inline then .remark depth text else .comment depth text]
  | .blank _ => []
  | s => [.code depth (heading opener s)]

/-- The rows of statements: a blank marker leaves a gap before the next statement, if one came
before it. -/
def Rows.stmts (depth : Nat) (begun pending : Bool) : List Stmt → List Row
  | [] => []
  | s :: ss =>
    if s.isBlank then Rows.stmts depth begun begun ss
    else (if pending then [.gap] else []) ++ s.rows .if_ depth ++ Rows.stmts depth true false ss

def Rows.clause (k : Keyword) (depth : Nat) : List Stmt → List Row
  | [] => []
  | s :: ss =>
    Rows.opening depth k ::
      if s.isBlank then Rows.stmts (depth + 1) false false ss
      else s.rows .if_ (depth + 1) ++ Rows.stmts (depth + 1) true false ss

/-- The alternative of a branch: a branch alone goes on the chain. -/
def Rows.alternative (depth : Nat) : List Stmt → List Row
  | [] => []
  | s :: ss =>
    if s.isBranch && ss.isEmpty then s.rows .elif_ depth
    else
      Rows.opening depth .else_ ::
        if s.isBlank then Rows.stmts (depth + 1) false false ss
        else s.rows .if_ (depth + 1) ++ Rows.stmts (depth + 1) true false ss

def Handler.rows (star : Bool) (depth : Nat) : Handler → List Row
  | ⟨type, name, body⟩ =>
    .code depth (Spelling.handler star type name) :: Rows.stmts (depth + 1) false false body

def Rows.handlers (star : Bool) (depth : Nat) : List Handler → List Row
  | [] => []
  | h :: hs => h.rows star depth ++ Rows.handlers star depth hs

end

theorem Stmt.rows_simple (opener : Keyword) (depth : Nat) {s : Stmt} (h : s.isSimple) :
    s.rows opener depth = [.code depth (heading opener s)] := by
  cases s <;> first | rfl | cases h

namespace Rows

theorem clause_eq (k : Keyword) (depth : Nat) (body : List Stmt) :
    clause k depth body =
      if body.isEmpty then [] else opening depth k :: stmts (depth + 1) false false body := by
  cases body <;> simp [clause, stmts]

theorem alternative_eq (depth : Nat) {body : List Stmt}
    (h : ∀ s t b o, body ≠ [.branch s t b o]) :
    alternative depth body = clause .else_ depth body := by
  cases body with
  | nil => rfl
  | cons s ss =>
    have hne : (s.isBranch && ss.isEmpty) = false := by
      cases s with
      | branch =>
        cases ss with
        | nil => exact absurd rfl (h _ _ _ _)
        | cons => rfl
      | _ => rfl
    simp [alternative, clause, hne]

end Rows

namespace Spelling

theorem spell_path (text : String) : spell (path text) = text.toList := by
  have hmap :
      ((text.toList.splitOn '.').map fun id => [Fragment.name (String.ofList id)]).map spell =
        text.toList.splitOn '.' := by
    rw [List.map_map]
    exact List.map_id'' (fun id => by simp) _
  rw [path, spell_intercalate, hmap]
  exact List.intercalate_splitOn '.'

theorem spell_imported (id : String) : spell (imported id) = id.toList := by
  unfold imported
  split
  · rename_i h
    subst h
    rfl
  · simp

theorem spell_dots (level : Nat) : spell (dots level) = List.replicate level '.' := by
  have hrun (n k : Nat) {s : Symbol} (hs : s.chars = List.replicate k '.') :
      spell (List.replicate n (sign s)) = List.replicate (k * n) '.' := by
    induction n with
    | zero => rfl
    | succ n ih =>
      rw [List.replicate_succ, spell_cons, ih, chars_sign, hs, List.replicate_append_replicate]
      congr 1
      rw [Nat.mul_succ, Nat.add_comm]
  rw [dots, spell_append, hrun _ 3 rfl, hrun _ 1 rfl, List.replicate_append_replicate]
  congr 1
  omega

theorem toList_alias {named : String → List Fragment} (h : ∀ id, spell (named id) = id.toList)
    (a : Alias) : a.text.toList = spell (a.fragments named) := by
  obtain ⟨id, asName⟩ := a
  cases asName <;> simp [Alias.text, Alias.fragments, renamed, h, String.toList_append,
    Keyword.text]

theorem toList_aliases {named : String → List Fragment} (h : ∀ id, spell (named id) = id.toList)
    (names : List Alias) :
    (Render.commas (names.map Alias.text)).toList =
      spell (commas (names.map (Alias.fragments named))) := by
  refine toList_commas ?_
  simp [toList_alias h]

theorem toList_names (names : List String) :
    (Render.commas names).toList = spell (commas (names.map ([name ·]))) := by
  refine toList_commas ?_
  simp

theorem toList_withItems (items : List WithItem) :
    (Render.commas (items.map WithItem.text)).toList =
      spell (commas (items.map WithItem.fragments)) := by
  refine toList_commas ?_
  simp [WithItem.text, WithItem.fragments, String.toList_append, toList_render,
    toList_behind " as " [blank, word .as_, blank] rfl]

theorem toList_condition (test : Expr) :
    (Render.condition test).toList = spell (condition test) := by
  cases test <;> exact toList_render _ _

theorem toList_annotated (target : Expr) (simple : Bool) :
    (Render.annotated target simple).toList = spell (annotated target simple) := by
  unfold Render.annotated annotated
  split
  · exact toList_enclose .round (toList_render _ _)
  · exact toList_render _ _

theorem toList_lead (mode : Mode) {text : String} {k : Keyword} (h : text = k.text ++ " ") :
    (Render.lead mode text).toList = spell (lead mode k) := by
  subst h
  cases mode <;> simp [Render.lead, lead, String.toList_append, Keyword.text]

theorem toList_targets (targets : List Expr) :
    ((Render.exprs .tuple targets).map (· ++ " = ")).flatMap String.toList =
      spell (targets.flatMap fun e => e.fragmentsIn .tuple ++ [blank, sign .assign, blank]) := by
  induction targets with
  | nil => rfl
  | cons e es ih =>
    rw [Render.exprs, List.map_cons, List.flatMap_cons, List.flatMap_cons, spell_append, ← ih]
    simp [String.toList_append, toList_wrap e .tuple (toList_bare e), Expr.fragmentsIn,
      Symbol.chars]

theorem toList_handler (star : Bool) (type : Option Expr) (name : Option String) :
    (Handler.header star type name).toList = spell (handler star type name) := by
  cases type <;> cases name <;> cases star <;>
    simp [Handler.header, handler, renamed, String.toList_append, toList_render, Keyword.text,
      Symbol.chars]

end Spelling

namespace Rows

open Render Spelling

theorem piece_of_toList (depth : Nat) {text : String} {fs : List Fragment}
    (h : text.toList = spell fs) : Piece.line depth text = (Row.code depth fs).piece := by
  rw [Row.piece, ← h, String.ofList_toList]

/-- The pieces of a statement without a block. -/
theorem pieces_simple (opener : Keyword) (word : String) (depth : Nat) {s : Stmt} (h : s.isSimple) :
    s.pieces word depth = [(Row.code depth (heading opener s)).piece] := by
  cases s with
  | functionDef | classDef | forLoop | whileLoop | branch | withBlock | tryBlock | comment
  | blank => cases h
  | raise s exc cause =>
    cases exc with
    | none => exact congrArg (· :: []) (piece_of_toList depth rfl)
    | some exc =>
      refine congrArg (· :: []) (piece_of_toList depth ?_)
      simp [heading, String.toList_append, toList_render, Keyword.text,
        toList_behind " from " [blank, Fragment.word .from_, blank] rfl]
  | augAssign s target op value =>
    refine congrArg (· :: []) (piece_of_toList depth ?_)
    simp [heading, String.toList_append, toList_render, BinOp.assignSymbol_chars]
  | importFrom s path names level =>
    refine congrArg (· :: []) (piece_of_toList depth ?_)
    cases path <;>
      simp [heading, String.toList_append, Keyword.text, toList_aliases spell_imported,
        Piece.toList_pushn, spell_dots, spell_path]
  | pass | breakLoop | continueLoop => exact congrArg (· :: []) (piece_of_toList depth rfl)
  | _ =>
    refine congrArg (· :: []) (piece_of_toList depth ?_)
    simp [heading, String.toList_append, toList_render, Keyword.text, Symbol.chars, toList_targets,
      toList_annotated, toList_names, toList_aliases spell_path, toList_behind " " [blank] rfl,
      toList_behind ", " [sign .comma, blank] rfl,
      toList_behind " = " [blank, sign .assign, blank] rfl, toList_commas (toList_exprs .test _)]

theorem piece_functionHeader (depth : Nat) (opener : Keyword) (s : Span) (mode : Mode)
    (name : String) (params : Parameters) (returns : Option Expr) (ds : List Expr)
    (body : List Stmt) :
    Piece.line depth (functionHeader mode name params returns) =
      (Row.code depth (heading opener (.functionDef s mode name params returns ds
        body))).piece := by
  refine piece_of_toList depth ?_
  have hparams := toList_enclose .round (toList_commas (toList_parameters params))
  have hlead : (Render.lead mode "def ").toList = spell (lead mode .def_) := toList_lead mode rfl
  simp [functionHeader, heading, String.toList_append, hlead, hparams,
    toList_behind " -> " [blank, sign .arrow, blank] rfl, Symbol.chars]

theorem piece_classHeader (depth : Nat) (opener : Keyword) (s : Span) (name : String)
    (bases : List Expr) (keywords : List Argument) (ds : List Expr) (body : List Stmt) :
    Piece.line depth (classHeader name bases keywords) =
      (Row.code depth (heading opener (.classDef s name bases keywords ds body))).piece := by
  refine piece_of_toList depth ?_
  have harguments : ((Render.exprs .test bases ++ Render.arguments keywords).map String.toList) =
      (Spelling.exprs .test bases ++ Spelling.arguments keywords).map spell := by
    rw [List.map_append, List.map_append, toList_exprs, toList_arguments]
  have henclosed := toList_enclose .round (toList_commas harguments)
  rw [classHeader, heading]
  split <;> simp [String.toList_append, henclosed, Keyword.text, Symbol.chars]

theorem pieces_decorators (depth : Nat) (exprs : List Expr) :
    Render.decorators depth exprs = (decorators depth exprs).map Row.piece := by
  simp only [Render.decorators, decorators, List.map_map]
  refine List.map_congr_left fun e _ => piece_of_toList depth ?_
  simp [String.toList_append, toList_render, Symbol.chars]

theorem piece_opening (depth : Nat) {k : Keyword} {text : String} (h : text = k.text ++ ":") :
    Piece.line depth text = (opening depth k).piece := by
  subst h
  exact piece_of_toList depth (by simp [String.toList_append, Symbol.chars])

/-- A block with code needs no `pass`. -/
theorem nested_eq {depth : Nat} {body : List Stmt} (h : body.any Stmt.isCode)
    (pieces : List (Option (List Piece))) :
    nested depth body pieces = gapped false false pieces := by
  rw [nested, passIfEmpty, if_pos h, List.append_nil]

theorem stmts_cons (s : Stmt) (depth : Nat) (ss : List Stmt) :
    (if s.isBlank then none else some (s.pieces "if " depth)) :: Render.stmts depth ss =
      Render.stmts depth (s :: ss) := rfl

def Told (s : Stmt) : Prop :=
  ∀ (opener : Keyword) (depth : Nat), s.detached.fits →
    s.pieces (opener.text ++ " ") depth = (s.rows opener depth).map Row.piece

theorem pieces_stmts {ss : List Stmt} (ih : ∀ s ∈ ss, Told s) (depth : Nat) (begun pending : Bool)
    (hf : ∀ s ∈ ss, s.detached.fits) :
    gapped begun pending (Render.stmts depth ss) =
      (stmts depth begun pending ss).map Row.piece := by
  induction ss generalizing begun pending with
  | nil => rfl
  | cons s ss ihs =>
    rw [List.forall_mem_cons] at ih hf
    rw [Render.stmts, stmts]
    split
    · rw [gapped]
      exact ihs ih.2 begun begun hf.2
    · have hs : s.pieces "if " depth = (s.rows .if_ depth).map Row.piece := ih.1 .if_ depth hf.1
      rw [gapped, hs, ihs ih.2 true false hf.2]
      cases pending <;> simp [Row.piece]

theorem pieces_block {body : List Stmt} (ih : ∀ s ∈ body, Told s) (depth : Nat)
    (hf : Fits.block (Block.detached body)) :
    nested depth body (Render.stmts (depth + 1) body) =
      (stmts (depth + 1) false false body).map Row.piece := by
  rw [Fits.block_eq, Bool.and_eq_true, Block.any_isCode_detached] at hf
  rw [nested_eq hf.1]
  exact pieces_stmts ih (depth + 1) false false (Block.fits_detached.1 hf.2)

theorem pieces_clause {body : List Stmt} (ih : ∀ s ∈ body, Told s) (k : Keyword) (depth : Nat)
    (hf : Fits.clause (Block.detached body)) :
    Render.clause (k.text ++ ":") depth body = (clause k depth body).map Row.piece := by
  cases body with
  | nil => rfl
  | cons s ss =>
    rw [Fits.clause_eq, Block.isEmpty_detached, List.isEmpty_cons, Bool.false_or] at hf
    rw [clause_eq, Render.clause, stmts_cons, pieces_block ih depth hf, piece_opening depth rfl]
    rfl

theorem pieces_alternative {body : List Stmt} (ih : ∀ s ∈ body, Told s) (depth : Nat)
    (hf : Fits.clause (Block.detached body)) :
    Render.alternative depth body = (alternative depth body).map Row.piece := by
  cases body with
  | nil => rfl
  | cons s ss =>
    rw [Render.alternative, alternative]
    split
    · rename_i h
      obtain rfl := List.isEmpty_iff.1 (Bool.and_eq_true_iff.1 h).2
      rw [Fits.clause_eq, Block.isEmpty_detached, List.isEmpty_cons, Bool.false_or, Fits.block_eq,
        Bool.and_eq_true, Block.fits_detached] at hf
      exact ih s (by simp) .elif_ depth (hf.2 s (by simp))
    · exact pieces_clause ih .else_ depth hf

theorem pieces_handlers {hs : List Handler} (ih : ∀ s ∈ hs.flatMap Handler.body, Told s)
    (star : Bool) (depth : Nat) (hf : Fits.handlers (Block.mapHandlers Block.detach hs)) :
    Render.handlers star depth hs = (handlers star depth hs).map Row.piece := by
  induction hs with
  | nil => rfl
  | cons h hs ihs =>
    obtain ⟨type, name, body⟩ := h
    simp only [Block.mapHandlers, Handler.mapBlocks, Fits.handlers, Handler.fits,
      Bool.and_eq_true] at hf
    simp only [List.flatMap_cons, List.mem_append] at ih
    rw [Render.handlers, Handler.pieces, pieces_block (fun s hs => ih s (.inl hs)) depth hf.1.2,
      ihs (fun s hs => ih s (.inr hs)) hf.2, piece_of_toList depth (toList_handler star type name)]
    simp [handlers, Handler.rows]

/-- Whatever its items are. -/
theorem pieces_withBlock {s : Span} {mode : Mode} {items : List WithItem} {body : List Stmt}
    (ih : ∀ s ∈ body, Told s) (opener : Keyword) (depth : Nat)
    (hf : Fits.block (Block.detached body)) :
    (Stmt.withBlock s mode items body).pieces (opener.text ++ " ") depth =
      ((Stmt.withBlock s mode items body).rows opener depth).map Row.piece := by
  have hlead : (Render.lead mode "with ").toList = spell (lead mode .with_) := toList_lead mode rfl
  have hhead : Piece.line depth (Render.lead mode "with " ++
      Render.commas (items.map WithItem.text) ++ ":") =
      (Row.code depth (heading opener (.withBlock s mode items body))).piece :=
    piece_of_toList depth (by
      simp [heading, String.toList_append, hlead, toList_withItems, Symbol.chars])
  rw [Stmt.pieces, pieces_block ih depth hf, hhead]
  simp [Stmt.rows]

/-- The pieces of a statement that fits are those of its rows. -/
theorem told (s : Stmt) : Told s := by
  induction s using Stmt.childInduction with
  | step s ih =>
  intro opener depth hf
  cases s with
  | functionDef s mode name params returns ds body =>
    simp only [Stmt.detached, Stmt.mapBlocks, Stmt.detach, Stmt.fits, Bool.and_eq_true] at hf
    simp only [Stmt.children] at ih
    rw [Stmt.pieces, pieces_block ih depth hf.2, pieces_decorators,
      piece_functionHeader depth opener s mode name params returns ds body]
    simp [Stmt.rows]
  | classDef s name bases keywords ds body =>
    simp only [Stmt.detached, Stmt.mapBlocks, Stmt.detach, Stmt.fits, Bool.and_eq_true] at hf
    simp only [Stmt.children] at ih
    rw [Stmt.pieces, pieces_block ih depth hf.2, pieces_decorators,
      piece_classHeader depth opener s name bases keywords ds body]
    simp [Stmt.rows]
  | forLoop s mode target iter body orelse =>
    simp only [Stmt.detached, Stmt.mapBlocks, Stmt.detach, Stmt.fits, Bool.and_eq_true] at hf
    simp only [Stmt.children, List.mem_append] at ih
    have hlead : (Render.lead mode "for ").toList = spell (lead mode .for_) := toList_lead mode rfl
    have hhead : Piece.line depth (Render.lead mode "for " ++ target.render .tuple ++ " in " ++
        iter.render .tuple ++ ":") =
        (Row.code depth (heading opener (.forLoop s mode target iter body orelse))).piece :=
      piece_of_toList depth (by
        simp [heading, String.toList_append, hlead, toList_render, Keyword.text, Symbol.chars])
    have helse : Render.clause "else:" depth orelse = (clause .else_ depth orelse).map Row.piece :=
      pieces_clause (fun x hx => ih x (.inr hx)) .else_ depth hf.2
    rw [Stmt.pieces, pieces_block (fun x hx => ih x (.inl hx)) depth hf.1.2, helse, hhead]
    simp [Stmt.rows]
  | whileLoop s test body orelse =>
    simp only [Stmt.detached, Stmt.mapBlocks, Stmt.detach, Stmt.fits, Bool.and_eq_true] at hf
    simp only [Stmt.children, List.mem_append] at ih
    have hhead : Piece.line depth ("while " ++ Render.condition test ++ ":") =
        (Row.code depth (heading opener (.whileLoop s test body orelse))).piece :=
      piece_of_toList depth (by
        simp [heading, String.toList_append, toList_condition, Keyword.text, Symbol.chars])
    have helse : Render.clause "else:" depth orelse = (clause .else_ depth orelse).map Row.piece :=
      pieces_clause (fun x hx => ih x (.inr hx)) .else_ depth hf.2
    rw [Stmt.pieces, pieces_block (fun x hx => ih x (.inl hx)) depth hf.1.2, helse, hhead]
    simp [Stmt.rows]
  | branch s test body orelse =>
    simp only [Stmt.detached, Stmt.mapBlocks, Stmt.detach, Stmt.fits, Bool.and_eq_true] at hf
    simp only [Stmt.children, List.mem_append] at ih
    have hhead : Piece.line depth (opener.text ++ " " ++ Render.condition test ++ ":") =
        (Row.code depth (heading opener (.branch s test body orelse))).piece :=
      piece_of_toList depth (by
        simp [heading, String.toList_append, toList_condition, Symbol.chars])
    rw [Stmt.pieces, pieces_block (fun x hx => ih x (.inl hx)) depth hf.1.2,
      pieces_alternative (fun x hx => ih x (.inr hx)) depth hf.2, hhead]
    simp [Stmt.rows]
  | withBlock s mode items body =>
    simp only [Stmt.children] at ih
    exact pieces_withBlock ih opener depth (Stmt.fits_of_withBlock hf).2
  | tryBlock s body handlers orelse final star =>
    simp only [Stmt.detached, Stmt.mapBlocks, Stmt.detach, Stmt.fits, Bool.and_eq_true] at hf
    simp only [Stmt.children, List.mem_append] at ih
    have hhead : Piece.line depth "try:" =
        (Row.code depth (heading opener (.tryBlock s body handlers orelse final star))).piece :=
      piece_of_toList depth rfl
    have helse : Render.clause "else:" depth orelse = (clause .else_ depth orelse).map Row.piece :=
      pieces_clause (fun x hx => ih x (.inr (.inr (.inl hx)))) .else_ depth hf.1.1.1.2
    have hfinal : Render.clause "finally:" depth final =
        (clause .finally_ depth final).map Row.piece :=
      pieces_clause (fun x hx => ih x (.inr (.inr (.inr hx)))) .finally_ depth hf.1.1.2
    rw [Stmt.pieces, pieces_block (fun x hx => ih x (.inl hx)) depth hf.1.1.1.1.1,
      pieces_handlers (fun x hx => ih x (.inr (.inl hx))) star depth hf.1.1.1.1.2, helse, hfinal,
      hhead]
    simp [Stmt.rows]
  | comment s text inline => cases inline <;> rfl
  | blank => rfl
  | _ => exact pieces_simple opener _ depth rfl

end Rows

def Module.rows (m : Module) : List Row := Rows.stmts 0 false false m.body

/-- The text of a legible module is the page of its rows. -/
theorem Module.IsLegible.render_eq {m : Module} (h : m.IsLegible) :
    m.render = Piece.assemble (m.rows.map Row.piece) := by
  rw [render, Rows.pieces_stmts (fun s _ => Rows.told s) 0 false false
    (Block.fits_detached.1 h.detached), rows]

end AsyncErasure
