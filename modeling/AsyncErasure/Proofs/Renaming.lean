import AsyncErasure.Proofs.Erasure
import AsyncErasure.Proofs.Guard
import AsyncErasure.Proofs.Tree.Comment
import Mathlib.Data.List.Basic

namespace AsyncErasure

namespace Json

def mapText (f : String → String) : Json → Json
  | str text => str (f text)
  | arr items => arr (items.map fun
    | str text => str (f text)
    | item => item)
  | j => j

def identifierKeys : List String := ["Name", "attr", "name", "arg", "asname", "Global", "Nonlocal"]

/-- What a renaming makes of the imported modules: their paths stay, and their aliases do not. -/
def renamePaths (f : String → String) : Json → Json
  | arr items => arr (items.map fun
    | obj [("name", path), ("asname", name)] => obj [("name", path), ("asname", name.mapText f)]
    | item => item)
  | j => j

mutual

/-- Renaming of a document: the identifiers and the literals change, and nothing else does. -/
def rename (c : Convention) : Json → Json
  | obj fields => obj (renameFields c fields)
  | arr items => arr (renameItems c items)
  | j => j

def renameItems (c : Convention) : List Json → List Json
  | [] => []
  | item :: items => item.rename c :: renameItems c items

def renameFields (c : Convention) : List (String × Json) → List (String × Json)
  | [] => []
  | (key, value) :: fields =>
    (key,
      if key ∈ identifierKeys then value.mapText c.rename
      else if key = "parts" then value.mapText c.renameLiteral
      else if key = "Import" then value.renamePaths c.rename
      else value.rename c) :: renameFields c fields

end

end Json

namespace Convention

variable (c : Convention)

/-- The docstring of plain text loses its marker; nothing else is trimmed. -/
inductive TrimsDocstring : List Stmt → List Stmt → Prop
  | text (before : List Stmt) {after : List Stmt} {s t : Span} {parts : List String} :
    (∀ stmt ∈ before, stmt.isCode = false) → (∀ part ∈ parts, Literal.isPlain part.toList) →
    TrimsDocstring (before ++ .expr s (.str t parts) :: after)
      (before ++ .expr s (.str t (parts.map (Literal.replaceIn c.docstringMarker ""))) :: after)
  | other {body : List Stmt} :
    (∀ s t parts, body.find? Stmt.isCode = some (.expr s (.str t parts)) →
      ∃ part ∈ parts, Literal.isPlain part.toList = false) →
    TrimsDocstring body body

/-- An import of the shadow module all of whose names are shadowed. -/
def Hides : Stmt → Prop
  | .importFrom _ path names _ => path = some c.shadowModule ∧ ∀ a ∈ names, a.name ∈ c.shadowed
  | _ => False

def IsPlain : Stmt → Prop
  | .functionDef .. | .classDef .. | .forLoop .. | .whileLoop .. | .branch .. | .withBlock ..
  | .tryBlock .. | .importFrom .. => False
  | _ => True

mutual

/-- Thinning of a block. An import that hides takes with it the comments just before it on its line
and the remarks behind it; every other statement stays, in order. -/
inductive Thins : List Stmt → List Stmt → Prop
  | nil : Thins [] []
  | keep {s t : Stmt} {ss ts : List Stmt} :
    ¬c.Hides s → ThinsInside s t → Thins ss ts → Thins (s :: ss) (t :: ts)
  | sweep {stmt : Stmt} {before comments remarks rest result : List Stmt} :
    c.Hides stmt → (∀ s ∈ comments, standsOnLineOf stmt s) → (∀ s ∈ remarks, isRemark s) →
    Thins (before ++ rest) result →
    Thins (before ++ comments ++ stmt :: (remarks ++ rest)) result

inductive ThinsInside : Stmt → Stmt → Prop
  | plain {s : Stmt} : IsPlain s → ThinsInside s s
  | importShadow {s : Span} {names : List Alias} {level : Nat} :
    ThinsInside (.importFrom s (some c.shadowModule) names level)
      (.importFrom s (some c.shadowModule) (names.filter (·.name ∉ c.shadowed)) level)
  | importOther {s : Span} {path : Option String} {names : List Alias} {level : Nat} :
    path ≠ some c.shadowModule →
    ThinsInside (.importFrom s path names level) (.importFrom s path names level)
  | functionDef {s : Span} {mode : Mode} {name : String} {params : Parameters}
      {returns : Option Expr} {decorators : List Expr} {body body' : List Stmt} :
    Thins body body' →
    ThinsInside (.functionDef s mode name params returns decorators body)
      (.functionDef s mode name params returns decorators body')
  | classDef {s : Span} {name : String} {bases : List Expr} {keywords : List Argument}
      {decorators : List Expr} {body body' : List Stmt} :
    Thins body body' →
    ThinsInside (.classDef s name bases keywords decorators body)
      (.classDef s name bases keywords decorators body')
  | forLoop {s : Span} {mode : Mode} {target iter : Expr} {body body' orelse orelse' : List Stmt} :
    Thins body body' → Thins orelse orelse' →
    ThinsInside (.forLoop s mode target iter body orelse)
      (.forLoop s mode target iter body' orelse')
  | whileLoop {s : Span} {test : Expr} {body body' orelse orelse' : List Stmt} :
    Thins body body' → Thins orelse orelse' →
    ThinsInside (.whileLoop s test body orelse) (.whileLoop s test body' orelse')
  | branch {s : Span} {test : Expr} {body body' orelse orelse' : List Stmt} :
    Thins body body' → Thins orelse orelse' →
    ThinsInside (.branch s test body orelse) (.branch s test body' orelse')
  | withBlock {s : Span} {mode : Mode} {items : List WithItem} {body body' : List Stmt} :
    Thins body body' → ThinsInside (.withBlock s mode items body) (.withBlock s mode items body')
  | tryBlock {s : Span} {body body' orelse orelse' final final' : List Stmt}
      {handlers handlers' : List Handler} {star : Bool} :
    Thins body body' → ThinsHandlers handlers handlers' → Thins orelse orelse' →
    Thins final final' →
    ThinsInside (.tryBlock s body handlers orelse final star)
      (.tryBlock s body' handlers' orelse' final' star)

inductive ThinsHandlers : List Handler → List Handler → Prop
  | nil : ThinsHandlers [] []
  | cons {type : Option Expr} {name : Option String} {body body' : List Stmt}
      {hs hs' : List Handler} :
    Thins body body' → ThinsHandlers hs hs' →
    ThinsHandlers (⟨type, name, body⟩ :: hs) (⟨type, name, body'⟩ :: hs')

end

variable {c}

theorem trimsDocstring_onFirstCode (body : List Stmt) :
    c.TrimsDocstring body (onFirstCode c.trimDocstring body) := by
  induction body with
  | nil => exact .other (by simp)
  | cons s ss ih =>
    rw [onFirstCode]
    split
    case isTrue hcode =>
      unfold trimDocstring
      split
      case h_1 s t parts =>
        split
        case isTrue hplain => exact .text [] (by simp) (by simpa using hplain)
        case isFalse hplain =>
          refine .other fun s' t' parts' h => ?_
          simp only [List.find?_cons, hcode, Option.some.injEq, Stmt.expr.injEq,
            Expr.str.injEq] at h
          simpa [← h.2.2] using hplain
      case h_2 hne =>
        refine .other fun s' t' parts' h => ?_
        simp only [List.find?_cons, hcode, Option.some.injEq] at h
        exact (hne _ _ _ h).elim
    case isFalse hcode =>
      generalize onFirstCode c.trimDocstring ss = ts at ih
      cases ih with
      | @text before after _ _ _ hbefore hplain =>
        refine .text (s :: before) ?_ hplain
        simpa using ⟨Bool.eq_false_iff.2 hcode, hbefore⟩
      | other h =>
        refine .other fun s' t' parts' hfind => ?_
        rw [List.find?_cons_of_neg hcode] at hfind
        exact h _ _ _ hfind

theorem hides_iff_drops {s : Stmt} : c.Hides s ↔ c.drops s := by
  cases s with
  | importFrom s path names level =>
    by_cases hpath : path = some c.shadowModule <;> simp [Hides, drops, keptNames, hpath]
  | _ => simp [Hides, drops]

theorem standsOnLineOf_trimImport (stmt s : Stmt) :
    standsOnLineOf stmt (c.trimImport s) = standsOnLineOf stmt s := by
  cases s <;> rfl

/-- Dropping imports is a number of sweeps, with the statements kept so far in front, and then a
trimming of what is left. -/
theorem exists_sweeps (kept : List Stmt) (d : Bool) (ss : List Stmt)
    (hkept : ∀ s ∈ kept, ¬c.Hides s) :
    ∃ left, c.dropImportsFrom (kept.map c.trimImport) d ss = left.map c.trimImport ∧
      left ⊆ kept ++ ss ∧ (∀ s ∈ left, ¬c.Hides s) ∧
      ∀ result, c.Thins left result →
        c.Thins (kept.reverse ++ if d then ss.dropWhile isRemark else ss) result := by
  induction ss generalizing kept d with
  | nil =>
    refine ⟨kept.reverse, by simp [dropImportsFrom], by simp, by simpa using hkept, ?_⟩
    intro result h
    cases d <;> simpa using h
  | cons s ss ih =>
    rw [dropImportsFrom]
    by_cases hgone : (d && isRemark s) = true
    · -- A remark behind a dropped import.
      obtain ⟨left, hdrop, hleft, hhides, hthins⟩ := ih kept true hkept
      refine ⟨left, by rw [if_pos hgone, hdrop], by grind, hhides, ?_⟩
      simp only [Bool.and_eq_true] at hgone
      simpa [hgone.1, List.dropWhile_cons_of_pos hgone.2] using hthins
    rw [if_neg hgone]
    by_cases hdrops : c.drops s
    · -- A dropped import also takes the comments kept last, as far as they stand on its line.
      have hline : standsOnLineOf s ∘ c.trimImport = standsOnLineOf s :=
        funext (standsOnLineOf_trimImport s)
      obtain ⟨left, hdrop, hleft, hhides, hthins⟩ := ih (kept.dropWhile (standsOnLineOf s)) true
        fun t ht => hkept t ((List.dropWhile_sublist _).subset ht)
      have hsub := (List.dropWhile_sublist (l := kept) (standsOnLineOf s)).subset
      refine ⟨left, by rw [if_pos hdrops, List.dropWhile_map, hline, hdrop], by grind, hhides, ?_⟩
      intro result h
      have hsweep : c.Thins ((kept.dropWhile (standsOnLineOf s)).reverse ++
          (kept.takeWhile (standsOnLineOf s)).reverse ++
          s :: (ss.takeWhile isRemark ++ ss.dropWhile isRemark)) result := by
        refine .sweep (hides_iff_drops.2 hdrops) ?_ ?_ (hthins result h)
        · intro t ht
          exact List.all_eq_true.1 List.all_takeWhile t (List.mem_reverse.1 ht)
        · intro t ht
          exact List.all_eq_true.1 List.all_takeWhile t ht
      rw [← List.reverse_append, List.takeWhile_append_dropWhile,
        List.takeWhile_append_dropWhile] at hsweep
      simpa [not_isRemark_of_drops hdrops] using hsweep
    · obtain ⟨left, hdrop, hleft, hhides, hthins⟩ := ih (s :: kept) false
        (List.forall_mem_cons.2 ⟨mt hides_iff_drops.1 hdrops, hkept⟩)
      refine ⟨left, by rw [if_neg hdrops, ← List.map_cons, hdrop], by grind, hhides, ?_⟩
      cases d with
      | false => simpa using hthins
      | true =>
        have hremark : isRemark s = false := by simpa using hgone
        simpa [hremark] using hthins

theorem thins_map {f : Stmt → Stmt} {body : List Stmt} (hhides : ∀ s ∈ body, ¬c.Hides s)
    (hinside : ∀ s ∈ body, c.ThinsInside s (f s)) : c.Thins body (body.map f) := by
  induction body with
  | nil => exact .nil
  | cons s ss ih =>
    rw [List.forall_mem_cons] at hhides hinside
    exact .keep hhides.1 hinside.1 (ih hhides.2 hinside.2)

/-- A block is thinned if its statements are. -/
theorem thins_dropImports {body : List Stmt}
    (h : ∀ s ∈ body, c.ThinsInside s ((c.trimImport s).mapBlocks c.dropImports)) :
    c.Thins body (c.dropImports (Block.mapInside c.dropImports body)) := by
  obtain ⟨left, hdrop, hleft, hhides, hthins⟩ :=
    exists_sweeps (c := c) [] false body (by simp)
  have hinside := Guard.dropImportsFrom_map (c := c) (f := c.dropImports) [] false body
  rw [List.map_nil] at hdrop hinside
  rw [Block.mapInside_eq_map, dropImports, hinside, hdrop, List.map_map]
  refine hthins _ (thins_map hhides fun s hs => h s ?_)
  simpa using hleft hs

mutual

theorem thinsInside_mapBlocks (s : Stmt) :
    c.ThinsInside s ((c.trimImport s).mapBlocks c.dropImports) := by
  cases s with
  | functionDef => exact .functionDef (thins_dropImports (thinsInside_of_mem _))
  | classDef => exact .classDef (thins_dropImports (thinsInside_of_mem _))
  | forLoop =>
    exact .forLoop (thins_dropImports (thinsInside_of_mem _))
      (thins_dropImports (thinsInside_of_mem _))
  | whileLoop =>
    exact .whileLoop (thins_dropImports (thinsInside_of_mem _))
      (thins_dropImports (thinsInside_of_mem _))
  | branch =>
    exact .branch (thins_dropImports (thinsInside_of_mem _))
      (thins_dropImports (thinsInside_of_mem _))
  | withBlock => exact .withBlock (thins_dropImports (thinsInside_of_mem _))
  | tryBlock =>
    exact .tryBlock (thins_dropImports (thinsInside_of_mem _)) (thinsHandlers_mapBlocks _)
      (thins_dropImports (thinsInside_of_mem _)) (thins_dropImports (thinsInside_of_mem _))
  | importFrom s path names level =>
    show c.ThinsInside _ (.importFrom s path (c.keptNames path names) level)
    rw [keptNames]
    split
    case isTrue hpath =>
      subst hpath
      simpa using ThinsInside.importShadow
    case isFalse hpath => exact .importOther hpath
  | _ => exact .plain trivial

theorem thinsInside_of_mem (body : List Stmt) :
    ∀ s ∈ body, c.ThinsInside s ((c.trimImport s).mapBlocks c.dropImports) := by
  cases body with
  | nil => simp
  | cons s ss => exact List.forall_mem_cons.2 ⟨thinsInside_mapBlocks s, thinsInside_of_mem ss⟩

theorem thinsHandlers_mapBlocks (hs : List Handler) :
    c.ThinsHandlers hs (Block.mapHandlers c.dropImports hs) := by
  match hs with
  | [] => exact .nil
  | ⟨_, _, body⟩ :: hs =>
    exact .cons (thins_dropImports (thinsInside_of_mem body)) (thinsHandlers_mapBlocks hs)

end

end Convention

namespace Dump

open Json

variable {c : Convention}

@[simp] theorem substitution_name : c.substitution.name = c.rename := rfl

@[simp] theorem substitution_literal : c.substitution.literal = c.renameLiteral := rfl

@[simp] theorem substitution_mode (mode : Mode) : c.substitution.mode mode = mode := rfl

@[simp] theorem rename_span (s : Span) : s.dump.rename c = s.dump := by
  simp [Span.dump, rename, renameFields, identifierKeys]

@[simp] theorem mapText_str (f : String → String) (text : String) :
    (str text).mapText f = str (f text) := rfl

@[simp] theorem mapText_optional (f : String → String) (text : Option String) :
    (optional text).mapText f = optional (text.map f) := by
  cases text <;> rfl

@[simp] theorem mapText_strings (f : String → String) (texts : List String) :
    (strings texts).mapText f = strings (texts.map f) := by
  simp [strings, mapText]

@[simp] theorem rename_optional (text : Option String) :
    (optional text).rename c = optional text := by
  cases text <;> rfl

@[simp] theorem rename_constant (value : Constant) : value.dump.rename c = value.dump := by
  cases value <;> simp [Constant.dump, tagged, rename, renameFields, identifierKeys]

/-- A node that holds no bare identifiers keeps its tag and its span. -/
theorem rename_node (s : Span) (tag : String) (payload : Json) (h : tag ∉ identifierKeys)
    (hi : tag ≠ "Import") (hp : tag ≠ "parts") :
    (node s (tagged tag payload)).rename c = node s (tagged tag (payload.rename c)) := by
  have hkind : "kind" ∉ identifierKeys ∧ "span" ∉ identifierKeys := by decide
  simp [node, tagged, rename, renameFields, h, hi, hp, hkind]

theorem rename_ops (links : List Comparison) :
    (Substitution.links c.substitution links).map Comparison.dumpOp =
      renameItems c (links.map Comparison.dumpOp) := by
  induction links with
  | nil => rfl
  | cons l ls ih =>
    cases l
    simp [Substitution.links, Comparison.subst, Comparison.dumpOp, renameItems, rename, ih]

theorem expr_span_subst (e : Expr) : (e.subst c.substitution).span = e.span := by
  cases e <;> rfl

theorem tag_subst (e : Expr) : (e.subst c.substitution).tag = e.tag := by
  cases e with
  | comp s shape => cases shape <;> rfl
  | _ => rfl

theorem rename_name (s : Span) (id : String) :
    (Expr.name s id).dump.rename c = (Expr.name s (c.rename id)).dump := by
  simp [Expr.dump, Expr.seal, Expr.tag, Expr.span, Expr.payload, node, tagged, rename,
    renameFields, identifierKeys]

/-- An expression other than a name keeps its tag and its span. -/
theorem rename_dump (e : Expr) (h : e.tag ≠ "Name") :
    e.dump.rename c = (e.subst c.substitution).seal (e.payload.rename c) := by
  have ht : e.tag ∉ identifierKeys ∧ e.tag ≠ "Import" ∧ e.tag ≠ "parts" := by
    cases e with
    | comp s shape => cases shape <;> simp [Expr.tag, identifierKeys]
    | name => exact absurd rfl h
    | _ => simp [Expr.tag, identifierKeys]
  rw [Expr.dump, Expr.seal, Expr.seal, rename_node _ _ _ ht.1 ht.2.1 ht.2.2, expr_span_subst,
    tag_subst]

mutual

theorem rename_expr (e : Expr) : (e.subst c.substitution).dump = e.dump.rename c := by
  cases e with
  | name s id => exact (rename_name s id).symm
  | comp s shape elt clauses =>
    rw [rename_dump _ (by cases shape <;> simp [Expr.tag]), Expr.dump]
    simp [Expr.subst, Expr.payload, rename, renameFields, identifierKeys, rename_expr,
      rename_clauses]
  | str s parts =>
    rw [rename_dump _ (by simp [Expr.tag]), Expr.dump]
    simp [Expr.subst, Expr.payload, rename, renameFields, identifierKeys]
  | attr s value field =>
    rw [rename_dump _ (by simp [Expr.tag]), Expr.dump]
    simp [Expr.subst, Expr.payload, rename, renameFields, identifierKeys, rename_expr]
  | await s value =>
    rw [rename_dump _ (by simp [Expr.tag]), Expr.dump]
    exact congrArg _ (rename_expr value)
  | _ =>
    rw [rename_dump _ (by simp [Expr.tag]), Expr.dump]
    simp [Expr.subst, Expr.payload, rename, renameFields, identifierKeys,
      rename_expr, rename_exprs, rename_expr?, rename_parameters, rename_arguments, rename_items,
      rename_operands, rename_ops, rename_clauses]

theorem rename_exprs (es : List Expr) :
    Dump.exprs (Substitution.exprs c.substitution es) = renameItems c (Dump.exprs es) := by
  cases es <;> simp [Substitution.exprs, Dump.exprs, renameItems, rename_expr, rename_exprs]

theorem rename_expr? (e : Option Expr) :
    Dump.expr? (Substitution.expr? c.substitution e) = (Dump.expr? e).rename c := by
  cases e <;> simp [Substitution.expr?, Dump.expr?, rename, rename_expr]

theorem rename_param (p : Param) : (p.subst c.substitution).dump = p.dump.rename c := by
  cases p
  simp [Param.subst, Param.dump, rename, renameFields, identifierKeys, rename_expr?]

theorem rename_params (ps : List Param) :
    Dump.params (Substitution.params c.substitution ps) = renameItems c (Dump.params ps) := by
  cases ps <;> simp [Substitution.params, Dump.params, renameItems, rename_param, rename_params]

theorem rename_param? (p : Option Param) :
    Dump.param? (Substitution.param? c.substitution p) = (Dump.param? p).rename c := by
  cases p <;> simp [Substitution.param?, Dump.param?, rename, rename_param]

theorem rename_parameters (p : Parameters) :
    (p.subst c.substitution).dump = p.dump.rename c := by
  cases p
  simp [Parameters.subst, Parameters.dump, rename, renameFields, identifierKeys, rename_params,
    rename_param?]

theorem rename_argument (a : Argument) : (a.subst c.substitution).dump = a.dump.rename c := by
  cases a
  simp [Argument.subst, Argument.dump, rename, renameFields, identifierKeys, rename_expr]

theorem rename_arguments (as : List Argument) :
    Dump.arguments (Substitution.arguments c.substitution as) =
      renameItems c (Dump.arguments as) := by
  cases as <;>
    simp [Substitution.arguments, Dump.arguments, renameItems, rename_argument, rename_arguments]

theorem rename_item (i : DictItem) : (i.subst c.substitution).dump = i.dump.rename c := by
  cases i
  simp [DictItem.subst, DictItem.dump, rename, renameFields, identifierKeys, rename_expr,
    rename_expr?]

theorem rename_items (is : List DictItem) :
    Dump.items (Substitution.items c.substitution is) = renameItems c (Dump.items is) := by
  cases is <;> simp [Substitution.items, Dump.items, renameItems, rename_item, rename_items]

theorem rename_operand (l : Comparison) :
    (l.subst c.substitution).dumpOperand = l.dumpOperand.rename c := by
  cases l
  simp [Comparison.subst, Comparison.dumpOperand, rename_expr]

theorem rename_operands (ls : List Comparison) :
    Dump.operands (Substitution.links c.substitution ls) = renameItems c (Dump.operands ls) := by
  cases ls <;> simp [Substitution.links, Dump.operands, renameItems, rename_operand,
    rename_operands]

theorem rename_clause (k : Clause) : (k.subst c.substitution).dump = k.dump.rename c := by
  cases k
  simp [Clause.subst, Clause.dump, rename, renameFields, identifierKeys, rename_expr, rename_exprs]

theorem rename_clauses (ks : List Clause) :
    Dump.clauses (Substitution.clauses c.substitution ks) = renameItems c (Dump.clauses ks) := by
  cases ks <;> simp [Substitution.clauses, Dump.clauses, renameItems, rename_clause, rename_clauses]

end

theorem rename_withItems (is : List WithItem) :
    is.map (WithItem.dump ∘ WithItem.subst c.substitution) =
      renameItems c (is.map WithItem.dump) := by
  induction is with
  | nil => rfl
  | cons i is ih =>
    simp_all [WithItem.subst, WithItem.dump, renameItems, rename, renameFields, identifierKeys,
      rename_expr, rename_expr?]

theorem rename_aliases (names : List Alias) :
    names.map (Alias.dump ∘ Alias.substName c.substitution) =
      renameItems c (names.map Alias.dump) := by
  induction names with
  | nil => rfl
  | cons a as ih =>
    simp_all [Alias.substName, Alias.dump, renameItems, rename, renameFields, identifierKeys]

theorem renamePaths_aliases (names : List Alias) :
    (arr (names.map Alias.dump)).renamePaths c.rename =
      arr (names.map (Alias.dump ∘ Alias.substModule c.substitution)) := by
  simp [renamePaths, Alias.dump, Alias.substModule]

theorem stmt_tag_subst (s : Stmt) : (s.subst c.substitution).tag = s.tag := by
  cases s with
  | functionDef s mode => cases mode <;> rfl
  | forLoop s mode => cases mode <;> rfl
  | withBlock s mode => cases mode <;> rfl
  | _ => rfl

def IsListing : Stmt → Prop
  | .global .. | .nonlocal .. | .importModules .. => True
  | _ => False

/-- A statement keeps its tag and its span. -/
theorem rename_stmt_dump (s : Stmt) (h : ¬IsListing s) :
    s.dump.rename c = (s.subst c.substitution).seal (s.payload.map (rename c)) := by
  have ht : s.tag ∉ identifierKeys ∧ s.tag ≠ "Import" ∧ s.tag ≠ "parts" := by
    cases s with
    | functionDef s mode => cases mode <;> simp [Stmt.tag, identifierKeys]
    | forLoop s mode => cases mode <;> simp [Stmt.tag, identifierKeys]
    | withBlock s mode => cases mode <;> simp [Stmt.tag, identifierKeys]
    | global | nonlocal | importModules => exact absurd trivial h
    | _ => simp [Stmt.tag, identifierKeys]
  have hkind : "kind" ∉ identifierKeys ∧ "span" ∉ identifierKeys := by decide
  rw [Stmt.dump, Stmt.seal, Stmt.seal, span_subst, stmt_tag_subst]
  cases hp : s.payload with
  | none => simp [node, rename, renameFields, hkind]
  | some payload => exact rename_node _ _ _ ht.1 ht.2.1 ht.2.2

mutual

theorem rename_stmt (s : Stmt) : (s.subst c.substitution).dump = s.dump.rename c := by
  cases s with
  | global s names | nonlocal s names =>
    simp [Stmt.subst, Stmt.dump, Stmt.seal, Stmt.span, Stmt.tag, Stmt.payload, node, tagged, rename,
      renameFields, identifierKeys]
  | importModules s names =>
    simp [Stmt.subst, Stmt.dump, Stmt.seal, Stmt.span, Stmt.tag, Stmt.payload, node, tagged, rename,
      renameFields, identifierKeys, renamePaths_aliases]
  | _ =>
    rw [rename_stmt_dump _ (by simp [IsListing]), Stmt.dump]
    simp [Stmt.subst, Stmt.payload, rename, renameFields, identifierKeys, rename_expr, rename_exprs,
      rename_expr?, rename_parameters, rename_arguments, rename_withItems, rename_aliases,
      rename_stmts, rename_handlers]

theorem rename_stmts (ss : List Stmt) :
    Dump.stmts (Substitution.stmts c.substitution ss) = renameItems c (Dump.stmts ss) := by
  cases ss <;> simp [Substitution.stmts, Dump.stmts, renameItems, rename_stmt, rename_stmts]

theorem rename_handler (h : Handler) : (h.subst c.substitution).dump = h.dump.rename c := by
  cases h
  simp [Handler.subst, Handler.dump, rename, renameFields, identifierKeys, rename_expr?,
    rename_stmts]

theorem rename_handlers (hs : List Handler) :
    Dump.handlers (Substitution.handlers c.substitution hs) =
      renameItems c (Dump.handlers hs) := by
  cases hs <;>
    simp [Substitution.handlers, Dump.handlers, renameItems, rename_handler, rename_handlers]

end

end Dump

theorem Module.dump_subst (c : Convention) (m : Module) :
    (m.subst c.substitution).dump = m.dump.rename c := by
  simp [Module.subst, Module.dump, Json.rename, Json.renameFields, Json.identifierKeys,
    Dump.rename_stmts]

/-- Renaming is thinning, with the docstring trimmed, and then one simultaneous substitution at
the places of identifiers. -/
theorem Module.rename_simultaneous (c : Convention) (m : Module) :
    ∃ body kept, c.TrimsDocstring m.body body ∧ c.Thins body kept ∧
      (m.rename c).dump = (Module.mk kept).dump.rename c := by
  refine ⟨(m.trimDocstring c).body, ((m.trimDocstring c).dropImports c).body, ?_, ?_, ?_⟩
  · exact Convention.trimsDocstring_onFirstCode m.body
  · exact Convention.thins_dropImports (Convention.thinsInside_of_mem _)
  · exact Module.dump_subst c _

/-- A comment in the brackets of a list stands before the statements of its line, and goes with
an import among them that it has no part in. -/
theorem Module.rename_drops_listed_comment : ∃ m comment i s,
    Module.parse "from utils import alist; x = [  # c\n    1]\n" = .ok m ∧
      m.body = [comment, i, s] ∧ (Node.stmt comment).comment? = some ⟨"# c", false, 1⟩ ∧
      Convention.Hides .standard i ∧ i.span = ⟨⟨1, 0⟩, ⟨1, 23⟩⟩ ∧ s.span = ⟨⟨1, 25⟩, ⟨2, 6⟩⟩ ∧
      (m.rename .standard).render = "x = [1]" := by
  have h : (Module.parse "from utils import alist; x = [  # c\n    1]\n").toOption.any fun m =>
      m.body.map (fun s => (Node.stmt s).comment?) == [some ⟨"# c", false, 1⟩, none, none] &&
        m.body.map (Convention.drops .standard) == [false, true, false] &&
        (m.body.map Stmt.span).tail == [⟨⟨1, 0⟩, ⟨1, 23⟩⟩, ⟨⟨1, 25⟩, ⟨2, 6⟩⟩] &&
        (m.rename .standard).render == "x = [1]" := by decide +kernel
  obtain ⟨m, hm, h⟩ := parse_of_any h
  simp only [Bool.and_eq_true, beq_iff_eq] at h
  obtain ⟨⟨⟨hcomments, hdrops⟩, hspans⟩, hrender⟩ := h
  obtain ⟨comment, i, s, hbody⟩ := List.length_eq_three.1
      (by simpa using congrArg List.length hdrops)
  rw [hbody] at hcomments hdrops hspans
  simp only [List.map_cons, List.map_nil, List.tail_cons,
    List.cons.injEq] at hcomments hdrops hspans
  exact ⟨m, comment, i, s, hm, hbody, hcomments.1, Convention.hides_iff_drops.2 hdrops.2.1,
    hspans.1, hspans.2.1, hrender⟩

end AsyncErasure
