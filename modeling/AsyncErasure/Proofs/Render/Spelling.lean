import AsyncErasure.Proofs.Token.Fragment
import AsyncErasure.Render.Expression

namespace AsyncErasure

open Fragment

namespace Fragment

def enclose (b : Bracket) (fs : List Fragment) : List Fragment :=
  sign (.opening b) :: fs ++ [sign (.closing b)]

def commas (xs : List (List Fragment)) : List Fragment := [sign .comma, blank].intercalate xs

def tupleElements (xs : List (List Fragment)) : List Fragment :=
  if xs.length = 1 then commas xs ++ [sign .comma] else commas xs

end Fragment

def Constant.fragment : Constant → Fragment
  | none => word .none_
  | true => word .true_
  | false => word .false_
  | ellipsis => sign .ellipsis
  | number text => .lexeme (.number text)

def UnaryOp.fragments : UnaryOp → List Fragment
  | invert => [sign .tilde]
  | not => [word .not_, blank]
  | plus => [sign .plus]
  | minus => [sign .minus]

def CmpOp.fragments : CmpOp → List Fragment
  | eq => [sign .equal]
  | notEq => [sign .notEqual]
  | less => [sign .less]
  | lessEq => [sign .lessEq]
  | greater => [sign .greater]
  | greaterEq => [sign .greaterEq]
  | is => [word .is_]
  | isNot => [word .is_, blank, word .not_]
  | isIn => [word .in_]
  | notIn => [word .not_, blank, word .in_]

def Expr.enclosed (context : Level) (e : Expr) (bare : List Fragment) : List Fragment :=
  if e.needsBrackets context then enclose .round bare else bare

mutual

def Expr.fragments : Expr → List Fragment
  | .boolOp _ op values =>
    [blank, word op.keyword, blank].intercalate (Spelling.exprs op.level.next values)
  | .named _ target value =>
    target.enclosed .atom target.fragments ++ blank :: sign .walrus :: blank ::
      value.enclosed .test value.fragments
  | .binOp _ op left right =>
    left.enclosed (if op = .pow then op.level.next else op.level) left.fragments ++
      blank :: sign op.symbol :: blank ::
      right.enclosed (if op = .pow then op.level else op.level.next) right.fragments
  | .unaryOp _ op operand => op.fragments ++ operand.enclosed op.level operand.fragments
  | .lambda _ params body =>
    word .lambda_ :: ((if params.fragments.isEmpty then [] else blank :: commas params.fragments) ++
      sign .colon :: blank :: body.enclosed .test body.fragments)
  | .ifElse _ test body orelse =>
    body.enclosed .disjunction body.fragments ++ blank :: word .if_ :: blank ::
      (test.enclosed .disjunction test.fragments ++ blank :: word .else_ :: blank ::
        orelse.enclosed .test orelse.fragments)
  | .dict _ items => enclose .curly (commas (Spelling.items items))
  | .set _ elts => enclose .curly (commas (Spelling.exprs .test elts))
  | .comp _ shape elt clauses =>
    enclose shape.bracket (elt.enclosed .test elt.fragments ++ Spelling.clauses clauses)
  | .dictComp _ key value clauses =>
    enclose .curly (key.enclosed .test key.fragments ++ sign .colon :: blank ::
      (value.enclosed .test value.fragments ++ Spelling.clauses clauses))
  | .await _ value => word .await_ :: blank :: value.enclosed .atom value.fragments
  | .yield _ none => [word .yield_]
  | .yield _ (some value) => word .yield_ :: blank :: value.enclosed .tuple value.fragments
  | .yieldFrom _ value =>
    word .yield_ :: blank :: word .from_ :: blank :: value.enclosed .test value.fragments
  | .compare _ left links => left.enclosed .bitOr left.fragments ++ Spelling.links links
  | .call _ func [.comp _ .generator elt clauses] [] =>
    func.enclosed .atom func.fragments ++
      enclose .round (elt.enclosed .test elt.fragments ++ Spelling.clauses clauses)
  | .call _ func args keywords =>
    func.enclosed .atom func.fragments ++
      enclose .round (commas (Spelling.exprs .test args ++ Spelling.arguments keywords))
  | .constant _ value => [value.fragment]
  | .str _ parts => [blank].intercalate (parts.map fun part => [.lexeme (.string part)])
  | .attr _ value field =>
    value.enclosed .atom value.fragments ++
      ((if value.isPlainInteger then [blank] else []) ++ [sign .dot, name field])
  | .subscript _ value index =>
    value.enclosed .atom value.fragments ++
      enclose .square (index.enclosed .tuple index.fragments)
  | .starred _ value => sign .star :: value.enclosed .bitOr value.fragments
  | .name _ id => [name id]
  | .list _ elts => enclose .square (commas (Spelling.exprs .test elts))
  | .tuple _ elts _ => tupleElements (Spelling.exprs .test elts)
  | .slice _ lower upper step =>
    Spelling.behind [] .test lower ++ sign .colon :: Spelling.behind [] .test upper ++
      Spelling.behind [sign .colon] .test step

def Spelling.exprs (context : Level) : List Expr → List (List Fragment)
  | [] => []
  | e :: es => e.enclosed context e.fragments :: Spelling.exprs context es

def Spelling.behind (lead : List Fragment) (context : Level) : Option Expr → List Fragment
  | none => []
  | some e => lead ++ e.enclosed context e.fragments

def Param.fragments : Param → List Fragment
  | ⟨id, none, default⟩ => name id :: Spelling.behind [sign .assign] .test default
  | ⟨id, some hint, default⟩ =>
    name id :: sign .colon :: blank :: (hint.enclosed .test hint.fragments ++
      Spelling.behind [blank, sign .assign, blank] .test default)

def Spelling.params : List Param → List (List Fragment)
  | [] => []
  | p :: ps => p.fragments :: Spelling.params ps

def Spelling.starParam (stars : Symbol) : Option Param → List (List Fragment)
  | none => []
  | some p => [sign stars :: p.fragments]

def Parameters.fragments : Parameters → List (List Fragment)
  | ⟨posonly, args, vararg, kwonly, kwarg⟩ =>
    Spelling.params posonly ++ (if posonly.isEmpty then [] else [[sign .slash]]) ++
      Spelling.params args ++ Spelling.starParam .star vararg ++
      (if vararg.isNone && !kwonly.isEmpty then [[sign .star]] else []) ++
      Spelling.params kwonly ++ Spelling.starParam .doubleStar kwarg

def Argument.fragments : Argument → List Fragment
  | ⟨some id, value⟩ => name id :: sign .assign :: value.enclosed .test value.fragments
  | ⟨none, value⟩ => sign .doubleStar :: value.enclosed .test value.fragments

def Spelling.arguments : List Argument → List (List Fragment)
  | [] => []
  | a :: as => a.fragments :: Spelling.arguments as

def DictItem.fragments : DictItem → List Fragment
  | ⟨some key, value⟩ =>
    key.enclosed .test key.fragments ++ sign .colon :: blank ::
      value.enclosed .test value.fragments
  | ⟨none, value⟩ => sign .doubleStar :: value.enclosed .bitOr value.fragments

def Spelling.items : List DictItem → List (List Fragment)
  | [] => []
  | i :: is => i.fragments :: Spelling.items is

def Comparison.fragments : Comparison → List Fragment
  | ⟨op, operand⟩ =>
    blank :: op.fragments ++ blank :: operand.enclosed .bitOr operand.fragments

def Spelling.links : List Comparison → List Fragment
  | [] => []
  | c :: cs => c.fragments ++ Spelling.links cs

def Spelling.conditions : List Expr → List Fragment
  | [] => []
  | e :: es =>
    blank :: word .if_ :: blank :: e.enclosed .disjunction e.fragments ++ Spelling.conditions es

def Clause.fragments : Clause → List Fragment
  | ⟨mode, target, iter, conditions⟩ =>
    (if mode = .async then [blank, word .async_] else []) ++ blank :: word .for_ :: blank ::
      (target.enclosed .tuple target.fragments ++ blank :: word .in_ :: blank ::
        (iter.enclosed .disjunction iter.fragments ++ Spelling.conditions conditions))

def Spelling.clauses : List Clause → List Fragment
  | [] => []
  | c :: cs => c.fragments ++ Spelling.clauses cs

end

def Expr.fragmentsIn (context : Level) (e : Expr) : List Fragment := e.enclosed context e.fragments

/-- A call of a generator alone, whose brackets are those of the call. -/
def Expr.isLoneGenerator : List Expr → List Argument → Bool
  | [.comp _ .generator _ _], [] => true
  | _, _ => false

namespace Expr

theorem exists_of_isLoneGenerator {args : List Expr} {keywords : List Argument}
    (h : isLoneGenerator args keywords) :
    ∃ s elt clauses, args = [.comp s .generator elt clauses] ∧ keywords = [] := by
  unfold isLoneGenerator at h
  split at h
  · exact ⟨_, _, _, rfl, rfl⟩
  · cases h

theorem bare_call_lone (s t : Span) (func elt : Expr) (clauses : List Clause) :
    (call s func [.comp t .generator elt clauses] []).bare =
      func.wrap .atom func.bare ++ (comp t .generator elt clauses).bare := by
  rw [bare, bare, Collection.bracket]

theorem fragments_call_lone (s t : Span) (func elt : Expr) (clauses : List Clause) :
    (call s func [.comp t .generator elt clauses] []).fragments =
      func.enclosed .atom func.fragments ++ (comp t .generator elt clauses).fragments := by
  rw [fragments, fragments, Collection.bracket]

theorem bare_call (s : Span) (func : Expr) {args : List Expr} {keywords : List Argument}
    (h : isLoneGenerator args keywords = false) :
    (call s func args keywords).bare = func.wrap .atom func.bare ++
      Bracket.round.enclose
        (Render.commas (Render.exprs .test args ++ Render.arguments keywords)) := by
  rw [bare]
  rintro _ _ _ rfl rfl
  cases h

theorem fragments_call (s : Span) (func : Expr) {args : List Expr} {keywords : List Argument}
    (h : isLoneGenerator args keywords = false) :
    (call s func args keywords).fragments = func.enclosed .atom func.fragments ++
      enclose .round (Fragment.commas (Spelling.exprs .test args ++
        Spelling.arguments keywords)) := by
  rw [fragments]
  rintro _ _ _ rfl rfl
  cases h

end Expr

namespace Spelling

theorem exprs_eq_map (context : Level) (es : List Expr) :
    exprs context es = es.map (Expr.fragmentsIn context) := by
  induction es with
  | nil => rfl
  | cons e es ih => rw [exprs, ih]; rfl

theorem params_eq_map (ps : List Param) : params ps = ps.map Param.fragments := by
  induction ps with
  | nil => rfl
  | cons p ps ih => rw [params, ih]; rfl

theorem arguments_eq_map (as : List Argument) : arguments as = as.map Argument.fragments := by
  induction as with
  | nil => rfl
  | cons a as ih => rw [arguments, ih]; rfl

theorem items_eq_map (is : List DictItem) : items is = is.map DictItem.fragments := by
  induction is with
  | nil => rfl
  | cons i is ih => rw [items, ih]; rfl

theorem links_eq_flatMap (cs : List Comparison) : links cs = cs.flatMap Comparison.fragments := by
  induction cs with
  | nil => rfl
  | cons c cs ih => rw [links, ih]; rfl

theorem clauses_eq_flatMap (cs : List Clause) : clauses cs = cs.flatMap Clause.fragments := by
  induction cs with
  | nil => rfl
  | cons c cs ih => rw [clauses, ih]; rfl

theorem conditions_eq_flatMap (es : List Expr) :
    conditions es =
      es.flatMap fun e => blank :: word .if_ :: blank :: e.fragmentsIn .disjunction := by
  induction es with
  | nil => rfl
  | cons e es ih => rw [conditions, ih]; rfl

@[simp] theorem chars_blank : Fragment.blank.chars = [' '] := rfl

@[simp] theorem chars_word (k : Keyword) : (word k).chars = k.text.toList := rfl

@[simp] theorem chars_sign (s : Symbol) : (sign s).chars = s.chars := by
  simp [sign, Fragment.chars, Lexeme.text, Symbol.text]

@[simp] theorem chars_name (id : String) : (name id).chars = id.toList := rfl

@[simp] theorem chars_string (text : String) :
    (Fragment.lexeme (.string text)).chars = text.toList :=
  rfl

@[simp] theorem chars_constant (value : Constant) : value.fragment.chars = value.text.toList := by
  cases value <;> rfl

@[simp] theorem spell_unaryOp (op : UnaryOp) : spell op.fragments = op.text.toList := by
  cases op <;> rfl

@[simp] theorem spell_cmpOp (op : CmpOp) : spell op.fragments = op.text.toList := by
  cases op <;> rfl

@[simp] theorem spell_binOp (op : BinOp) : op.symbol.chars = op.text.toList := by
  simp [BinOp.text, Symbol.text]

theorem toList_enclose (b : Bracket) {text : String} {fs : List Fragment}
    (h : text.toList = spell fs) : (b.enclose text).toList = spell (enclose b fs) := by
  cases b <;> simp [Bracket.enclose, enclose, String.toList_append, h, Symbol.chars]

theorem toList_wrap (e : Expr) (context : Level) {text : String} {fs : List Fragment}
    (h : text.toList = spell fs) : (e.wrap context text).toList =
    spell (e.enclosed context fs) := by
  unfold Expr.wrap Expr.enclosed
  split
  · exact toList_enclose .round h
  · exact h

theorem toList_commas {texts : List String} {xs : List (List Fragment)}
    (h : texts.map String.toList = xs.map spell) :
    (Render.commas texts).toList = spell (commas xs) := by
  rw [Render.commas, commas, String.toList_intercalate, h, spell_intercalate]
  rfl

theorem toList_tupleElements {texts : List String} {xs : List (List Fragment)}
    (h : texts.map String.toList = xs.map spell) :
    (Render.tupleElements texts).toList = spell (tupleElements xs) := by
  have hl : texts.length = xs.length := by simpa using congrArg List.length h
  unfold Render.tupleElements tupleElements
  rw [hl]
  split
  · simp [String.toList_append, toList_commas h, Symbol.chars]
  · exact toList_commas h

mutual

theorem toList_bare (e : Expr) : e.bare.toList = spell e.fragments := by
  cases e with
  | boolOp s op values =>
    rw [Expr.bare, Expr.fragments, String.toList_intercalate, toList_exprs, spell_intercalate]
    simp [String.toList_append, BoolOp.text]
  | named s target value =>
    simp [Expr.bare, Expr.fragments, String.toList_append, toList_wrap _ _ (toList_bare _),
      Symbol.chars]
  | binOp s op left right =>
    by_cases h : op = .pow <;>
      simp [Expr.bare, Expr.fragments, h, String.toList_append, toList_wrap _ _ (toList_bare _)]
  | unaryOp s op operand =>
    simp [Expr.bare, Expr.fragments, String.toList_append, toList_wrap _ _ (toList_bare _)]
  | lambda s params body =>
    have hp := toList_parameters params
    have hempty : params.texts.isEmpty = params.fragments.isEmpty := by
      rw [← List.isEmpty_map (f := String.toList), hp, List.isEmpty_map]
    rw [Expr.bare, Expr.fragments, hempty]
    split <;>
      simp [String.toList_append, toList_wrap _ _ (toList_bare _), toList_commas hp, Symbol.chars,
        Keyword.text]
  | ifElse s test body orelse =>
    simp [Expr.bare, Expr.fragments, String.toList_append, toList_wrap _ _ (toList_bare _),
      Keyword.text]
  | dict s items => exact toList_enclose _ (toList_commas (toList_items items))
  | set s elts => exact toList_enclose _ (toList_commas (toList_exprs _ elts))
  | comp s shape elt clauses =>
    refine toList_enclose _ ?_
    simp [String.toList_append, toList_wrap _ _ (toList_bare _), toList_clauses]
  | dictComp s key value clauses =>
    refine toList_enclose _ ?_
    simp [String.toList_append, toList_wrap _ _ (toList_bare _), toList_clauses, Symbol.chars]
  | await s value =>
    simp [Expr.bare, Expr.fragments, String.toList_append, toList_wrap _ _ (toList_bare _),
      Keyword.text]
  | yield s value =>
    cases value with
    | none => simp [Expr.bare, Expr.fragments, Keyword.text]
    | some value =>
      simp [Expr.bare, Expr.fragments, String.toList_append, toList_wrap _ _ (toList_bare _),
        Keyword.text]
  | yieldFrom s value =>
    simp [Expr.bare, Expr.fragments, String.toList_append, toList_wrap _ _ (toList_bare _),
      Keyword.text]
  | compare s left links =>
    simp [Expr.bare, Expr.fragments, String.toList_append, toList_wrap _ _ (toList_bare _),
      toList_links]
  | call s func args keywords =>
    cases h : Expr.isLoneGenerator args keywords with
    | true =>
      have ha := toList_exprs .test args
      obtain ⟨t, elt, clauses, rfl, rfl⟩ := Expr.exists_of_isLoneGenerator h
      simp only [Render.exprs, Spelling.exprs, List.map_cons, List.cons.injEq] at ha
      rw [Expr.bare_call_lone, Expr.fragments_call_lone, String.toList_append, spell_append,
        toList_wrap _ _ (toList_bare _)]
      exact congrArg _ ha.1
    | false =>
      have ha : (Render.exprs .test args ++ Render.arguments keywords).map String.toList =
          (Spelling.exprs .test args ++ Spelling.arguments keywords).map spell := by
        rw [List.map_append, List.map_append, toList_exprs, toList_arguments]
      rw [Expr.bare_call _ _ h, Expr.fragments_call _ _ h, String.toList_append, spell_append,
        toList_wrap _ _ (toList_bare _), toList_enclose _ (toList_commas ha)]
  | constant s value => simp [Expr.bare, Expr.fragments]
  | str s parts =>
    rw [Expr.bare, Expr.fragments, String.toList_intercalate, spell_intercalate]
    simp [Function.comp_def]
  | attr s value field =>
    rw [Expr.bare, Expr.fragments]
    split <;> simp [String.toList_append, toList_wrap _ _ (toList_bare _), Symbol.chars]
  | subscript s value index =>
    simp [Expr.bare, Expr.fragments, String.toList_append, toList_wrap _ _ (toList_bare _),
      toList_enclose _ (toList_wrap _ _ (toList_bare _))]
  | starred s value =>
    simp [Expr.bare, Expr.fragments, String.toList_append, toList_wrap _ _ (toList_bare _),
      Symbol.chars]
  | name s id => simp [Expr.bare, Expr.fragments]
  | list s elts => exact toList_enclose _ (toList_commas (toList_exprs _ elts))
  | tuple s elts parenthesized => exact toList_tupleElements (toList_exprs _ elts)
  | slice s lower upper step =>
    simp [Expr.bare, Expr.fragments, String.toList_append, Symbol.chars,
      toList_behind "" [] rfl, toList_behind ":" [sign .colon] rfl]

theorem toList_exprs (context : Level) (es : List Expr) :
    (Render.exprs context es).map String.toList = (Spelling.exprs context es).map spell := by
  cases es <;> simp [Render.exprs, Spelling.exprs, toList_wrap _ _ (toList_bare _), toList_exprs]

theorem toList_behind (lead : String) (lead' : List Fragment) (h : lead.toList = spell lead')
    (context : Level) (e : Option Expr) :
    (Render.behind lead context e).toList = spell (Spelling.behind lead' context e) := by
  cases e <;>
    simp [Render.behind, Spelling.behind, String.toList_append, h, toList_wrap _ _ (toList_bare _)]

theorem toList_param (p : Param) : p.text.toList = spell p.fragments := by
  match p with
  | ⟨id, none, default⟩ =>
    simp [Param.text, Param.fragments, String.toList_append,
      toList_behind "=" [sign .assign] rfl]
  | ⟨id, some hint, default⟩ =>
    simp [Param.text, Param.fragments, String.toList_append, toList_wrap _ _ (toList_bare _),
      toList_behind " = " [blank, sign .assign, blank] rfl, Symbol.chars]

theorem toList_params (ps : List Param) :
    (Render.params ps).map String.toList = (Spelling.params ps).map spell := by
  cases ps <;> simp [Render.params, Spelling.params, toList_param, toList_params]

theorem toList_starParam (stars : String) (s : Symbol) (h : stars.toList = s.chars)
    (p : Option Param) :
    (Render.starParam stars p).map String.toList = (Spelling.starParam s p).map spell := by
  cases p <;> simp [Render.starParam, Spelling.starParam, String.toList_append, h, toList_param]

theorem toList_parameters (p : Parameters) : p.texts.map String.toList = p.fragments.map spell := by
  match p with
  | ⟨posonly, args, vararg, kwonly, kwarg⟩ =>
    have hslash : (if posonly.isEmpty then [] else ["/"]).map String.toList =
        (if posonly.isEmpty then [] else [[sign .slash]]).map spell := by
      split <;> simp [Symbol.chars]
    have hstar : (if vararg.isNone && !kwonly.isEmpty then ["*"] else []).map String.toList =
        (if vararg.isNone && !kwonly.isEmpty then [[sign .star]] else []).map spell := by
      split <;> simp [Symbol.chars]
    rw [Parameters.texts, Parameters.fragments]
    simp only [List.map_append, toList_params, toList_starParam "*" .star rfl,
      toList_starParam "**" .doubleStar rfl, hslash, hstar]

theorem toList_argument (a : Argument) : a.text.toList = spell a.fragments := by
  match a with
  | ⟨some id, value⟩ | ⟨none, value⟩ =>
    simp [Argument.text, Argument.fragments, String.toList_append, toList_wrap _ _ (toList_bare _),
      Symbol.chars]

theorem toList_arguments (as : List Argument) :
    (Render.arguments as).map String.toList = (Spelling.arguments as).map spell := by
  cases as <;> simp [Render.arguments, Spelling.arguments, toList_argument, toList_arguments]

theorem toList_item (i : DictItem) : i.text.toList = spell i.fragments := by
  match i with
  | ⟨some key, value⟩ | ⟨none, value⟩ =>
    simp [DictItem.text, DictItem.fragments, String.toList_append, toList_wrap _ _ (toList_bare _),
      Symbol.chars]

theorem toList_items (is : List DictItem) :
    (Render.items is).map String.toList = (Spelling.items is).map spell := by
  cases is <;> simp [Render.items, Spelling.items, toList_item, toList_items]

theorem toList_links (ls : List Comparison) :
    (Render.links ls).toList = spell (Spelling.links ls) := by
  match ls with
  | [] => rfl
  | ⟨op, operand⟩ :: ls =>
    simp [Render.links, Spelling.links, Comparison.text, Comparison.fragments,
      String.toList_append, toList_wrap _ _ (toList_bare _), toList_links]

theorem toList_conditions (es : List Expr) :
    (Render.conditions es).toList = spell (Spelling.conditions es) := by
  cases es <;>
    simp [Render.conditions, Spelling.conditions, String.toList_append,
      toList_wrap _ _ (toList_bare _), toList_conditions, Keyword.text]

theorem toList_clauses (cs : List Clause) :
    (Render.clauses cs).toList = spell (Spelling.clauses cs) := by
  match cs with
  | [] => rfl
  | ⟨mode, target, iter, conditions⟩ :: cs =>
    cases mode <;>
      simp [Render.clauses, Spelling.clauses, Clause.text, Clause.fragments, String.toList_append,
        toList_wrap _ _ (toList_bare _), toList_conditions, toList_clauses, Keyword.text]

end

/-- The text of an expression is what its fragments spell. -/
theorem toList_render (context : Level) (e : Expr) :
    (e.render context).toList = spell (e.fragmentsIn context) :=
  toList_wrap e context (toList_bare e)

end Spelling

end AsyncErasure
