import AsyncErasure.Grammar.Expression
import AsyncErasure.Proofs.Render.Spelling
import AsyncErasure.Proofs.Tree.Child
import AsyncErasure.Proofs.WellFormed

namespace AsyncErasure

open Fragment Lexeme

namespace Lexeme

def isDotted (d : Char) : Bool := isBreak d || d == '.'

/-- How strong a form has to be to begin with the lexeme. -/
def opens : Lexeme → Nat
  | .keyword .yield_ => 1
  | .symbol .star => 2
  | .keyword .lambda_ => 3
  | .keyword .not_ => 6
  | .symbol .plus | .symbol .minus | .symbol .tilde => 14
  | .keyword .await_ => 16
  | _ => 17

theorem goesOn_mem {s : Symbol} {d : Char} (h : s.goesOn d) :
    d ∈ ['=', '*', '/', '<', '>'] ∨ d = '.' ∧ s = .dot := by
  have hall : (Symbol.all.all fun s => Symbol.all.all fun t => t.chars.tail.all fun d =>
      !(s.chars ++ [d]).isPrefixOf t.chars || ['=', '*', '/', '<', '>'].contains d ||
        (d == '.' && decide (s = .dot))) = true := by
    decide +kernel
  obtain ⟨t, ht, hp⟩ := List.any_eq_true.1 h
  have hd : d ∈ t.chars.tail := by
    obtain ⟨u, hu⟩ := List.isPrefixOf_iff_prefix.1 hp
    obtain ⟨c, cs, hc⟩ := List.exists_cons_of_ne_nil s.chars_ne_nil
    rw [← hu, hc]
    simp
  have hst := List.all_eq_true.1 (List.all_eq_true.1
    (List.all_eq_true.1 hall s s.mem_all) t ht) d hd
  simp only [hp, Bool.not_true, Bool.false_or, Bool.or_eq_true, List.contains_iff_mem,
    Bool.and_eq_true, beq_iff_eq, decide_eq_true_eq] at hst
  exact hst

theorem ends_of_isDotted {l : Lexeme} (hl : l ≠ .symbol .dot)
    (hn : ∀ text, l = .number text → Token.isPlainNumber text.toList = false) {d : Char}
    (h : isDotted d) : l.ends d := by
  simp only [isDotted, Bool.or_eq_true, beq_iff_eq] at h
  obtain h | rfl := h
  · exact ends_of_isBreak l h
  · cases l with
    | symbol s =>
      have hs : s.goesOn '.' = false := by
        rw [← Bool.not_eq_true]
        intro hg
        obtain hm | ⟨-, rfl⟩ := goesOn_mem hg
        · simp at hm
        · exact hl rfl
      simp [ends, hs]
    | number text => simp [ends, hn text rfl]; decide
    | _ => simp [ends]; decide

/-- No symbol but a dot goes on with what an expression begins with. -/
theorem ends_head {l : Lexeme} (hw : l.isWhole) (hs : Grammar.startsExpr l) (ho : 3 ≤ l.opens)
    {s : Symbol} (hdot : s ≠ .dot) : ∀ d ∈ l.text.toList.head?, (symbol s).ends d := by
  intro d hd
  have hne : d ∉ ['=', '*', '/', '<', '>'] := by
    cases l with
    | symbol t =>
      have hall : (Symbol.all.all fun t => !Grammar.startsExpr (.symbol t) ||
          !decide (3 ≤ opens (.symbol t)) ||
          !t.chars.head?.any ['=', '*', '/', '<', '>'].contains) = true := by
        decide +kernel
      have ht := List.all_eq_true.1 hall t t.mem_all
      have hhead : t.chars.head? = some d := by simpa [text, Symbol.text] using hd
      simpa [hs, ho, hhead] using ht
    | _ =>
      obtain ⟨c, cs, ht, hm⟩ := stands_nil_of_isWhole hw
      rw [ht, List.head?_cons, Option.mem_def, Option.some.injEq] at hd
      subst hd
      intro hmem
      have hall : (['=', '*', '/', '<', '>'].all fun c => !Literal.isQuote c && !c.isDigit &&
          !(c == '.') && !Text.isNameStart c) = true := by
        decide +kernel
      have hc := List.all_eq_true.1 hall c hmem
      simp only [Bool.and_eq_true, Bool.not_eq_true'] at hc
      obtain ⟨⟨⟨hq, hd⟩, hp⟩, hn⟩ := hc
      obtain ⟨t, ht⟩ := munch_symbol hq (by simp [hd, hp]) hn hm
      cases ht
  have hg : s.goesOn d = false := by
    rw [← Bool.not_eq_true]
    intro hg
    obtain hm | ⟨-, h⟩ := goesOn_mem hg
    · exact hne hm
    · exact hdot h
  simp [ends, hg, hdot]

end Lexeme

namespace Fragment

variable {p q : Char → Bool} {a b fs : List Fragment} {l : Lexeme}

/-- Fragments that are read as their lexemes in front of certain characters. -/
structure Spelled (p : Char → Bool) (fs : List Fragment) : Prop where
  legible : ∀ rest : List Char, (∀ d ∈ rest.head?, p d) → Legible fs rest
  balanced : Token.Balanced (lexemes fs)
  unified : '\r' ∉ spell fs

def Leads (p : Char → Bool) (fs : List Fragment) : Prop := ∃ c cs, spell fs = c :: cs ∧ p c

theorem leads_append (h : Leads p a) : Leads p (a ++ b) := by
  obtain ⟨c, cs, hs, hc⟩ := h
  exact ⟨c, cs ++ spell b, by simp [hs], hc⟩

@[simp] theorem leads_blank : Leads isBreak (blank :: fs) := ⟨' ', spell fs, rfl, rfl⟩

@[simp] theorem leads_comma : Leads isBreak (sign .comma :: fs) := ⟨',', spell fs, rfl, rfl⟩

@[simp] theorem leads_colon : Leads isBreak (sign .colon :: fs) := ⟨':', spell fs, rfl, rfl⟩

@[simp] theorem leads_enclose_round : Leads isBreak (enclose .round fs) := ⟨'(', _, rfl, rfl⟩

@[simp] theorem leads_enclose_square : Leads isBreak (enclose .square fs) := ⟨'[', _, rfl, rfl⟩

namespace Spelled

theorem mono (h : Spelled q fs) (hp : ∀ d, p d → q d) : Spelled p fs :=
  ⟨fun rest hr => h.legible rest fun d hd => hp d (hr d hd), h.balanced, h.unified⟩

theorem nil : Spelled p [] := ⟨fun _ _ => trivial, Token.balanced_nil, by simp⟩

theorem append_of_head (ha : Spelled q a) (hb : Spelled p b)
    (h : ∀ rest : List Char, (∀ d ∈ rest.head?, p d) → ∀ d ∈ (spell b ++ rest).head?, q d) :
    Spelled p (a ++ b) := by
  refine ⟨fun rest hr => legible_append.2 ⟨ha.legible _ (h rest hr), hb.legible rest hr⟩, ?_, ?_⟩
  · rw [lexemes_append]
    exact ha.balanced.append hb.balanced
  · rw [spell_append, List.mem_append]
    exact fun h => h.elim ha.unified hb.unified

theorem append (ha : Spelled q a) (hb : Spelled p b) (h : Leads q b) : Spelled p (a ++ b) := by
  obtain ⟨c, cs, hs, hc⟩ := h
  exact ha.append_of_head hb (by simp [hs, hc])

/-- What comes behind may be nothing at all. -/
theorem append_of_imp (ha : Spelled q a) (hb : Spelled p b) (h : b = [] ∨ Leads q b)
    (hp : ∀ d, p d → q d) : Spelled p (a ++ b) := by
  obtain rfl | h := h
  · rw [List.append_nil]
    exact ha.mono hp
  · exact ha.append hb h

theorem blank (h : Spelled p fs) : Spelled p (blank :: fs) :=
  ⟨h.legible, h.balanced, by simpa [chars] using h.unified⟩

theorem single (hw : l.isWhole) (hr : '\r' ∉ l.text.toList) (hf : l.isFlat) :
    Spelled l.ends [lexeme l] := by
  refine ⟨fun rest h => ⟨stands_of_isWhole hw h, trivial⟩, fun opened => ?_,
    by simpa [chars] using hr⟩
  simp [Token.balance, nesting_of_isFlat hf]

theorem singleBreak (hw : l.isWhole) (hr : '\r' ∉ l.text.toList) (hf : l.isFlat) :
    Spelled isBreak [lexeme l] :=
  (single hw hr hf).mono fun _ => ends_of_isBreak l

theorem word (k : Keyword) : Spelled isBreak [word k] :=
  singleBreak (isWhole_keyword k) (return_notMem (isWhole_keyword k) (by simp)) rfl

theorem sign {s : Symbol} (hf : isFlat (.symbol s)) : Spelled (ends (.symbol s)) [sign s] :=
  single (isWhole_symbol s) (return_notMem (isWhole_symbol s) (by simp)) hf

theorem signBreak {s : Symbol} (hf : isFlat (.symbol s)) : Spelled isBreak [Fragment.sign s] :=
  (sign hf).mono fun _ => ends_of_isBreak _

theorem name {id : String} (h : isIdentifier id) : Spelled isBreak [name id] :=
  singleBreak h (return_notMem h (by simp)) rfl

theorem nameDotted {id : String} (h : isIdentifier id) : Spelled isDotted [Fragment.name id] :=
  (single h (return_notMem h (by simp)) rfl).mono fun _ =>
    ends_of_isDotted (by simp) (by simp)

theorem closing (b : Bracket) : Leads isBreak [Fragment.sign (.closing b)] := by
  cases b <;> exact ⟨_, _, rfl, rfl⟩

theorem ends_opening (b : Bracket) (d : Char) : (Lexeme.symbol (.opening b)).ends d := by
  have hg : (Symbol.opening b).goesOn d = false := by
    cases b <;> simp [Symbol.goesOn, Symbol.all, Symbol.chars, Bracket.opening, Bracket.closing,
      List.isPrefixOf]
  simp [ends, hg]

theorem enclose (h : Spelled isBreak fs) (b : Bracket) : Spelled isDotted (enclose b fs) := by
  obtain ⟨c, cs, hs, hc⟩ := closing b
  have hopen := return_notMem (isWhole_symbol (.opening b)) (by simp)
  have hclose := return_notMem (isWhole_symbol (.closing b)) (by simp)
  refine ⟨fun rest hr => ?_, ?_, ?_⟩
  · rw [Fragment.enclose, List.cons_append, ← List.singleton_append, legible_append]
    refine ⟨⟨stands_symbol _ fun d _ => ends_opening b d, trivial⟩,
      legible_append.2 ⟨?_, ?_, trivial⟩⟩
    · exact h.legible _ (by simp [hs, hc])
    · exact stands_of_isWhole (isWhole_symbol _) fun d hd =>
        ends_of_isDotted (by simp) (by simp) (hr d hd)
  · rw [Fragment.enclose, lexemes_append]
    exact h.balanced.enclose b
  · have hfs := h.unified
    simp only [Fragment.enclose, List.cons_append, spell_cons, spell_append, List.mem_append]
    rintro (hm | hm | hm | hm)
    · exact hopen hm
    · exact hfs hm
    · exact hclose hm
    · cases hm

theorem intercalate {sep : List Fragment} (hs : Spelled (fun _ => true) sep)
    (hl : Leads p sep) {xs : List (List Fragment)} (hx : ∀ x ∈ xs, Spelled p x) :
    Spelled p (sep.intercalate xs) := by
  induction xs with
  | nil => exact nil
  | cons x xs ih =>
    simp only [List.mem_cons, forall_eq_or_imp] at hx
    cases xs with
    | nil => simpa using hx.1
    | cons y ys =>
      rw [List.intercalate_cons_cons]
      have hrest := hs.append_of_head (ih hx.2) (by simp)
      exact List.append_assoc .. ▸ hx.1.append hrest (leads_append hl)

theorem wordBetween (k : Keyword) :
    Spelled (fun _ => true) [Fragment.blank, Fragment.word k, Fragment.blank] :=
  ((word k).append (blank nil) leads_blank).blank

theorem commas {xs : List (List Fragment)} (hx : ∀ x ∈ xs, Spelled isBreak x) :
    Spelled isBreak (commas xs) := by
  refine intercalate ?_ leads_comma hx
  exact (signBreak rfl).append (blank nil) leads_blank

theorem flatMap {α : Type} {f : α → List Fragment} (xs : List α)
    (hx : ∀ x ∈ xs, Spelled isBreak (f x) ∧ Leads isBreak (f x)) :
    Spelled isBreak (xs.flatMap f) ∧ (xs.flatMap f = [] ∨ Leads isBreak (xs.flatMap f)) := by
  induction xs with
  | nil => exact ⟨nil, .inl rfl⟩
  | cons x xs ih =>
    simp only [List.mem_cons, forall_eq_or_imp] at hx
    obtain ⟨hs, hl⟩ := ih hx.2
    rw [List.flatMap_cons]
    exact ⟨hx.1.1.append_of_imp hs hl (by simp), .inr (leads_append hx.1.2)⟩

/-- A keyword and a space. -/
theorem wordBlank (k : Keyword) (h : Spelled p fs) :
    Spelled p (Fragment.word k :: Fragment.blank :: fs) :=
  (word k).append h.blank leads_blank

theorem signBlank {s : Symbol} (hf : isFlat (.symbol s)) (h : Spelled p fs) :
    Spelled p (Fragment.sign s :: Fragment.blank :: fs) :=
  (signBreak hf).append h.blank leads_blank

end Spelled

/-- Fragments that begin with a lexeme that opens an expression of at least the given strength. A
word that begins them is not the name of an argument or of an assigned value. -/
def Heads (n : Nat) (fs : List Fragment) : Prop :=
  ∃ l gs, fs = .lexeme l :: gs ∧ l.isWhole ∧ Grammar.startsExpr l ∧ n ≤ l.opens ∧
    (l.isWord → ∀ m ∈ (lexemes gs).head?, m ≠ .symbol .assign ∧ m ≠ .symbol .walrus)

namespace Heads

variable {n m : Nat}

theorem mono (h : Heads n fs) (hm : m ≤ n) : Heads m fs := by
  obtain ⟨l, gs, hfs, hw, hs, ho, hn⟩ := h
  exact ⟨l, gs, hfs, hw, hs, Nat.le_trans hm ho, hn⟩

theorem append (h : Heads n a)
    (hb : ∀ m ∈ (lexemes b).head?, m ≠ .symbol .assign ∧ m ≠ .symbol .walrus) :
    Heads n (a ++ b) := by
  obtain ⟨l, gs, rfl, hw, hs, ho, hn⟩ := h
  refine ⟨l, gs ++ b, rfl, hw, hs, ho, fun hl => ?_⟩
  rw [lexemes_append]
  cases hg : lexemes gs with
  | nil => simpa using hb
  | cons g gs' => simpa [hg] using hn hl

theorem lone (hw : l.isWhole) (hs : Grammar.startsExpr l) : Heads l.opens [lexeme l] :=
  ⟨l, [], rfl, hw, hs, Nat.le_refl _, by simp⟩

theorem enclose (b : Bracket) : Heads 17 (enclose b fs) :=
  ⟨_, _, rfl, isWhole_symbol _, by cases b <;> rfl, by cases b <;> decide, by simp [isWord]⟩

/-- A keyword in front of an expression. -/
theorem word {k : Keyword} (hk : Grammar.startsExpr (.keyword k)) (h : Heads n fs) :
    Heads (Lexeme.keyword k).opens (Fragment.word k :: Fragment.blank :: fs) := by
  obtain ⟨l, gs, rfl, -, hs, -⟩ := h
  refine ⟨_, _, rfl, isWhole_keyword k, hk, Nat.le_refl _, fun _ => ?_⟩
  simp only [lexemes_blank, lexemes_lexeme, List.head?_cons, Option.mem_def, Option.some.injEq,
    forall_eq']
  constructor <;> rintro rfl <;> cases hs

theorem sign {s : Symbol} (hs : Grammar.startsExpr (.symbol s)) :
    Heads (Lexeme.symbol s).opens (Fragment.sign s :: fs) :=
  ⟨_, _, rfl, isWhole_symbol s, hs, Nat.le_refl _, by simp [isWord]⟩

/-- A sign before an expression is not read together with it. -/
theorem leads (h : Heads 3 fs) {s : Symbol} (hs : s ≠ .dot) :
    Leads (Lexeme.symbol s).ends fs := by
  obtain ⟨l, gs, rfl, hw, hx, ho, -⟩ := h
  obtain ⟨c, cs, ht, -⟩ := stands_nil_of_isWhole hw
  refine ⟨c, cs ++ spell gs, by simp [chars, ht], ends_head hw hx ho hs c (by simp [ht])⟩

end Heads

namespace Spelled

/-- A sign and the expression behind it. -/
theorem signHeads {s : Symbol} (hf : isFlat (.symbol s)) (hd : s ≠ .dot) (h : Spelled p fs)
    (hh : Heads 3 fs) : Spelled p (Fragment.sign s :: fs) :=
  (sign hf).append h (hh.leads hd)

/-- A name, an equals sign and the expression assigned to it. -/
theorem assigned {id : String} (hid : isIdentifier id) (h : Spelled p fs) (hh : Heads 3 fs) :
    Spelled p (Fragment.name id :: Fragment.sign .assign :: fs) := by
  have hname : Spelled (Lexeme.name id).ends [Fragment.name id] :=
    single hid (return_notMem hid (by simp)) rfl
  exact hname.append (signHeads rfl (by simp) h hh) ⟨'=', spell fs, rfl, by simp [ends]; decide⟩

/-- A name begins with a letter. -/
theorem identifier_head {id : String} (hid : isIdentifier id) :
    ∃ c cs, id.toList = c :: cs ∧ Text.isNameStart c ∧ c.isDigit = false := by
  obtain ⟨c, cs, ht, hm⟩ := stands_nil_of_isWhole hid
  refine ⟨c, cs, ht, ?_⟩
  by_cases hq : Literal.isQuote c = true
  · simp only [Token.munch, hq, if_true] at hm
    cases hl : Token.literalTail c cs <;> rw [hl] at hm <;> cases hm
  rw [Bool.not_eq_true] at hq
  by_cases hd : (c.isDigit || (c == '.' && Token.startsWithDigit cs)) = true
  · simp only [Token.munch, hq, hd, Bool.false_eq_true, if_true, if_false] at hm
    cases hm
  rw [Bool.not_eq_true] at hd
  by_cases hn : Text.isNameStart c = true
  · exact ⟨hn, by simp_all⟩
  · rw [Bool.not_eq_true] at hn
    obtain ⟨s, hs⟩ := munch_symbol hq hd hn hm
    cases hs

theorem leads_name {id : String} (hid : isIdentifier id) (s : Symbol) :
    Leads (Lexeme.symbol s).ends (Fragment.name id :: fs) := by
  obtain ⟨c, cs, ht, hn, hd⟩ := identifier_head hid
  refine ⟨c, cs ++ spell fs, by simp [Fragment.name, chars, text, ht], ?_⟩
  have hg : s.goesOn c = false := by
    rw [← Bool.not_eq_true]
    intro hg
    have hbad : ['=', '*', '/', '<', '>', '.'].all (!Text.isNameStart ·) = true := by
      decide +kernel
    have hc : c ∈ ['=', '*', '/', '<', '>', '.'] := by
      obtain hm | ⟨rfl, -⟩ := goesOn_mem hg
      · exact List.mem_append_left ['.'] hm
      · simp
    have hn' := List.all_eq_true.1 hbad c hc
    simp [hn] at hn'
  simp [ends, hg, hd]

/-- A dot and the name behind it. -/
theorem dotName {id : String} (hid : isIdentifier id) :
    Spelled isDotted [Fragment.sign .dot, Fragment.name id] :=
  (sign rfl).append (nameDotted hid) (leads_name hid .dot)

end Spelled

end Fragment

namespace Expr

open Fits

/-- Forms whose own fragments tell how strong they are. -/
def isForm : Expr → Bool
  | named .. | starred .. | slice .. | tuple .. => false
  | _ => true

theorem needsBrackets_of_isForm (context : Level) {e : Expr} (h : e.isForm) :
    e.needsBrackets context = decide (e.level < context) := by
  cases e <;> first | rfl | cases h

theorem fragmentsIn_cases (context : Level) {e : Expr} (h : e.isForm) :
    e.fragmentsIn context = Fragment.enclose .round e.fragments ∨
      e.fragmentsIn context = e.fragments ∧ context.rank ≤ e.level.rank := by
  unfold fragmentsIn enclosed
  rw [needsBrackets_of_isForm context h]
  by_cases hl : e.level < context
  · exact .inl (by simp [hl])
  · exact .inr ⟨by simp [hl], Nat.le_of_not_lt hl⟩

/-- An expression of a level above tuples that has no form of its own has brackets. -/
theorem fragmentsIn_of_not_isForm {context : Level} (hc : 3 ≤ context.rank) {e : Expr}
    (hf : e.fits .plain) (h : e.isForm = false) :
    e.fragmentsIn context = Fragment.enclose .round e.fragments := by
  have hlt (l : Level) (hl : l.rank < 3) : l < context := Nat.lt_of_lt_of_le hl hc
  cases e with
  | named => simp [fragmentsIn, enclosed, needsBrackets, level, hlt .named (by decide)]
  | tuple => simp [fragmentsIn, enclosed, needsBrackets, hlt .tuple (by decide)]
  | starred => simp [fits, Slot.plain] at hf
  | slice => simp [fits, Slot.plain] at hf
  | _ => cases h

/-- What is known of the beginning of an expression: a form tells its strength, and any expression
but a slice opens one wherever a tuple may stand. -/
structure Begins (e : Expr) : Prop where
  form : ∀ slot, e.fits slot → e.isForm → Heads e.level.rank e.fragments
  item : ∀ slot, e.fits slot → slot.slice = false → ∀ context : Level, 2 ≤ context.rank →
    Heads 2 (e.fragmentsIn context)

theorem Begins.heads {e : Expr} (h : e.Begins) (hf : e.fits .plain) (context : Level)
    (hc : 3 ≤ context.rank) : Heads context.rank (e.fragmentsIn context) := by
  have hrank : context.rank ≤ 17 := by cases context <;> decide
  cases hform : e.isForm with
  | false =>
    rw [fragmentsIn_of_not_isForm hc hf hform]
    exact (Heads.enclose .round).mono hrank
  | true =>
    obtain he | ⟨he, hle⟩ := fragmentsIn_cases context hform <;> rw [he]
    · exact (Heads.enclose .round).mono hrank
    · exact (h.form _ hf hform).mono hle

theorem Begins.of_form {e : Expr} (hform : e.isForm)
    (h : ∀ slot, e.fits slot → Heads e.level.rank e.fragments) : e.Begins := by
  refine ⟨fun slot hf _ => h slot hf, fun slot hf _ context hc => ?_⟩
  obtain he | ⟨he, hle⟩ := fragmentsIn_cases context hform <;> rw [he]
  · exact (Heads.enclose .round).mono (by decide)
  · exact (h slot hf).mono (Nat.le_trans hc hle)

theorem begins_tuple {s : Span} {elts : List Expr} {parenthesized : Bool}
    (ih : ∀ x ∈ elts, Begins x) : (tuple s elts parenthesized).Begins := by
  refine ⟨fun _ _ h => absurd h Bool.false_ne_true, fun slot hf hs context hc => ?_⟩
  rw [fragmentsIn, enclosed]
  split
  · exact (Heads.enclose .round).mono (by decide)
  · rename_i hb
    simp only [needsBrackets, Bool.or_eq_true, not_or, Bool.not_eq_true] at hb
    obtain ⟨⟨he, rfl⟩, -⟩ := hb
    simp only [fits, Bool.and_eq_true, exprs_eq_true] at hf
    cases elts with
    | nil => cases he
    | cons x xs =>
      have hx := (ih x (by simp)).item _ (hf.2 x (by simp)) hs .test (by decide)
      rw [fragments, Spelling.exprs_eq_map, tupleElements]
      cases xs with
      | nil =>
        rw [if_pos (by simp), commas, List.map_singleton, List.intercalate_singleton]
        exact hx.append (by simp)
      | cons y ys =>
        rw [if_neg (by simp), commas, List.map_cons, List.map_cons, List.intercalate_cons_cons,
          List.append_assoc]
        exact hx.append (by simp)

theorem param_head {p : Param} {hinted : Bool} (h : p.fits hinted) :
    ∃ id gs, isIdentifier id ∧ p.fragments = Fragment.name id :: gs := by
  obtain ⟨id, hint, default⟩ := p
  simp only [Param.fits, Bool.and_eq_true] at h
  cases hint with
  | none | some => exact ⟨id, _, h.1.1.1, rfl⟩

theorem params_head (p : Parameters) : ∀ x ∈ p.fragments,
    ∃ l gs, x = .lexeme l :: gs ∧ l ≠ .symbol .assign ∧ l ≠ .symbol .walrus := by
  have hparam (p : Param) : ∃ id gs, p.fragments = Fragment.name id :: gs := by
    obtain ⟨id, hint, default⟩ := p
    cases hint with
    | none | some => exact ⟨id, _, rfl⟩
  obtain ⟨posonly, args, vararg, kwonly, kwarg⟩ := p
  intro x hx
  have hplain {ps : List Param} (h : x ∈ Spelling.params ps) :
      ∃ l gs, x = .lexeme l :: gs ∧ l ≠ .symbol .assign ∧ l ≠ .symbol .walrus := by
    rw [Spelling.params_eq_map] at h
    obtain ⟨p, -, rfl⟩ := List.mem_map.1 h
    obtain ⟨id, gs, hp⟩ := hparam p
    exact ⟨_, gs, hp, by simp, by simp⟩
  have hstar {s : Symbol} {p : Option Param} (hs : s = .star ∨ s = .doubleStar)
      (h : x ∈ Spelling.starParam s p) :
      ∃ l gs, x = .lexeme l :: gs ∧ l ≠ .symbol .assign ∧ l ≠ .symbol .walrus := by
    cases p with
    | none => cases h
    | some p =>
      obtain rfl := List.mem_singleton.1 h
      obtain rfl | rfl := hs <;> exact ⟨_, _, rfl, by simp, by simp⟩
  simp only [Parameters.fragments, List.mem_append] at hx
  obtain (((((h | h) | h) | h) | h) | h) | h := hx
  · exact hplain h
  · split at h
    · cases h
    · exact ⟨_, _, List.mem_singleton.1 h, by simp, by simp⟩
  · exact hplain h
  · exact hstar (.inl rfl) h
  · split at h
    · exact ⟨_, _, List.mem_singleton.1 h, by simp, by simp⟩
    · cases h
  · exact hplain h
  · exact hstar (.inr rfl) h

theorem heads_lambda {s : Span} {params : Parameters} {body : Expr} :
    Heads 3 (lambda s params body).fragments := by
  refine ⟨_, _, by rw [fragments]; rfl, isWhole_keyword _, rfl, by decide, fun _ => ?_⟩
  cases hp : params.fragments with
  | nil => simp
  | cons x xs =>
    obtain ⟨l, gs, rfl, hl⟩ := params_head params x (by simp [hp])
    cases xs <;> simpa [commas] using hl

theorem begins_boolOp {s : Span} {op : BoolOp} {values : List Expr}
    (ih : ∀ x ∈ (boolOp s op values).children, Begins x) : (boolOp s op values).Begins := by
  refine .of_form rfl fun slot hf => ?_
  simp only [fits, Bool.and_eq_true, decide_eq_true_eq, exprs_eq_true] at hf
  obtain _ | ⟨v, _ | ⟨w, ws⟩⟩ := values
  · simp at hf
  · simp at hf
  · have hv := (ih v (by simp [children])).heads (hf.2 v (by simp)) op.level.next
      (by cases op <;> decide)
    rw [fragments, Spelling.exprs_eq_map, List.map_cons, List.map_cons,
      List.intercalate_cons_cons, List.append_assoc]
    refine (hv.append (by simp)).mono ?_
    rw [level]
    cases op <;> decide

theorem begins_binOp {s : Span} {op : BinOp} {left right : Expr}
    (ih : ∀ x ∈ (binOp s op left right).children, Begins x) : (binOp s op left right).Begins := by
  refine .of_form rfl fun slot hf => ?_
  simp only [fits, Bool.and_eq_true] at hf
  have hl := (ih left (by simp [children])).heads hf.1
    (if op = .pow then op.level.next else op.level) (by cases op <;> decide)
  rw [fragments, level]
  refine (hl.append ?_).mono (by cases op <;> decide)
  cases op <;> simp [BinOp.symbol]

theorem begins_unaryOp {s : Span} {op : UnaryOp} {operand : Expr}
    (ih : ∀ x ∈ (unaryOp s op operand).children, Begins x) : (unaryOp s op operand).Begins := by
  refine .of_form rfl fun slot hf => ?_
  simp only [fits, Bool.and_eq_true] at hf
  have ho := (ih operand (by simp [children])).heads hf.2 op.level
    (by cases op <;> decide)
  cases op with
  | not => exact Heads.word rfl ho
  | invert | plus | minus => exact Heads.sign rfl

theorem begins_ifElse {s : Span} {test body orelse : Expr}
    (ih : ∀ x ∈ (ifElse s test body orelse).children, Begins x) :
    (ifElse s test body orelse).Begins := by
  refine .of_form rfl fun slot hf => ?_
  simp only [fits, Bool.and_eq_true] at hf
  have hb := (ih body (by simp [children])).heads hf.1.2 .disjunction (by decide)
  rw [fragments, level]
  exact (hb.append (by simp)).mono (by decide)

theorem begins_yield {s : Span} {value : Option Expr}
    (ih : ∀ x ∈ (yield s value).children, Begins x) : (yield s value).Begins := by
  refine .of_form rfl fun slot hf => ?_
  cases value with
  | none =>
    rw [fragments]
    exact Heads.lone (isWhole_keyword .yield_) rfl
  | some value =>
    have hv := (ih value (by simp [children])).item _ hf rfl .tuple (by decide)
    rw [fragments]
    exact Heads.word rfl hv

theorem begins_compare {s : Span} {left : Expr} {links : List Comparison}
    (ih : ∀ x ∈ (compare s left links).children, Begins x) : (compare s left links).Begins := by
  refine .of_form rfl fun slot hf => ?_
  simp only [fits, Bool.and_eq_true] at hf
  have hl := (ih left (by simp [children])).heads hf.1.1.2 .bitOr (by decide)
  rw [fragments, level]
  refine (hl.append ?_).mono (by decide)
  cases links with
  | nil => simp [Spelling.links]
  | cons c cs =>
    obtain ⟨op, operand⟩ := c
    cases op <;> simp [Spelling.links, Comparison.fragments, CmpOp.fragments]

theorem begins_call {s : Span} {func : Expr} {args : List Expr} {keywords : List Argument}
    (ih : ∀ x ∈ (call s func args keywords).children, Begins x) :
    (call s func args keywords).Begins := by
  refine .of_form rfl fun slot hf => ?_
  simp only [fits, Bool.and_eq_true] at hf
  have hv := (ih func (by simp [children])).heads hf.1.1.1 .atom (by decide)
  cases h : isLoneGenerator args keywords with
  | true =>
    obtain ⟨t, elt, clauses, rfl, rfl⟩ := exists_of_isLoneGenerator h
    rw [fragments_call_lone]
    exact hv.append (by simp [fragments, Fragment.enclose])
  | false =>
    rw [fragments_call _ _ h]
    exact hv.append (by simp [Fragment.enclose])

theorem begins_constant {s : Span} {value : Constant} : (constant s value).Begins := by
  refine .of_form rfl fun slot hf => ?_
  cases value with
  | number text => exact Heads.lone hf rfl
  | ellipsis => exact Heads.sign rfl
  | none | true | false => exact Heads.lone (isWhole_keyword _) rfl

theorem begins_str {s : Span} {parts : List String} : (str s parts).Begins := by
  refine .of_form rfl fun slot hf => ?_
  cases parts with
  | nil => cases hf
  | cons p ps =>
    simp only [fits, List.all_cons, Bool.and_eq_true, isLiteral] at hf
    cases ps with
    | nil =>
      exact ⟨_, _, by rw [fragments]; rfl, hf.2.1.1, rfl, Nat.le_refl 17, by simp [isWord]⟩
    | cons q qs =>
      exact ⟨_, _, by rw [fragments]; rfl, hf.2.1.1, rfl, Nat.le_refl 17, by simp [isWord]⟩

theorem begins_attr {s : Span} {value : Expr} {field : String}
    (ih : ∀ x ∈ (attr s value field).children, Begins x) : (attr s value field).Begins := by
  refine .of_form rfl fun slot hf => ?_
  simp only [fits, Bool.and_eq_true] at hf
  have hv := (ih value (by simp [children])).heads hf.1 .atom (by decide)
  rw [fragments]
  refine hv.append ?_
  split <;> simp

theorem begins_subscript {s : Span} {value index : Expr}
    (ih : ∀ x ∈ (subscript s value index).children, Begins x) :
    (subscript s value index).Begins := by
  refine .of_form rfl fun slot hf => ?_
  simp only [fits, Bool.and_eq_true] at hf
  have hv := (ih value (by simp [children])).heads hf.1 .atom (by decide)
  exact hv.append (by simp [Fragment.enclose])

theorem begins_named {s : Span} {target value : Expr} : (named s target value).Begins := by
  refine ⟨fun _ _ h => absurd h Bool.false_ne_true, fun slot hf _ context hc => ?_⟩
  have hlt : Level.named < context := Nat.lt_of_lt_of_le (by decide) hc
  simp only [fragmentsIn, enclosed, needsBrackets, level, hlt, decide_true, if_true]
  exact (Heads.enclose .round).mono (by decide)

theorem begins_starred {s : Span} {value : Expr} : (starred s value).Begins := by
  refine ⟨fun _ _ h => absurd h Bool.false_ne_true, fun slot hf _ context hc => ?_⟩
  have hle : ¬Level.atom < context := by cases context <;> decide
  simp only [fragmentsIn, enclosed, needsBrackets, level, hle, decide_false]
  exact Heads.sign rfl

theorem begins (e : Expr) : e.Begins := by
  induction e using childInduction with
  | step e ih =>
  cases e with
  | boolOp s op values => exact begins_boolOp ih
  | binOp s op left right => exact begins_binOp ih
  | unaryOp s op operand => exact begins_unaryOp ih
  | lambda s params body => exact .of_form rfl fun _ _ => heads_lambda
  | ifElse s test body orelse => exact begins_ifElse ih
  | dict | set | comp | dictComp | list => exact .of_form rfl fun _ _ => Heads.enclose _
  | await s value =>
    refine .of_form rfl fun slot hf => ?_
    have hv := (ih value (by simp [children])).heads hf .atom (by decide)
    exact Heads.word rfl hv
  | yield s value => exact begins_yield ih
  | yieldFrom s value =>
    exact .of_form rfl fun _ _ =>
      ⟨.keyword .yield_, _, by rw [fragments]; rfl, isWhole_keyword _, rfl, Nat.le_refl 1, by simp⟩
  | compare s left links => exact begins_compare ih
  | call s func args keywords => exact begins_call ih
  | constant s value => exact begins_constant
  | str s parts => exact begins_str
  | attr s value field => exact begins_attr ih
  | subscript s value index => exact begins_subscript ih
  | name s id =>
    exact .of_form rfl fun _ hf => Heads.lone hf rfl
  | named s target value => exact begins_named
  | starred s value => exact begins_starred
  | slice s lower upper step =>
    refine ⟨fun _ _ h => absurd h Bool.false_ne_true, fun slot hf hs _ _ => ?_⟩
    simp [fits, hs] at hf
  | tuple s elts parenthesized => exact begins_tuple ih

/-- Forms in front of which a dot ends nothing but them. -/
def isAtomic (e : Expr) : Bool := e.isForm && e.level == .atom && !e.isPlainInteger

/-- The text of an expression is read as its lexemes, and an atom may have a dot behind it. -/
structure Reads (e : Expr) : Prop where
  spelled : ∀ slot, e.fits slot → Spelled isBreak e.fragments
  dotted : ∀ slot, e.fits slot → e.isAtomic → Spelled isDotted e.fragments

namespace Reads

variable {e : Expr} {slot : Slot}

theorem inContext (h : e.Reads) (hf : e.fits slot) (context : Level) :
    Spelled isBreak (e.fragmentsIn context) := by
  unfold fragmentsIn enclosed
  split
  · exact ((h.spelled slot hf).enclose .round).mono fun d hd => by simp [isDotted, hd]
  · exact h.spelled slot hf

theorem asAtom (h : e.Reads) (hf : e.fits .plain) (hn : e.isPlainInteger = false) :
    Spelled isDotted (e.fragmentsIn .atom) := by
  cases hform : e.isForm with
  | false =>
    rw [fragmentsIn_of_not_isForm (by decide) hf hform]
    exact (h.spelled _ hf).enclose .round
  | true =>
    obtain he | ⟨he, hle⟩ := fragmentsIn_cases .atom hform <;> rw [he]
    · exact (h.spelled _ hf).enclose .round
    · have hlevel : e.level = .atom := by
        cases hl : e.level <;> rw [hl] at hle <;> first | rfl | exact absurd hle (by decide)
      exact h.dotted _ hf (by simp [isAtomic, hform, hlevel, hn])

/-- A form weaker than an atom need not be looked at before a dot. -/
theorem of_spelled (hl : e.isAtomic = false)
    (h : ∀ slot, e.fits slot → Spelled isBreak e.fragments) : e.Reads :=
  ⟨h, fun _ _ ha => by simp [hl] at ha⟩

theorem of_dotted (h : ∀ slot, e.fits slot → Spelled isDotted e.fragments) : e.Reads :=
  ⟨fun slot hf => (h slot hf).mono fun d hd => by simp [isDotted, hd], fun slot hf _ => h slot hf⟩

end Reads

open Spelling

theorem spelled_behind (lead : List Fragment) {e : Option Expr}
    (ih : ∀ x ∈ e.toList, x.Reads) (hf : expr? .plain e)
    (hlead : ∀ fs, Spelled isBreak fs → Heads 3 fs → Spelled isBreak (lead ++ fs)) :
    Spelled isBreak (behind lead .test e) := by
  cases e with
  | none => exact .nil
  | some e => exact hlead _ ((ih e (by simp)).inContext hf .test) (e.begins.heads hf _ (by decide))

theorem spelled_param {p : Param} {hinted : Bool} (ih : ∀ x ∈ p.children, x.Reads)
    (hf : p.fits hinted) : Spelled isBreak p.fragments := by
  obtain ⟨id, hint, default⟩ := p
  simp only [Param.fits, Bool.and_eq_true] at hf
  cases hint with
  | none =>
    cases default with
    | none => exact .name hf.1.1.1
    | some e =>
      have he := (ih e (by simp [Param.children])).inContext hf.2 .test
      exact .assigned hf.1.1.1 he (e.begins.heads hf.2 _ (by decide))
  | some hint =>
    have hh := (ih hint (by simp [Param.children])).inContext hf.1.2 .test
    have hd := spelled_behind [blank, sign .assign, blank] (e := default)
      (fun x hx => ih x (by simp_all [Param.children])) hf.2
      fun fs h _ => (Spelled.signBlank rfl h).blank
    refine (Spelled.name hf.1.1.1).append (.signBlank rfl (hh.append_of_imp hd ?_ (by simp)))
      leads_colon
    cases default with
    | none => exact .inl rfl
    | some e => exact .inr leads_blank

theorem spelled_parameters {p : Parameters} {hinted : Bool} (ih : ∀ x ∈ p.children, x.Reads)
    (hf : p.fits hinted) : ∀ x ∈ p.fragments, Spelled isBreak x := by
  obtain ⟨posonly, args, vararg, kwonly, kwarg⟩ := p
  simp only [Parameters.fits, Bool.and_eq_true, params_eq_true, param?_eq_true] at hf
  simp only [Parameters.children, List.mem_append] at ih
  intro x hx
  have hplain {ps : List Param} (hps : ∀ p ∈ ps, p.fits hinted)
      (hc : ∀ e ∈ ps.flatMap Param.children, e.Reads) (h : x ∈ Spelling.params ps) :
      Spelled isBreak x := by
    rw [params_eq_map] at h
    obtain ⟨p, hp, rfl⟩ := List.mem_map.1 h
    exact spelled_param (fun e he => hc e (List.mem_flatMap.2 ⟨p, hp, he⟩)) (hps p hp)
  have hstar {s : Symbol} {p : Option Param} (hs : s = .star ∨ s = .doubleStar)
      (hp : ∀ q, p = some q → q.fits hinted) (hc : ∀ e ∈ p.toList.flatMap Param.children, e.Reads)
      (h : x ∈ Spelling.starParam s p) : Spelled isBreak x := by
    cases p with
    | none => cases h
    | some p =>
      obtain rfl := List.mem_singleton.1 h
      have hsp := spelled_param (fun e he => hc e (by simpa using he)) (hp p rfl)
      obtain ⟨id, gs, hid, hname⟩ := param_head (hp p rfl)
      have hlead : Leads (Lexeme.symbol s).ends p.fragments := hname ▸ Spelled.leads_name hid s
      obtain rfl | rfl := hs <;> exact (Spelled.sign rfl).append hsp hlead
  simp only [Parameters.fragments, List.mem_append] at hx
  obtain (((((h | h) | h) | h) | h) | h) | h := hx
  · exact hplain hf.1.1.1.1 (fun e he => ih e (by simp [he])) h
  · split at h
    · cases h
    · obtain rfl := List.mem_singleton.1 h
      exact .signBreak rfl
  · exact hplain hf.1.1.1.2 (fun e he => ih e (by simp [he])) h
  · exact hstar (.inl rfl) hf.1.1.2 (fun e he => ih e (by simp [he])) h
  · split at h
    · obtain rfl := List.mem_singleton.1 h
      exact .signBreak rfl
    · cases h
  · exact hplain hf.1.2 (fun e he => ih e (by simp [he])) h
  · exact hstar (.inr rfl) hf.2 (fun e he => ih e (by simp [he])) h

theorem spelled_argument {a : Argument} (ih : a.value.Reads) (hf : a.fits) :
    Spelled isBreak a.fragments := by
  obtain ⟨id, value⟩ := a
  cases id with
  | some id =>
    simp only [Argument.fits, Option.all_some, Bool.and_eq_true] at hf
    exact .assigned hf.1 (ih.inContext hf.2 .test) (value.begins.heads hf.2 _ (by decide))
  | none =>
    simp only [Argument.fits, Bool.and_eq_true] at hf
    exact .signHeads rfl (by simp) (ih.inContext hf.2 .test) (value.begins.heads hf.2 _ (by decide))

theorem spelled_item {i : DictItem} (ih : ∀ x ∈ i.value :: i.key.toList, x.Reads) (hf : i.fits) :
    Spelled isBreak i.fragments := by
  obtain ⟨key, value⟩ := i
  cases key with
  | some key =>
    simp only [DictItem.fits, expr?, Bool.and_eq_true] at hf
    have hk := (ih key (by simp)).inContext hf.1 .test
    have hv := (ih value (by simp)).inContext hf.2 .test
    exact hk.append (.signBlank rfl hv) leads_colon
  | none =>
    simp only [DictItem.fits, Bool.and_eq_true] at hf
    exact .signHeads rfl (by simp) ((ih value (by simp)).inContext hf.2 .bitOr)
      ((value.begins.heads hf.2 _ (by decide)).mono (by decide))

theorem spelled_cmpOp (op : CmpOp) {fs : List Fragment} (h : Spelled isBreak fs) :
    Spelled isBreak (op.fragments ++ blank :: fs) := by
  cases op with
  | is | isIn => exact .wordBlank _ h
  | isNot | notIn => exact .wordBlank _ (.wordBlank _ h)
  | _ => exact .signBlank rfl h

theorem spelled_link {c : Comparison} (ih : c.operand.Reads) (hf : c.fits) :
    Spelled isBreak c.fragments ∧ Leads isBreak c.fragments := by
  obtain ⟨op, operand⟩ := c
  refine ⟨?_, leads_blank⟩
  exact (spelled_cmpOp op (ih.inContext hf .bitOr)).blank

theorem spelled_clause {c : Clause} (ih : ∀ x ∈ c.children, x.Reads) (hf : c.fits) :
    Spelled isBreak c.fragments ∧ Leads isBreak c.fragments := by
  obtain ⟨mode, target, iter, conditions⟩ := c
  simp only [Clause.fits, Bool.and_eq_true, exprs_eq_true] at hf
  have ht := (ih target (by simp [Clause.children])).inContext hf.1.1 .tuple
  have hi := (ih iter (by simp [Clause.children])).inContext hf.1.2 .disjunction
  obtain ⟨hc, hl⟩ := Spelled.flatMap conditions
    (f := fun e => blank :: word .if_ :: blank :: e.fragmentsIn .disjunction) fun e he =>
      ⟨(Spelled.wordBlank _ ((ih e (by simp [Clause.children, he])).inContext (hf.2 e he) _)).blank,
        leads_blank⟩
  rw [← conditions_eq_flatMap] at hc hl
  have hrest := (Spelled.wordBlank .for_ (ht.append
    (Spelled.wordBlank .in_ (hi.append_of_imp hc hl (by simp))).blank leads_blank)).blank
  rw [Clause.fragments]
  cases mode with
  | sync => exact ⟨hrest, leads_blank⟩
  | async => exact ⟨((Spelled.word .async_).append hrest leads_blank).blank, leads_blank⟩

theorem spelled_clauses {cs : List Clause} (ih : ∀ x ∈ cs.flatMap Clause.children, x.Reads)
    (hf : Fits.clauses cs) :
    Spelled isBreak (Spelling.clauses cs) ∧
      (Spelling.clauses cs = [] ∨ Leads isBreak (Spelling.clauses cs)) := by
  rw [clauses_eq_true] at hf
  rw [clauses_eq_flatMap]
  exact Spelled.flatMap cs fun c hc =>
    spelled_clause (fun x hx => ih x (List.mem_flatMap.2 ⟨c, hc, hx⟩)) (hf c hc)

theorem spelled_exprs {slot : Slot} {context : Level} {es : List Expr} (ih : ∀ x ∈ es, x.Reads)
    (hf : Fits.exprs slot es) : ∀ x ∈ Spelling.exprs context es, Spelled isBreak x := by
  rw [exprs_eq_true] at hf
  rw [exprs_eq_map]
  intro x hx
  obtain ⟨e, he, rfl⟩ := List.mem_map.1 hx
  exact (ih e he).inContext (hf e he) context

theorem spelled_slice {lower upper step : Option Expr}
    (ih : ∀ x ∈ lower.toList ++ (upper.toList ++ step.toList), x.Reads)
    (hl : expr? .plain lower) (hu : expr? .plain upper) (hs : expr? .plain step) :
    Spelled isBreak (behind [] .test lower ++ sign .colon :: behind [] .test upper ++
      behind [sign .colon] .test step) := by
  have hlower := spelled_behind [] (e := lower)
    (fun x hx => ih x (by simp_all)) hl fun fs h _ => h
  have hstep := spelled_behind [sign .colon] (e := step)
    (fun x hx => ih x (by simp_all)) hs fun fs h hh => Spelled.signHeads rfl (by simp) h hh
  have hupper : Spelled isBreak (sign .colon :: behind [] .test upper) := by
    cases upper with
    | none => exact .signBreak rfl
    | some e =>
      exact Spelled.signHeads rfl (by simp) ((ih e (by simp)).inContext hu .test)
        (e.begins.heads hu _ (by decide))
  refine (hlower.append hupper leads_colon).append_of_imp hstep ?_ (by simp)
  cases step with
  | none => exact .inl rfl
  | some e => exact .inr leads_colon

theorem reads_boolOp {s : Span} {op : BoolOp} {values : List Expr}
    (ih : ∀ x ∈ (boolOp s op values).children, Reads x) : (boolOp s op values).Reads := by
  refine .of_spelled (by cases op <;> rfl) fun slot hf => ?_
  simp only [fits, Bool.and_eq_true] at hf
  rw [fragments]
  exact .intercalate (.wordBetween op.keyword) leads_blank (spelled_exprs ih hf.2)

theorem reads_named {s : Span} {target value : Expr}
    (ih : ∀ x ∈ (named s target value).children, Reads x) : (named s target value).Reads := by
  refine .of_spelled rfl fun slot hf => ?_
  simp only [fits, Bool.and_eq_true] at hf
  have ht := (ih target (by simp [children])).inContext hf.1.2 .atom
  have hv := (ih value (by simp [children])).inContext hf.2 .test
  exact ht.append (Spelled.signBlank rfl hv).blank leads_blank

theorem reads_binOp {s : Span} {op : BinOp} {left right : Expr}
    (ih : ∀ x ∈ (binOp s op left right).children, Reads x) : (binOp s op left right).Reads := by
  refine .of_spelled (by cases op <;> rfl) fun slot hf => ?_
  simp only [fits, Bool.and_eq_true] at hf
  have hl := (ih left (by simp [children])).inContext hf.1
    (if op = .pow then op.level.next else op.level)
  have hr := (ih right (by simp [children])).inContext hf.2
    (if op = .pow then op.level else op.level.next)
  exact hl.append (Spelled.signBlank (by cases op <;> rfl) hr).blank leads_blank

theorem reads_unaryOp {s : Span} {op : UnaryOp} {operand : Expr}
    (ih : ∀ x ∈ (unaryOp s op operand).children, Reads x) : (unaryOp s op operand).Reads := by
  refine .of_spelled (by cases op <;> rfl) fun slot hf => ?_
  simp only [fits, Bool.and_eq_true] at hf
  have ho := (ih operand (by simp [children])).inContext hf.2 op.level
  have hh := (operand.begins.heads hf.2 op.level (by cases op <;> decide)).mono
    (m := 3) (by cases op <;> decide)
  cases op with
  | not => exact .wordBlank _ ho
  | invert | plus | minus => exact .signHeads rfl (by simp) ho hh

theorem reads_lambda {s : Span} {params : Parameters} {body : Expr}
    (ih : ∀ x ∈ (lambda s params body).children, Reads x) : (lambda s params body).Reads := by
  refine .of_spelled rfl fun slot hf => ?_
  simp only [fits, Bool.and_eq_true] at hf
  have hp := spelled_parameters (fun x hx => ih x (by simp [children, hx])) hf.1.2
  have hb := (ih body (by simp [children])).inContext hf.2 .test
  rw [fragments]
  split
  · exact (Spelled.word _).append (.signBlank rfl hb) leads_colon
  · exact .wordBlank _ ((Spelled.commas hp).append (.signBlank rfl hb) leads_colon)

theorem reads_ifElse {s : Span} {test body orelse : Expr}
    (ih : ∀ x ∈ (ifElse s test body orelse).children, Reads x) :
    (ifElse s test body orelse).Reads := by
  refine .of_spelled rfl fun slot hf => ?_
  simp only [fits, Bool.and_eq_true] at hf
  have ht := (ih test (by simp [children])).inContext hf.1.1.2 .disjunction
  have hb := (ih body (by simp [children])).inContext hf.1.2 .disjunction
  have ho := (ih orelse (by simp [children])).inContext hf.2 .test
  have hrest := ht.append (Spelled.wordBlank .else_ ho).blank leads_blank
  exact hb.append (Spelled.wordBlank .if_ hrest).blank leads_blank

theorem reads_dict {s : Span} {items : List DictItem}
    (ih : ∀ x ∈ (dict s items).children, Reads x) : (dict s items).Reads := by
  refine .of_dotted fun slot hf => ?_
  rw [fits, items_eq_true] at hf
  rw [fragments, items_eq_map]
  refine (Spelled.commas fun x hx => ?_).enclose _
  obtain ⟨i, hi, rfl⟩ := List.mem_map.1 hx
  exact spelled_item (fun y hy => ih y (List.mem_flatMap.2 ⟨i, hi, hy⟩)) (hf i hi)

theorem reads_comp {s : Span} {shape : Collection} {elt : Expr} {clauses : List Clause}
    (ih : ∀ x ∈ (comp s shape elt clauses).children, Reads x) :
    (comp s shape elt clauses).Reads := by
  refine .of_dotted fun slot hf => ?_
  simp only [fits, Bool.and_eq_true] at hf
  have he := (ih elt (by simp [children])).inContext hf.1.1 .test
  obtain ⟨hc, hl⟩ := spelled_clauses (fun x hx => ih x (List.mem_cons_of_mem _ hx)) hf.2
  exact (he.append_of_imp hc hl (by simp)).enclose _

theorem reads_dictComp {s : Span} {key value : Expr} {clauses : List Clause}
    (ih : ∀ x ∈ (dictComp s key value clauses).children, Reads x) :
    (dictComp s key value clauses).Reads := by
  refine .of_dotted fun slot hf => ?_
  simp only [fits, Bool.and_eq_true] at hf
  have hk := (ih key (by simp [children])).inContext hf.1.1.1 .test
  have hv := (ih value (by simp [children])).inContext hf.1.1.2 .test
  obtain ⟨hc, hl⟩ := spelled_clauses (fun x hx => ih x (by simp [children, hx])) hf.2
  exact (hk.append (.signBlank rfl (hv.append_of_imp hc hl (by simp))) leads_colon).enclose _

theorem reads_yield {s : Span} {value : Option Expr}
    (ih : ∀ x ∈ (yield s value).children, Reads x) : (yield s value).Reads := by
  refine .of_spelled rfl fun slot hf => ?_
  cases value with
  | none =>
    rw [fragments]
    exact .word _
  | some value =>
    rw [fragments]
    exact .wordBlank _ ((ih value (by simp [children])).inContext hf .tuple)

theorem reads_compare {s : Span} {left : Expr} {links : List Comparison}
    (ih : ∀ x ∈ (compare s left links).children, Reads x) : (compare s left links).Reads := by
  refine .of_spelled rfl fun slot hf => ?_
  simp only [fits, Bool.and_eq_true, links_eq_true] at hf
  have hleft := (ih left (by simp [children])).inContext hf.1.1.2 .bitOr
  obtain ⟨hc, hl⟩ := Spelled.flatMap links (f := Comparison.fragments) fun c hc =>
    spelled_link (ih c.operand (by simp [children]; exact .inr ⟨c, hc, rfl⟩)) (hf.2 c hc)
  rw [← links_eq_flatMap] at hc hl
  exact hleft.append_of_imp hc hl (by simp)

theorem reads_call {s : Span} {func : Expr} {args : List Expr} {keywords : List Argument}
    (ih : ∀ x ∈ (call s func args keywords).children, Reads x) :
    (call s func args keywords).Reads := by
  refine .of_dotted fun slot hf => ?_
  simp only [fits, Bool.and_eq_true] at hf
  have hfunc := (ih func (by simp [children])).inContext hf.1.1.1 .atom
  cases h : isLoneGenerator args keywords with
  | true =>
    obtain ⟨t, elt, clauses, rfl, rfl⟩ := exists_of_isLoneGenerator h
    simp only [exprs_eq_true, List.mem_singleton, forall_eq] at hf
    rw [fragments_call_lone]
    exact hfunc.append ((ih _ (by simp [children])).dotted _ hf.1.1.2 rfl) leads_enclose_round
  | false =>
    rw [fragments_call _ _ h]
    refine hfunc.append (Spelled.enclose (.commas fun x hx => ?_) _) leads_enclose_round
    obtain hx | hx := List.mem_append.1 hx
    · exact spelled_exprs (fun y hy => ih y (by simp [children, hy])) hf.1.1.2 x hx
    · have hk := arguments_eq_true.1 hf.1.2
      rw [arguments_eq_map] at hx
      obtain ⟨a, ha, rfl⟩ := List.mem_map.1 hx
      exact spelled_argument (ih a.value (by simp [children]; exact .inr (.inr ⟨a, ha, rfl⟩)))
        (hk a ha)

theorem reads_constant {s : Span} {value : Constant} : (constant s value).Reads := by
  cases value with
  | number text =>
    have hw {slot} (hf : fits slot (constant s (.number text))) :=
      Spelled.single (l := .number text) hf (return_notMem hf (by simp)) rfl
    refine ⟨fun slot hf => (hw hf).mono fun _ => ends_of_isBreak _, fun slot hf ha => ?_⟩
    refine (hw hf).mono fun _ => ends_of_isDotted (by simp) ?_
    intro text' h
    cases h
    simpa [isAtomic, isForm, level, isPlainInteger, Token.isPlainNumber] using ha
  | ellipsis =>
    exact .of_dotted fun _ _ => (Spelled.sign rfl).mono fun _ =>
      ends_of_isDotted (by simp) (by simp)
  | none | true | false =>
    refine .of_dotted fun _ _ => ?_
    exact (Spelled.single (isWhole_keyword _) (return_notMem (isWhole_keyword _) (by simp))
      rfl).mono fun _ => ends_of_isDotted (by simp) (by simp)

theorem reads_str {s : Span} {parts : List String} : (str s parts).Reads := by
  refine .of_dotted fun slot hf => ?_
  simp only [fits, Bool.and_eq_true, List.all_eq_true, isLiteral, Bool.not_eq_true',
    List.contains_eq_mem, decide_eq_false_iff_not] at hf
  rw [fragments]
  refine .intercalate (Spelled.blank .nil) ⟨' ', [], rfl, rfl⟩ ?_
  intro x hx
  obtain ⟨part, hp, rfl⟩ := List.mem_map.1 hx
  exact (Spelled.single (hf.2 part hp).1 (hf.2 part hp).2 rfl).mono fun _ =>
    ends_of_isDotted (by simp) (by simp)

theorem reads_attr {s : Span} {value : Expr} {field : String}
    (ih : ∀ x ∈ (attr s value field).children, Reads x) : (attr s value field).Reads := by
  refine .of_dotted fun slot hf => ?_
  simp only [fits, Bool.and_eq_true] at hf
  rw [fragments]
  cases hn : value.isPlainInteger with
  | true =>
    have hv := (ih value (by simp [children])).inContext hf.1 .atom
    exact hv.append (Spelled.dotName hf.2).blank leads_blank
  | false =>
    have hv := (ih value (by simp [children])).asAtom hf.1 hn
    exact hv.append (Spelled.dotName hf.2) ⟨'.', spell [Fragment.name field], rfl, rfl⟩

theorem reads_subscript {s : Span} {value index : Expr}
    (ih : ∀ x ∈ (subscript s value index).children, Reads x) : (subscript s value index).Reads := by
  refine .of_dotted fun slot hf => ?_
  simp only [fits, Bool.and_eq_true] at hf
  have hv := (ih value (by simp [children])).inContext hf.1 .atom
  have hi := (ih index (by simp [children])).inContext hf.2 .tuple
  exact hv.append (hi.enclose _) leads_enclose_square

theorem reads_starred {s : Span} {value : Expr} (ih : ∀ x ∈ (starred s value).children, Reads x) :
    (starred s value).Reads := by
  refine .of_spelled rfl fun slot hf => ?_
  simp only [fits, Bool.and_eq_true] at hf
  exact .signHeads rfl (by simp) ((ih value (by simp [children])).inContext hf.2 .bitOr)
    ((value.begins.heads hf.2 _ (by decide)).mono (by decide))

theorem reads_tuple {s : Span} {elts : List Expr} {parenthesized : Bool}
    (ih : ∀ x ∈ (tuple s elts parenthesized).children, Reads x) :
    (tuple s elts parenthesized).Reads := by
  refine .of_spelled rfl fun slot hf => ?_
  have hall : ∀ x ∈ Spelling.exprs .test elts, Spelled isBreak x := by
    cases parenthesized with
    | true => exact spelled_exprs ih hf
    | false =>
      simp only [fits, Bool.and_eq_true] at hf
      exact spelled_exprs ih hf.2
  rw [fragments, tupleElements]
  split
  · exact (Spelled.commas hall).append (.signBreak rfl) leads_comma
  · exact .commas hall

/-- The text of every well-formed expression is read as its lexemes. -/
theorem reads (e : Expr) : e.Reads := by
  induction e using childInduction with
  | step e ih =>
  cases e with
  | boolOp s op values => exact reads_boolOp ih
  | named s target value => exact reads_named ih
  | binOp s op left right => exact reads_binOp ih
  | unaryOp s op operand => exact reads_unaryOp ih
  | lambda s params body => exact reads_lambda ih
  | ifElse s test body orelse => exact reads_ifElse ih
  | dict s items => exact reads_dict ih
  | set s elts =>
    refine .of_dotted fun slot hf => ?_
    simp only [fits, Bool.and_eq_true] at hf
    exact (Spelled.commas (spelled_exprs ih hf.2)).enclose _
  | comp s shape elt clauses => exact reads_comp ih
  | dictComp s key value clauses => exact reads_dictComp ih
  | await s value =>
    refine .of_spelled rfl fun slot hf => ?_
    exact .wordBlank _ ((ih value (by simp [children])).inContext hf .atom)
  | yield s value => exact reads_yield ih
  | yieldFrom s value =>
    refine .of_spelled rfl fun slot hf => ?_
    exact .wordBlank _ (.wordBlank _ ((ih value (by simp [children])).inContext hf .test))
  | compare s left links => exact reads_compare ih
  | call s func args keywords => exact reads_call ih
  | constant s value => exact reads_constant
  | str s parts => exact reads_str
  | attr s value field => exact reads_attr ih
  | subscript s value index => exact reads_subscript ih
  | starred s value => exact reads_starred ih
  | name s id => exact .of_dotted fun slot hf => Spelled.nameDotted hf
  | list s elts =>
    refine .of_dotted fun slot hf => ?_
    exact (Spelled.commas (spelled_exprs ih hf)).enclose _
  | tuple s elts parenthesized => exact reads_tuple ih
  | slice s lower upper step =>
    refine .of_spelled rfl fun slot hf => ?_
    simp only [fits, Bool.and_eq_true] at hf
    exact spelled_slice ih hf.1.1.2 hf.1.2 hf.2

end Expr

end AsyncErasure
