import AsyncErasure.Setter
import AsyncErasure.Proofs.Synchrony
import AsyncErasure.Proofs.Tree.Block
import AsyncErasure.Proofs.WellFormed

namespace AsyncErasure

mutual

def Expr.isFormed (slot : Slot) : Expr → Bool
  | .boolOp _ _ values => 2 ≤ values.length && Formed.exprs .plain values
  | .named _ target value => target.isName && target.isFormed .plain && value.isFormed .plain
  | .binOp _ _ left right => left.isFormed .plain && right.isFormed .plain
  | .unaryOp _ _ operand => operand.isFormed .plain
  | .lambda _ params body => params.isFormed false && body.isFormed .plain
  | .ifElse _ test body orelse =>
    test.isFormed .plain && body.isFormed .plain && orelse.isFormed .plain
  | .dict _ items => Formed.items items
  | .set _ elts => !elts.isEmpty && Formed.exprs .plain elts
  | .comp _ _ elt clauses => elt.isFormed .plain && !clauses.isEmpty && Formed.clauses clauses
  | .dictComp _ key value clauses =>
    key.isFormed .plain && value.isFormed .plain && !clauses.isEmpty && Formed.clauses clauses
  | .await _ value | .yieldFrom _ value | .starred _ value => value.isFormed .plain
  | .yield _ value => Formed.expr? .elements value
  | .compare _ left links => left.isFormed .plain && !links.isEmpty && Formed.links links
  | .call _ func args keywords =>
    func.isFormed .plain && Formed.exprs .plain args && Formed.arguments keywords
  | .constant _ _ => true
  | .str _ parts => !parts.isEmpty
  | .attr _ value field => value.isFormed .plain && isIdentifier field
  | .subscript _ value index => value.isFormed .plain && index.isFormed .index
  | .name _ id => isIdentifier id
  | .list _ elts | .tuple _ elts true => Formed.exprs .plain elts
  | .tuple _ elts false => slot.bare && !elts.isEmpty && Formed.exprs slot.inner elts
  | .slice _ lower upper step =>
    slot.slice && Formed.expr? .plain lower && Formed.expr? .plain upper && Formed.expr? .plain step

def Formed.exprs (slot : Slot) : List Expr → Bool
  | [] => true
  | e :: es => e.isFormed slot && Formed.exprs slot es

def Formed.expr? (slot : Slot) : Option Expr → Bool
  | none => true
  | some e => e.isFormed slot

def Param.isFormed (hinted : Bool) : Param → Bool
  | ⟨name, hint, default⟩ =>
    isIdentifier name && (hinted || hint.isNone) && Formed.expr? .plain hint &&
      Formed.expr? .plain default

def Formed.params (hinted : Bool) : List Param → Bool
  | [] => true
  | p :: ps => p.isFormed hinted && Formed.params hinted ps

def Formed.param? (hinted : Bool) : Option Param → Bool
  | none => true
  | some p => p.isFormed hinted

def Parameters.isFormed (hinted : Bool) : Parameters → Bool
  | ⟨posonly, args, vararg, kwonly, kwarg⟩ =>
    Formed.params hinted posonly && Formed.params hinted args && Formed.param? hinted vararg &&
      Formed.params hinted kwonly && Formed.param? hinted kwarg

def Argument.isFormed : Argument → Bool
  | ⟨name, value⟩ => name.all isIdentifier && value.isFormed .plain

def Formed.arguments : List Argument → Bool
  | [] => true
  | a :: as => a.isFormed && Formed.arguments as

def DictItem.isFormed : DictItem → Bool
  | ⟨key, value⟩ => Formed.expr? .plain key && value.isFormed .plain

def Formed.items : List DictItem → Bool
  | [] => true
  | i :: is => i.isFormed && Formed.items is

def Comparison.isFormed : Comparison → Bool
  | ⟨_, operand⟩ => operand.isFormed .plain

def Formed.links : List Comparison → Bool
  | [] => true
  | c :: cs => c.isFormed && Formed.links cs

def Clause.isFormed : Clause → Bool
  | ⟨_, target, iter, conditions⟩ =>
    target.isFormed .targets && iter.isFormed .plain && Formed.exprs .plain conditions

def Formed.clauses : List Clause → Bool
  | [] => true
  | c :: cs => c.isFormed && Formed.clauses cs

end

def WithItem.isFormed (i : WithItem) : Bool :=
  i.context.isFormed .plain && Formed.expr? .plain i.target

mutual

def Stmt.isFormed : Stmt → Bool
  | .functionDef _ _ name params returns decorators body =>
    isIdentifier name && params.isFormed true && Formed.expr? .plain returns &&
      Formed.exprs .plain decorators && Formed.stmts body
  | .classDef _ name bases keywords decorators body =>
    isIdentifier name && Formed.exprs .plain bases && Formed.arguments keywords &&
      Formed.exprs .plain decorators && Formed.stmts body
  | .ret _ value => Formed.expr? .elements value
  | .delete _ targets => !targets.isEmpty && Formed.exprs .plain targets
  | .assign _ targets value =>
    !targets.isEmpty && Formed.exprs .elements targets && value.isFormed .elements
  | .augAssign _ target _ value => target.isFormed .elements && value.isFormed .elements
  | .annAssign _ target hint value simple =>
    target.isFormed .elements && hint.isFormed .plain && Formed.expr? .elements value &&
      (!simple || target.isName)
  | .forLoop _ _ target iter body orelse =>
    target.isFormed .targets && iter.isFormed .elements && Formed.stmts body && Formed.stmts orelse
  | .whileLoop _ test body orelse | .branch _ test body orelse =>
    test.isFormed .plain && Formed.stmts body && Formed.stmts orelse
  | .withBlock _ _ items body =>
    !items.isEmpty && items.all WithItem.isFormed && Formed.stmts body
  | .raise _ exc cause =>
    Formed.expr? .plain exc && Formed.expr? .plain cause && (exc.isSome || cause.isNone)
  | .tryBlock _ body handlers orelse final _ =>
    Formed.stmts body && Formed.handlers handlers && Formed.stmts orelse && Formed.stmts final &&
      (!handlers.isEmpty || !final.isEmpty)
  | .assert _ test msg => test.isFormed .plain && Formed.expr? .plain msg
  | .importModules _ names => !names.isEmpty && names.all (Alias.fits isPath)
  | .importFrom _ path names level =>
    path.all isPath && (path.isSome || level != 0) && Fits.imported names
  | .global _ names | .nonlocal _ names => !names.isEmpty && names.all isIdentifier
  | .expr _ value => value.isFormed .elements
  | .pass _ | .breakLoop _ | .continueLoop _ | .comment _ _ _ => true
  | .blank _ => false

def Formed.stmts : List Stmt → Bool
  | [] => true
  | s :: ss => s.isFormed && Formed.stmts ss

def Handler.isFormed : Handler → Bool
  | ⟨type, name, body⟩ =>
    Formed.expr? .plain type && name.all isIdentifier && (type.isSome || name.isNone) &&
      Formed.stmts body

def Formed.handlers : List Handler → Bool
  | [] => true
  | h :: hs => h.isFormed && Formed.handlers hs

end

def Module.IsFormed (m : Module) : Prop := Formed.stmts m.body

instance (m : Module) : Decidable m.IsFormed := inferInstanceAs (Decidable (_ = true))

namespace Formed

theorem exprs_eq_true {slot : Slot} {es : List Expr} :
    exprs slot es ↔ ∀ e ∈ es, e.isFormed slot := by
  induction es with
  | nil => simp [exprs]
  | cons e es ih => simp [exprs, ih]

theorem expr?_eq_true {slot : Slot} {e : Option Expr} :
    expr? slot e ↔ ∀ x ∈ e, x.isFormed slot := by
  cases e <;> simp [expr?]

theorem params_eq_true {hinted : Bool} {ps : List Param} :
    params hinted ps ↔ ∀ p ∈ ps, p.isFormed hinted := by
  induction ps with
  | nil => simp [params]
  | cons p ps ih => simp [params, ih]

theorem arguments_eq_true {as : List Argument} : arguments as ↔ ∀ a ∈ as, a.isFormed := by
  induction as with
  | nil => simp [arguments]
  | cons a as ih => simp [arguments, ih]

theorem items_eq_true {is : List DictItem} : items is ↔ ∀ i ∈ is, i.isFormed := by
  induction is with
  | nil => simp [items]
  | cons i is ih => simp [items, ih]

theorem links_eq_true {cs : List Comparison} : links cs ↔ ∀ c ∈ cs, c.isFormed := by
  induction cs with
  | nil => simp [links]
  | cons c cs ih => simp [links, ih]

theorem clauses_eq_true {cs : List Clause} : clauses cs ↔ ∀ c ∈ cs, c.isFormed := by
  induction cs with
  | nil => simp [clauses]
  | cons c cs ih => simp [clauses, ih]

theorem stmts_eq_true {ss : List Stmt} : stmts ss ↔ ∀ s ∈ ss, s.isFormed := by
  induction ss with
  | nil => simp [stmts]
  | cons s ss ih => simp [stmts, ih]

theorem handlers_eq_true {hs : List Handler} : handlers hs ↔ ∀ h ∈ hs, h.isFormed := by
  induction hs with
  | nil => simp [handlers]
  | cons h hs ih => simp [handlers, ih]

end Formed

/-- The statements of the blocks of a formed statement are formed. -/
theorem Stmt.isFormed_children {s : Stmt} (h : s.isFormed) : ∀ x ∈ s.children, x.isFormed := by
  cases s with
  | functionDef | classDef | withBlock =>
    simp only [isFormed, Bool.and_eq_true] at h
    exact Formed.stmts_eq_true.1 h.2
  | forLoop | whileLoop | branch =>
    simp only [isFormed, Bool.and_eq_true] at h
    exact List.forall_mem_append.2 ⟨Formed.stmts_eq_true.1 h.1.2, Formed.stmts_eq_true.1 h.2⟩
  | tryBlock s body handlers orelse final star =>
    simp only [isFormed, Bool.and_eq_true, Formed.handlers_eq_true] at h
    have hhandlers : ∀ x ∈ handlers.flatMap Handler.body, x.isFormed := by
      intro x hx
      obtain ⟨⟨type, name, body⟩, hmem, hx⟩ := List.mem_flatMap.1 hx
      have hbody := h.1.1.1.2 _ hmem
      simp only [Handler.isFormed, Bool.and_eq_true] at hbody
      exact Formed.stmts_eq_true.1 hbody.2 x hx
    simp only [children, List.forall_mem_append]
    exact ⟨Formed.stmts_eq_true.1 h.1.1.1.1, hhandlers, Formed.stmts_eq_true.1 h.1.1.2,
      Formed.stmts_eq_true.1 h.1.2⟩
  | _ => exact List.forall_mem_nil _

structure Slot.Admits (slot slot' : Slot) : Prop where
  slice : slot.slice → slot'.slice
  bare : slot.bare → slot'.bare

theorem Slot.plain_admits (slot : Slot) : Slot.plain.Admits slot := ⟨nofun, nofun⟩

theorem Slot.Admits.inner {slot slot' : Slot} (h : slot.Admits slot') :
    slot.inner.Admits slot'.inner := ⟨h.slice, nofun⟩

theorem Expr.isFormed_of_admits {slot slot' : Slot} (h : slot.Admits slot') {e : Expr}
    (he : e.isFormed slot) : e.isFormed slot' := by
  induction e using Expr.childInduction generalizing slot slot' with
  | step e ih =>
    cases e with
    | tuple s elts bracketed =>
      cases bracketed with
      | true => exact he
      | false =>
        simp only [isFormed, Bool.and_eq_true, Formed.exprs_eq_true] at he ⊢
        obtain ⟨⟨hbare, hne⟩, helts⟩ := he
        exact ⟨⟨h.bare hbare, hne⟩, fun x hx => ih x hx h.inner (helts x hx)⟩
    | slice s lower upper step =>
      simp only [isFormed, Bool.and_eq_true] at he ⊢
      exact ⟨⟨⟨h.slice he.1.1.1, he.1.1.2⟩, he.1.2⟩, he.2⟩
    | _ => exact he

/-- What is formed where only plain expressions stand is formed anywhere. -/
theorem Expr.isFormed_of_plain {slot : Slot} {e : Expr} (h : e.isFormed .plain) : e.isFormed slot :=
  isFormed_of_admits slot.plain_admits h

namespace Formed

section Erasure

@[simp] theorem length_exprs (r : Substitution) (es : List Expr) :
    (Substitution.exprs r es).length = es.length := by
  induction es with
  | nil => rfl
  | cons e es ih => simp [Substitution.exprs, ih]

@[simp] theorem isEmpty_exprs (r : Substitution) (es : List Expr) :
    (Substitution.exprs r es).isEmpty = es.isEmpty := by
  cases es <;> rfl

@[simp] theorem isEmpty_links (r : Substitution) (cs : List Comparison) :
    (Substitution.links r cs).isEmpty = cs.isEmpty := by
  cases cs <;> rfl

@[simp] theorem isEmpty_clauses (r : Substitution) (cs : List Clause) :
    (Substitution.clauses r cs).isEmpty = cs.isEmpty := by
  cases cs <;> rfl

@[simp] theorem isSome_expr? (r : Substitution) (e : Option Expr) :
    (Substitution.expr? r e).isSome = e.isSome := by
  cases e <;> rfl

@[simp] theorem isNone_expr? (r : Substitution) (e : Option Expr) :
    (Substitution.expr? r e).isNone = e.isNone := by
  cases e <;> rfl

@[simp] theorem isEmpty_stmts (r : Substitution) (ss : List Stmt) :
    (Substitution.stmts r ss).isEmpty = ss.isEmpty := by
  cases ss <;> rfl

@[simp] theorem isEmpty_handlers (r : Substitution) (hs : List Handler) :
    (Substitution.handlers r hs).isEmpty = hs.isEmpty := by
  cases hs <;> rfl

theorem isName_subst (r : Substitution) {e : Expr} (h : e.isName) : (e.subst r).isName := by
  cases e with
  | name => rfl
  | _ => cases h

mutual

theorem erase_expr {slot : Slot} (e : Expr) (h : e.isFormed slot) :
    (e.subst .erasure).isFormed slot := by
  cases e with
  | await s value => exact Expr.isFormed_of_plain (erase_expr value h)
  | tuple s elts bracketed =>
    cases bracketed <;> simp_all [Expr.subst, Expr.isFormed, erase_exprs]
  | _ =>
    simp_all [Expr.subst, Expr.isFormed, isName_subst, erase_expr, erase_exprs, erase_expr?,
      erase_parameters, erase_arguments, erase_items, erase_links, erase_clauses]

theorem erase_exprs {slot : Slot} (es : List Expr) (h : exprs slot es) :
    exprs slot (Substitution.exprs .erasure es) := by
  cases es <;> simp_all [Substitution.exprs, exprs, erase_expr, erase_exprs]

theorem erase_expr? {slot : Slot} (e : Option Expr) (h : expr? slot e) :
    expr? slot (Substitution.expr? .erasure e) := by
  cases e <;> simp_all [Substitution.expr?, expr?, erase_expr]

theorem erase_param {hinted : Bool} (p : Param) (h : p.isFormed hinted) :
    (p.subst .erasure).isFormed hinted := by
  cases p; simp_all [Param.subst, Param.isFormed, erase_expr?]

theorem erase_params {hinted : Bool} (ps : List Param) (h : params hinted ps) :
    params hinted (Substitution.params .erasure ps) := by
  cases ps <;> simp_all [Substitution.params, params, erase_param, erase_params]

theorem erase_param? {hinted : Bool} (p : Option Param) (h : param? hinted p) :
    param? hinted (Substitution.param? .erasure p) := by
  cases p <;> simp_all [Substitution.param?, param?, erase_param]

theorem erase_parameters {hinted : Bool} (p : Parameters) (h : p.isFormed hinted) :
    (p.subst .erasure).isFormed hinted := by
  cases p; simp_all [Parameters.subst, Parameters.isFormed, erase_params, erase_param?]

theorem erase_argument (a : Argument) (h : a.isFormed) : (a.subst .erasure).isFormed := by
  cases a; simp_all [Argument.subst, Argument.isFormed, erase_expr]

theorem erase_arguments (as : List Argument) (h : arguments as) :
    arguments (Substitution.arguments .erasure as) := by
  cases as <;> simp_all [Substitution.arguments, arguments, erase_argument, erase_arguments]

theorem erase_item (i : DictItem) (h : i.isFormed) : (i.subst .erasure).isFormed := by
  cases i; simp_all [DictItem.subst, DictItem.isFormed, erase_expr, erase_expr?]

theorem erase_items (is : List DictItem) (h : items is) :
    items (Substitution.items .erasure is) := by
  cases is <;> simp_all [Substitution.items, items, erase_item, erase_items]

theorem erase_link (c : Comparison) (h : c.isFormed) : (c.subst .erasure).isFormed := by
  cases c; simp_all [Comparison.subst, Comparison.isFormed, erase_expr]

theorem erase_links (cs : List Comparison) (h : links cs) :
    links (Substitution.links .erasure cs) := by
  cases cs <;> simp_all [Substitution.links, links, erase_link, erase_links]

theorem erase_clause (c : Clause) (h : c.isFormed) : (c.subst .erasure).isFormed := by
  cases c; simp_all [Clause.subst, Clause.isFormed, erase_expr, erase_exprs]

theorem erase_clauses (cs : List Clause) (h : clauses cs) :
    clauses (Substitution.clauses .erasure cs) := by
  cases cs <;> simp_all [Substitution.clauses, clauses, erase_clause, erase_clauses]

end

theorem erase_withItem (i : WithItem) (h : i.isFormed) : (i.subst .erasure).isFormed := by
  cases i; simp_all [WithItem.subst, WithItem.isFormed, erase_expr, erase_expr?]

mutual

theorem erase_stmt (s : Stmt) (h : s.isFormed) : (s.subst .erasure).isFormed := by
  cases s with
  | withBlock s mode items body =>
    simp only [Stmt.isFormed, Bool.and_eq_true, List.all_eq_true] at h
    simp only [Stmt.subst, Stmt.isFormed, Bool.and_eq_true, List.all_eq_true, List.isEmpty_map,
      List.forall_mem_map]
    exact ⟨⟨h.1.1, fun i hi => erase_withItem i (h.1.2 i hi)⟩, erase_stmts body h.2⟩
  | annAssign s target hint value simple =>
    simp only [Stmt.isFormed, Bool.and_eq_true, Bool.or_eq_true] at h
    simp only [Stmt.subst, Stmt.isFormed, Bool.and_eq_true, Bool.or_eq_true]
    obtain ⟨⟨⟨ht, hh⟩, hv⟩, hn⟩ := h
    exact ⟨⟨⟨erase_expr target ht, erase_expr hint hh⟩, erase_expr? value hv⟩,
      hn.imp_right (isName_subst _)⟩
  | importModules | importFrom | global | nonlocal =>
    simpa [Stmt.subst, Stmt.isFormed, Synchrony.substModule_erasure, Synchrony.substName_erasure]
      using h
  | _ =>
    simp_all [Stmt.subst, Stmt.isFormed, erase_expr, erase_exprs, erase_expr?,
      erase_parameters, erase_arguments, erase_stmts, erase_handlers]

theorem erase_stmts (ss : List Stmt) (h : stmts ss) : stmts (Substitution.stmts .erasure ss) := by
  cases ss <;> simp_all [Substitution.stmts, stmts, erase_stmt, erase_stmts]

theorem erase_handler (x : Handler) (h : x.isFormed) : (x.subst .erasure).isFormed := by
  cases x; simp_all [Handler.subst, Handler.isFormed, erase_expr?, erase_stmts]

theorem erase_handlers (hs : List Handler) (h : handlers hs) :
    handlers (Substitution.handlers .erasure hs) := by
  cases hs <;> simp_all [Substitution.handlers, handlers, erase_handler, erase_handlers]

end

end Erasure

section Setters

variable {setters : List (String × String)}

/-- A call that sets an attribute and the assignment made of it are formed alike. -/
theorem fix_stmt (hs : ∀ setter ∈ setters, isIdentifier setter.2) {s : Stmt} (h : s.isFormed) :
    (Setter.fix setters s).isFormed := by
  unfold Setter.fix
  cases ha : Setter.assignment? setters s with
  | none => exact h
  | some t =>
    unfold Setter.assignment? at ha
    split at ha
    · rename_i s t object field value
      split at ha
      · cases ha
      · obtain ⟨property, hp, rfl⟩ := Option.map_eq_some_iff.1 ha
        obtain ⟨before, after, hsplit, -⟩ := List.lookup_eq_some_iff.1 hp
        have hid : isIdentifier property := hs (field, property) (by simp [hsplit])
        simp only [Stmt.isFormed, Expr.isFormed, exprs, arguments, Bool.and_eq_true] at h
        simp [Stmt.isFormed, Expr.isFormed, exprs, h.1.1.1, hid, Expr.isFormed_of_plain h.1.2.1]
    · cases ha

/-- A change of blocks that leaves blocks formed and empties none. -/
structure KeepsFormed (f : List Stmt → List Stmt) : Prop where
  stmts : ∀ body, Formed.stmts body → Formed.stmts (f body)
  isEmpty : ∀ body, (f body).isEmpty = body.isEmpty

variable {f : List Stmt → List Stmt}

mutual

theorem mapBlocks_stmt (hf : KeepsFormed f) (s : Stmt) (h : s.isFormed) :
    (s.mapBlocks f).isFormed := by
  cases s with
  | tryBlock s body handlers orelse final star =>
    have hfinal : (f (Block.mapInside f final)).isEmpty = final.isEmpty := by
      rw [hf.isEmpty]
      cases final <;> rfl
    have hhandlers : (Block.mapHandlers f handlers).isEmpty = handlers.isEmpty := by
      cases handlers <;> rfl
    simp only [Stmt.isFormed, Bool.and_eq_true] at h
    simp only [Stmt.mapBlocks, Stmt.isFormed, hfinal, hhandlers, Bool.and_eq_true]
    obtain ⟨⟨⟨⟨hb, hh⟩, ho⟩, hl⟩, hne⟩ := h
    exact ⟨⟨⟨⟨hf.stmts _ (mapBlocks_stmts hf body hb), mapBlocks_handlers hf handlers hh⟩,
      hf.stmts _ (mapBlocks_stmts hf orelse ho)⟩, hf.stmts _ (mapBlocks_stmts hf final hl)⟩, hne⟩
  | _ => simp_all [Stmt.mapBlocks, Stmt.isFormed, hf.stmts, mapBlocks_stmts hf]

theorem mapBlocks_stmts (hf : KeepsFormed f) (ss : List Stmt) (h : stmts ss) :
    stmts (Block.mapInside f ss) := by
  cases ss <;> simp_all [Block.mapInside, stmts, mapBlocks_stmt hf, mapBlocks_stmts hf]

theorem mapBlocks_handler (hf : KeepsFormed f) (x : Handler) (h : x.isFormed) :
    (x.mapBlocks f).isFormed := by
  cases x; simp_all [Handler.mapBlocks, Handler.isFormed, hf.stmts, mapBlocks_stmts hf]

theorem mapBlocks_handlers (hf : KeepsFormed f) (hs : List Handler) (h : handlers hs) :
    handlers (Block.mapHandlers f hs) := by
  cases hs <;> simp_all [Block.mapHandlers, handlers, mapBlocks_handler hf, mapBlocks_handlers hf]

end

end Setters

end Formed

namespace Module.IsFormed

variable {m : Module}

theorem erase (h : m.IsFormed) : m.erase.IsFormed := Formed.erase_stmts m.body h

theorem fixSetters {setters : List (String × String)}
    (hs : ∀ setter ∈ setters, isIdentifier setter.2) (h : m.IsFormed) :
    (m.fixSetters setters).IsFormed := by
  have hfix (body : List Stmt) (hb : Formed.stmts body) :
      Formed.stmts (body.map (Setter.fix setters)) := by
    rw [Formed.stmts_eq_true] at hb ⊢
    intro t ht
    obtain ⟨s, hmem, rfl⟩ := List.mem_map.1 ht
    exact Formed.fix_stmt hs (hb s hmem)
  exact hfix _ (Formed.mapBlocks_stmts ⟨hfix, fun _ => List.isEmpty_map⟩ m.body h)

end Module.IsFormed

end AsyncErasure
