import ChannelBasic.Proofs.Typing.Constness

/-!
# Proofs/Program/Constness — an analysed program writes to nothing that is CONST

Functions are checked last, so what is said about CONST when a body is checked is still true when
all of them are, and giving everything its place changes no type (`guarded_stmts`).  Constants have
values, so no address is taken in them.  **An analysed program assigns only to variables, and makes
pointers that can write only of variables** (`Program.writesVariables_of_analyse`).
-/

namespace ChannelBasic

/-! ## The property -/

/-- What is assigned to, or counted with. -/
def Stmt.target? : Stmt → Option Expr
  | .assign _ _ target => some target
  | .count _ counter _ _ _ _ _ => some counter
  | _ => none

/-- The value that goes to a place, and the type of the place. -/
def Stmt.transfer? (Γ : Env) (returns : Option TypeId) : Stmt → Option (Expr × TypeId)
  | .var _ index (some e) => (Γ.declared (.localVar index)).map (e, ·)
  | .assign _ value target => target.type?.map (value, ·)
  | .return _ (some e) => returns.map (e, ·)
  | _ => none

/-- What a function knows of the program around it. -/
def Program.env (p : Program) (f : Function) (body : UserBody) : Env :=
  .ofBody p.types p.constantValue p f.owner body (p.ownerFields f.owner)

/-- **In a function nothing is written that is CONST**, neither by its name nor through a pointer. -/
structure UserBody.WritesVariables (p : Program) (f : Function) (body : UserBody) : Prop where
  targets : ∀ x ∈ Stmt.withinAll body.statements, ∀ e, x.target? = some e →
    e.IsVariable (p.env f body)
  pointers : ∀ i target temp, .pointer i target temp ∈ Stmt.nodesAll body.statements →
    ∀ q, i.type = some q → p.types.Writes q → target.fold p.types p.constantValue = none ∧
      (target.isAddressable = true → target.IsVariable (p.env f body))
  transfers : ∀ x ∈ Stmt.withinAll body.statements, ∀ e t,
    x.transfer? (p.env f body) f.returns = some (e, t) → e.Supplies p.types t
  arguments : ∀ i name arguments callee,
    .call i name arguments callee ∈ Stmt.nodesAll body.statements → ∃ n g, callee = some n ∧
      p.functions[n]? = some g ∧
        List.Forall₂ (fun parameter e => e.Supplies p.types parameter) g.parameters arguments

/-- **Constants are never written.** -/
structure Program.WritesVariables (p : Program) : Prop where
  functions : ∀ f ∈ p.functions, ∀ body, f.user? = some body → body.WritesVariables p f
  constants : ∀ c ∈ p.constants, ∀ i target temp, .pointer i target temp ∉ c.value.nodes

/-! ## Nodes of nodes -/

section Nodes

variable {e n m : Expr} {x : Stmt}

theorem Expr.nodes_trans (hn : n ∈ e.nodes) (hm : m ∈ n.nodes) : m ∈ e.nodes := by
  induction e using Expr.induct with
  | literal i v => exact List.mem_singleton.1 hn ▸ hm
  | name i title d => exact List.mem_singleton.1 hn ▸ hm
  | call i f arguments c ih =>
    obtain rfl | hn := List.mem_cons.1 hn
    · exact hm
    · obtain ⟨a, ha, hna⟩ := mem_nodesAll.1 hn
      exact List.mem_cons_of_mem _ (mem_nodesAll.2 ⟨a, ha, ih a ha hna⟩)
  | binary i op left right ihl ihr =>
    obtain rfl | hn := List.mem_cons.1 hn
    · exact hm
    · refine List.mem_cons_of_mem _ (List.mem_append.2 ?_)
      exact (List.mem_append.1 hn).imp (ihl ·) (ihr ·)
  | member i target field r ih =>
    obtain rfl | hn := List.mem_cons.1 hn
    · exact hm
    · exact List.mem_cons_of_mem _ (ih hn)
  | unary i op operand ih =>
    obtain rfl | hn := List.mem_cons.1 hn
    · exact hm
    · exact List.mem_cons_of_mem _ (ih hn)
  | cast i operand ih =>
    obtain rfl | hn := List.mem_cons.1 hn
    · exact hm
    · exact List.mem_cons_of_mem _ (ih hn)
  | pointer i target temp ih =>
    obtain rfl | hn := List.mem_cons.1 hn
    · exact hm
    · exact List.mem_cons_of_mem _ (ih hn)

theorem Expr.nodesAll_trans {es : List Expr} (hn : n ∈ nodesAll es) (hm : m ∈ n.nodes) :
    m ∈ nodesAll es := by
  obtain ⟨e, he, hn⟩ := mem_nodesAll.1 hn
  exact mem_nodesAll.2 ⟨e, he, nodes_trans hn hm⟩

theorem Expr.nodesOf_trans {value : Option Expr} (hn : n ∈ nodesOf value) (hm : m ∈ n.nodes) :
    m ∈ nodesOf value := by
  cases value with
  | none => cases hn
  | some e => exact nodes_trans hn hm

/-- Nothing that has a value beforehand takes an address. -/
theorem Expr.not_pointer_of_fold {t : TypeTable} {constant : Nat → Option Literal}
    (h : (e.fold t constant).isSome = true) (i : Info) (target : Expr) (temp : Option Int) :
    .pointer i target temp ∉ e.nodes := by
  induction e using Expr.induct with
  | literal | name => simp [nodes]
  | unary j op operand ih =>
    obtain ⟨v, hv⟩ := Option.isSome_iff_exists.1 h
    obtain ⟨w, hw, -⟩ := Option.bind_eq_some_iff.1 hv
    simpa [nodes] using ih (by rw [hw, Option.isSome_some])
  | binary j op left right ihl ihr =>
    obtain ⟨v, hv⟩ := Option.isSome_iff_exists.1 h
    obtain ⟨l, hl, hv⟩ := Option.bind_eq_some_iff.1 hv
    obtain ⟨r, hr, -⟩ := Option.bind_eq_some_iff.1 hv
    simpa [nodes] using ⟨ihl (by rw [hl, Option.isSome_some]), ihr (by rw [hr, Option.isSome_some])⟩
  | cast j operand ih =>
    obtain ⟨v, hv⟩ := Option.isSome_iff_exists.1 h
    obtain ⟨w, hw, -⟩ := Option.bind_eq_some_iff.1 hv
    simpa [nodes] using ih (by rw [hw, Option.isSome_some])
  | member | call | pointer => cases h

mutual

theorem Stmt.nodes_trans : (s : Stmt) → n ∈ s.nodes → m ∈ n.nodes → m ∈ s.nodes
  | .var _ _ value, hn, hm | .return _ value, hn, hm => Expr.nodesOf_trans hn hm
  | .assign _ value target, hn, hm =>
    List.mem_append.2 ((List.mem_append.1 hn).imp (Expr.nodes_trans · hm) (Expr.nodes_trans · hm))
  | .invoke _ call, hn, hm => Expr.nodes_trans hn hm
  | .choose _ branches, hn, hm => Branches.nodes_trans branches hn hm
  | .count _ counter start finish step body _, hn, hm => by
    simp only [Stmt.nodes, List.mem_append] at hn ⊢
    exact hn.imp (Or.imp (Or.imp (Or.imp (Expr.nodes_trans · hm) (Expr.nodes_trans · hm))
      (Expr.nodes_trans · hm)) (Expr.nodesOf_trans · hm)) (Stmt.nodesAll_trans body · hm)
  | .loop _ condition body, hn, hm =>
    List.mem_append.2 ((List.mem_append.1 hn).imp (Expr.nodesOf_trans · hm)
      (Stmt.nodesAll_trans body · hm))

/-- What is inside an expression inside statements is inside them. -/
theorem Stmt.nodesAll_trans : (l : List Stmt) → n ∈ Stmt.nodesAll l → m ∈ n.nodes →
    m ∈ Stmt.nodesAll l
  | [], hn, _ => nomatch hn
  | s :: rest, hn, hm => List.mem_append.2 ((List.mem_append.1 hn).imp (Stmt.nodes_trans s · hm)
    (Stmt.nodesAll_trans rest · hm))

theorem Branches.nodes_trans : (b : Branches) → n ∈ b.nodes → m ∈ n.nodes → m ∈ b.nodes
  | .done, hn, _ => nomatch hn
  | .otherwise body, hn, hm => Stmt.nodesAll_trans body hn hm
  | .branch condition body rest, hn, hm => by
    simp only [Branches.nodes, List.mem_append] at hn ⊢
    exact hn.imp (Or.imp (Expr.nodes_trans · hm) (Stmt.nodesAll_trans body · hm))
      (Branches.nodes_trans rest · hm)

end

mutual

theorem Stmt.nodes_within : (s : Stmt) → x ∈ s.within → n ∈ x.nodes → n ∈ s.nodes
  | .choose l branches, hx, hn => by
    obtain rfl | hx := List.mem_cons.1 hx
    · exact hn
    · exact Branches.nodes_within branches hx hn
  | .count l counter start finish step body temps, hx, hn => by
    obtain rfl | hx := List.mem_cons.1 hx
    · exact hn
    · exact List.mem_append_right _ (Stmt.nodes_withinAll body hx hn)
  | .loop l condition body, hx, hn => by
    obtain rfl | hx := List.mem_cons.1 hx
    · exact hn
    · exact List.mem_append_right _ (Stmt.nodes_withinAll body hx hn)
  | .var .., hx, hn | .assign .., hx, hn | .invoke .., hx, hn | .return .., hx, hn => by
    obtain rfl := List.mem_singleton.1 hx
    exact hn

/-- What is inside a statement inside others is inside those. -/
theorem Stmt.nodes_withinAll : (l : List Stmt) → x ∈ Stmt.withinAll l → n ∈ x.nodes →
    n ∈ Stmt.nodesAll l
  | [], hx, _ => nomatch hx
  | s :: rest, hx, hn => by
    refine List.mem_append.2 ((List.mem_append.1 hx).imp ?_ ?_)
    · exact fun hx => Stmt.nodes_within s hx hn
    · exact fun hx => Stmt.nodes_withinAll rest hx hn

theorem Branches.nodes_within : (b : Branches) → x ∈ b.within → n ∈ x.nodes → n ∈ b.nodes
  | .done, hx, _ => nomatch hx
  | .otherwise body, hx, hn => Stmt.nodes_withinAll body hx hn
  | .branch condition body rest, hx, hn => by
    obtain hx | hx := List.mem_append.1 hx
    · exact List.mem_append_left _ (List.mem_append_right _ (Stmt.nodes_withinAll body hx hn))
    · exact List.mem_append_right _ (Branches.nodes_within rest hx hn)

end

end Nodes

/-! ## Laying out -/

/-- An expression that says the same about CONST when it is laid out. -/
structure Expr.Replaces (Γ : Env) (e e' : Expr) : Prop where
  type : e'.type? = e.type?
  fold : e'.fold Γ.types Γ.constant = e.fold Γ.types Γ.constant
  guarded : e.Guarded Γ → e'.Guarded Γ

/-- What is supplied is a matter of types. -/
theorem Expr.supplies_of_types {t : TypeTable} {ps : List TypeId} {es es' : List Expr}
    (htypes : es'.map (·.type?) = es.map (·.type?))
    (h : List.Forall₂ (fun p e => e.Supplies t p) ps es) :
    List.Forall₂ (fun p e => e.Supplies t p) ps es' := by
  have key (l : List Expr) : List.Forall₂ (fun p a => t.Writes p → ∀ b, a = some b →
      ¬ t.OnlyReads b) ps (l.map (·.type?)) ↔ List.Forall₂ (fun p e => e.Supplies t p) ps l :=
    List.forall₂_map_right_iff
  rw [← key, htypes, key]
  exact h

namespace Layout

variable {t : TypeTable} {constant : Nat → Option Literal} (Γ : Env) {returns : Option TypeId}

mutual

/-- **Places for temporaries change nothing about CONST.** -/
theorem replaces_expr : (e : Expr) → (s : FrameState) →
    Ends (expr t constant e) s fun e' _ => e.Replaces Γ e'
  | .literal i v, s => by
    unfold expr
    exact Ends.value ⟨rfl, rfl, id⟩
  | .name i n d, s => by
    unfold expr
    exact Ends.value ⟨rfl, rfl, id⟩
  | .member i target field d, s => by
    unfold expr
    refine (replaces_expr target s).seq fun e s₁ h => Ends.value ⟨rfl, rfl, fun hg => ?_⟩
    obtain ⟨hm, hg⟩ := List.forall_mem_cons.1 hg
    refine List.forall_mem_cons.2 ⟨fun a b ha hb => ?_, h.guarded hg⟩
    exact hm a b (h.type ▸ ha) hb
  | .call i f arguments c, s => by
    unfold expr
    refine (replaces_exprs arguments s).seq fun es s₁ h => Ends.value ⟨rfl, rfl, fun hg => ?_⟩
    obtain ⟨hc, hg⟩ := List.forall_mem_cons.1 hg
    refine List.forall_mem_cons.2 ⟨?_, h.2 hg⟩
    cases c with
    | none => trivial
    | some n =>
      intro g hn
      exact Expr.supplies_of_types h.1 (hc g hn)
  | .unary i op operand, s => by
    unfold expr
    refine (replaces_expr operand s).seq fun e s₁ h => Ends.value ⟨rfl, ?_, fun hg => ?_⟩
    · simp only [Expr.fold, h.fold]
    · obtain ⟨-, hg⟩ := List.forall_mem_cons.1 hg
      exact List.forall_mem_cons.2 ⟨trivial, h.guarded hg⟩
  | .binary i op left right, s => by
    unfold expr
    refine (replaces_expr left s).seq fun e s₁ h => ?_
    refine (replaces_expr right s₁).seq fun e' s₂ h' => Ends.value ⟨rfl, ?_, fun hg => ?_⟩
    · simp only [Expr.fold, h.fold, h'.fold]
    · obtain ⟨-, hg⟩ := List.forall_mem_cons.1 hg
      obtain ⟨hl, hr⟩ := List.forall_mem_append.1 hg
      exact List.forall_mem_cons.2 ⟨trivial,
        List.forall_mem_append.2 ⟨h.guarded hl, h'.guarded hr⟩⟩
  | .cast i operand, s => by
    unfold expr
    refine (replaces_expr operand s).seq fun e s₁ h => Ends.value ⟨rfl, ?_, fun hg => ?_⟩
    · simp only [Expr.fold, h.fold]
    · obtain ⟨-, hg⟩ := List.forall_mem_cons.1 hg
      exact List.forall_mem_cons.2 ⟨trivial, h.guarded hg⟩
  | .pointer i target temp, s => by
    have rest (p : Option Int) (s₁ : FrameState) :
        Ends (do return Expr.pointer i (← expr t constant target) p) s₁ fun e' _ =>
          (Expr.pointer i target temp).Replaces Γ e' := by
      refine (replaces_expr target s₁).seq fun e s₂ h => Ends.value ⟨rfl, rfl, fun hg => ?_⟩
      obtain ⟨hp, hg⟩ := List.forall_mem_cons.1 hg
      refine List.forall_mem_cons.2 ⟨fun q hq hw => ?_, h.guarded hg⟩
      obtain ⟨hfold, hconst⟩ := hp q hq hw
      exact ⟨h.fold.trans hfold, fun a ha => hconst a (h.type ▸ ha)⟩
    unfold expr
    dsimp only
    split
    · exact Ends.after fun _ _ => Ends.after fun _ _ => Ends.value_seq (rest _ _)
    · exact Ends.value_seq (rest _ _)

theorem replaces_exprs : (es : List Expr) → (s : FrameState) →
    Ends (exprs t constant es) s fun es' _ => es'.map (·.type?) = es.map (·.type?) ∧
      ((∀ n ∈ Expr.nodesAll es, n.Guards Γ) → ∀ n ∈ Expr.nodesAll es', n.Guards Γ)
  | [], s => by
    unfold exprs
    exact Ends.value ⟨rfl, id⟩
  | e :: rest, s => by
    unfold exprs
    refine (replaces_expr e s).seq fun e' s₁ h => ?_
    refine (replaces_exprs rest s₁).seq fun es s₂ h' => Ends.value ⟨?_, fun hg => ?_⟩
    · rw [List.map_cons, List.map_cons, h.type, h'.1]
    · obtain ⟨he, hr⟩ := List.forall_mem_append.1 hg
      exact List.forall_mem_append.2 ⟨h.guarded he, h'.2 hr⟩

end

theorem replaces_expr? (e : Option Expr) (s : FrameState) :
    Ends (expr? t constant e) s fun r _ => Option.Rel (Expr.Replaces Γ) e r := by
  unfold expr?
  split
  next e => exact (replaces_expr Γ e s).seq fun e' s₁ h => Ends.value (.some h)
  next => exact Ends.value .none

mutual

/-- **Giving everything in a statement its place changes nothing about CONST.** -/
theorem guarded_stmt : (r : Stmt) → (s : FrameState) →
    Ends (stmt t constant r) s fun r' _ => Guarded Γ returns r.within r.nodes →
      Guarded Γ returns r'.within r'.nodes
  | .var l index value, s => by
    unfold stmt
    refine Ends.after fun _ s₁ => (replaces_expr? Γ value s₁).seq fun r s₂ h =>
      Ends.value fun hg => ?_
    cases h with
    | none => exact hg
    | some h =>
      have hv := hg.statements _ (.head _)
      exact .cons (fun u hu hw a ha => hv u hu hw a (h.type ▸ ha)) (.of_nodes (h.guarded hg.nodes))
  | .assign l value target, s => by
    unfold stmt
    refine (replaces_expr Γ value s).seq fun e s₁ h => ?_
    refine (replaces_expr Γ target s₁).seq fun e' s₂ h' => Ends.value fun hg => ?_
    have hv := hg.statements _ (.head _)
    obtain ⟨hgv, hgt⟩ := List.forall_mem_append.1 hg.nodes
    refine .cons (fun u hu => ?_)
      (.of_nodes (List.forall_mem_append.2 ⟨h.guarded hgv, h'.guarded hgt⟩))
    obtain ⟨hc, hs⟩ := hv u (h'.type ▸ hu)
    exact ⟨hc, fun hw a ha => hs hw a (h.type ▸ ha)⟩
  | .invoke l call, s => by
    unfold stmt
    exact (replaces_expr Γ call s).seq fun e s₁ h => Ends.value fun hg =>
      .cons trivial (.of_nodes (h.guarded hg.nodes))
  | .return l value, s => by
    unfold stmt
    refine (replaces_expr? Γ value s).seq fun r s₁ h => Ends.value fun hg => ?_
    cases h with
    | none => exact hg
    | some h =>
      have hv := hg.statements _ (.head _)
      exact .cons (fun u hu hw a ha => hv u hu hw a (h.type ▸ ha)) (.of_nodes (h.guarded hg.nodes))
  | .choose l branches, s => by
    unfold stmt
    exact (guarded_choices branches s).seq fun b s₁ h => Ends.value fun hg =>
      .cons trivial (h hg.tail)
  | .count l counter start finish step body places, s => by
    unfold stmt
    refine Ends.after fun _ s₁ => (replaces_expr Γ counter s₁).seq fun e₂ s₂ h₂ => ?_
    refine (replaces_expr Γ start s₂).seq fun e₃ s₃ h₃ => ?_
    refine (replaces_expr Γ finish s₃).seq fun e₄ s₄ h₄ => ?_
    refine (replaces_expr? Γ step s₄).seq fun e₅ s₅ h₅ => ?_
    refine (guarded_stmts body s₅).seq fun b s₆ h₆ => Ends.value fun hg => ?_
    have hc := hg.statements _ (.head _)
    obtain ⟨hn, hb⟩ := List.forall_mem_append.1 hg.nodes
    obtain ⟨hn, hst⟩ := List.forall_mem_append.1 hn
    obtain ⟨hn, hf⟩ := List.forall_mem_append.1 hn
    obtain ⟨hcn, hs⟩ := List.forall_mem_append.1 hn
    have hbody := h₆ ⟨hg.tail.statements, hb⟩
    have hst' : ∀ n ∈ Expr.nodesOf e₅, n.Guards Γ := by
      cases h₅ with
      | none => exact hst
      | some h => exact h.guarded hst
    refine .cons (fun u hu => hc u (h₂.type ▸ hu)) ⟨hbody.statements, ?_⟩
    simp only [Stmt.nodes, List.forall_mem_append]
    exact ⟨⟨⟨⟨h₂.guarded hcn, h₃.guarded hs⟩, h₄.guarded hf⟩, hst'⟩, hbody.nodes⟩
  | .loop l condition body, s => by
    have rest (c : Option Condition) (s₁ : FrameState)
        (hc : (∀ n ∈ Expr.nodesOf (condition.map (·.value)), n.Guards Γ) →
          ∀ n ∈ Expr.nodesOf (c.map (·.value)), n.Guards Γ) :
        Ends (do return Stmt.loop l c (← stmts t constant body)) s₁ fun r' _ =>
          Guarded Γ returns (Stmt.loop l condition body).within
            (Stmt.loop l condition body).nodes → Guarded Γ returns r'.within r'.nodes := by
      refine (guarded_stmts body s₁).seq fun b s₂ h => Ends.value fun hg => ?_
      obtain ⟨hn, hb⟩ := List.forall_mem_append.1 hg.nodes
      have hbody := h ⟨hg.tail.statements, hb⟩
      exact .cons trivial ⟨hbody.statements, List.forall_mem_append.2 ⟨hc hn, hbody.nodes⟩⟩
    unfold stmt
    dsimp only
    split
    next c =>
      exact (replaces_expr Γ c.value s).seq fun e s₁ h => Ends.value_seq (rest _ _ h.guarded)
    next => exact Ends.value_seq (rest _ _ id)

theorem guarded_stmts : (rs : List Stmt) → (s : FrameState) →
    Ends (stmts t constant rs) s fun rs' _ =>
      Guarded Γ returns (Stmt.withinAll rs) (Stmt.nodesAll rs) →
        Guarded Γ returns (Stmt.withinAll rs') (Stmt.nodesAll rs')
  | [], s => by
    unfold stmts
    exact Ends.value id
  | r :: rest, s => by
    unfold stmts
    refine (guarded_stmt r s).seq fun r' s₁ h => ?_
    refine (guarded_stmts rest s₁).seq fun rs' s₂ h' => Ends.value fun hg => ?_
    obtain ⟨hr, hrs⟩ := hg.of_append
    exact (h hr).append (h' hrs)

theorem guarded_choices : (b : Branches) → (s : FrameState) →
    Ends (choices t constant b) s fun b' _ => Guarded Γ returns b.within b.nodes →
      Guarded Γ returns b'.within b'.nodes
  | .done, s => by
    unfold choices
    exact Ends.value id
  | .otherwise body, s => by
    unfold choices
    exact (guarded_stmts body s).seq fun b s₁ h => Ends.value h
  | .branch condition body rest, s => by
    unfold choices
    refine (replaces_expr Γ condition s).seq fun c s₁ h => ?_
    refine (guarded_stmts body s₁).seq fun b s₂ h' => ?_
    refine (guarded_choices rest s₂).seq fun b' s₃ h'' => Ends.value fun hg => ?_
    obtain ⟨hn, hrn⟩ := List.forall_mem_append.1 hg.nodes
    obtain ⟨hcn, hbn⟩ := List.forall_mem_append.1 hn
    obtain ⟨hbs, hrs⟩ := List.forall_mem_append.1 hg.statements
    exact (Guarded.of_nodes (h.guarded hcn)).append (h' ⟨hbs, hbn⟩) |>.append (h'' ⟨hrs, hrn⟩)

end

/-- A function laid out respects CONST as it did before. -/
theorem guarded_function {f f' : Function} (h : function t constant f = .ok f') {body' : UserBody}
    (hb' : f'.user? = some body') : ∃ body, f.user? = some body ∧
      (Guarded Γ returns (Stmt.withinAll body.statements) (Stmt.nodesAll body.statements) →
        Guarded Γ returns (Stmt.withinAll body'.statements) (Stmt.nodesAll body'.statements)) := by
  unfold function at h
  split at h
  next arguments hbody =>
    obtain rfl : f = f' := by simpa using h
    simp [Function.user?, hbody] at hb'
  next body hbody =>
    obtain ⟨⟨arguments, result⟩, -, h⟩ := Checked.bind_eq_ok.1 h
    obtain ⟨⟨statements, s'⟩, hrun, h⟩ := Checked.bind_eq_ok.1 h
    obtain rfl := Checked.pure_eq_ok.1 h
    obtain ⟨_, s₁, -, hstmts⟩ := run_bind_eq_ok.1 hrun
    obtain rfl := Option.some.inj hb'
    exact ⟨body, by rw [Function.user?, hbody], guarded_stmts Γ body.statements s₁ _ _ hstmts⟩

end Layout

/-! ## Checked programs -/

namespace Checking

variable {p : Program} {s s' : CheckState} {fs : List Function} {f f' : Function}
  {lengths : Array Expr} {constantType : ConstantType}

/-- The body of a checked function respects CONST in what is known. -/
def GuardedIn (p : Program) (f f' : Function) (s : CheckState) : Prop :=
  ∀ body', f'.user? = some body' →
    Guarded (Env.ofBody s.types s.constantValue p f.owner body' (p.ownerFields f.owner)) f.returns
      (Stmt.withinAll body'.statements) (Stmt.nodesAll body'.statements)

theorem GuardedIn.enlarges (h : GuardedIn p f f' s) (ht : TypedIn p f f' s) (hf : s.types.Flat)
    (hs : s.Settled) (he : Enlarges s s') : GuardedIn p f f' s' := by
  intro body' hb
  have htyped := (ht body' hb).1
  refine (h body' hb).extends ?_ ⟨(he.settled hs).get⟩ hf (fun x hx => htyped.within _ hx)
    fun n hn => htyped.node _ hn
  exact ⟨he.types, fun _ _ => he.constantValue, fun _ _ h => h, fun _ _ h => h, fun _ _ h => h⟩

theorem guarded_checkFunction (hf : Finds lengths constantType) (hs : s.Sound lengths)
    (hsettled : s.Settled) (hc : Checkable p f s.types) :
    Ends (checkFunction p constantType f) s fun f' s' => GuardedIn p f f' s' := by
  unfold checkFunction
  split
  next arguments hbody => exact Ends.value (by simp [GuardedIn, Function.user?, hbody])
  next body hbody =>
    have huser : f.user? = some body := by rw [Function.user?, hbody]
    refine (ends_checks body.arguments (fun a s => ends_checkType _ _ _ a.type) s).seq
      fun _ s₁ h₁ => ?_
    obtain ⟨rfl, -⟩ := h₁
    refine Ends.seq (Ends.modifies (Q := fun _ s₂ => s₂ = { s₁ with locals := body.locals }) rfl)
      fun _ s₂ h₂ => ?_
    subst h₂
    refine (guarded_stmts hf body.statements _ (body_sound hs hsettled hc huser) hsettled
      (hc.known body huser) (hc.plain body huser)).seq fun statements s₃ h₃ => ?_
    refine Ends.reads (Ends.value fun body' hb => ?_)
    obtain rfl := Option.some.inj hb
    exact h₃

end Checking

namespace Program

open Checking

variable {raw : Raw.Program} {p q : Program} {s s' : CheckState} {fs : List Function}

/-- **The bodies of checked functions respect CONST.** -/
theorem Checks.guarded (h : Checks p s s' fs) :
    List.Forall₂ (GuardedIn p · · s') p.functions.toList fs := by
  obtain ⟨hw, -, hr, hrun⟩ := h
  -- said of the state after the function was checked, and true of all that are known later
  have hstep : ∀ f ∈ p.functions.toList, ∀ s₁, (s₁.Sound p.lengths ∧ Enlarges s s₁) →
      Ends (checkFunction p (constantWithin p.lengths (p.constants.size + 1)) f) s₁ fun f' s₂ =>
        (s₂.Sound p.lengths ∧ Enlarges s s₂) ∧ Enlarges s₁ s₂ ∧ ∃ s₃, s₃.types.Flat ∧ s₃.Settled ∧
          Enlarges s₃ s₂ ∧ TypedIn p f f' s₃ ∧ GuardedIn p f f' s₃ := by
    rintro f hf s₁ ⟨hs₁, he₁⟩
    have hsettled := hr.settled.grows he₁.toGrows
    have hc := checkable_of_checked hw hr hrun hf he₁
    refine (((typed_checkFunction (finds_constantWithin _) hs₁ hsettled hc).both
      (ends_checkFunction (keeps_constantWithin _) f)).both
      (guarded_checkFunction (finds_constantWithin _) hs₁ hsettled hc)).mono fun f' s₂ h => ?_
    obtain ⟨⟨⟨hs₂, ht⟩, he₂, -⟩, hg⟩ := h
    exact ⟨⟨hs₂, Enlarges.passage.trans he₁ he₂⟩, he₂, s₂, hs₂.flat,
      hsettled.grows he₂.toGrows, Enlarges.passage.refl s₂, ht, hg⟩
  obtain ⟨-, -, hall⟩ := Ends.eachOf (I := fun s₁ => s₁.Sound p.lengths ∧ Enlarges s s₁)
    (Q := fun f f' s₂ => ∃ s₃, s₃.types.Flat ∧ s₃.Settled ∧ Enlarges s₃ s₂ ∧ TypedIn p f f' s₃ ∧
      GuardedIn p f f' s₃) Enlarges.passage.refl Enlarges.passage.trans
    (fun ⟨s₃, hf, hs, he, h⟩ he' => ⟨s₃, hf, hs, Enlarges.passage.trans he he', h⟩) hstep
    ⟨hr.sound, Enlarges.passage.refl s⟩ _ _ hrun
  exact hall.imp fun f f' ⟨s₃, hf, hs, he, ht, hg⟩ => hg.enlarges ht hf hs he

/-- A body that is laid out was the body of the same function before. -/
theorem guarded_of_layout (h : p.layout = .ok q) {n : Nat} {g : Function}
    (hg : q.functions[n]? = some g) {b : UserBody} (hb : g.user? = some b) (Γ : Env)
    (returns : Option TypeId) : ∃ f body, p.functions[n]? = some f ∧ f.user? = some body ∧
      (Guarded Γ returns (Stmt.withinAll body.statements) (Stmt.nodesAll body.statements) →
        Guarded Γ returns (Stmt.withinAll b.statements) (Stmt.nodesAll b.statements)) := by
  obtain ⟨f, hf, h⟩ := (laysOut_of_layout h).exists_function hg
  obtain ⟨body, hbody, hguarded⟩ := Layout.guarded_function Γ h hb
  exact ⟨f, body, hf, hbody, hguarded⟩

/-- **The functions of an analysed program respect CONST.** -/
theorem guarded_of_analyse (h : analyse raw = .ok p) {n : Nat} {f : Function}
    (hf : p.functions[n]? = some f) {body : UserBody} (hb : f.user? = some body) :
    Guarded (p.env f body) f.returns (Stmt.withinAll body.statements)
      (Stmt.nodesAll body.statements) := by
  obtain ⟨p₀, s, s', fs, hchecks, hlayout, hrelaid, -⟩ := checks_of_analyse h
  obtain ⟨f₀, f', body', hf₀, hf', hb', hbody, hreturns, hΓ⟩ := hchecks.exists_body hrelaid hf hb
  obtain ⟨hs', htyped⟩ := typed_of_checked hchecks.written hchecks.ready hchecks.run
  obtain ⟨f₁, hf₁, hg⟩ := forall₂_right hchecks.guarded hf'
  obtain rfl : f₀ = f₁ := Option.some.inj (hf₀.symm.trans hf₁)
  obtain ⟨f₂, hf₂, ht⟩ := forall₂_right htyped hf'
  obtain rfl : f₀ = f₂ := Option.some.inj (hf₀.symm.trans hf₂)
  have hstatements := hbody.typed _ _ (ht body' hb').1
  obtain ⟨g, body₁, hg₁, hb₁, hguarded⟩ := guarded_of_layout hlayout hf hb
    (Env.ofBody s'.types s'.constantValue p₀ f₀.owner body' (p₀.ownerFields f₀.owner)) f₀.returns
  obtain rfl : f' = g := Option.some.inj (hf'.symm.trans (by simpa using hg₁))
  obtain rfl : body' = body₁ := Option.some.inj (hb'.symm.trans hb₁)
  rw [hreturns]
  refine (hguarded (hg body' hb')).extends hΓ ⟨fun id _ => ?_⟩ hs'.flat
    (fun x hx => hstatements.within _ hx) fun n hn => hstatements.node _ hn
  exact congrFun hrelaid.types.get_eq id

theorem exists_function {f : Function} {body : UserBody} {n : Nat} {F : List TypeId × Option TypeId}
    (h : (p.env f body).function n = some F) :
    ∃ g, p.functions[n]? = some g ∧ (g.parameters, g.returns) = F := by
  unfold Program.env Env.ofBody at h
  dsimp only at h
  split at h
  · exact Option.map_eq_some_iff.1 h
  · cases h

/-- What respects CONST writes variables only. -/
theorem Analysed.writesVariables (hp : p.Analysed) {n : Nat} {f : Function}
    (hf : p.functions[n]? = some f) {body : UserBody} (hb : f.user? = some body)
    (hg : Guarded (p.env f body) f.returns (Stmt.withinAll body.statements)
      (Stmt.nodesAll body.statements)) : body.WritesVariables p f := by
  have htyped := hp.typed n f hf body hb
  have hguarded {e : Expr} (he : e ∈ Stmt.nodesAll body.statements) : e.Guarded (p.env f body) :=
    fun m hm => hg.nodes m (Stmt.nodesAll_trans _ he hm)
  have hvariable {e : Expr} (he : e ∈ Stmt.nodesAll body.statements) (ha : e.isAddressable = true)
      (hc : ∀ t, e.type? = some t → p.types.isConstant t = false) : e.IsVariable (p.env f body) :=
    (hguarded he).isVariable (htyped.node _ he) ha hc
  refine ⟨fun x hx e he => ?_, fun i target temp hnode q hq hw => ?_, fun x hx e t he => ?_,
    fun i name arguments callee hnode => ?_⟩
  · have hnodes {n : Expr} (hn : n ∈ x.nodes) := Stmt.nodes_withinAll _ hx hn
    have htx := htyped.within _ hx
    have hgx := hg.statements x hx
    cases x with
    | assign l value target =>
      obtain rfl := Option.some.inj he
      exact hvariable (hnodes (List.mem_append_right _ target.mem_nodes)) htx.2.2.1
        fun t ht => (hgx t ht).1
    | count l counter start finish step inner temps =>
      obtain rfl := Option.some.inj he
      refine hvariable (hnodes ?_) htx.1.2.1 hgx
      simp [Stmt.nodes, counter.mem_nodes]
    | _ => cases he
  · obtain ⟨hfold, hc⟩ := hg.nodes _ hnode q hq hw
    refine ⟨hfold, fun ha => hvariable (Stmt.nodesAll_trans _ hnode ?_) ha hc⟩
    exact List.mem_cons_of_mem _ target.mem_nodes
  · have hgx := hg.statements x hx
    cases x with
    | var l index value =>
      cases value with
      | none => cases he
      | some value =>
        obtain ⟨u, hu, h⟩ := Option.map_eq_some_iff.1 he
        obtain ⟨rfl, rfl⟩ := Prod.mk.inj h
        exact hgx u hu
    | assign l value target =>
      obtain ⟨u, hu, h⟩ := Option.map_eq_some_iff.1 he
      obtain ⟨rfl, rfl⟩ := Prod.mk.inj h
      exact (hgx u hu).2
    | «return» l value =>
      cases value with
      | none => cases he
      | some value =>
        obtain ⟨u, hu, h⟩ := Option.map_eq_some_iff.1 he
        obtain ⟨rfl, rfl⟩ := Prod.mk.inj h
        exact hgx u hu
    | _ => cases he
  · cases callee with
    | none => exact (htyped.node _ hnode).elim
    | some n =>
      obtain ⟨⟨ps, hfn, -⟩, -⟩ := htyped.node _ hnode
      obtain ⟨g, hgn, h⟩ := exists_function hfn
      obtain ⟨rfl, -⟩ := Prod.mk.inj h
      exact ⟨n, g, rfl, hgn, hg.nodes _ hnode _ hfn⟩

/-- **An analysed program never writes to what is CONST**: it assigns to variables and counts with
them, takes no address through which anything else can be written, and passes none on. -/
theorem writesVariables_of_analyse (h : analyse raw = .ok p) : p.WritesVariables := by
  refine ⟨fun f hf body hb => ?_, fun c hc => ?_⟩
  · obtain ⟨n, hn⟩ := Array.mem_iff_getElem?.1 hf
    exact (analysed_of_analyse h).writesVariables hn hb (guarded_of_analyse h hn hb)
  · obtain ⟨k, hk⟩ := Array.mem_iff_getElem?.1 hc
    obtain ⟨p₀, s, s', fs, hchecks, -, hrelaid, -⟩ := checks_of_analyse h
    obtain ⟨he, -, -⟩ := known_of_checked hchecks.run
    obtain ⟨hs', -⟩ := typed_of_checked hchecks.written hchecks.ready hchecks.run
    rw [hrelaid.constants] at hk
    obtain ⟨_, _, hfold⟩ :=
      hs'.folds k c hk ((hchecks.ready.settled.grows he.toGrows) k c hk)
    exact Expr.not_pointer_of_fold hfold

theorem writesVariables_of_analyse_joining : ∃ p, analyse .joining = .ok p ∧ p.WritesVariables := by
  have h : analyse .joining = .ok ((analyse .joining).toOption.getD default) :=
    Checked.eq_ok (by decide +kernel)
  exact ⟨_, h, writesVariables_of_analyse h⟩

end Program

end ChannelBasic
