import ChannelBasic.Proofs.Typing.Nodes
import ChannelBasic.Proofs.Typing.Variables

/-!
# Proofs/Program/Names — what bound names refer to

A name comes to refer to something that is there: a constant has a number below the number of
constants, and the two ends of a channel are data fields.  A variable that is declared by no `VAR`
is implicit, and **the statement that made it implicit assigns to it** (`named_stmts`), so that
checking the statement is going to give it a type.
-/

namespace ChannelBasic

/-- A constant, if that is what the expression names, has a number below a bound. -/
def Expr.Refers (bound : Nat) : Expr → Prop
  | .name _ _ (some (.constant k)) => k < bound
  | _ => True

namespace Binding

variable {scope : Scope} {s s₁ s₂ : Bound} {name : String}

/-- A constant that is found is one of the constants around. -/
theorem lt_of_lookup {k : Nat} (h : lookup scope s name = some (.constant k)) :
    k < scope.around.constants.length := by
  unfold lookup at h
  dsimp only at h
  split at h
  · cases h
  split at h
  · cases h
  split at h
  · cases h
  obtain ⟨k', hk, h⟩ := Option.map_eq_some_iff.1 h
  obtain rfl : k' = k := by simpa using h
  exact (List.findIdx?_eq_some_iff_getElem.1 hk).1

mutual

/-- The constants that a bound expression names are there. -/
theorem refers_expr (scope : Scope) : (e : Expr) → (s : Bound) →
    Ends (expr scope e) s fun e' s' =>
      s' = s ∧ ∀ x ∈ e'.nodes, x.Refers scope.around.constants.length
  | .name i name d, s => by
    unfold expr
    refine Ends.reads ?_
    split
    next d' hd =>
      refine Ends.value ⟨rfl, fun x hx => ?_⟩
      obtain rfl := List.mem_singleton.1 hx
      cases d' with
      | constant k => exact lt_of_lookup hd
      | localVar | argument | dataField => trivial
    next => exact Ends.refused
  | .call i function arguments d, s => by
    unfold expr
    split
    next callee _ =>
      refine (refers_exprs scope arguments s).seq fun es s₁ h₁ => Ends.value ⟨h₁.1, ?_⟩
      simpa [Expr.nodes, Expr.Refers] using h₁.2
    next => exact Ends.refused
  | .literal i v, s => by
    unfold expr
    exact Ends.value ⟨rfl, by simp [Expr.nodes, Expr.Refers]⟩
  | .member i target field d, s => by
    unfold expr
    refine (refers_expr scope target s).seq fun e s₁ h₁ => Ends.value ⟨h₁.1, ?_⟩
    simpa [Expr.nodes, Expr.Refers] using h₁.2
  | .unary i op operand, s => by
    unfold expr
    refine (refers_expr scope operand s).seq fun e s₁ h₁ => Ends.value ⟨h₁.1, ?_⟩
    simpa [Expr.nodes, Expr.Refers] using h₁.2
  | .binary i op left right, s => by
    unfold expr
    refine (refers_expr scope left s).seq fun l s₁ h₁ => ?_
    refine (refers_expr scope right s₁).seq fun r s₂ h₂ => Ends.value ⟨h₂.1.trans h₁.1, ?_⟩
    simpa [Expr.nodes, Expr.Refers, or_imp, forall_and] using ⟨h₁.2, h₂.2⟩
  | .cast i operand, s => by
    unfold expr
    refine (refers_expr scope operand s).seq fun e s₁ h₁ => Ends.value ⟨h₁.1, ?_⟩
    simpa [Expr.nodes, Expr.Refers] using h₁.2
  | .pointer i target temp, s => by
    unfold expr
    refine (refers_expr scope target s).seq fun e s₁ h₁ => Ends.value ⟨h₁.1, ?_⟩
    simpa [Expr.nodes, Expr.Refers] using h₁.2

theorem refers_exprs (scope : Scope) : (es : List Expr) → (s : Bound) →
    Ends (exprs scope es) s fun es' s' =>
      s' = s ∧ ∀ x ∈ Expr.nodesAll es', x.Refers scope.around.constants.length
  | [], s => by
    unfold exprs
    exact Ends.value ⟨rfl, by simp [Expr.nodesAll]⟩
  | e :: rest, s => by
    unfold exprs
    refine (refers_expr scope e s).seq fun e' s₁ h₁ => ?_
    refine (refers_exprs scope rest s₁).seq fun es s₂ h₂ => Ends.value ⟨h₂.1.trans h₁.1, ?_⟩
    simpa [Expr.nodesAll, or_imp, forall_and] using ⟨h₁.2, h₂.2⟩

end

theorem refers_expr? (scope : Scope) (e : Option Expr) (s : Bound) :
    Ends (expr? scope e) s fun e' s' =>
      s' = s ∧ ∀ x ∈ Expr.nodesOf e', x.Refers scope.around.constants.length := by
  cases e with
  | none => exact Ends.value ⟨rfl, by simp [Expr.nodesOf]⟩
  | some e =>
    unfold expr?
    exact (refers_expr scope e s).seq fun e' s₁ h₁ => Ends.value h₁

/-! ## Implicit variables -/

/-- What binding statements does to names: those of constants refer to one of `n` constants, and
every variable that has become implicit is given a type. -/
structure Named (n : Nat) (s s' : Bound) (nodes : List Expr) (given : List Nat) : Prop where
  refers : ∀ x ∈ nodes, x.Refers n
  width : s.locals.size ≤ s'.locals.size
  implicit : ∀ i ∈ s'.implicit, i ∈ s.implicit ∨ i < s'.locals.size ∧ i ∈ given

theorem Named.refl {n : Nat} {nodes : List Expr} (h : ∀ x ∈ nodes, x.Refers n) (given : List Nat) :
    Named n s s nodes given :=
  ⟨h, le_rfl, fun _ => .inl⟩

theorem Named.trans {n : Nat} {a b : List Expr} {c d : List Nat} (h : Named n s s₁ a c)
    (h' : Named n s₁ s₂ b d) : Named n s s₂ (a ++ b) (c ++ d) where
  refers x hx := (List.mem_append.1 hx).elim (h.refers x) (h'.refers x)
  width := h.width.trans h'.width
  implicit i hi := by
    obtain hi | ⟨hlt, hi⟩ := h'.implicit i hi
    · obtain hi | ⟨hlt, hi⟩ := h.implicit i hi
      · exact .inl hi
      · exact .inr ⟨hlt.trans_le h'.width, List.mem_append_left _ hi⟩
    · exact .inr ⟨hlt, List.mem_append_right _ hi⟩

theorem isNamed_push {v : Local} {implicit : List Nat} {i : Nat}
    (h : isNamed ⟨s.locals.push v, implicit⟩ name i = true) (hi : i ≠ s.locals.size) : isNamed s name i = true := by
  unfold isNamed at h ⊢
  rwa [Array.getElem?_push, if_neg hi] at h

/-- **A name that means nothing means the implicit variable of this name, once there is one.** -/
theorem lookup_push (hscope : scope.initial = none) (h : lookup scope s name = none)
    (place : Location) : lookup scope
      ⟨s.locals.push ⟨place, name, none, 0⟩, s.implicit ++ [s.locals.size]⟩ name =
        some (.localVar s.locals.size) := by
  have hold : ∀ i ∈ scope.inner.flatten ++ s.implicit ++ scope.body, isNamed s name i = false := by
    intro i hi
    unfold lookup at h
    dsimp only at h
    split at h
    · cases h
    next hfind =>
      have := List.find?_eq_none.1 hfind i (List.mem_filter.2 ⟨hi, by simp [hscope]⟩)
      simpa using this
  have hnew : isNamed ⟨s.locals.push ⟨place, name, none, 0⟩, s.implicit ++ [s.locals.size]⟩ name
      s.locals.size = true := by
    simp [isNamed]
  unfold lookup
  dsimp only
  split
  next i hfind =>
    by_contra hne
    have hnamed : isNamed s name i = true := by
      refine isNamed_push (List.find?_some hfind) ?_
      rintro rfl
      exact hne rfl
    have hmem' : i ∈ scope.inner.flatten ++ s.implicit ++ scope.body := by
      have hmem := (List.mem_filter.1 (List.mem_of_find?_eq_some hfind)).1
      have hi : i ≠ s.locals.size := by
        rintro rfl
        exact hne rfl
      simpa [hi] using hmem
    rw [hold i hmem'] at hnamed
    cases hnamed
  next hfind =>
    have := List.find?_eq_none.1 hfind s.locals.size
      (List.mem_filter.2 ⟨by simp, by simp [hscope]⟩)
    exact absurd hnew this

/-- What is assigned to is bound; **if that has made a variable implicit, it is the one assigned
to**. -/
theorem named_target (hscope : scope.initial = none) (e : Expr) :
    Ends (do
      declareImplicit scope e
      expr scope e) s fun e' s' =>
        Named scope.around.constants.length s s' e'.nodes e'.localVar?.toList := by
  have hbound {s₁ : Bound} (h : s₁ = s) : Ends (expr scope e) s₁ fun e' s' =>
      Named scope.around.constants.length s s' e'.nodes e'.localVar?.toList := by
    subst h
    refine (refers_expr scope e s₁).mono fun e' s' h => ?_
    obtain ⟨rfl, hr⟩ := h
    exact .refl hr _
  cases e with
  | name i name d =>
    refine Ends.seq (P := fun _ s' => s' = s ∨ lookup scope s name = none ∧
      s' = ⟨s.locals.push ⟨i.location, name, none, 0⟩, s.implicit ++ [s.locals.size]⟩) ?_
      fun _ s₁ h₁ => ?_
    · refine Ends.reads ?_
      split
      next h => exact Ends.changes (.inr ⟨by simpa using (Bool.and_eq_true_iff.1 h).2, rfl⟩)
      next => exact Ends.value (.inl rfl)
    · obtain h₁ | ⟨hnone, rfl⟩ := h₁
      · exact hbound h₁
      · unfold expr
        refine Ends.reads ?_
        rw [lookup_push hscope hnone]
        refine Ends.value ⟨by simp [Expr.nodes, Expr.Refers], by simp, fun i hi => ?_⟩
        obtain hi | hi := List.mem_append.1 hi
        · exact .inl hi
        · obtain rfl := List.mem_singleton.1 hi
          exact .inr ⟨by simp, by simp [Expr.localVar?]⟩
  | literal | member | call | unary | binary | cast | pointer =>
    exact Ends.seq (Ends.value (Q := fun _ s₁ => s₁ = s) rfl) fun _ _ => hbound

mutual

theorem named_stmt (scope : Scope) (hscope : scope.initial = none) (earlier : List Nat) :
    (r : Stmt) → (s : Bound) → Ends (stmt scope earlier r) s fun r' s' =>
      Named scope.around.constants.length s s' r'.nodes r'.given
  | .var l index value, s => by
    unfold stmt
    refine Ends.reads ((ends_freshVariable _ index).seq fun _ s₁ h₁ => ?_)
    subst h₁
    refine (refers_expr? _ value s₁).seq fun e s₂ h₂ => Ends.value ?_
    obtain ⟨rfl, hr⟩ := h₂
    exact .refl hr _
  | .assign l value target, s => by
    unfold stmt
    refine (refers_expr scope value s).seq fun v s₁ h₁ => ?_
    obtain ⟨rfl, hv⟩ := h₁
    rw [← bind_assoc]
    exact (named_target hscope target).seq fun t s₂ h₂ =>
      Ends.value ((Named.refl hv []).trans h₂)
  | .invoke l call, s => by
    unfold stmt
    refine (refers_expr scope call s).seq fun e s₁ h₁ => Ends.value ?_
    obtain ⟨rfl, hr⟩ := h₁
    exact .refl hr _
  | .return l value, s => by
    unfold stmt
    refine (refers_expr? scope value s).seq fun e s₁ h₁ => Ends.value ?_
    obtain ⟨rfl, hr⟩ := h₁
    exact .refl hr _
  | .choose l branches, s => by
    unfold stmt
    exact (named_choices scope hscope branches s).seq fun b s₁ h₁ => Ends.value h₁
  | .count l counter start finish step body temps, s => by
    unfold stmt
    refine (refers_expr scope start s).seq fun a s₁ h₁ => ?_
    obtain ⟨rfl, ha⟩ := h₁
    refine (refers_expr scope finish s₁).seq fun b s₂ h₂ => ?_
    obtain ⟨rfl, hb⟩ := h₂
    refine (refers_expr? scope step s₂).seq fun c s₃ h₃ => ?_
    obtain ⟨rfl, hc⟩ := h₃
    rw [← bind_assoc]
    refine (named_target hscope counter).seq fun d s₄ h₄ => ?_
    refine (named_stmts (inside scope body) hscope [] body s₄).seq fun r s₅ h₅ => Ends.value ?_
    have h := (((h₄.trans (.refl ha [])).trans (.refl hb [])).trans (.refl hc [])).trans h₅
    simpa only [List.append_nil, Stmt.nodes, Stmt.given] using h
  | .loop l none body, s => by
    unfold stmt
    exact (named_stmts (inside scope body) hscope [] body s).seq fun r s₁ h₁ => Ends.value h₁
  | .loop l (some c) body, s => by
    unfold stmt
    refine (refers_expr scope c.value s).seq fun v s₁ h₁ => ?_
    obtain ⟨rfl, hv⟩ := h₁
    refine Ends.value_seq ?_
    exact (named_stmts (inside scope body) hscope [] body s₁).seq fun r s₂ h₂ =>
      Ends.value ((Named.refl hv []).trans h₂)

theorem named_stmts (scope : Scope) (hscope : scope.initial = none) (earlier : List Nat) :
    (rs : List Stmt) → (s : Bound) → Ends (stmts scope earlier rs) s fun rs' s' =>
      Named scope.around.constants.length s s' (Stmt.nodesAll rs') (Stmt.givenAll rs')
  | [], s => by
    unfold stmts
    exact Ends.value (.refl (by simp [Stmt.nodesAll]) _)
  | r :: rest, s => by
    unfold stmts
    refine (named_stmt scope hscope earlier r s).seq fun r' s₁ h₁ => ?_
    exact (named_stmts scope hscope _ rest s₁).seq fun rs' s₂ h₂ => Ends.value (h₁.trans h₂)

theorem named_choices (scope : Scope) (hscope : scope.initial = none) :
    (b : Branches) → (s : Bound) → Ends (choices scope b) s fun b' s' =>
      Named scope.around.constants.length s s' b'.nodes b'.given
  | .done, s => by
    unfold choices
    exact Ends.value (.refl (by simp [Branches.nodes]) _)
  | .otherwise body, s => by
    unfold choices
    exact (named_stmts (inside scope body) hscope [] body s).seq fun r s₁ h₁ => Ends.value h₁
  | .branch condition body rest, s => by
    unfold choices
    refine (refers_expr scope condition s).seq fun c s₁ h₁ => ?_
    obtain ⟨rfl, hc⟩ := h₁
    refine (named_stmts (inside scope body) hscope [] body s₁).seq fun r s₂ h₂ => ?_
    exact (named_choices scope hscope rest s₂).seq fun b s₃ h₃ =>
      Ends.value (((Named.refl hc []).trans h₂).trans h₃)

end

end Binding

/-! ## Programs -/

/-- The names in a body refer to what is there. -/
structure UserBody.Named (body : UserBody) (constants : Nat) : Prop where
  refers : ∀ x ∈ Stmt.nodesAll body.statements, x.Refers constants
  implicit : ∀ i ∈ body.implicit, i < body.locals.size ∧ i ∈ Stmt.givenAll body.statements

/-- The names in a program refer to what is there. -/
structure Program.Named (p : Program) : Prop where
  constants : ∀ (k : Nat) (c : Constant), p.constants[k]? = some c →
    ∀ x ∈ c.value.nodes, x.Refers p.constants.size
  lengths : ∀ (n : Nat) (e : Expr), p.lengths[n]? = some e →
    ∀ x ∈ e.nodes, x.Refers p.constants.size
  functions : ∀ (n : Nat) (f : Function), p.functions[n]? = some f → ∀ body,
    f.user? = some body → body.Named p.constants.size
  channels : ∀ c ∈ p.channels, ∀ output input, c.fields = some (output, input) →
    (p.dataField? output).isSome = true ∧ (p.dataField? input).isSome = true

namespace Program

variable {p p' : Program}

theorem length_constantNames : p.constantNames.length = p.constants.size := by
  simp [constantNames]

theorem refers_bindConstantExpr {e e' : Expr} (h : p.bindConstantExpr e = .ok e') :
    ∀ x ∈ e'.nodes, x.Refers p.constants.size := by
  obtain ⟨s, hrun⟩ := run'_eq_ok.1 h
  have hr := (Binding.refers_expr _ e _ _ _ hrun).2
  rwa [length_constantNames] at hr

theorem named_bindFunction {f f' : Function} (h : p.bindFunction f = .ok f') {body : UserBody}
    (hb : f'.user? = some body) : body.Named p.constants.size := by
  unfold bindFunction at h
  split at h
  next arguments hbody =>
    obtain rfl : f = f' := by simpa using h
    simp [Function.user?, hbody] at hb
  next old hbody =>
    obtain ⟨⟨statements, s⟩, hrun, h⟩ := Checked.bind_eq_ok.1 h
    obtain rfl := Checked.pure_eq_ok.1 h
    obtain rfl := Option.some.inj hb
    have hnamed := Binding.named_stmts _ rfl [] _ _ _ _ hrun
    refine ⟨?_, fun i hi => ?_⟩
    · have hr := hnamed.refers
      rwa [length_constantNames] at hr
    · exact (hnamed.implicit i hi).resolve_left (by simp)

/-- One end of a channel is a data field of a module. -/
theorem dataField?_of_bindEndpoint {place : Location} {access : Access} {rule : Rule}
    {endpoint : Endpoint} {r : DataFieldRef}
    (h : p.bindEndpoint place access rule endpoint = .ok r) : (p.dataField? r).isSome = true := by
  unfold bindEndpoint at h
  split at h
  · cases h
  next owner m hm =>
    split at h
    next slot index hfind =>
      obtain rfl : (⟨owner, index⟩ : DataFieldRef) = r := by simpa using h
      obtain ⟨x, hx, hxm⟩ := Option.map_eq_some_iff.1 hm
      obtain ⟨rfl, rfl⟩ := Prod.mk.inj hxm
      have hmodule : p.modules[x.2]? = some x.1 :=
        List.mem_zipIdx_iff_getElem?.1 (List.mem_of_find?_eq_some hx)
      have hmem := List.mem_of_find?_eq_some hfind
      obtain ⟨y, hy, hyx⟩ := List.mem_map.1 hmem
      obtain ⟨rfl, rfl⟩ := Prod.mk.inj hyx
      have hfield := List.mem_zipIdx_iff_getElem?.1 (List.mem_filter.1 hy).1
      have hlen : y.2 < x.1.fields.length := by
        have := (List.getElem?_eq_some_iff.1 hfield).1
        simpa [Module.fields, List.length_flatMap] using this
      simp [dataField?, hmodule, hlen]
    · cases h

theorem named_bindChannels {cs cs' : List Channel} {taken : List Endpoint}
    (h : p.bindChannels taken cs = .ok cs') : ∀ c ∈ cs', ∀ output input,
      c.fields = some (output, input) →
        (p.dataField? output).isSome = true ∧ (p.dataField? input).isSome = true := by
  induction cs generalizing taken cs' with
  | nil =>
    obtain rfl : [] = cs' := by simpa [bindChannels] using h
    simp
  | cons c rest ih =>
    unfold bindChannels at h
    obtain ⟨output, ho, h⟩ := Checked.bind_eq_ok.1 h
    obtain ⟨input, hi, h⟩ := Checked.bind_eq_ok.1 h
    dsimp only at h
    split at h
    · cases h
    · obtain ⟨cs'', hcs, h⟩ := Checked.bind_eq_ok.1 h
      obtain rfl := Checked.pure_eq_ok.1 h
      intro c' hc' o i hoi
      obtain rfl | hc' := List.mem_cons.1 hc'
      · obtain ⟨rfl, rfl⟩ : output = o ∧ input = i := by simpa using hoi
        exact ⟨dataField?_of_bindEndpoint ho, dataField?_of_bindEndpoint hi⟩
      · exact ih hcs c' hc' o i hoi

/-- **The names in a bound program refer to what is there.** -/
theorem named_of_bindNames (h : p.bindNames = .ok p') : p'.Named := by
  obtain ⟨constants, hconstants, h⟩ := Checked.bind_eq_ok.1 h
  obtain ⟨lengths, hlengths, h⟩ := Checked.bind_eq_ok.1 h
  obtain ⟨functions, hfunctions, h⟩ := Checked.bind_eq_ok.1 h
  obtain ⟨channels, hchannels, h⟩ := Checked.bind_eq_ok.1 h
  obtain rfl := Checked.pure_eq_ok.1 h
  rw [Checked.mapM_eq_ok] at hconstants hlengths hfunctions
  have hsize : constants.toArray.size = p.constants.size := by
    simpa using hconstants.length_eq.symm
  refine ⟨fun k c' hc' => ?_, fun k e' he' => ?_, fun n f' hf' body hb => ?_,
    @named_bindChannels p _ _ _ hchannels⟩
  · obtain ⟨c, -, h⟩ := forall₂_right hconstants (k := k) (by simpa using hc')
    obtain ⟨e, he, h⟩ := Checked.bind_eq_ok.1 h
    obtain rfl := Checked.pure_eq_ok.1 h
    rw [hsize]
    exact refers_bindConstantExpr he
  · obtain ⟨e, -, h⟩ := forall₂_right hlengths (k := k) (by simpa using he')
    rw [hsize]
    exact refers_bindConstantExpr h
  · obtain ⟨f, -, h⟩ := forall₂_right hfunctions (k := n) (by simpa using hf')
    rw [hsize]
    exact named_bindFunction h hb

theorem fields_withReach : p.withReach.dataField? = p.dataField? := by
  funext r
  simp only [dataField?, withReach, List.getElem?_map]
  cases p.modules[r.owner]? <;> rfl

/-- Finding what modules reach leaves names as they are. -/
theorem Named.withReach (h : p.Named) : p.withReach.Named :=
  ⟨h.constants, h.lengths, h.functions, by rw [fields_withReach]; exact h.channels⟩

end Program

end ChannelBasic
