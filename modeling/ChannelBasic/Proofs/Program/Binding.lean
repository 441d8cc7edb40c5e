import ChannelBasic.Program.Binding
import ChannelBasic.Program.Reach
import ChannelBasic.Proofs.Program.Lowering

/-!
# Proofs/Program/Binding — bound names keep tables in order

Binding fills in what names refer to and adds the variables that assignments declare.  A call comes
to refer to a function of the same owner or of a library, which is what `Program.visible` says, and
**no code of a module refers to another module** (`Written.bound`).
-/

namespace ChannelBasic

/-- Whether an owner is a library. -/
def Owner.isLibrary : Owner → Bool
  | .library _ => true
  | .module _ => false

namespace Program

/-- The owner of the function with a number. -/
def owner? (p : Program) (n : Nat) : Option Owner := (p.functions[n]?).map (·.owner)

/-- Whether functions of an owner can call a function: it is of the same owner, or of a library. -/
def visible (p : Program) (owner : Owner) (n : Nat) : Bool :=
  match p.owner? n with
  | some o => o == owner || o.isLibrary
  | none => false

/-- Functions that keep their owners can be seen from where they could be seen. -/
theorem visible_eq {p p' : Program} (h : List.Forall₂ (fun f f' => f.owner = f'.owner)
    p.functions.toList p'.functions.toList) : p'.visible = p.visible := by
  have hmap : p.functions.toList.map (·.owner) = p'.functions.toList.map (·.owner) := by
    rw [← List.forall₂_eq_eq_eq, List.forall₂_map_left_iff, List.forall₂_map_right_iff]
    exact h
  have howner : p'.owner? = p.owner? := by
    funext n
    have := congrArg (·[n]?) hmap
    simpa [owner?, List.getElem?_map] using this.symm
  funext owner n
  rw [visible, visible, howner]

end Program

/-- Variables are added, and each new one is implicit and has no type. -/
structure Bound.Grows (s s' : Bound) : Prop where
  width : s.locals.size ≤ s'.locals.size
  locals : ∀ (i : Nat) (v : Local), s'.locals[i]? = some v → s.locals[i]? = some v ∨ v.type = none
  implicit : ∀ i ∈ s.implicit, i ∈ s'.implicit
  covered : ∀ i, s.locals.size ≤ i → i < s'.locals.size → i ∈ s'.implicit
  new : ∀ i ∈ s'.implicit, i ∈ s.implicit ∨ s.locals.size ≤ i
  count : s'.locals.size + s.implicit.length = s.locals.size + s'.implicit.length

theorem Bound.Grows.passage : Passage Bound.Grows where
  refl _ := ⟨le_rfl, fun _ _ h => .inl h, fun _ h => h, fun _ h h' => absurd h' (by omega),
    fun _ => .inl, rfl⟩
  trans := fun {s₁ s₂ s₃} h h' => {
    width := h.width.trans h'.width
    locals := fun i v hv => by
      obtain hv | hv := h'.locals i v hv
      · exact h.locals i v hv
      · exact .inr hv
    implicit := fun i hi => h'.implicit i (h.implicit i hi)
    covered := fun i hi hlt => by
      by_cases hlt' : i < s₂.locals.size
      · exact h'.implicit i (h.covered i hi hlt')
      · exact h'.covered i (Nat.le_of_not_lt hlt') hlt
    new := fun i hi => by
      obtain hi | hi := h'.new i hi
      · exact h.new i hi
      · exact .inr (h.width.trans hi)
    count := by
      have := h.count
      have := h'.count
      omega }

namespace Binding

variable {scope : Scope} {t : TypeTable} {visible : Nat → Bool} {s : Bound}

/-- Every function that can be named can be seen. -/
def Sees (scope : Scope) (visible : Nat → Bool) : Prop :=
  ∀ name n, scope.around.function? name = some n → visible n = true

theorem Sees.inside (h : Sees scope visible) (body : List Stmt) :
    Sees (inside scope body) visible := h

theorem Sees.initial (h : Sees scope visible) (index : Option Nat) :
    Sees { scope with initial := index } visible := h

/-! ## Expressions -/

mutual

theorem ends_expr (hsee : Sees scope visible) : (e : Expr) → (s : Bound) →
    e.Plain t (fun _ => false) →
      Ends (expr scope e) s fun e' s' => s' = s ∧ e'.Plain t visible
  | .literal i v, s, h => by
    unfold expr
    exact Ends.value ⟨rfl, h⟩
  | .name i n d, s, h => by
    unfold expr
    refine Ends.reads ?_
    split
    · exact Ends.value ⟨rfl, trivial⟩
    · exact Ends.refused
  | .member i target field d, s, h => by
    unfold expr
    exact (ends_expr hsee target s h).seq fun e s₁ h₁ => Ends.value h₁
  | .call i f arguments c, s, h => by
    unfold expr
    split
    next n hn =>
      refine (ends_exprs hsee arguments s h.2).seq fun es s₁ h₁ => ?_
      refine Ends.value ⟨h₁.1, fun m hm => ?_, h₁.2⟩
      obtain rfl := Option.some.inj hm
      exact hsee f n hn
    next => exact Ends.refused
  | .unary i op operand, s, h => by
    unfold expr
    exact (ends_expr hsee operand s h).seq fun e s₁ h₁ => Ends.value h₁
  | .binary i op left right, s, h => by
    unfold expr
    refine (ends_expr hsee left s h.1).seq fun e s₁ h₁ => ?_
    obtain ⟨rfl, he⟩ := h₁
    refine (ends_expr hsee right s₁ h.2).seq fun e' s₂ h₂ => ?_
    exact Ends.value ⟨h₂.1, he, h₂.2⟩

theorem ends_exprs (hsee : Sees scope visible) : (es : List Expr) → (s : Bound) →
    Expr.PlainAll t (fun _ => false) es →
      Ends (exprs scope es) s fun es' s' => s' = s ∧ Expr.PlainAll t visible es'
  | [], s, _ => by
    unfold exprs
    exact Ends.value ⟨rfl, trivial⟩
  | e :: rest, s, h => by
    unfold exprs
    refine (ends_expr hsee e s h.1).seq fun e' s₁ h₁ => ?_
    obtain ⟨rfl, he⟩ := h₁
    refine (ends_exprs hsee rest s₁ h.2).seq fun es s₂ h₂ => ?_
    exact Ends.value ⟨h₂.1, he, h₂.2⟩

end

theorem ends_expr? (hsee : Sees scope visible) {e : Option Expr}
    (h : ∀ e', e = some e' → e'.Plain t fun _ => false) :
    Ends (expr? scope e) s fun r s' => s' = s ∧ ∀ e', r = some e' → e'.Plain t visible := by
  unfold expr?
  split
  next e =>
    refine (ends_expr hsee e s (h e rfl)).seq fun e' s₁ h₁ => Ends.value ⟨h₁.1, fun e'' he => ?_⟩
    obtain rfl := Option.some.inj he
    exact h₁.2
  next => exact Ends.value ⟨rfl, by simp⟩

/-! ## Statements -/

theorem keeps_declareImplicit (e : Expr) : Keeps Bound.Grows (declareImplicit scope e) := by
  intro s
  unfold declareImplicit
  split
  next i name d =>
    refine Ends.reads ?_
    split
    · refine Ends.changes ⟨by simp, fun i v hv => ?_, fun i hi => by simp [hi], fun i hi hlt => ?_,
        fun i hi => ?_, by simp; omega⟩
      · rw [Array.getElem?_push] at hv
        split at hv
        · obtain rfl := Option.some.inj hv
          exact .inr rfl
        · exact .inl hv
      · simp only [Array.size_push] at hlt
        simp only [List.mem_append, List.mem_singleton]
        exact .inr (by omega)
      · obtain hi | hi := List.mem_append.1 hi
        · exact .inl hi
        · exact .inr (List.mem_singleton.1 hi).ge
    · exact Ends.value (Bound.Grows.passage.refl s)
  · exact Ends.value (Bound.Grows.passage.refl s)

theorem ends_freshVariable (earlier : List Nat) (index : Nat) :
    Ends (freshVariable scope earlier index) s fun _ s' => s' = s := by
  unfold freshVariable
  refine Ends.reads ?_
  split
  · split
    · exact Ends.refused
    · exact Ends.value rfl
  · exact Ends.value rfl

mutual

theorem ends_stmt {scope : Scope} (hsee : Sees scope visible) (earlier : List Nat) :
    (r : Stmt) → (s : Bound) → r.Plain t (fun _ => false) →
      Ends (stmt scope earlier r) s fun r' s' => s.Grows s' ∧ r'.Plain t visible ∧
        r'.variables = r.variables
  | .var l index value, s, h => by
    unfold stmt
    refine Ends.reads ((ends_freshVariable _ index).seq fun _ s₁ h₁ => ?_)
    subst h₁
    refine (ends_expr? (hsee.initial _) h).seq fun e s₂ h₂ => ?_
    obtain ⟨rfl, he⟩ := h₂
    exact Ends.value ⟨Bound.Grows.passage.refl s₂, he, rfl⟩
  | .assign l value target, s, h => by
    unfold stmt
    refine (ends_expr hsee value s h.1).seq fun e s₁ h₁ => ?_
    obtain ⟨rfl, he⟩ := h₁
    refine (keeps_declareImplicit target s₁).seq fun _ s₂ h₂ => ?_
    refine (ends_expr hsee target s₂ h.2).seq fun e' s₃ h₃ => ?_
    obtain ⟨rfl, he'⟩ := h₃
    exact Ends.value ⟨h₂, ⟨he, he'⟩, rfl⟩
  | .invoke l call, s, h => by
    unfold stmt
    refine (ends_expr hsee call s h).seq fun e s₁ h₁ => ?_
    obtain ⟨rfl, he⟩ := h₁
    exact Ends.value ⟨Bound.Grows.passage.refl s₁, he, rfl⟩
  | .return l value, s, h => by
    unfold stmt
    refine (ends_expr? hsee h).seq fun e s₁ h₁ => ?_
    obtain ⟨rfl, he⟩ := h₁
    exact Ends.value ⟨Bound.Grows.passage.refl s₁, he, rfl⟩
  | .choose l branches, s, h => by
    unfold stmt
    exact (ends_choices hsee branches s h).seq fun b s₁ h₁ => Ends.value h₁
  | .count l counter start finish step body temps, s, ⟨⟨hc, hs, hf, hstep⟩, hb⟩ => by
    unfold stmt
    refine (ends_expr hsee start s hs).seq fun e₁ s₁ h₁ => ?_
    obtain ⟨rfl, he₁⟩ := h₁
    refine (ends_expr hsee finish s₁ hf).seq fun e₂ s₂ h₂ => ?_
    obtain ⟨rfl, he₂⟩ := h₂
    refine (ends_expr? hsee hstep).seq fun e₃ s₃ h₃ => ?_
    obtain ⟨rfl, he₃⟩ := h₃
    refine (keeps_declareImplicit counter s₃).seq fun _ s₄ h₄ => ?_
    refine (ends_expr hsee counter s₄ hc).seq fun e₄ s₅ h₅ => ?_
    obtain ⟨rfl, he₄⟩ := h₅
    refine (ends_stmts (hsee.inside body) [] body s₅ hb).seq fun b s₆ h₆ => ?_
    exact Ends.value ⟨Bound.Grows.passage.trans h₄ h₆.1, ⟨⟨he₄, he₁, he₂, he₃⟩, h₆.2.1⟩, h₆.2.2⟩
  | .loop l condition body, s, ⟨hc, hb⟩ => by
    have rest (c : Option Condition) (h : ∀ d, c = some d → d.value.Plain t visible) :
        Ends (do return Stmt.loop l c (← stmts (inside scope body) [] body)) s fun r' s' =>
          s.Grows s' ∧ r'.Plain t visible ∧ r'.variables = Stmt.variablesAll body :=
      (ends_stmts (hsee.inside body) [] body s hb).seq fun b s₁ h₁ =>
        Ends.value ⟨h₁.1, ⟨h, h₁.2.1⟩, h₁.2.2⟩
    unfold stmt
    dsimp only
    split
    next c =>
      refine (ends_expr hsee c.value s (hc c rfl)).seq fun e s₁ h₁ => ?_
      obtain ⟨rfl, he⟩ := h₁
      refine Ends.value_seq (rest _ fun d hd => ?_)
      obtain rfl := Option.some.inj hd
      exact he
    next => exact Ends.value_seq (rest _ (by simp))

theorem ends_stmts {scope : Scope} (hsee : Sees scope visible) (earlier : List Nat) :
    (rs : List Stmt) → (s : Bound) → Stmt.PlainAll t (fun _ => false) rs →
      Ends (stmts scope earlier rs) s fun rs' s' => s.Grows s' ∧ Stmt.PlainAll t visible rs' ∧
        Stmt.variablesAll rs' = Stmt.variablesAll rs
  | [], s, _ => by
    unfold stmts
    exact Ends.value ⟨Bound.Grows.passage.refl s, trivial, rfl⟩
  | r :: rest, s, h => by
    unfold stmts
    refine (ends_stmt hsee earlier r s h.1).seq fun r' s₁ h₁ => ?_
    refine (ends_stmts hsee _ rest s₁ h.2).seq fun rs' s₂ h₂ => ?_
    refine Ends.value ⟨Bound.Grows.passage.trans h₁.1 h₂.1, ⟨h₁.2.1, h₂.2.1⟩, ?_⟩
    rw [Stmt.variablesAll, Stmt.variablesAll, h₁.2.2, h₂.2.2]

theorem ends_choices {scope : Scope} (hsee : Sees scope visible) : (b : Branches) → (s : Bound) →
    b.Plain t (fun _ => false) →
      Ends (choices scope b) s fun b' s' => s.Grows s' ∧ b'.Plain t visible ∧
        b'.variables = b.variables
  | .done, s, _ => by
    unfold choices
    exact Ends.value ⟨Bound.Grows.passage.refl s, trivial, rfl⟩
  | .otherwise body, s, h => by
    unfold choices
    exact (ends_stmts (hsee.inside body) [] body s h).seq fun b s₁ h₁ => Ends.value h₁
  | .branch condition body rest, s, ⟨hc, hb, hr⟩ => by
    unfold choices
    refine (ends_expr hsee condition s hc).seq fun c s₁ h₁ => ?_
    obtain ⟨rfl, he⟩ := h₁
    refine (ends_stmts (hsee.inside body) [] body s₁ hb).seq fun b s₂ h₂ => ?_
    refine (ends_choices hsee rest s₂ hr).seq fun b' s₃ h₃ => ?_
    refine Ends.value ⟨Bound.Grows.passage.trans h₂.1 h₃.1, ⟨he, h₂.2.1, h₃.2.1⟩, ?_⟩
    rw [Branches.variables, Branches.variables, h₂.2.2, h₃.2.2]

end

end Binding

namespace Program

variable {p p' : Program} {owner : Owner} {name : String} {n : Nat}

/-! ## What a name can mean -/

theorem mem_of_functionNamed? {functions : List Nat}
    (h : p.functionNamed? functions name = some n) : n ∈ functions := List.mem_of_find?_eq_some h

theorem visible_of_owner? {o : Owner} (h : p.owner? n = some o)
    (ho : o = owner ∨ o.isLibrary = true) : p.visible owner n = true := by
  rw [visible, h]
  simpa using ho

/-- A name means a function that can be seen. -/
theorem Written.visible_of_function? {visible : Owner → Nat → Bool} (hp : p.Written visible)
    (h : p.function? owner name = some n) : p.visible owner n = true := by
  have library {executors : List String} (h : p.libraryFunction? executors name = some n) :
      p.visible owner n = true := by
    obtain ⟨l, hl, hn⟩ := List.exists_of_findSome?_eq_some h
    obtain ⟨k, hk⟩ := List.mem_iff_getElem?.1 (List.mem_filter.1 hl).1
    obtain ⟨f, hf, ho⟩ := hp.libraries k l hk n (mem_of_functionNamed? hn)
    refine visible_of_owner? (o := .library k) ?_ (.inr rfl)
    rw [owner?, hf, Option.map_some, ho]
  cases owner with
  | module k =>
    unfold function? at h
    dsimp only at h
    split at h
    next m hm =>
      rw [Option.orElse_eq_orElse, Option.orElse_eq_or, Option.or_eq_some_iff] at h
      obtain h | ⟨-, h⟩ := h
      · obtain ⟨f, hf, ho⟩ := hp.modules k m hm n (mem_of_functionNamed? h)
        exact visible_of_owner? (o := .module k) (by rw [owner?, hf, Option.map_some, ho])
          (.inl rfl)
      · exact library h
    next => cases h
  | library k =>
    unfold function? at h
    dsimp only at h
    split at h
    next l hl =>
      rw [Option.orElse_eq_orElse, Option.orElse_eq_or, Option.or_eq_some_iff] at h
      obtain h | ⟨-, h⟩ := h
      · obtain ⟨f, hf, ho⟩ := hp.libraries k l hl n (mem_of_functionNamed? h)
        exact visible_of_owner? (o := .library k) (by rw [owner?, hf, Option.map_some, ho])
          (.inl rfl)
      · exact library h
    next => cases h

/-! ## Programs -/

theorem plain_bindConstantExpr {t : TypeTable} {e e' : Expr} (he : e.Plain t fun _ => false)
    (h : p.bindConstantExpr e = .ok e') : e'.Plain t fun _ => false := by
  obtain ⟨s, hrun⟩ := run'_eq_ok.1 h
  have hsee : Binding.Sees ⟨⟨p.constantNames, [], [], fun _ => none⟩, false, [], [], none⟩
    fun _ => false := fun _ _ h => by cases h
  exact (Binding.ends_expr hsee e _ he _ _ hrun).2

/-- The body of a bound function is in order. -/
theorem written_bindFunction {visible : Owner → Nat → Bool} (hp : p.Written visible)
    {f f' : Function} (hf : ∀ body, f.user? = some body →
      body.Written p.types (fun _ => false) ∧ body.implicit = [])
    (h : p.bindFunction f = .ok f') : f'.owner = f.owner ∧
      ∀ body, f'.user? = some body → body.Written p.types (p.visible f.owner) := by
  unfold bindFunction at h
  split at h
  next arguments hbody =>
    obtain rfl : f = f' := by simpa using h
    exact ⟨rfl, by simp [Function.user?, hbody]⟩
  next body hbody =>
    obtain ⟨⟨statements, s⟩, hrun, h⟩ := Checked.bind_eq_ok.1 h
    obtain rfl := Checked.pure_eq_ok.1 h
    refine ⟨rfl, fun body' hb => ?_⟩
    obtain rfl := Option.some.inj hb
    obtain ⟨hw, himplicit⟩ := hf body (by simp [Function.user?, hbody])
    have hsee : Binding.Sees ⟨⟨p.constantNames, (p.ownerFields f.owner).map (·.name),
        body.arguments.map (·.name), p.function? f.owner⟩, true, [], declared body.statements,
        none⟩ (p.visible f.owner) := fun _ _ h => hp.visible_of_function? h
    obtain ⟨hgrows, hplain, hvariables⟩ :=
      Binding.ends_stmts hsee [] body.statements _ hw.statements _ _ hrun
    exact {
      statements := hplain
      arguments := hw.arguments
      locals := fun i v hv u hu => by
        obtain hv | hv := hgrows.locals i v hv
        · exact hw.locals i v hv u hu
        · rw [hv] at hu
          cases hu
      covered := fun i hi => by
        dsimp only at hi ⊢
        rw [hvariables]
        by_cases hlt : i < body.locals.size
        · obtain h | h := hw.covered i hlt
          · rw [himplicit] at h
            cases h
          · exact .inr h
        · exact .inl (hgrows.covered i (Nat.le_of_not_lt hlt) hi)
      within := fun i hi => by
        rw [hvariables] at hi
        exact (hw.within i hi).trans_le hgrows.width
      count := by
        have hcount := hgrows.count
        have hwritten := hw.count
        rw [himplicit] at hwritten
        dsimp only
        rw [hvariables]
        simp only [List.length_nil] at hcount hwritten
        omega
      untyped := fun i hi v hv => by
        have hi := (hgrows.new i hi).resolve_left (by simp)
        obtain hv | hv := hgrows.locals i v hv
        · exact absurd (Array.getElem?_eq_some_iff.1 hv).1 (Nat.not_lt.2 hi)
        · exact hv }

/-- **A bound program has its tables in order, and calls only what can be seen.** -/
theorem Written.bound (hp : p.Written fun _ _ => false) (hu : p.Unbound)
    (h : p.bindNames = .ok p') : p'.Written p'.visible := by
  obtain ⟨constants, hconstants, h⟩ := Checked.bind_eq_ok.1 h
  obtain ⟨lengths, hlengths, h⟩ := Checked.bind_eq_ok.1 h
  obtain ⟨functions, hfunctions, h⟩ := Checked.bind_eq_ok.1 h
  obtain ⟨channels, -, h⟩ := Checked.bind_eq_ok.1 h
  obtain rfl := Checked.pure_eq_ok.1 h
  rw [Checked.mapM_eq_ok] at hconstants hlengths hfunctions
  -- the functions before and after, by their numbers
  have back {n : Nat} {f' : Function} (hf' : functions.toArray[n]? = some f') :
      ∃ f, p.functions[n]? = some f ∧ p.bindFunction f = .ok f' := by
    obtain ⟨f, hf, h⟩ := forall₂_right hfunctions (k := n) (by simpa using hf')
    exact ⟨f, by simpa using hf, h⟩
  have good {n : Nat} {f f' : Function} (hf : p.functions[n]? = some f)
      (h : p.bindFunction f = .ok f') := written_bindFunction hp
    (fun body hb => ⟨hp.functions n f hf body hb, hu n f hf body hb⟩) h
  have forth {n : Nat} {f : Function} (hf : p.functions[n]? = some f) :
      ∃ f', functions.toArray[n]? = some f' ∧ f'.owner = f.owner := by
    obtain ⟨f', hf', h⟩ := forall₂_left hfunctions (k := n) (by simpa using hf)
    exact ⟨f', by simpa using hf', (good hf h).1⟩
  have hvisible : Program.visible { p with
      constants := constants.toArray, lengths := lengths.toArray,
      functions := functions.toArray, channels } = p.visible := by
    refine visible_eq (List.forall₂_iff_get.2 ⟨hfunctions.length_eq, fun n hn hn' => ?_⟩)
    have hf : p.functions[n]? = some (p.functions.toList.get ⟨n, hn⟩) := by
      rw [← Array.getElem?_toList]
      exact List.getElem?_eq_getElem hn
    exact (good hf (hfunctions.get hn hn')).1.symm
  exact {
    builtin := hp.builtin
    flat := hp.flat
    structSizes := hp.structSizes
    constants := fun k c' hc' => by
      obtain ⟨c, hc, h⟩ := forall₂_right hconstants (k := k) (by simpa using hc')
      obtain ⟨e, he, h⟩ := Checked.bind_eq_ok.1 h
      obtain rfl := Checked.pure_eq_ok.1 h
      obtain ⟨hfolded, hplain⟩ := hp.constants k c (by simpa using hc)
      exact ⟨hfolded, plain_bindConstantExpr hplain he⟩
    lengths := fun k e' he' => by
      obtain ⟨e, he, h⟩ := forall₂_right hlengths (k := k) (by simpa using he')
      exact plain_bindConstantExpr (hp.lengths k e (by simpa using he)) h
    functions := fun n f' hf' body hb => by
      obtain ⟨f, hf, h⟩ := back hf'
      obtain ⟨ho, hw⟩ := good hf h
      rw [hvisible, ho]
      exact hw body hb
    modules := fun k m hm n hn => by
      obtain ⟨f, hf, ho⟩ := hp.modules k m hm n hn
      obtain ⟨f', hf', ho'⟩ := forth hf
      exact ⟨f', hf', ho'.trans ho⟩
    distinct := hp.distinct
    libraries := fun k l hl n hn => by
      obtain ⟨f, hf, ho⟩ := hp.libraries k l hl n hn
      obtain ⟨f', hf', ho'⟩ := forth hf
      exact ⟨f', hf', ho'.trans ho⟩
    apart := hp.apart
    structs := hp.structs }

/-- Finding what modules reach changes nothing that is written. -/
theorem Written.withReach (hp : p.Written p.visible) :
    p.withReach.Written p.withReach.visible where
  builtin := hp.builtin
  flat := hp.flat
  structSizes := hp.structSizes
  constants := hp.constants
  lengths := hp.lengths
  functions := hp.functions
  modules k m hm n hn := by
    obtain ⟨m', hm', rfl⟩ := List.getElem?_map.symm.trans hm |> Option.map_eq_some_iff.1
    exact hp.modules k m' hm' n hn
  distinct m hm := by
    obtain ⟨m', hm', rfl⟩ := List.mem_map.1 hm
    exact hp.distinct m' hm'
  libraries := hp.libraries
  apart := hp.apart
  structs := hp.structs

end Program

end ChannelBasic
