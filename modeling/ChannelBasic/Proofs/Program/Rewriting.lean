import ChannelBasic.Proofs.Typing.Nodes

/-!
# Proofs/Program/Rewriting — what analysis does to expressions

Checking fills in types, converts operands, takes the addresses of arguments and computes what has a
value beforehand; laying out gives temporaries their places.  `e.Rewrites e'` says that nothing else
has happened to an expression.  **Every expression of an analysed program is a rewritten one of the
program whose names were bound** (`Program.rewrites_of_layout`), so whatever rewriting keeps is kept
by analysis.
-/

namespace ChannelBasic

/-! ## Expressions -/

/-- The second expression is the first with types filled in, values converted or computed, addresses
taken and places given to temporaries. -/
inductive Expr.Rewrites : Expr → Expr → Prop
  | refl (e : Expr) : Rewrites e e
  | trans {e₁ e₂ e₃ : Expr} : Rewrites e₁ e₂ → Rewrites e₂ e₃ → Rewrites e₁ e₃
  | name {i i' : Info} {n : String} {d : Option Declaration} :
      Rewrites (.name i n d) (.name i' n d)
  | member {i i' : Info} {target target' : Expr} {field : String} {r r' : Option FieldRef} :
      Rewrites target target' → Rewrites (.member i target field r) (.member i' target' field r')
  | call {i i' : Info} {f : String} {arguments arguments' : List Expr} {c : Option Nat}
      (length_eq : arguments.length = arguments'.length)
      (each : ∀ {a a'}, (a, a') ∈ arguments.zip arguments' → Rewrites a a') :
      Rewrites (.call i f arguments c) (.call i' f arguments' c)
  | unary {i i' : Info} {op : UnaryOp} {operand operand' : Expr} :
      Rewrites operand operand' → Rewrites (.unary i op operand) (.unary i' op operand')
  | binary {i i' : Info} {op : BinaryOp} {left left' right right' : Expr} :
      Rewrites left left' → Rewrites right right' →
        Rewrites (.binary i op left right) (.binary i' op left' right')
  | cast {i i' : Info} {operand operand' : Expr} :
      Rewrites operand operand' → Rewrites (.cast i operand) (.cast i' operand')
  | pointer {i i' : Info} {target target' : Expr} {temp temp' : Option Int} :
      Rewrites target target' → Rewrites (.pointer i target temp) (.pointer i' target' temp')
  /-- A conversion is put around an expression. -/
  | convert (i : Info) (e : Expr) : Rewrites e (.cast i e)
  /-- The address of an expression is taken. -/
  | point (i : Info) (e : Expr) (temp : Option Int) : Rewrites e (.pointer i e temp)
  /-- An expression becomes its value. -/
  | compute {types : TypeTable} {constant : Nat → Option Literal} {e : Expr} {v : Literal} (i : Info)
      (hv : e.fold types constant = some v) : Rewrites e (.literal i v)

/-- Expressions are rewritten one by one. -/
abbrev Expr.RewritesAll (es es' : List Expr) : Prop := List.Forall₂ Expr.Rewrites es es'

namespace Expr

variable {types : TypeTable} {constant : Nat → Option Literal}

instance : Std.Refl Rewrites := ⟨.refl⟩

theorem RewritesAll.call {i i' : Info} {f : String} {arguments arguments' : List Expr}
    {c : Option Nat} (h : RewritesAll arguments arguments') :
    (Expr.call i f arguments c).Rewrites (.call i' f arguments' c) :=
  .call h.length_eq (List.forall₂_iff_zip.1 h).2

theorem RewritesAll.trans {es₁ es₂ es₃ : List Expr} (h : RewritesAll es₁ es₂)
    (h' : RewritesAll es₂ es₃) : RewritesAll es₁ es₃ := by
  induction h generalizing es₃ with
  | nil => exact h'
  | cons h₁ _ ih =>
    cases h' with
    | cons h₂ hrest => exact .cons (.trans h₁ h₂) (ih hrest)

theorem rewrites_simplified (e : Expr) : e.Rewrites (e.simplified types constant) := by
  obtain ⟨he, -⟩ | ⟨v, hv, he⟩ := simplified_cases types constant e <;> rw [he]
  · exact .refl e
  · exact .compute _ hv

theorem rewrites_simplify (e : Expr) : e.Rewrites (e.simplify types constant) := by
  cases e with
  | literal | name => exact .refl _
  | member i target field r => exact .member target.rewrites_simplified
  | unary i op operand => exact .unary operand.rewrites_simplified
  | cast i operand => exact .cast operand.rewrites_simplified
  | pointer i target temp => exact .pointer target.rewrites_simplified
  | binary i op left right => exact .binary left.rewrites_simplified right.rewrites_simplified
  | call i f arguments c =>
    refine RewritesAll.call (List.forall₂_map_right_iff.2 ?_)
    exact List.forall₂_same.2 fun a _ => a.rewrites_simplified

end Expr

/-- A constant in another type is what the conversion comes to. -/
theorem TypeTable.cast_of_castLiteral {t : TypeTable} {v w : Literal} {source target : TypeId}
    (h : t.castLiteral v source target = some w) :
    (t.size? target).bind (v.cast (t.valueType target)) = some w := by
  obtain ⟨size, hsize, h⟩ := Option.bind_eq_some_iff.1 h
  rw [hsize, Option.bind_some]
  dsimp only at h
  split at h
  · split at h
    · exact h
    · cases h
  · split at h
    · exact h
    · cases h

namespace Checking

open ChannelBasic.Expr (Rewrites RewritesAll)

theorem ends_fold (e : Expr) (s : CheckState) :
    Ends (fold e) s fun v _ => v = e.fold s.types s.constantValue :=
  Ends.reads (Ends.value rfl)

theorem gives_simplify (e : Expr) : Gives e.Rewrites (simplify e) :=
  .reads fun _ => .value e.rewrites_simplify

theorem gives_coerce {e : Expr} {expected : TypeId} {rule : Rule} :
    Gives e.Rewrites (coerce e expected rule) := by
  intro s
  unfold coerce
  split
  · exact Ends.refused
  · refine Ends.reads ?_
    dsimp only
    split
    · exact Ends.value (.refl e)
    · refine (ends_fold e s).seq fun value _ hvalue => ?_
      split
      · split
        · exact Ends.refused_seq
        · split
          · exact Ends.value (.refl e)
          · exact Ends.value (.point _ e none)
      · split
        next folded hfolded =>
          -- What a constant is converted to is the value of the conversion.
          obtain ⟨v, rfl, hcast⟩ := Option.bind_eq_some_iff.1 hfolded
          have hfold : (Expr.cast ⟨e.location, some (s.types.base expected)⟩ e).fold s.types
              s.constantValue = some folded := by
            rw [Expr.fold, ← hvalue]
            exact TypeTable.cast_of_castLiteral hcast
          exact Ends.value (.trans (.convert _ e) (.compute _ hfold))
        · split
          · exact Ends.value (.convert _ e)
          · exact Ends.refused

theorem gives_stringify {place : Location} {e : Expr} {type : TypeId} :
    Gives (fun r => e.Rewrites r.1) (stringify place e type) := by
  unfold stringify
  refine .reads fun s => ?_
  dsimp only
  split
  · exact .value (.refl e)
  · split
    · exact .refused
    · exact .after fun target => gives_coerce.seq fun e' he => .value he

variable {left right : Expr} {place : Location} {op : BinaryOp} {lt rt : TypeId}

theorem gives_promote {common : TypeId} :
    Gives (fun r => left.Rewrites r.1 ∧ right.Rewrites r.2) (promote left right common) :=
  gives_coerce.seq fun _ hl => gives_coerce.seq fun _ hr => .value ⟨hl, hr⟩

/-- What an operator makes of its operands. -/
abbrev Operands (left right : Expr) (r : Expr × Expr × TypeId) : Prop :=
  left.Rewrites r.1 ∧ right.Rewrites r.2.1

theorem gives_stringSum : Gives (Operands left right) (stringSum place left right lt rt) := by
  unfold stringSum
  refine gives_stringify.seq fun l hl => gives_stringify.seq fun r hr => .reads fun s => ?_
  dsimp only
  split
  · exact .after fun _ => .value ⟨hl, hr⟩
  · exact .refused

theorem gives_arithmetic : Gives (Operands left right) (arithmetic place op left right lt rt) := by
  unfold arithmetic
  refine .reads fun s => ?_
  dsimp only
  split
  · split
    · exact .refused_seq
    · exact gives_promote.seq fun _ h => .value h
  · exact .refused

theorem gives_logic : Gives (Operands left right) (logic place op left right lt rt) := by
  unfold logic
  refine .reads fun s => ?_
  dsimp only
  split
  · exact .value ⟨.refl left, .refl right⟩
  · split
    · exact gives_promote.seq fun _ h => .value h
    · exact .refused

theorem gives_comparison : Gives (Operands left right) (comparison place op left right lt rt) := by
  unfold comparison
  refine .reads fun s => ?_
  dsimp only
  split
  · exact gives_promote.seq fun _ h => .value h
  · split
    · exact .value ⟨.refl left, .refl right⟩
    · exact .refused_seq

theorem gives_binary : Gives (Operands left right) (binary place op left right) := by
  unfold binary
  refine .after fun lt => .after fun rt => .reads fun s => ?_
  cases op with
  | add =>
    dsimp only
    split
    · exact gives_stringSum
    · exact gives_arithmetic
  | subtract | multiply | divide | mod => exact gives_arithmetic
  | shl | shr =>
    dsimp only
    split
    · exact .value ⟨.refl left, .refl right⟩
    · exact .refused
  | and | or | xor => exact gives_logic
  | less | lessEqual | greater | greaterEqual | equal | notEqual => exact gives_comparison

section Expressions

variable {sigs : Signatures} {constantType : ConstantType}

mutual

/-- **Checking only rewrites an expression.** -/
theorem gives_expr : (e : Expr) → Gives e.Rewrites (expr sigs constantType e)
  | .literal .. => .value (.refl _)
  | .name i name decl => by
    have found (type : Option TypeId) : Gives (Expr.name i name decl).Rewrites
        (match type with
        | some type => pure (.name { i with type := some type } name decl)
        | none => throw (Rule.cannotResolveSymbol.about i.location name) : Checking Expr) := by
      cases type
      · exact .refused
      · exact .value .name
    unfold expr
    dsimp only
    split
    · exact .after found
    · exact .value_seq (found none)
  | .member i target field _ => by
    unfold expr
    refine (gives_expr target).seq fun target' ht => .after fun _ => ?_
    exact (gives_simplify _).mono fun e' he => .trans (.member ht) he
  | .call i function arguments callee => by
    unfold expr
    split
    · exact .refused
    next f _ =>
      dsimp only
      split
      · exact .refused_seq
      next hlength =>
        have hlength : f.parameters.length = arguments.length := by simpa using hlength
        refine (gives_exprs f.parameters arguments hlength).seq fun arguments' ha => ?_
        exact (gives_simplify _).mono fun e' he => .trans ha.call he
  | .unary i op operand => by
    unfold expr
    refine (gives_expr operand).seq fun operand' ho => .after fun _ => ?_
    exact (gives_simplify _).mono fun e' he => .trans (.unary ho) he
  | .binary i op left right => by
    unfold expr
    refine (gives_expr left).seq fun left' hl => .after fun _ => ?_
    refine (gives_expr right).seq fun right' hr => gives_binary.seq fun r h => ?_
    refine (gives_simplify _).mono fun e' he => .trans ?_ he
    exact .binary (.trans hl h.1) (.trans hr h.2)
  | .cast i operand => gives_simplify _
  | .pointer i target temp => gives_simplify _

theorem gives_exprs : (ps : List TypeId) → (es : List Expr) → ps.length = es.length →
    Gives (RewritesAll es) (exprs sigs constantType ps es)
  | [], [], _ => .value .nil
  | p :: ps, e :: rest, h => by
    unfold exprs
    refine (gives_expr e).seq fun e₁ h₁ => .after fun _ => gives_coerce.seq fun e₂ h₂ => ?_
    refine (gives_exprs ps rest (Nat.succ.inj h)).seq fun rest' hr => ?_
    exact .value (.cons (.trans h₁ h₂) hr)

end

theorem gives_value (e : Expr) :
    Gives (fun r => e.Rewrites r.1) (value sigs constantType e) := by
  unfold value
  exact (gives_expr e).seq fun e' he => .after fun _ => .value he

theorem gives_target (e : Expr) :
    Gives (fun r => e.Rewrites r.1) (target sigs constantType e) := by
  unfold target
  refine (gives_value e).seq fun r hr => ?_
  dsimp only
  split
  · refine .reads fun s => ?_
    split
    · exact .refused_seq
    · exact .value hr
  · exact .refused_seq

theorem gives_assigned {expected : TypeId} {e : Expr} :
    Gives e.Rewrites (assigned sigs constantType expected e) := by
  unfold assigned
  exact (gives_value e).seq fun r hr => gives_coerce.mono fun e' he => hr.trans he

theorem gives_condition (e : Expr) : Gives e.Rewrites (condition sigs constantType e) := by
  unfold condition
  refine (gives_value e).seq fun r hr => .reads fun s => ?_
  dsimp only
  split
  · exact .value hr
  · exact .refused_seq

end Expressions

end Checking

/-! ## Statements -/

mutual

/-- The expressions that a statement is made of. -/
def Stmt.exprs : Stmt → List Expr
  | .var _ _ value => value.toList
  | .assign _ value target => [value, target]
  | .invoke _ call => [call]
  | .return _ value => value.toList
  | .choose _ branches => branches.exprs
  | .count _ counter start finish step body _ =>
    [counter, start, finish] ++ step.toList ++ Stmt.exprsAll body
  | .loop _ condition body => (condition.map (·.value)).toList ++ Stmt.exprsAll body

/-- The expressions that some statements are made of. -/
def Stmt.exprsAll : List Stmt → List Expr
  | [] => []
  | s :: rest => s.exprs ++ Stmt.exprsAll rest

/-- The expressions that the branches of an `IF` are made of. -/
def Branches.exprs : Branches → List Expr
  | .done => []
  | .otherwise body => Stmt.exprsAll body
  | .branch condition body rest => condition :: Stmt.exprsAll body ++ rest.exprs

end

@[simp] theorem Expr.nodesAll_append (as bs : List Expr) :
    nodesAll (as ++ bs) = nodesAll as ++ nodesAll bs := by
  induction as with
  | nil => rfl
  | cons a as ih => simp [nodesAll, ih]

theorem Expr.nodesAll_toList (value : Option Expr) : nodesAll value.toList = nodesOf value := by
  cases value with
  | none => rfl
  | some e => exact List.append_nil e.nodes

mutual

theorem Stmt.nodes_eq : (s : Stmt) → s.nodes = Expr.nodesAll s.exprs
  | .var _ _ value | .return _ value => (Expr.nodesAll_toList value).symm
  | .assign _ value target => by simp [Stmt.nodes, Stmt.exprs, Expr.nodesAll]
  | .invoke _ call => by simp [Stmt.nodes, Stmt.exprs, Expr.nodesAll]
  | .choose _ branches => branches.nodes_eq
  | .count _ counter start finish step body _ => by
    simp [Stmt.nodes, Stmt.exprs, Expr.nodesAll, Expr.nodesAll_toList, Stmt.nodesAll_eq body]
  | .loop _ condition body => by
    simp [Stmt.nodes, Stmt.exprs, Expr.nodesAll_toList, Stmt.nodesAll_eq body]

/-- What lies inside statements lies inside the expressions that they are made of. -/
theorem Stmt.nodesAll_eq : (l : List Stmt) → Stmt.nodesAll l = Expr.nodesAll (Stmt.exprsAll l)
  | [] => rfl
  | s :: rest => by simp [Stmt.nodesAll, Stmt.exprsAll, s.nodes_eq, Stmt.nodesAll_eq rest]

theorem Branches.nodes_eq : (b : Branches) → b.nodes = Expr.nodesAll b.exprs
  | .done => rfl
  | .otherwise body => Stmt.nodesAll_eq body
  | .branch condition body rest => by
    simp [Branches.nodes, Branches.exprs, Expr.nodesAll, Stmt.nodesAll_eq body, rest.nodes_eq]

end

namespace Checking

open ChannelBasic.Expr (Rewrites RewritesAll)

variable {sigs : Signatures} {constantType : ConstantType} {returns : Option TypeId}

theorem gives_var {place : Location} {index : Nat} {first : Option Expr} :
    Gives (fun first' => RewritesAll first.toList first'.toList)
      (var sigs constantType place index first) := by
  unfold var
  refine .reads fun s => ?_
  split
  · exact .refused
  next v hv =>
    dsimp only
    split
    · split
      · exact .refused_seq
      · split
        · exact gives_assigned.seq fun e he => .value (.cons he .nil)
        · exact .value .nil
    · exact (gives_value _).seq fun r hr => .reads fun s => .after fun _ => .value (.cons hr .nil)
    · exact .refused

mutual

theorem gives_stmt : (t : Stmt) →
    Gives (fun t' => RewritesAll t.exprs t'.exprs) (stmt sigs constantType returns t)
  | .var l index first => by
    unfold stmt
    exact gives_var.seq fun first' h => .value h
  | .assign l first place => by
    unfold stmt
    refine (gives_value first).seq fun r hr => .after fun _ => ?_
    refine (gives_target place).seq fun r' hr' => gives_coerce.seq fun e he => ?_
    exact .value (.cons (.trans hr he) (.cons hr' .nil))
  | .invoke l call => by
    unfold stmt
    exact (gives_expr call).seq fun e he => .value (.cons he .nil)
  | .return l result => by
    unfold stmt
    split
    · exact gives_assigned.seq fun e he => .value (.cons he .nil)
    · exact .refused
    · exact .refused
    · exact .value .nil
  | .choose l branches => by
    unfold stmt
    exact (gives_choices branches).seq fun b hb => .value hb
  | .count l counter start finish step body temps => by
    unfold stmt
    refine (gives_value start).seq fun r hr => .after fun _ => ?_
    refine (gives_target counter).seq fun r' hr' => .reads fun s => ?_
    dsimp only
    split
    · refine gives_coerce.seq fun start' hs => gives_assigned.seq fun finish' hf => ?_
      have rest (step' : Option Expr) (h : RewritesAll step.toList step'.toList) :
          Gives (fun t' => RewritesAll
              (Stmt.count l counter start finish step body temps).exprs t'.exprs) (do
            let step ← pure step'
            return .count l r'.1 start' finish' step (← stmts sigs constantType returns body) temps :
              Checking Stmt) := by
        refine .value_seq ((gives_stmts body).seq fun body' hb => .value ?_)
        exact List.rel_append (.cons hr' (.cons (.trans hr hs) (.cons hf h))) hb
      split
      · exact gives_assigned.seq fun e he => rest (some e) (.cons he .nil)
      · exact rest none .nil
    · exact .refused_seq
  | .loop l test body => by
    unfold stmt
    have rest (test' : Option Condition)
        (h : RewritesAll (test.map (·.value)).toList (test'.map (·.value)).toList) :
        Gives (fun t' => RewritesAll (Stmt.loop l test body).exprs t'.exprs) (do
          let test ← pure test'
          return .loop l test (← stmts sigs constantType returns body) : Checking Stmt) := by
      refine .value_seq ((gives_stmts body).seq fun body' hb => .value ?_)
      exact List.rel_append h hb
    dsimp only
    split
    · exact (gives_condition _).seq fun e he => rest (some _) (.cons he .nil)
    · exact rest none .nil

/-- **Checking only rewrites the expressions of statements.** -/
theorem gives_stmts : (l : List Stmt) →
    Gives (fun l' => RewritesAll (Stmt.exprsAll l) (Stmt.exprsAll l'))
      (stmts sigs constantType returns l)
  | [] => .value .nil
  | t :: rest => by
    unfold stmts
    refine (gives_stmt t).seq fun t' ht => (gives_stmts rest).seq fun rest' hr => ?_
    exact .value (List.rel_append ht hr)

theorem gives_choices : (b : Branches) →
    Gives (fun b' => RewritesAll b.exprs b'.exprs) (choices sigs constantType returns b)
  | .done => .value .nil
  | .otherwise body => by
    unfold choices
    exact (gives_stmts body).seq fun body' hb => .value hb
  | .branch test body rest => by
    unfold choices
    refine (gives_condition test).seq fun test' ht => (gives_stmts body).seq fun body' hb => ?_
    refine (gives_choices rest).seq fun rest' hr => ?_
    exact .value (.cons ht (List.rel_append hb hr))

end

end Checking

/-- The expressions that a function is made of. -/
def Function.exprs (f : Function) : List Expr :=
  match f.body with
  | .user body => Stmt.exprsAll body.statements
  | .native _ => []

/-- A function has a body if it had one, whose expressions are rewritten. -/
structure Function.Rewrites (f f' : Function) : Prop where
  isUser : f'.isUser = f.isUser
  exprs : Expr.RewritesAll f.exprs f'.exprs

theorem Function.Rewrites.refl (f : Function) : f.Rewrites f := ⟨rfl, List.forall₂_refl _⟩

theorem Function.Rewrites.trans {f₁ f₂ f₃ : Function} (h : f₁.Rewrites f₂) (h' : f₂.Rewrites f₃) :
    f₁.Rewrites f₃ :=
  ⟨h'.isUser.trans h.isUser, Expr.RewritesAll.trans h.exprs h'.exprs⟩

theorem Function.exprs_of_user? {f : Function} {body : UserBody} (h : f.user? = some body) :
    f.exprs = Stmt.exprsAll body.statements := by
  cases hb : f.body with
  | user b =>
    obtain rfl : b = body := by simpa [user?, hb] using h
    simp [exprs, hb]
  | native arguments => simp [user?, hb] at h

namespace Checking

theorem gives_checkFunction (p : Program) (constantType : ConstantType) (f : Function) :
    Gives f.Rewrites (checkFunction p constantType f) := by
  unfold checkFunction
  split
  next => exact .value (.refl f)
  next body hbody =>
    refine .after fun _ => .after fun _ => (gives_stmts body.statements).seq fun l hl => ?_
    refine .reads fun s => .value ⟨?_, ?_⟩
    · simp [Function.isUser, Function.user?, hbody]
    · simpa [Function.exprs, hbody] using hl

theorem gives_program (p : Program) :
    Gives (List.Forall₂ Function.Rewrites p.functions.toList) (program p) := by
  unfold program
  refine .after fun _ => .after fun _ => .after fun _ => .after fun _ => .after fun _ => .after
    fun _ => .after fun _ => ?_
  exact (Gives.all (gives_checkFunction p _) _).seq fun fs hfs => .after fun _ => .value hfs

/-! ## Constants -/

/-- The values of constants are rewritten. -/
def Recasts (s s' : CheckState) : Prop :=
  ∀ (k : Nat) (c' : Constant), s'.constants[k]? = some c' →
    ∃ c, s.constants[k]? = some c ∧ c.value.Rewrites c'.value

theorem Recasts.refl {s s' : CheckState} (h : s'.constants = s.constants) : Recasts s s' :=
  fun _ c hc => ⟨c, h ▸ hc, .refl _⟩

theorem Recasts.absorbing : Absorbing Recasts where
  refl s := .refl rfl
  trans h h' _ c₃ h₃ := by
    obtain ⟨c₂, h₂, hc₂⟩ := h' _ c₃ h₃
    obtain ⟨c₁, h₁, hc₁⟩ := h _ c₂ h₂
    exact ⟨c₁, h₁, hc₁.trans hc₂⟩
  enters h := by
    obtain ⟨t, rfl, -⟩ := h
    exact .refl rfl

/-- One constant gets a value that was rewritten from its own. -/
theorem Recasts.set {s s' : CheckState} (h : Recasts s s') {k : Nat} {c c' : Constant}
    (hc : s.constants[k]? = some c) (hc' : c.value.Rewrites c'.value) (openConstants : List Nat) :
    Recasts s { s' with constants := s'.constants.setIfInBounds k c', openConstants } := by
  intro i d hd
  by_cases hi : k = i
  · subst hi
    rw [Array.getElem?_setIfInBounds_self] at hd
    obtain ⟨_, rfl⟩ := Option.ite_some_none_eq_some.1 hd
    exact ⟨c, hc, hc'⟩
  · rw [Array.getElem?_setIfInBounds_ne hi] at hd
    exact h i d hd

section Definitions

variable {lengths : Array Expr} {constantType : ConstantType}

theorem recasts_resolveLength (hc : ∀ k, Keeps Recasts (constantType k)) (id : TypeId) :
    Keeps Recasts (resolveLength lengths constantType id) := by
  have hK := Recasts.absorbing
  have quiet {g : CheckState → CheckState} (h : ∀ s, (g s).constants = s.constants) :
      Keeps Recasts (modify g : Checking PUnit) := fun s => Ends.modifies (.refl (h s))
  unfold resolveLength
  refine .reads fun s => ?_
  split
  · split
    · exact .value hK.toPassage _
    · refine .reads fun s => ?_
      dsimp only
      split
      · exact .refused_seq
      · refine .seq hK.toPassage (quiet fun _ => rfl) fun _ => ?_
        refine .seq hK.toPassage (absorbs_value hK hc _) fun _ => ?_
        refine .seq hK.toPassage ((keeps_fold _).absorbed hK) fun _ => ?_
        exact .seq hK.toPassage (.lifts hK.toPassage _) fun _ => quiet fun _ => rfl
  · exact .value hK.toPassage _

theorem recasts_resolveWithin (hc : ∀ k, Keeps Recasts (constantType k)) (bound : Nat)
    (id : TypeId) : Keeps Recasts (resolveWithin lengths constantType bound id) := by
  induction bound generalizing id with
  | zero => exact .value Recasts.absorbing.toPassage _
  | succ bound ih =>
    unfold resolveWithin
    refine .reads fun s => ?_
    split
    · exact recasts_resolveLength hc _
    · exact ih _
    · exact ih _
    · exact .value Recasts.absorbing.toPassage _

theorem recasts_declaredValue (hc : ∀ k, Keeps Recasts (constantType k)) (declared : Option TypeId)
    (e : Expr) (actual : TypeId) :
    Keeps Recasts (declaredValue lengths constantType declared e actual) := by
  have hK := Recasts.absorbing
  unfold declaredValue
  split
  · exact .reads fun _ => .value hK.toPassage _
  · refine .seq hK.toPassage (.reads fun s => recasts_resolveWithin hc _ _) fun _ => ?_
    refine .reads fun s => ?_
    dsimp only
    split
    · exact .value hK.toPassage _
    · exact .seq hK.toPassage (keeps_coerce.absorbed hK) fun _ => .value hK.toPassage _

theorem gives_declaredValue (declared : Option TypeId) (e : Expr) (actual : TypeId) :
    Gives (fun r => e.Rewrites r.1) (declaredValue lengths constantType declared e actual) := by
  unfold declaredValue
  split
  · exact .reads fun _ => .value (.refl e)
  · refine .after fun _ => .reads fun s => ?_
    dsimp only
    split
    · exact .value (.refl e)
    · exact gives_coerce.seq fun e' he => .value he

/-- **Checking a constant only rewrites its value**, and the values of those that it needs. -/
theorem recasts_constantWithin (bound index : Nat) :
    Keeps Recasts (constantWithin lengths bound index) := by
  have hK := Recasts.absorbing
  induction bound generalizing index with
  | zero => exact .refused
  | succ bound ih =>
    intro s
    unfold constantWithin
    refine Ends.reads ?_
    split
    · exact Ends.refused
    next c hc =>
      dsimp only
      split
      · split
        · exact Ends.value (hK.refl s)
        · exact Ends.refused_seq
      · split
        · exact Ends.refused_seq
        · refine Ends.seq (Ends.modifies (Q := fun _ s₁ => Recasts s s₁) (.refl rfl))
            fun _ s₁ h₁ => ?_
          refine ((absorbs_value hK ih _ s₁).both (gives_value _ s₁)).seq fun r s₂ h₂ => ?_
          refine ((recasts_declaredValue ih _ _ _ s₂).both (gives_declaredValue _ _ _ s₂)).seq
            fun r' s₃ h₃ => ?_
          refine (((keeps_fold _).absorbed hK) s₃).seq fun folded s₄ h₄ => ?_
          cases folded with
          | none => exact Ends.refused
          | some v =>
            have hs₄ : Recasts s s₄ := hK.trans (hK.trans (hK.trans h₁ h₂.1) h₃.1) h₄
            refine Ends.seq (Ends.modifies (Q := fun _ s₅ => Recasts s s₅) ?_)
              fun _ s₅ h₅ => Ends.value h₅
            exact hs₄.set hc (h₂.2.trans h₃.2) _

end Definitions

/-- Once all constants have been asked for, they are all evaluated. -/
theorem settled_constants {lengths : Array Expr} (bound : Nat) (s : CheckState) :
    Ends ((List.range s.constants.size).forM fun k => do
      let _ ← constantWithin lengths bound k) s fun _ s' => s'.Settled := by
  refine (Ends.eachHas (I := fun _ => True) (K := Moves)
    (Q := fun k s' => ∃ v, s'.constantValue k = some v) Moves.passage.refl Moves.passage.trans
    (fun h hm => h.imp fun _ => hm.constantValue)
    (fun k _ s₁ _ => (ends_constantWithin bound k s₁).seq fun t s₂ h₂ => ?_) trivial).mono
    fun _ s' h k c hc => ?_
  · obtain ⟨hm, c, hc, -, hf⟩ := h₂
    obtain ⟨v, hv⟩ := Option.isSome_iff_exists.1 hf
    exact Ends.value ⟨trivial, hm, v, Option.bind_eq_some_iff.2 ⟨c, hc, hv⟩⟩
  · have hk : k < s.constants.size := by
      rw [← h.2.1.count]
      exact (Array.getElem?_eq_some_iff.1 hc).1
    obtain ⟨v, hv⟩ := h.2.2 k (List.mem_range.2 hk)
    rw [CheckState.constantValue, hc, Option.bind_some] at hv
    rw [hv]
    rfl

/-- Constants that are evaluated stay what they are. -/
theorem recasts_of_settled {s s' : CheckState} (hs : s.Settled) (h : Grows s s') : Recasts s s' := by
  intro k c' hc'
  have hk : k < s.constants.size := by
    rw [← h.count]
    exact (Array.getElem?_eq_some_iff.1 hc').1
  have hc := Array.getElem?_eq_getElem hk
  obtain rfl := Option.some.inj ((h.folded k _ hc (hs k _ hc)).symm.trans hc')
  exact ⟨_, hc, .refl _⟩

theorem recasts_program (p : Program) {fs : List Function} {s' : CheckState}
    (h : (program p).run ⟨p.types, p.constants, [], [], #[]⟩ = .ok (fs, s')) :
    Recasts ⟨p.types, p.constants, [], [], #[]⟩ s' := by
  have hK := Recasts.absorbing
  unfold program at h
  dsimp only at h
  obtain ⟨_, s₁, h₁, h⟩ := run_bind_eq_ok.1 h
  obtain ⟨_, s₂, h₂, h⟩ := run_bind_eq_ok.1 h
  obtain ⟨_, s₃, h₃, h⟩ := run_bind_eq_ok.1 h
  obtain ⟨_, s₄, h₄, h⟩ := run_bind_eq_ok.1 h
  obtain ⟨_, s₅, h₅, h⟩ := run_bind_eq_ok.1 h
  obtain ⟨_, s₆, h₆, h⟩ := run_bind_eq_ok.1 h
  obtain ⟨_, s₇, h₇, h⟩ := run_bind_eq_ok.1 h
  obtain ⟨fs', s₈, h₈, h⟩ := run_bind_eq_ok.1 h
  obtain ⟨_, s₉, h₉, h⟩ := run_bind_eq_ok.1 h
  obtain ⟨rfl, rfl⟩ := run_pure_eq_ok.1 h
  obtain rfl : s₈ = s₉ := Ends.each (I := (s₈ = ·)) (fun c _ s hs => hs ▸ ends_checkChannel c) rfl
    _ _ h₉
  have hr₁ := Keeps.each Resolves.passage
    (fun id _ => keeps_resolveLength (keeps_constantWithin _) id) _ _ _ h₁
  have hc₁ := Keeps.each hK.toPassage
    (fun id _ => recasts_resolveLength (recasts_constantWithin _) id) _ _ _ h₁
  have hcount : p.constants.size = s₁.constants.size := hr₁.count.symm
  have hsettled := settled_constants _ s₁ _ _ (hcount ▸ h₂)
  have hc₂ := Keeps.each hK.toPassage (fun k _ => .seq hK.toPassage
    (recasts_constantWithin _ k) fun _ => .value hK.toPassage _) _ _ _ h₂
  obtain ⟨rfl, -⟩ := ends_checks p.structs.toList
    (fun d s => ends_checks d.fields ends_checkField s) _ _ _ h₃
  obtain ⟨rfl, -⟩ := ends_checks p.modules
    (fun m s => ends_checks m.fields ends_checkField s) _ _ _ h₄
  obtain ⟨rfl, -⟩ := ends_checks p.functions.toList ends_checkNative _ _ _ h₅
  obtain ⟨rfl, -⟩ := ends_checks _ ends_checkReturns _ _ _ h₆
  obtain ⟨rfl, -⟩ := ends_checks _ ends_checkReturns _ _ _ h₇
  obtain ⟨he, -, -⟩ := Program.known_of_checked h₈
  exact hK.trans (hK.trans hc₁ hc₂) (recasts_of_settled hsettled he.toGrows)

end Checking

/-! ## Laying out -/

namespace Layout

open ChannelBasic.Expr (Rewrites RewritesAll)

variable {types : TypeTable} {constant : Nat → Option Literal}

mutual

theorem gives_expr : (e : Expr) → Gives e.Rewrites (expr types constant e)
  | .literal .. | .name .. => .value (.refl _)
  | .member i target field decl => by
    unfold expr
    exact (gives_expr target).seq fun target' ht => .value (.member ht)
  | .call i function arguments callee => by
    unfold expr
    exact (gives_exprs arguments).seq fun arguments' ha => .value ha.call
  | .unary i op operand => by
    unfold expr
    exact (gives_expr operand).seq fun operand' ho => .value (.unary ho)
  | .binary i op left right => by
    unfold expr
    refine (gives_expr left).seq fun left' hl => (gives_expr right).seq fun right' hr => ?_
    exact .value (.binary hl hr)
  | .cast i operand => by
    unfold expr
    exact (gives_expr operand).seq fun operand' ho => .value (.cast ho)
  | .pointer i target temp => by
    unfold expr
    have rest (temp' : Option Int) : Gives (Expr.pointer i target temp).Rewrites (do
        let temp ← pure temp'
        return .pointer i (← expr types constant target) temp : FrameLayout Expr) :=
      .value_seq ((gives_expr target).seq fun target' ht => .value (.pointer ht))
    dsimp only
    split
    · exact .after fun size => .after fun offset => rest (some offset)
    · exact rest none

theorem gives_exprs : (es : List Expr) → Gives (RewritesAll es) (exprs types constant es)
  | [] => .value .nil
  | e :: rest => by
    unfold exprs
    refine (gives_expr e).seq fun e' he => (gives_exprs rest).seq fun rest' hr => ?_
    exact .value (.cons he hr)

end

section Statements

variable {R : Expr → Expr → Prop}

theorem gives_expr? (hR : ∀ e, Gives (R e) (expr types constant e)) (e : Option Expr) :
    Gives (fun e' => List.Forall₂ R e.toList e'.toList) (expr? types constant e) := by
  unfold expr?
  split
  · exact (hR _).seq fun e' he => .value (.cons he .nil)
  · exact .value .nil

mutual

theorem gives_stmt (hR : ∀ e, Gives (R e) (expr types constant e)) : (t : Stmt) →
    Gives (fun t' => List.Forall₂ R t.exprs t'.exprs) (stmt types constant t)
  | .var l index value => by
    unfold stmt
    exact .after fun _ => (gives_expr? hR value).seq fun value' hv => .value hv
  | .assign l value target => by
    unfold stmt
    refine (hR value).seq fun value' hv => (hR target).seq fun target' ht => ?_
    exact .value (.cons hv (.cons ht .nil))
  | .invoke l call => by
    unfold stmt
    exact (hR call).seq fun call' hc => .value (.cons hc .nil)
  | .return l value => by
    unfold stmt
    exact (gives_expr? hR value).seq fun value' hv => .value hv
  | .choose l branches => by
    unfold stmt
    exact (gives_choices hR branches).seq fun b hb => .value hb
  | .count l counter start finish step body temps => by
    unfold stmt
    refine .after fun places => (hR counter).seq fun counter' hc => ?_
    refine (hR start).seq fun start' hs => (hR finish).seq fun finish' hf => ?_
    refine (gives_expr? hR step).seq fun step' hstep => (gives_stmts hR body).seq fun body' hb => ?_
    exact .value (List.rel_append (.cons hc (.cons hs (.cons hf hstep))) hb)
  | .loop l condition body => by
    unfold stmt
    have rest (condition' : Option Condition)
        (h : List.Forall₂ R (condition.map (·.value)).toList (condition'.map (·.value)).toList) :
        Gives (fun t' => List.Forall₂ R (Stmt.loop l condition body).exprs t'.exprs) (do
          let condition ← pure condition'
          return .loop l condition (← stmts types constant body) : FrameLayout Stmt) := by
      refine .value_seq ((gives_stmts hR body).seq fun body' hb => .value ?_)
      exact List.rel_append h hb
    dsimp only
    split
    · exact (hR _).seq fun e he => rest (some _) (.cons he .nil)
    · exact rest none .nil

/-- **Laying out statements is laying out the expressions that they are made of.** -/
theorem gives_stmts (hR : ∀ e, Gives (R e) (expr types constant e)) :
    (l : List Stmt) →
    Gives (fun l' => List.Forall₂ R (Stmt.exprsAll l) (Stmt.exprsAll l')) (stmts types constant l)
  | [] => .value .nil
  | t :: rest => by
    unfold stmts
    refine (gives_stmt hR t).seq fun t' ht => (gives_stmts hR rest).seq fun rest' hr => ?_
    exact .value (List.rel_append ht hr)

theorem gives_choices (hR : ∀ e, Gives (R e) (expr types constant e)) :
    (b : Branches) →
    Gives (fun b' => List.Forall₂ R b.exprs b'.exprs) (choices types constant b)
  | .done => .value .nil
  | .otherwise body => by
    unfold choices
    exact (gives_stmts hR body).seq fun body' hb => .value hb
  | .branch condition body rest => by
    unfold choices
    refine (hR condition).seq fun condition' hc => (gives_stmts hR body).seq fun body' hb => ?_
    refine (gives_choices hR rest).seq fun rest' hr => ?_
    exact .value (.cons hc (List.rel_append hb hr))

end

/-- **The expressions of a function are laid out one by one**, and it has a body if it had one. -/
theorem exprs_function (hR : ∀ e, Gives (R e) (expr types constant e))
    {f f' : Function} (h : function types constant f = .ok f') :
    f'.isUser = f.isUser ∧ List.Forall₂ R f.exprs f'.exprs := by
  unfold function at h
  split at h
  next hbody =>
    obtain rfl := Except.ok.inj h
    exact ⟨rfl, by simp [Function.exprs, hbody]⟩
  next body hbody =>
    obtain ⟨⟨arguments, result⟩, -, h⟩ := Checked.bind_eq_ok.1 h
    obtain ⟨⟨statements, s'⟩, hrun, h⟩ := Checked.bind_eq_ok.1 h
    obtain rfl := Checked.pure_eq_ok.1 h
    obtain ⟨_, s₁, -, hstmts⟩ := run_bind_eq_ok.1 hrun
    have hexprs := gives_stmts hR body.statements s₁ _ _ hstmts
    exact ⟨by simp [Function.isUser, Function.user?, hbody],
      by simpa [Function.exprs, hbody] using hexprs⟩

end Statements

theorem rewrites_function {f f' : Function} (h : function types constant f = .ok f') :
    f.Rewrites f' := by
  obtain ⟨huser, hexprs⟩ := exprs_function gives_expr h
  exact ⟨huser, hexprs⟩

end Layout

/-! ## Programs -/

namespace Program

variable {p p₂ q : Program} {e : Expr}

/-- The expressions that a program is made of: those of its functions and the values of its
constants. -/
def exprs (p : Program) : List Expr :=
  p.functions.toList.flatMap Function.exprs ++ p.constants.toList.map (·.value)

theorem mem_exprs : e ∈ p.exprs ↔
    (∃ f ∈ p.functions.toList, e ∈ f.exprs) ∨ ∃ c ∈ p.constants.toList, c.value = e := by
  rw [exprs, List.mem_append, List.mem_flatMap, List.mem_map]

/-- What occurs in a program lies inside the expressions that it is made of. -/
theorem node_iff : p.Node e ↔ ∃ x ∈ p.exprs, e ∈ x.nodes := by
  constructor
  · rintro (@⟨n, f, body, hf, hb, he⟩ | @⟨k, c, hc, he⟩)
    · rw [Stmt.nodesAll_eq, ← Function.exprs_of_user? hb, Expr.mem_nodesAll] at he
      obtain ⟨x, hx, he⟩ := he
      exact ⟨x, mem_exprs.2 (.inl ⟨f, List.mem_of_getElem? (by simpa using hf), hx⟩), he⟩
    · exact ⟨c.value, mem_exprs.2 (.inr ⟨c, List.mem_of_getElem? (by simpa using hc), rfl⟩), he⟩
  · rintro ⟨x, hx, he⟩
    obtain ⟨f, hf, hx⟩ | ⟨c, hc, rfl⟩ := mem_exprs.1 hx
    · obtain ⟨n, hn⟩ := List.mem_iff_getElem?.1 hf
      cases hb : f.user? with
      | none =>
        unfold Function.user? at hb
        unfold Function.exprs at hx
        split at hx
        next body hbody => simp [hbody] at hb
        next => cases hx
      | some body =>
        refine .function (n := n) (by simpa using hn) hb ?_
        rw [Stmt.nodesAll_eq, ← Function.exprs_of_user? hb]
        exact Expr.mem_nodesAll.2 ⟨x, hx, he⟩
    · obtain ⟨k, hk⟩ := List.mem_iff_getElem?.1 hc
      exact .constant (k := k) (by simpa using hk) he

/-- The expressions of a program are rewritten. -/
structure Rewrites (p q : Program) : Prop where
  functions : List.Forall₂ Function.Rewrites p.functions.toList q.functions.toList
  constants : ∀ (k : Nat) (c' : Constant), q.constants[k]? = some c' →
    ∃ c, p.constants[k]? = some c ∧ c.value.Rewrites c'.value

/-- **Checking and laying out only rewrite the expressions of a program.** -/
theorem rewrites_of_layout (h₂ : p.checkTypes = .ok p₂) (h : p₂.layout = .ok q) :
    p.Rewrites q := by
  obtain ⟨⟨fs, s⟩, hrun, h₂⟩ := Checked.bind_eq_ok.1 h₂
  obtain rfl := Checked.pure_eq_ok.1 h₂
  have hlays := laysOut_of_layout h
  refine ⟨?_, hlays.constants ▸ Checking.recasts_program p hrun⟩
  have hchecked := Checking.gives_program p _ _ _ hrun
  refine List.forall₂_iff_get.2 ⟨?_, fun i hi hi' => ?_⟩
  · simpa using hchecked.length_eq.trans hlays.functions.length_eq
  · have hi₂ : i < fs.length := hchecked.length_eq ▸ hi
    have hf' := Layout.rewrites_function (hlays.functions.get (i := i) (by simpa using hi₂) hi')
    exact (hchecked.get hi hi₂).trans hf'

/-- Every expression that a rewritten program is made of comes from one of the program. -/
theorem Rewrites.exists_expr (h : p.Rewrites q) (he : e ∈ q.exprs) :
    ∃ x ∈ p.exprs, x.Rewrites e := by
  obtain ⟨f', hf', he⟩ | ⟨c', hc', rfl⟩ := mem_exprs.1 he
  · obtain ⟨n, hn⟩ := List.mem_iff_getElem?.1 hf'
    obtain ⟨f, hf, hff'⟩ := forall₂_right h.functions hn
    obtain ⟨i, hi⟩ := List.mem_iff_getElem?.1 he
    obtain ⟨x, hx, hrewrites⟩ := forall₂_right hff'.exprs hi
    exact ⟨x, mem_exprs.2 (.inl ⟨f, List.mem_of_getElem? hf, List.mem_of_getElem? hx⟩), hrewrites⟩
  · obtain ⟨k, hk⟩ := List.mem_iff_getElem?.1 hc'
    obtain ⟨c, hc, hrewrites⟩ := h.constants k c' (by simpa using hk)
    have hc : c ∈ p.constants.toList := List.mem_of_getElem? (by simpa using hc)
    exact ⟨c.value, mem_exprs.2 (.inr ⟨c, hc, rfl⟩), hrewrites⟩

end Program

end ChannelBasic
