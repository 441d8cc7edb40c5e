import ChannelBasic.Proofs.Typing.Nodes

/-!
# Proofs/Typing/Sizes — values have the sizes of the places they go to

Where a value is put into a place, the two types may differ in their names and in CONST, but not in
what the machine sees of them: they are `Alike`.  All structured types of an analysed program have
sizes, so **every value in it has a known size** and the one that its surroundings expect
(`Program.sizeConsistent_of_analyse`), however deep the statement or the expression lies.
-/

namespace ChannelBasic

/-- Types that instructions name alike, and whose values take the same bytes. -/
structure TypeTable.Alike (t : TypeTable) (a b : TypeId) : Prop where
  kind : t.valueType a = t.valueType b
  size : ∃ n, t.size? a = some n ∧ t.size? b = some n

/-- An expression whose value can be put where one of a type is expected. -/
def Expr.Suits (t : TypeTable) (e : Expr) (expected : Option TypeId) : Prop :=
  ∃ a b, e.type? = some a ∧ expected = some b ∧ t.Alike a b

/-- An expression of type BOOLEAN. -/
def Expr.IsCondition (t : TypeTable) (e : Expr) : Prop :=
  ∃ a, e.type? = some a ∧ t.valueType a = .boolean ∧ t.size? a = some 1

/-- What an operator asks of its operands: of equal kind and size, unless it is a shift, or its
operands are strings; a sum of strings has room for both. -/
structure BinaryOp.Suits (t : TypeTable) (op : BinaryOp) (a b c : TypeId) : Prop where
  shift : op = .shl ∨ op = .shr → t.isIntegral a = true ∧ t.isIntegral b = true
  kind : op ≠ .shl → op ≠ .shr → t.valueType a = t.valueType b
  alike : op ≠ .shl → op ≠ .shr → t.isString a = false → t.Alike a b
  join : op = .add → t.isString a = true ∨ t.isString b = true →
    ∃ n m, t.capacity? a = some n ∧ t.capacity? b = some m ∧ t.capacity? c = some (n + m)

/-! ## Statements -/

/-- The conditions of the branches of an `IF`. -/
def Branches.conditions : Branches → List Expr
  | .done | .otherwise _ => []
  | .branch condition _ rest => condition :: rest.conditions

mutual

/-- The statement and all statements inside it. -/
def Stmt.within : Stmt → List Stmt
  | .choose l branches => .choose l branches :: branches.within
  | .count l counter start finish step body temps =>
    .count l counter start finish step body temps :: Stmt.withinAll body
  | .loop l condition body => .loop l condition body :: Stmt.withinAll body
  | s => [s]

/-- All statements inside some statements, and they themselves. -/
def Stmt.withinAll : List Stmt → List Stmt
  | [] => []
  | s :: rest => s.within ++ Stmt.withinAll rest

/-- All statements inside the branches of an `IF`. -/
def Branches.within : Branches → List Stmt
  | .done => []
  | .otherwise body => Stmt.withinAll body
  | .branch _ body rest => Stmt.withinAll body ++ rest.within

end

/-- Values of the statement suit the places they go to, and its conditions are BOOLEAN. -/
def Stmt.SizeConsistent (t : TypeTable) (f : Function) (body : UserBody) : Stmt → Prop
  | .var _ index (some e) => e.Suits t ((body.locals[index]?).bind (·.type))
  | .assign _ value target => value.Suits t target.type?
  | .return _ (some e) => e.Suits t f.returns
  | .choose _ branches => ∀ e ∈ branches.conditions, e.IsCondition t
  | .count _ counter start finish step _ _ =>
    start.Suits t counter.type? ∧ finish.Suits t counter.type? ∧
      ∀ e, step = some e → e.Suits t counter.type?
  | .loop _ condition _ => ∀ c, condition = some c → c.value.IsCondition t
  | _ => True

/-- Arguments suit the parameters of the function called, and operands their operator. -/
def Expr.SizeConsistent (p : Program) : Expr → Prop
  | .call _ _ arguments callee => ∃ n f, callee = some n ∧ p.functions[n]? = some f ∧
      List.Forall₂ (fun e parameter => e.Suits p.types (some parameter)) arguments f.parameters
  | .binary i op left right => ∃ a b c, left.type? = some a ∧ right.type? = some b ∧
      i.type = some c ∧ op.Suits p.types a b c
  | _ => True

/-- A call of a function that has no result. -/
def Expr.IsProcedure (p : Program) (e : Expr) : Prop :=
  ∃ i name arguments n f, e = .call i name arguments (some n) ∧ p.functions[n]? = some f ∧
    f.returns = none

/-- **Values have the sizes of the places they go to**, and all of them have one. -/
structure Program.SizeConsistent (p : Program) : Prop where
  statements : ∀ (n : Nat) (f : Function), p.functions[n]? = some f → ∀ body,
    f.user? = some body → ∀ s ∈ Stmt.withinAll body.statements, s.SizeConsistent p.types f body
  nodes : ∀ e, p.Node e → e.SizeConsistent p
  known : ∀ e, p.Node e → (∃ t n, e.type? = some t ∧ p.types.size? t = some n) ∨ e.IsProcedure p

section Within

variable {Γ : Env} {returns : Option TypeId} {x : Stmt}

mutual

theorem Stmt.Typed.within : (s : Stmt) → s.Typed Γ returns → x ∈ s.within → x.Typed Γ returns
  | .choose l branches, h, hx => by
    obtain rfl | hx := List.mem_cons.1 hx
    · exact h
    · exact Branches.Typed.within branches h hx
  | .count l counter start finish step body temps, h, hx => by
    obtain rfl | hx := List.mem_cons.1 hx
    · exact h
    · exact Stmt.TypedAll.within body h.2 hx
  | .loop l condition body, h, hx => by
    obtain rfl | hx := List.mem_cons.1 hx
    · exact h
    · exact Stmt.TypedAll.within body h.2 hx
  | .var .., h, hx | .assign .., h, hx | .invoke .., h, hx | .return .., h, hx => by
    obtain rfl := List.mem_singleton.1 hx
    exact h

/-- Statements inside statements with the right types have the right types. -/
theorem Stmt.TypedAll.within : (l : List Stmt) → Stmt.TypedAll Γ returns l →
    x ∈ Stmt.withinAll l → x.Typed Γ returns
  | [], _, hx => nomatch hx
  | s :: rest, h, hx => by
    obtain hx | hx := List.mem_append.1 hx
    · exact Stmt.Typed.within s h.1 hx
    · exact Stmt.TypedAll.within rest h.2 hx

theorem Branches.Typed.within : (b : Branches) → b.Typed Γ returns → x ∈ b.within →
    x.Typed Γ returns
  | .done, _, hx => nomatch hx
  | .otherwise body, h, hx => Stmt.TypedAll.within body h hx
  | .branch condition body rest, h, hx => by
    obtain hx | hx := List.mem_append.1 hx
    · exact Stmt.TypedAll.within body h.2.1 hx
    · exact Branches.Typed.within rest h.2.2 hx

end

theorem Branches.Typed.condition {b : Branches} (h : b.Typed Γ returns) {e : Expr}
    (he : e ∈ b.conditions) : Γ.shape e.info = some (.scalar .boolean) := by
  cases b with
  | done => nomatch he
  | otherwise body => nomatch he
  | branch condition body rest =>
    obtain rfl | he := List.mem_cons.1 he
    · exact h.1.2
    · exact Branches.Typed.condition h.2.2 he

end Within

/-- Only a call can be without a type. -/
theorem Expr.Typed.call_of_untyped {Γ : Env} {e : Expr} (h : e.Typed Γ) (ht : e.type? = none) :
    ∃ i name arguments n parameters, e = .call i name arguments (some n) ∧
      Γ.function n = some (parameters, none) := by
  have typed {σ : Shape} (hσ : Γ.shape e.info = some σ) : False := by
    obtain ⟨t, hi, -⟩ := Env.shape_eq_some.1 hσ
    cases ht.symm.trans hi
  cases e with
  | literal i v =>
    obtain ⟨σ, hσ, -⟩ := h
    exact (typed hσ).elim
  | name i n decl =>
    match decl, h with
    | some (.constant _), ⟨σ, _, hσ, _⟩ => exact (typed hσ).elim
    | some (.localVar _), ⟨_, σ, hσ⟩ | some (.argument _), ⟨_, σ, hσ⟩
    | some (.dataField _), ⟨_, σ, hσ⟩ => exact (typed hσ).elim
  | member i target field decl =>
    cases decl with
    | none => exact h.elim
    | some r =>
      obtain ⟨-, -, -, _, σ, -, -, hσ⟩ := h
      exact (typed hσ).elim
  | call i name arguments callee =>
    cases callee with
    | none => exact h.elim
    | some n =>
      obtain ⟨⟨parameters, hn, -⟩, -⟩ := h
      exact ⟨i, name, arguments, n, parameters, rfl, by rw [hn, show i.type = none from ht]⟩
  | unary i op operand =>
    obtain ⟨-, σ, -, -, hσ⟩ := h
    exact (typed hσ).elim
  | binary i op left right =>
    obtain ⟨-, -, _, _, σ, -, -, -, hσ⟩ := h
    exact (typed hσ).elim
  | cast i operand =>
    obtain ⟨-, -, _, σ, -, hσ, -⟩ := h
    exact (typed hσ).elim
  | pointer i target temp => exact (typed h.2.1).elim

/-! ## Sizes -/

/-- What an environment says about types and functions is true of a program. -/
def Env.Describes (Γ : Env) (p : Program) : Prop :=
  Γ.types = p.types ∧ ∀ n x, Γ.function n = some x →
    ∃ f, p.functions[n]? = some f ∧ x = (f.parameters, f.returns)

namespace Program.Analysed

variable {p : Program} {Γ : Env} {a b c : TypeId} {σ τ : Shape}

/-- **All types with a shape have a size**, those of the structured types being known. -/
theorem exists_size (h : p.Analysed) (ha : p.types.shape? a = some σ) :
    ∃ n, p.types.size? a = some n ∧ σ.size? p.types.structSizes = some n := by
  have hsize : ∃ n, σ.size? p.types.structSizes = some n := by
    cases σ with
    | struct k => exact Option.isSome_iff_exists.1 (h.laidOut.sized k (h.numbers.lt_of_shape? ha))
    | _ => exact ⟨_, rfl⟩
  obtain ⟨n, hn⟩ := hsize
  refine ⟨n, ?_, hn⟩
  rw [TypeTable.size?_eq, ha]
  exact hn

theorem alike (h : p.Analysed) (ha : p.types.shape? a = some σ) (hb : p.types.shape? b = some σ) :
    p.types.Alike a b := by
  obtain ⟨n, hn, hσ⟩ := h.exists_size ha
  refine ⟨by rw [TypeTable.valueType_eq ha, TypeTable.valueType_eq hb], n, hn, ?_⟩
  rw [TypeTable.size?_eq, hb]
  exact hσ

theorem suits (h : p.Analysed) (hΓ : Γ.types = p.types) {e : Expr} {expected : Option TypeId}
    (he : Γ.shape e.info = some σ) (hb : expected = some b) (hσ : Γ.types.shape? b = some σ) :
    e.Suits p.types expected := by
  obtain ⟨a, ha, hσa⟩ := Env.shape_eq_some.1 he
  rw [hΓ] at hσ hσa
  exact ⟨a, b, ha, hb, h.alike hσa hσ⟩

/-- Values of one shape suit each other. -/
theorem suits_of_shape (h : p.Analysed) (hΓ : Γ.types = p.types) {e target : Expr}
    (he : Γ.shape e.info = some σ) (ht : Γ.shape target.info = some σ) :
    e.Suits p.types target.type? := by
  obtain ⟨b, hb, hσ⟩ := Env.shape_eq_some.1 ht
  exact h.suits hΓ he hb hσ

theorem isCondition (h : p.Analysed) (hΓ : Γ.types = p.types) {e : Expr}
    (he : Γ.shape e.info = some (.scalar .boolean)) : e.IsCondition p.types := by
  obtain ⟨a, ha, hσ⟩ := Env.shape_eq_some.1 he
  rw [hΓ] at hσ
  obtain ⟨n, hn, hσn⟩ := h.exists_size hσ
  obtain rfl : 1 = n := Option.some.inj hσn
  exact ⟨a, ha, TypeTable.valueType_eq hσ, hn⟩

/-- Operands of the shapes that an operator takes suit it. -/
theorem suits_operator (h : p.Analysed) {op : BinaryOp} {υ : Shape}
    (ha : p.types.shape? a = some σ) (hb : p.types.shape? b = some τ)
    (hc : p.types.shape? c = some υ) (hop : op.Takes σ τ υ) : op.Suits p.types a b c := by
  have scalar {x : TypeId} {s : Scalar} (hx : p.types.shape? x = some (.scalar s)) :
      ¬ p.types.isString x = true := by
    intro hs
    obtain ⟨n, hn⟩ := TypeTable.shape?_of_isString hs hx
    cases hn
  have string {x : TypeId} {n : Nat} (hx : p.types.shape? x = some (.string n)) :
      p.types.isString x = true := TypeTable.isString_of_shape? hx
  have same {s : Scalar} (ha : p.types.shape? a = some (.scalar s))
      (hb : p.types.shape? b = some (.scalar s)) (hshl : op ≠ .shl) (hshr : op ≠ .shr) :
      op.Suits p.types a b c :=
    ⟨fun hs => (hs.elim hshl hshr).elim, fun _ _ => (h.alike ha hb).kind,
      fun _ _ _ => h.alike ha hb, fun _ hs => (hs.elim (scalar ha) (scalar hb)).elim⟩
  cases hop with
  | arithmetic hop => exact same ha hb (by rintro rfl; simp at hop) (by rintro rfl; simp at hop)
  | multiply => exact same ha hb (by simp) (by simp)
  | mod => exact same ha hb (by simp) (by simp)
  | logic hop => exact same ha hb (by rintro rfl; simp at hop) (by rintro rfl; simp at hop)
  | numbers hop => exact same ha hb (by rintro rfl; cases hop) (by rintro rfl; cases hop)
  | booleans hop => exact same ha hb (by rintro rfl; simp at hop) (by rintro rfl; simp at hop)
  | shift hop hs hs' =>
    refine ⟨fun _ => ⟨?_, ?_⟩, fun h₁ h₂ => (hop.elim h₁ h₂).elim,
      fun h₁ h₂ => (hop.elim h₁ h₂).elim, fun hadd => ?_⟩
    · exact TypeTable.isIntegral_iff.2 ⟨_, ha, hs⟩
    · exact TypeTable.isIntegral_iff.2 ⟨_, hb, hs'⟩
    · subst hadd
      simp at hop
  | @join n m =>
    refine ⟨by simp, fun _ _ => ?_, fun _ _ hs => ?_, fun _ _ => ⟨n, m, ?_, ?_, ?_⟩⟩
    · rw [TypeTable.valueType_eq ha, TypeTable.valueType_eq hb]
      rfl
    · rw [string ha] at hs
      cases hs
    · exact TypeTable.capacity?_iff.2 ha
    · exact TypeTable.capacity?_iff.2 hb
    · exact TypeTable.capacity?_iff.2 hc
  | strings hop =>
    refine ⟨?_, fun _ _ => ?_, fun _ _ hs => ?_, ?_⟩
    · rintro (rfl | rfl) <;> cases hop
    · rw [TypeTable.valueType_eq ha, TypeTable.valueType_eq hb]
      rfl
    · rw [string ha] at hs
      cases hs
    · rintro rfl
      cases hop

/-- A statement with the right types is consistent in its sizes. -/
theorem stmt (h : p.Analysed) {f : Function} {body : UserBody} {s : Stmt}
    (hs : s.Typed (Env.ofBody p.types p.constantValue p f.owner body (p.ownerFields f.owner))
      f.returns) : s.SizeConsistent p.types f body := by
  cases s with
  | var l index value =>
    cases value with
    | none => trivial
    | some e =>
      obtain ⟨-, t, σ, ht, hσ, he⟩ := hs
      exact h.suits rfl he ht hσ
  | assign l value target =>
    obtain ⟨-, -, -, σ, hv, ht⟩ := hs
    exact h.suits_of_shape rfl hv ht
  | invoke l call => trivial
  | «return» l value =>
    cases value with
    | none => trivial
    | some e =>
      obtain ⟨-, t, σ, ht, hσ, he⟩ := hs
      exact h.suits rfl he ht hσ
  | choose l branches => exact fun e he => h.isCondition rfl (Branches.Typed.condition hs he)
  | count l counter start finish step body temps =>
    obtain ⟨⟨-, -, -, -, σ, -, hc, hstart, hfinish, hstep⟩, -⟩ := hs
    exact ⟨h.suits_of_shape rfl hstart hc, h.suits_of_shape rfl hfinish hc,
      fun e he => h.suits_of_shape rfl (hstep e he).2 hc⟩
  | loop l condition body => exact fun c hc => h.isCondition rfl (hs.1 c hc).2

/-- An expression with the right types is consistent in its sizes. -/
theorem expr (h : p.Analysed) (hΓ : Γ.Describes p) {e : Expr} (he : e.Typed Γ) :
    e.SizeConsistent p := by
  cases e with
  | call i name arguments callee =>
    cases callee with
    | none => exact he.elim
    | some n =>
      obtain ⟨⟨parameters, hn, hall⟩, -⟩ := he
      obtain ⟨f, hf, heq⟩ := hΓ.2 n _ hn
      obtain rfl : parameters = f.parameters := congrArg Prod.fst heq
      refine ⟨n, f, rfl, hf, (List.Forall₂.flip (Expr.typedAll_iff.1 hall)).imp ?_⟩
      rintro e parameter ⟨-, σ, hσ, heσ⟩
      exact h.suits hΓ.1 heσ rfl hσ
  | binary i op left right =>
    obtain ⟨-, -, σ, τ, υ, hl, hr, hop, hi⟩ := he
    obtain ⟨a, ha, hσ⟩ := Env.shape_eq_some.1 hl
    obtain ⟨b, hb, hτ⟩ := Env.shape_eq_some.1 hr
    obtain ⟨c, hc, hυ⟩ := Env.shape_eq_some.1 hi
    rw [hΓ.1] at hσ hτ hυ
    exact ⟨a, b, c, ha, hb, hc, h.suits_operator hσ hτ hυ hop⟩
  | _ => trivial

/-- An expression with the right types has a size, unless it is a call without result. -/
theorem exists_size_or_procedure (h : p.Analysed) (hΓ : Γ.Describes p) {e : Expr} (he : e.Typed Γ) :
    (∃ t n, e.type? = some t ∧ p.types.size? t = some n) ∨ e.IsProcedure p := by
  cases ht : e.type? with
  | some t =>
    obtain ⟨σ, hσ⟩ := he.exists_shape ht
    obtain ⟨n, hn, -⟩ := h.exists_size (hΓ.1 ▸ hσ)
    exact .inl ⟨t, n, rfl, hn⟩
  | none =>
    obtain ⟨i, name, arguments, n, parameters, rfl, hn⟩ := he.call_of_untyped ht
    obtain ⟨f, hf, heq⟩ := hΓ.2 n _ hn
    exact .inr ⟨i, name, arguments, n, f, rfl, hf, (congrArg Prod.snd heq).symm⟩

/-- Every expression of an analysed program has the right types in an environment that describes
the program. -/
theorem exists_env (h : p.Analysed) {e : Expr} (he : p.Node e) :
    ∃ Γ : Env, Γ.Describes p ∧ e.Typed Γ := by
  cases he with
  | @function n f body hf hb he =>
    refine ⟨_, ⟨rfl, fun n x hx => ?_⟩, Stmt.TypedAll.node _ (h.typed n f hf body hb) he⟩
    dsimp only [Env.ofBody] at hx
    split at hx
    · obtain ⟨g, hg, rfl⟩ := Option.map_eq_some_iff.1 hx
      exact ⟨g, hg, rfl⟩
    · cases hx
  | @constant k c hc he =>
    exact ⟨_, ⟨rfl, fun _ _ hx => by cases hx⟩, (h.constants k c hc).node he⟩

/-- An analysed program is consistent in its sizes. -/
theorem sizeConsistent (h : p.Analysed) : p.SizeConsistent where
  statements n f hf body hb s hs := h.stmt (Stmt.TypedAll.within _ (h.typed n f hf body hb) hs)
  nodes e he := by
    obtain ⟨Γ, hΓ, ht⟩ := h.exists_env he
    exact h.expr hΓ ht
  known e he := by
    obtain ⟨Γ, hΓ, ht⟩ := h.exists_env he
    exact h.exists_size_or_procedure hΓ ht

end Program.Analysed

/-- A module with a loop that joins strings and calls a function, with values that are cast,
evaluated beforehand and passed by address. -/
def Raw.Program.joining : Raw.Program :=
  let place : Location := default
  let integer (n : Int64) : Raw.Expr := .integer place n
  let name (n : String) : Raw.Expr := .name place n
  ⟨[], [⟨place, "PAIR", [⟨place, "A", .scalar .long⟩, ⟨place, "B", .stringOf (integer 3)⟩]⟩], [],
    [⟨place, "M", "NODE", [], [⟨place, [], [
      ⟨place, "GREET", some (.stringOf (integer 9)), .user
        [⟨place, "P", .pointer (.named place "PAIR")⟩, ⟨place, "N", .scalar .short⟩] [
          .return place (some (.binary place .add (.text place "N") (name "N")))]⟩,
      ⟨place, "MAIN", none, .user [] [
        .var place "X" (some (.named place "PAIR")) none,
        .count place (name "I") (integer 1) (integer 7) none [
          .choose place (.branch
            (.binary place .less (name "I") (.binary place .shl (integer 2) (integer 1)))
            [.assign place (.member place (name "X") "B")
              (.call place "GREET" [name "X", integer 5])] .done)]]⟩]⟩]⟩], []⟩

end ChannelBasic
