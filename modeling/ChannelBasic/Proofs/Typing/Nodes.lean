import ChannelBasic.Proofs.Typing.Program

/-!
# Proofs/Typing/Nodes — the expressions inside a program

`p.Node e` says that an expression occurs somewhere in a program: in the body of a function or in
the value of a constant.  **Every expression of an analysed program has the right types**
(`Analysed.node`), not only those that make up its statements.
-/

namespace ChannelBasic

mutual

/-- The expression and all expressions inside it. -/
def Expr.nodes : Expr → List Expr
  | .literal i v => [.literal i v]
  | .name i n d => [.name i n d]
  | .member i target field r => .member i target field r :: target.nodes
  | .call i f arguments c => .call i f arguments c :: Expr.nodesAll arguments
  | .unary i op operand => .unary i op operand :: operand.nodes
  | .binary i op left right => .binary i op left right :: (left.nodes ++ right.nodes)
  | .cast i operand => .cast i operand :: operand.nodes
  | .pointer i target temp => .pointer i target temp :: target.nodes

/-- All expressions inside some expressions. -/
def Expr.nodesAll : List Expr → List Expr
  | [] => []
  | e :: rest => e.nodes ++ Expr.nodesAll rest

end

/-- All expressions inside one that may be missing. -/
def Expr.nodesOf : Option Expr → List Expr
  | some e => e.nodes
  | none => []

mutual

/-- All expressions inside a statement. -/
def Stmt.nodes : Stmt → List Expr
  | .var _ _ value => Expr.nodesOf value
  | .assign _ value target => value.nodes ++ target.nodes
  | .invoke _ call => call.nodes
  | .return _ value => Expr.nodesOf value
  | .choose _ branches => branches.nodes
  | .count _ counter start finish step body _ =>
    counter.nodes ++ start.nodes ++ finish.nodes ++ Expr.nodesOf step ++ Stmt.nodesAll body
  | .loop _ condition body => Expr.nodesOf (condition.map (·.value)) ++ Stmt.nodesAll body

/-- All expressions inside some statements. -/
def Stmt.nodesAll : List Stmt → List Expr
  | [] => []
  | s :: rest => s.nodes ++ Stmt.nodesAll rest

/-- All expressions inside the branches of an `IF`. -/
def Branches.nodes : Branches → List Expr
  | .done => []
  | .otherwise body => Stmt.nodesAll body
  | .branch condition body rest => condition.nodes ++ Stmt.nodesAll body ++ rest.nodes

end

namespace Expr

variable {Γ : Env} {e n : Expr} {es : List Expr}

theorem mem_nodes (e : Expr) : e ∈ e.nodes := by cases e <;> exact .head _

theorem mem_nodesAll : n ∈ nodesAll es ↔ ∃ e ∈ es, n ∈ e.nodes := by
  induction es with
  | nil => simp [nodesAll]
  | cons e es ih => simp [nodesAll, ih]

/-- The types inside an expression with the right types are right. -/
theorem Typed.node (h : e.Typed Γ) (hn : n ∈ e.nodes) : n.Typed Γ := by
  induction e using Expr.induct with
  | literal i v => exact List.mem_singleton.1 hn ▸ h
  | name i title d => exact List.mem_singleton.1 hn ▸ h
  | member i target field r ih =>
    obtain rfl | hn' := List.mem_cons.1 hn
    · exact h
    · match r, h with
      | some r, ⟨ht, _⟩ => exact ih ht hn'
  | call i f arguments c ih =>
    obtain rfl | hn' := List.mem_cons.1 hn
    · exact h
    · match c, h with
      | some k, ⟨⟨ps, _, hargs⟩, _⟩ =>
        obtain ⟨a, ha, hna⟩ := mem_nodesAll.1 hn'
        rw [typedAll_iff] at hargs
        obtain ⟨j, hj⟩ := List.mem_iff_getElem?.1 ha
        obtain ⟨_, -, ht, -⟩ := forall₂_right hargs hj
        exact ih a ha ht hna
  | unary i op operand ih =>
    obtain rfl | hn := List.mem_cons.1 hn
    · exact h
    · exact ih h.1 hn
  | binary i op left right ihl ihr =>
    obtain rfl | hn := List.mem_cons.1 hn
    · exact h
    · obtain hn | hn := List.mem_append.1 hn
      · exact ihl h.1 hn
      · exact ihr h.2.1 hn
  | cast i operand ih =>
    obtain rfl | hn := List.mem_cons.1 hn
    · exact h
    · exact ih h.1 hn
  | pointer i target temp ih =>
    obtain rfl | hn := List.mem_cons.1 hn
    · exact h
    · exact ih h.1 hn

theorem typed_of_nodesOf {value : Option Expr} (h : ∀ e, value = some e → e.Typed Γ)
    (hn : n ∈ nodesOf value) : n.Typed Γ := by
  cases value with
  | some e => exact (h e rfl).node hn
  | none => cases hn

end Expr

section Statements

variable {Γ : Env} {returns : Option TypeId} {n : Expr}

mutual

theorem Stmt.Typed.node : (s : Stmt) → s.Typed Γ returns → n ∈ s.nodes → n.Typed Γ
  | .var _ _ none, _, hn => by cases hn
  | .var _ _ (some _), h, hn => h.1.node hn
  | .assign _ _ _, ⟨hv, ht, _⟩, hn =>
    (List.mem_append.1 hn).elim (fun hn => hv.node hn) fun hn => ht.node hn
  | .invoke _ _, h, hn => Expr.Typed.node h hn
  | .return _ none, _, hn => by cases hn
  | .return _ (some _), h, hn => h.1.node hn
  | .choose _ branches, h, hn => Branches.Typed.node branches h hn
  | .count _ counter start finish step body _, ⟨⟨hc, _, hs, hf, _, _, _, _, _, hstep⟩, hb⟩, hn => by
    simp only [Stmt.nodes, List.mem_append] at hn
    obtain (((hn | hn) | hn) | hn) | hn := hn
    · exact hc.node hn
    · exact hs.node hn
    · exact hf.node hn
    · exact Expr.typed_of_nodesOf (fun e he => (hstep e he).1) hn
    · exact Stmt.TypedAll.node body hb hn
  | .loop _ condition body, ⟨hc, hb⟩, hn => by
    obtain hn | hn := List.mem_append.1 hn
    · refine Expr.typed_of_nodesOf (fun e he => ?_) hn
      obtain ⟨c, hc', rfl⟩ := Option.map_eq_some_iff.1 he
      exact (hc c hc').1
    · exact Stmt.TypedAll.node body hb hn

/-- The types inside statements with the right types are right. -/
theorem Stmt.TypedAll.node : (l : List Stmt) → Stmt.TypedAll Γ returns l → n ∈ Stmt.nodesAll l →
    n.Typed Γ
  | [], _, hn => by cases hn
  | s :: rest, ⟨hs, hr⟩, hn =>
    (List.mem_append.1 hn).elim (Stmt.Typed.node s hs) (Stmt.TypedAll.node rest hr)

theorem Branches.Typed.node : (b : Branches) → b.Typed Γ returns → n ∈ b.nodes → n.Typed Γ
  | .done, _, hn => by cases hn
  | .otherwise body, h, hn => Stmt.TypedAll.node body h hn
  | .branch _ body rest, ⟨⟨hc, _⟩, hb, hr⟩, hn => by
    simp only [Branches.nodes, List.mem_append] at hn
    obtain (hn | hn) | hn := hn
    · exact hc.node hn
    · exact Stmt.TypedAll.node body hb hn
    · exact Branches.Typed.node rest hr hn

end

end Statements

/-! ## What expressions mention -/

/-- The text or the call that an expression is, its parts left aside. -/
def Expr.mention? : Expr → Option Mention
  | .literal i (.text content) => some (.text content i.type)
  | .call _ _ _ callee => some (.call callee)
  | .literal _ (.boolean _) | .literal _ (.integral _) | .literal _ (.real _) => none
  | .name _ _ _ | .member _ _ _ _ | .unary _ _ _ | .binary _ _ _ _ | .cast _ _ | .pointer _ _ _ =>
    none

mutual

theorem Expr.mentions_eq : (e : Expr) → e.mentions = e.nodes.filterMap Expr.mention?
  | .literal _ (.text _) | .literal _ (.boolean _) | .literal _ (.integral _)
  | .literal _ (.real _) | .name _ _ _ => by simp [mentions, nodes, mention?]
  | .member _ target _ _ => by simp [mentions, nodes, mention?, List.filterMap_cons, target.mentions_eq]
  | .call _ _ arguments _ => by simp [mentions, nodes, mention?, Expr.mentionsAll_eq arguments]
  | .unary _ _ operand => by simp [mentions, nodes, mention?, List.filterMap_cons, operand.mentions_eq]
  | .binary _ _ left right => by
    simp [mentions, nodes, mention?, List.filterMap_cons, left.mentions_eq, right.mentions_eq]
  | .cast _ operand => by simp [mentions, nodes, mention?, List.filterMap_cons, operand.mentions_eq]
  | .pointer _ target _ => by simp [mentions, nodes, mention?, List.filterMap_cons, target.mentions_eq]

theorem Expr.mentionsAll_eq : (es : List Expr) →
    mentionsAll es = (nodesAll es).filterMap Expr.mention?
  | [] => rfl
  | e :: rest => by simp [mentionsAll, nodesAll, e.mentions_eq, Expr.mentionsAll_eq rest]

end

theorem Expr.mentionsOf_eq (value : Option Expr) :
    mentionsOf value = (nodesOf value).filterMap Expr.mention? := by
  cases value with
  | none => rfl
  | some e => exact e.mentions_eq

mutual

theorem Stmt.mentions_eq : (s : Stmt) → s.mentions = s.nodes.filterMap Expr.mention?
  | .var _ _ value | .return _ value => Expr.mentionsOf_eq value
  | .assign _ value target => by simp [Stmt.mentions, Stmt.nodes, Expr.mentions_eq]
  | .invoke _ call => call.mentions_eq
  | .choose _ branches => branches.mentions_eq
  | .count _ counter start finish step body _ => by
    simp [Stmt.mentions, Stmt.nodes, Expr.mentions_eq, Expr.mentionsOf_eq, Stmt.mentionsAll_eq body]
  | .loop _ condition body => by
    simp [Stmt.mentions, Stmt.nodes, Expr.mentionsOf_eq, Stmt.mentionsAll_eq body]

/-- What statements mention is what the expressions inside them mention. -/
theorem Stmt.mentionsAll_eq : (l : List Stmt) →
    Stmt.mentionsAll l = (Stmt.nodesAll l).filterMap Expr.mention?
  | [] => rfl
  | s :: rest => by simp [Stmt.mentionsAll, Stmt.nodesAll, s.mentions_eq, Stmt.mentionsAll_eq rest]

theorem Branches.mentions_eq : (b : Branches) → b.mentions = b.nodes.filterMap Expr.mention?
  | .done => rfl
  | .otherwise body => Stmt.mentionsAll_eq body
  | .branch condition body rest => by
    simp [Branches.mentions, Branches.nodes, Expr.mentions_eq, Stmt.mentionsAll_eq body, rest.mentions_eq]

end

/-- An expression that occurs in a program. -/
inductive Program.Node (p : Program) (e : Expr) : Prop
  | function {n : Nat} {f : Function} {body : UserBody} (hf : p.functions[n]? = some f)
      (hb : f.user? = some body) (he : e ∈ Stmt.nodesAll body.statements)
  | constant {k : Nat} {c : Constant} (hc : p.constants[k]? = some c) (he : e ∈ c.value.nodes)

/-- **Every expression that occurs in an analysed program has the right types.** -/
theorem Program.Analysed.node {p : Program} (h : p.Analysed) {e : Expr} (he : p.Node e) :
    ∃ Γ : Env, Γ.types = p.types ∧ Γ.constant = p.constantValue ∧ e.Typed Γ := by
  cases he with
  | function hf hb he => exact ⟨_, rfl, rfl, Stmt.TypedAll.node _ (h.typed _ _ hf _ hb) he⟩
  | constant hc he => exact ⟨_, rfl, rfl, (h.constants _ _ hc).node he⟩

/-- **What a function of an analysed program calls is visible to it**: of the same owner, or of a
library. -/
theorem Program.Analysed.visible {p : Program} (h : p.Analysed) {n k : Nat} {f : Function}
    (hf : p.functions[n]? = some f) (hk : .call (some k) ∈ f.mentions) :
    p.visible f.owner k = true := by
  cases hb : f.body with
  | native => simp [Function.mentions, hb] at hk
  | user body =>
    simp only [Function.mentions, hb, Stmt.mentionsAll_eq] at hk
    obtain ⟨e, he, hmention⟩ := List.mem_filterMap.1 hk
    have htyped := (h.typed n f hf body (by rw [Function.user?, hb])).node _ he
    cases e with
    | call i name arguments callee =>
      obtain rfl : callee = some k := by simpa [Expr.mention?] using hmention
      obtain ⟨⟨ps, hfunction, -⟩, -⟩ := htyped
      unfold Env.ofBody at hfunction
      dsimp only at hfunction
      split at hfunction
      next hv => exact hv
      next => cases hfunction
    | literal i v => cases v <;> simp [Expr.mention?] at hmention
    | name | member | unary | binary | cast | pointer => simp [Expr.mention?] at hmention

end ChannelBasic
