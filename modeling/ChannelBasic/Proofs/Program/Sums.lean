import ChannelBasic.Proofs.Program.Rewriting
import ChannelBasic.Proofs.Typing.Program
import ChannelBasic.Proofs.Typing.Sums

/-!
# Proofs/Program/Sums — operators of an analysed program cut no texts

Functions are checked one after the other, and the types that are known when one of them is checked
last until all are.  Laying out changes no type.  So **what an operator of an analysed program is
given is no text that was cut** (`Program.joins_of_analyse`).
-/

namespace ChannelBasic

/-! ## Laying out -/

/-- An expression that has been laid out joins what it joined before. -/
structure Expr.StillJoins (T : TypeTable) (e e' : Expr) : Prop where
  type : e'.type? = e.type?
  text : e.KeepsText T → e'.KeepsText T
  nodes : (∀ n ∈ e.nodes, n.Joins T) → ∀ n ∈ e'.nodes, n.Joins T

namespace Layout

variable {T types : TypeTable} {constant : Nat → Option Literal}

mutual

/-- **Places for temporaries cut no text.** -/
theorem joins_expr : (e : Expr) → Gives (e.StillJoins T) (expr types constant e)
  | .literal i v => .value ⟨rfl, id, id⟩
  | .name i n d => .value ⟨rfl, id, id⟩
  | .member i target field d => by
    unfold expr
    refine (joins_expr target).seq fun target' h => .value ⟨rfl, fun _ => .of_root (by simp), ?_⟩
    exact fun hn => List.forall_mem_cons.2 ⟨trivial, h.nodes (List.forall_mem_cons.1 hn).2⟩
  | .call i f arguments c => by
    unfold expr
    refine (joins_exprs arguments).seq fun es h => .value ⟨rfl, fun _ => .of_root (by simp), ?_⟩
    exact fun hn => List.forall_mem_cons.2 ⟨trivial, h (List.forall_mem_cons.1 hn).2⟩
  | .unary i op operand => by
    unfold expr
    refine (joins_expr operand).seq fun operand' h => .value ⟨rfl, fun _ => .of_root (by simp), ?_⟩
    exact fun hn => List.forall_mem_cons.2 ⟨trivial, h.nodes (List.forall_mem_cons.1 hn).2⟩
  | .binary i op left right => by
    unfold expr
    refine (joins_expr left).seq fun left' hl => (joins_expr right).seq fun right' hr => ?_
    refine .value ⟨rfl, fun _ => .of_root (by simp), fun hn => ?_⟩
    obtain ⟨hj, hn⟩ := List.forall_mem_cons.1 hn
    obtain ⟨hnl, hnr⟩ := List.forall_mem_append.1 hn
    exact List.forall_mem_cons.2 ⟨⟨hl.text hj.1, hr.text hj.2⟩,
      List.forall_mem_append.2 ⟨hl.nodes hnl, hr.nodes hnr⟩⟩
  | .cast i operand => by
    unfold expr
    refine (joins_expr operand).seq fun operand' h => .value ⟨rfl, fun hk j o hcast => ?_, ?_⟩
    · obtain ⟨rfl, rfl⟩ := Expr.cast.inj hcast
      rw [h.type]
      exact hk i operand rfl
    · exact fun hn => List.forall_mem_cons.2 ⟨trivial, h.nodes (List.forall_mem_cons.1 hn).2⟩
  | .pointer i target temp => by
    unfold expr
    have rest (temp' : Option Int) : Gives ((Expr.pointer i target temp).StillJoins T) (do
        let temp ← pure temp'
        return .pointer i (← expr types constant target) temp : FrameLayout Expr) := by
      refine .value_seq ((joins_expr target).seq fun target' h =>
        .value ⟨rfl, fun _ => .of_root (by simp), fun hn => ?_⟩)
      exact List.forall_mem_cons.2 ⟨trivial, h.nodes (List.forall_mem_cons.1 hn).2⟩
    dsimp only
    split
    · exact .after fun size => .after fun offset => rest (some offset)
    · exact rest none

theorem joins_exprs : (es : List Expr) → Gives (fun es' => (∀ n ∈ Expr.nodesAll es, n.Joins T) →
    ∀ n ∈ Expr.nodesAll es', n.Joins T) (exprs types constant es)
  | [] => .value id
  | e :: rest => by
    unfold exprs
    refine (joins_expr e).seq fun e' he => (joins_exprs rest).seq fun rest' hr => ?_
    refine .value fun hn => ?_
    obtain ⟨hne, hnr⟩ := List.forall_mem_append.1 hn
    exact List.forall_mem_append.2 ⟨he.nodes hne, hr hnr⟩

end

/-- A function laid out joins what it joined before. -/
theorem joins_function {f f' : Function} (h : function types constant f = .ok f')
    (hf : ∀ n ∈ Expr.nodesAll f.exprs, n.Joins T) : ∀ n ∈ Expr.nodesAll f'.exprs, n.Joins T := by
  obtain ⟨-, hexprs⟩ := exprs_function joins_expr h
  intro n hn
  obtain ⟨e', he', hn⟩ := Expr.mem_nodesAll.1 hn
  obtain ⟨k, hk⟩ := List.mem_iff_getElem?.1 he'
  obtain ⟨e, he, hjoins⟩ := forall₂_right hexprs hk
  exact hjoins.nodes (fun m hm => hf m (Expr.mem_nodesAll.2 ⟨e, List.mem_of_getElem? he, hm⟩)) n hn

end Layout

/-! ## Functions and programs -/

namespace Checking

variable {p : Program} {T : TypeTable} {s : CheckState} {f : Function} {constantType : ConstantType}

theorem joins_checkFunction (hc : ∀ k, Keeps Moves (constantType k)) (hB : s.types.Builtin)
    (hf : Checkable p f s.types) : Ends (checkFunction p constantType f) s fun f' s' =>
      s'.types.Extends T → ∀ n ∈ Expr.nodesAll f'.exprs, n.Joins T := by
  unfold checkFunction
  split
  next arguments hbody =>
    refine Ends.value fun _ n hn => ?_
    simp [Function.exprs, hbody, Expr.nodesAll] at hn
  next body hbody =>
    have huser : f.user? = some body := by rw [Function.user?, hbody]
    refine (ends_checks body.arguments (fun a s => ends_checkType _ _ _ a.type) s).seq
      fun _ s₁ h₁ => ?_
    obtain ⟨rfl, -⟩ := h₁
    refine Ends.seq (Ends.modifies (Q := fun _ s₂ => s₂ = { s₁ with locals := body.locals }) rfl)
      fun _ s₂ h₂ => ?_
    subst h₂
    refine Ends.seq (lasts_stmts (T := T) hc body.statements _ hB (hf.plain body huser))
      fun statements s₃ h₃ => Ends.reads (Ends.value fun hT => ?_)
    rw [Function.exprs, ← Stmt.nodesAll_eq]
    exact h₃.2 hT

end Checking

namespace Program

open Checking

variable {raw : Raw.Program} {p q : Program} {T : TypeTable} {s s' : CheckState}
  {fs : List Function}

/-- **The operators of checked functions cut no texts.** -/
theorem Checks.joins (h : Checks p s s' fs) (hT : s'.types.Extends T) :
    ∀ f' ∈ fs, ∀ n ∈ Expr.nodesAll f'.exprs, n.Joins T := by
  obtain ⟨hw, -, hr, hrun⟩ := h
  have hstep : ∀ f ∈ p.functions.toList, ∀ s₁, (s₁.types.Builtin ∧ Enlarges s s₁) →
      Ends (checkFunction p (constantWithin p.lengths (p.constants.size + 1)) f) s₁ fun f' s₂ =>
        (s₂.types.Builtin ∧ Enlarges s s₂) ∧ Enlarges s₁ s₂ ∧
          (s₂.types.Extends T → ∀ n ∈ Expr.nodesAll f'.exprs, n.Joins T) := by
    rintro f hf s₁ ⟨hB, he₁⟩
    refine ((ends_checkFunction (keeps_constantWithin _) f).both (joins_checkFunction (T := T)
      (keeps_constantWithin _) hB (checkable_of_checked hw hr hrun hf he₁))).mono fun f' s₂ h => ?_
    obtain ⟨⟨he₂, -⟩, hjoins⟩ := h
    exact ⟨⟨hB.extends he₂.types, Enlarges.passage.trans he₁ he₂⟩, he₂, hjoins⟩
  obtain ⟨-, -, hall⟩ := Ends.eachOf (I := fun s₁ => s₁.types.Builtin ∧ Enlarges s s₁)
    (Q := fun (_ f' : Function) (s₂ : CheckState) =>
      s₂.types.Extends T → ∀ n ∈ Expr.nodesAll f'.exprs, n.Joins T)
    Enlarges.passage.refl Enlarges.passage.trans (fun h he hT => h (he.types.trans hT)) hstep
    ⟨hr.sound.builtin, Enlarges.passage.refl s⟩ _ _ hrun
  intro f' hf'
  obtain ⟨k, hk⟩ := List.mem_iff_getElem?.1 hf'
  obtain ⟨f, -, hjoins⟩ := forall₂_right hall hk
  exact hjoins hT

/-- The types of an analysed program are those that all programs have, and some more. -/
theorem builtin_of_analyse (h : analyse raw = .ok p) : p.types.Builtin := by
  obtain ⟨p₀, s, s', fs, ⟨hw, -, hr, hrun⟩, -, hrelaid, -⟩ := checks_of_analyse h
  exact (typed_of_checked hw hr hrun).1.builtin.extends hrelaid.types.toExtends

/-- **Operators of an analysed program are given whole texts.** -/
theorem joins_of_analyse (h : analyse raw = .ok p) {n : Nat} {f : Function}
    (hf : p.functions[n]? = some f) {body : UserBody} (hb : f.user? = some body) :
    ∀ e ∈ Stmt.nodesAll body.statements, e.Joins p.types := by
  obtain ⟨p₀, s, s', fs, hchecks, hlayout, hrelaid, -⟩ := checks_of_analyse h
  obtain ⟨f', hf', hlaid⟩ := (laysOut_of_layout hlayout).exists_function hf
  have hmem : f' ∈ fs := List.mem_of_getElem? (by simpa using hf')
  rw [Stmt.nodesAll_eq, ← Function.exprs_of_user? hb]
  exact Layout.joins_function hlaid (hchecks.joins hrelaid.types.toExtends f' hmem)

end Program

end ChannelBasic
