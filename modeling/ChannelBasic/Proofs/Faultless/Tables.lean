import ChannelBasic.Program.Binding
import ChannelBasic.Proofs.Faultless.Basic
import ChannelBasic.Proofs.Program.Refusals

/-!
# Proofs/Faultless/Tables — entering and binding names blames the program

Neither pass relies on anything: a name that is taken or that means nothing is refused where it
stands.  What entering a program can be refused for is known (`Program.rule_ofRaw`).
-/

namespace ChannelBasic

open Checked

/-! ## Tables -/

theorem Program.faultless_ofRaw (p : Raw.Program) : Faultless (ofRaw p) := fun _ h =>
  rule_ofRaw (R := (· ≠ .internalError)) (by decide) (by decide) (by decide) (by decide)
    (fun _ _ _ => by decide) h

/-! ## Names -/

namespace Binding

mutual

theorem faultless_expr (scope : Scope) : (e : Expr) → (s : Bound) →
    Faultless ((expr scope e).run s)
  | .name .., s => by unfold expr; grind
  | .call _ _ arguments _, s => by
    have := faultless_exprs scope arguments
    unfold expr
    split <;> simp [this]
  | .literal .., s => by simp [expr]
  | .member _ target _ _, s => by simp [expr, faultless_expr scope target]
  | .unary _ _ operand, s => by simp [expr, faultless_expr scope operand]
  | .binary _ _ left right, s => by
    simp [expr, faultless_expr scope left, faultless_expr scope right]
  | .cast _ operand, s => by simp [expr, faultless_expr scope operand]
  | .pointer _ target _, s => by simp [expr, faultless_expr scope target]

theorem faultless_exprs (scope : Scope) : (es : List Expr) → (s : Bound) →
    Faultless ((exprs scope es).run s)
  | [], s => by simp [exprs]
  | e :: rest, s => by simp [exprs, faultless_expr scope e, faultless_exprs scope rest]

end

variable {s : Bound}

@[simp] theorem faultless_expr? (scope : Scope) (e : Option Expr) :
    Faultless ((expr? scope e).run s) := by
  cases e <;> simp [expr?, faultless_expr]

@[simp] theorem faultless_declareImplicit (scope : Scope) (e : Expr) :
    Faultless ((declareImplicit scope e).run s) := by
  unfold declareImplicit
  split <;> simp

@[simp] theorem faultless_freshVariable (scope : Scope) (earlier : List Nat) (index : Nat) :
    Faultless ((freshVariable scope earlier index).run s) := by
  unfold freshVariable
  refine Faultless.seq (Faultless.run_get s) .any fun s' s'' _ => ?_
  split <;> simp

mutual

theorem faultless_stmt (scope : Scope) (earlier : List Nat) : (r : Stmt) → (s : Bound) →
    Faultless ((stmt scope earlier r).run s)
  | .var .., s => by simp [stmt]
  | .assign .., s => by simp [stmt, faultless_expr]
  | .invoke .., s => by simp [stmt, faultless_expr]
  | .return .., s => by simp [stmt]
  | .choose _ branches, s => by simp [stmt, faultless_choices scope branches]
  | .count _ _ _ _ _ body _, s => by
    simp [stmt, faultless_expr, faultless_stmts (inside scope body) [] body]
  | .loop _ none body, s => by simp [stmt, faultless_stmts (inside scope body) [] body]
  | .loop _ (some c) body, s => by
    simp [stmt, faultless_expr, faultless_stmts (inside scope body) [] body]

theorem faultless_stmts (scope : Scope) (earlier : List Nat) : (rs : List Stmt) → (s : Bound) →
    Faultless ((stmts scope earlier rs).run s)
  | [], s => by simp [stmts]
  | r :: rest, s => by
    simp [stmts, faultless_stmt scope earlier r, faultless_stmts scope _ rest]

theorem faultless_choices (scope : Scope) : (b : Branches) → (s : Bound) →
    Faultless ((choices scope b).run s)
  | .done, s => by simp [choices]
  | .otherwise body, s => by simp [choices, faultless_stmts (inside scope body) [] body]
  | .branch _ body rest, s => by
    simp [choices, faultless_expr, faultless_stmts (inside scope body) [] body,
      faultless_choices scope rest]

end

end Binding

namespace Program

variable {p : Program}

theorem faultless_bindConstantExpr (e : Expr) : Faultless (p.bindConstantExpr e) := by
  simp [bindConstantExpr, Binding.faultless_expr]

theorem faultless_bindFunction (f : Function) : Faultless (p.bindFunction f) := by
  unfold bindFunction
  split <;> simp [Binding.faultless_stmts]

theorem faultless_bindEndpoint (place : Location) (access : Access) {rule : Rule}
    (h : rule ≠ .internalError) (endpoint : Endpoint) :
    Faultless (p.bindEndpoint place access rule endpoint) := by
  unfold bindEndpoint
  grind

theorem faultless_bindChannels (cs : List Channel) (taken : List Endpoint) :
    Faultless (p.bindChannels taken cs) := by
  induction cs generalizing taken with
  | nil => simp [bindChannels]
  | cons c rest ih =>
    unfold bindChannels
    have hend := @faultless_bindEndpoint p
    grind

/-- **A name that means nothing is refused by a rule of the language.** -/
theorem faultless_bindNames : Faultless p.bindNames := by
  have hconstants : Faultless (p.constants.toList.mapM fun c => do
      return { c with value := ← p.bindConstantExpr c.value }) :=
    Faultless.mapM fun c _ => by simp [faultless_bindConstantExpr]
  have hlengths : Faultless (p.lengths.toList.mapM p.bindConstantExpr) :=
    Faultless.mapM fun e _ => faultless_bindConstantExpr e
  have hfunctions : Faultless (p.functions.toList.mapM p.bindFunction) :=
    Faultless.mapM fun f _ => faultless_bindFunction f
  unfold bindNames
  simp only [Faultless.bind_iff, hconstants, hlengths, hfunctions, faultless_bindChannels,
    Faultless.value, implies_true, and_self]

end Program

end ChannelBasic
