import ChannelBasic.Proofs.Program.Reach
import ChannelBasic.Proofs.Program.Rewriting

/-!
# Proofs/Program/Callees — the calls of a function survive its checking

A value that is known beforehand takes no call, so rewriting an expression neither loses a call nor
makes one (`Expr.Rewrites.callees_eq`).  What a module reaches is found before anything is rewritten,
and is right of the analysed program as well (`Program.exactly_reachable`).
-/

namespace ChannelBasic

/-! ## What mentions call -/

namespace Mention

/-- The function that a mention calls. -/
def callee? : Mention → Option Nat
  | .text _ _ => none
  | .call callee => callee

/-- The functions that some mentions call, in their order. -/
def callees (mentions : List Mention) : List Nat := mentions.filterMap callee?

variable {k : Nat} {xs ys : List Mention}

theorem mem_callees : k ∈ callees xs ↔ .call (some k) ∈ xs := by
  rw [callees, List.mem_filterMap]
  constructor
  · rintro ⟨mention, hmem, hk⟩
    cases mention with
    | text => cases hk
    | call callee =>
      obtain rfl : callee = some k := hk
      exact hmem
  · exact fun h => ⟨_, h, rfl⟩

@[simp] theorem callees_nil : callees [] = [] := rfl

@[simp] theorem callees_text (content : String) (type : Option TypeId) (xs : List Mention) :
    callees (.text content type :: xs) = callees xs := rfl

@[simp] theorem callees_call (callee : Option Nat) (xs : List Mention) :
    callees (.call callee :: xs) = callee.toList ++ callees xs := by
  cases callee <;> rfl

@[simp] theorem callees_append (xs ys : List Mention) :
    callees (xs ++ ys) = callees xs ++ callees ys := List.filterMap_append

end Mention

open Mention (callees)

namespace Expr

variable {types : TypeTable} {constant : Nat → Option Literal}

theorem callees_literal (i : Info) (v : Literal) : callees (literal i v).mentions = [] := by
  cases v <;> rfl

/-- **What has a value beforehand calls nothing.** -/
theorem callees_of_fold {e : Expr} {v : Literal} (h : e.fold types constant = some v) :
    callees e.mentions = [] := by
  induction e using Expr.induct generalizing v with
  | literal i w => exact callees_literal i w
  | name => rfl
  | member | call | pointer => cases h
  | unary i op operand ih =>
    obtain ⟨w, hw, -⟩ := Option.bind_eq_some_iff.1 h
    exact ih hw
  | binary i op left right ihl ihr =>
    obtain ⟨l, hl, h⟩ := Option.bind_eq_some_iff.1 h
    obtain ⟨r, hr, -⟩ := Option.bind_eq_some_iff.1 h
    rw [mentions, Mention.callees_append, ihl hl, ihr hr]
    rfl
  | cast i operand ih =>
    obtain ⟨w, hw, -⟩ := Option.bind_eq_some_iff.1 h
    exact ih hw

theorem callees_mentionsAll {es es' : List Expr}
    (h : List.Forall₂ (fun e e' => callees e'.mentions = callees e.mentions) es es') :
    callees (mentionsAll es') = callees (mentionsAll es) := by
  induction h with
  | nil => rfl
  | cons he _ ih => simp [mentionsAll, he, ih]

/-- **No call is lost or made** when an expression is rewritten. -/
theorem Rewrites.callees_eq {e e' : Expr} (h : e.Rewrites e') :
    callees e'.mentions = callees e.mentions := by
  induction h with
  | refl | name => rfl
  | trans _ _ ih ih' => exact ih'.trans ih
  | member _ ih | unary _ ih | cast _ ih | pointer _ ih => exact ih
  | call length_eq _ ih =>
    simp [mentions, callees_mentionsAll (List.forall₂_iff_zip.2 ⟨length_eq, ih⟩)]
  | binary _ _ ihl ihr => simp [mentions, ihl, ihr]
  | convert | point => rfl
  | compute i hv => rw [callees_literal, callees_of_fold hv]

end Expr

theorem Function.mentions_eq (f : Function) : f.mentions = Expr.mentionsAll f.exprs := by
  unfold mentions exprs
  cases f.body with
  | user body =>
    dsimp only
    rw [Stmt.mentionsAll_eq, Stmt.nodesAll_eq, Expr.mentionsAll_eq]
  | native arguments => rfl

theorem Function.Rewrites.callees_eq {f f' : Function} (h : f.Rewrites f') :
    callees f'.mentions = callees f.mentions := by
  rw [f.mentions_eq, f'.mentions_eq]
  exact Expr.callees_mentionsAll (h.exprs.imp fun _ _ he => he.callees_eq)

/-! ## Analysed programs -/

namespace Program

variable {p p₂ q : Program} {m m' : Module} {n k : Nat}

theorem Rewrites.function (h : p.Rewrites q) (n : Nat) :
    (q.functions[n]?).map (fun f => (f.isUser, callees f.mentions)) =
      (p.functions[n]?).map fun f => (f.isUser, callees f.mentions) := by
  have hmap : q.functions.toList.map (fun f => (f.isUser, callees f.mentions)) =
      p.functions.toList.map fun f => (f.isUser, callees f.mentions) := by
    rw [← List.forall₂_eq_eq_eq, List.forall₂_map_left_iff, List.forall₂_map_right_iff]
    exact h.functions.flip.imp fun f' f hf => Prod.ext hf.isUser hf.callees_eq
  have hn := congrArg (·[n]?) hmap
  simpa [List.getElem?_map] using hn

theorem Rewrites.isUser (h : p.Rewrites q) : q.IsUser n ↔ p.IsUser n := by
  have hn := congrArg (fun x => (x.map Prod.fst).getD false) (h.function n)
  simp only [Option.map_map, Function.comp_def] at hn
  rw [← isUser_iff, ← isUser_iff]
  exact Eq.congr_left hn

theorem Rewrites.calls (h : p.Rewrites q) : q.Calls n k ↔ p.Calls n k := by
  have hcallees (p : Program) : callees (p.mentionsOf n) =
      (((p.functions[n]?).map fun f => (f.isUser, callees f.mentions)).map Prod.snd).getD [] := by
    unfold mentionsOf
    cases p.functions[n]? <;> rfl
  rw [Calls, Calls, ← Mention.mem_callees, ← Mention.mem_callees, hcallees, hcallees, h.function]

theorem Reaches.recalled (h : p.Reaches m n) (hcalls : ∀ n k, p.Calls n k → q.Calls n k)
    (hm : m'.functions = m.functions) : q.Reaches m' n := by
  induction h with
  | own hn => exact .own (hm ▸ hn)
  | call _ hf hk ih => exact ih.calls (hcalls _ _ ((calls_iff hf).2 hk))

/-- **What is found to be reachable is what an analysed program can come to run**: the module's own
functions and those with a body that they lead to. -/
theorem exactly_reachable {raw : Raw.Program} (h : analyse raw = .ok q) (hm : m ∈ q.modules) :
    m.reachable.Nodup ∧
      ∀ n, n ∈ m.reachable ↔ q.Reaches m n ∧ (n ∈ m.functions ∨ q.IsUser n) := by
  obtain ⟨p₀, h₀, h⟩ := Checked.bind_eq_ok.1 h
  obtain ⟨p, h₁, h⟩ := Checked.bind_eq_ok.1 h
  obtain ⟨p₂, h₂, h⟩ := Checked.bind_eq_ok.1 h
  obtain ⟨hw₀, hu₀⟩ := written_ofRaw h₀
  have hw := hw₀.bound hu₀ h₁
  obtain ⟨hfunctions, hconstants⟩ := rewrites_of_layout h₂ h
  have hrewrites : p.Rewrites q := ⟨hfunctions, hconstants⟩
  obtain ⟨-, hmodules⟩ := surveyed_of_layout h₂ h
  obtain ⟨j, hj⟩ := List.mem_iff_getElem?.1 hm
  obtain ⟨m₁, hm₁, hs⟩ := forall₂_right hmodules hj
  have hsearched := hw.searched (List.mem_of_getElem? hm₁)
  have hreaches (n : Nat) : q.Reaches m n ↔ p.Reaches m₁ n :=
    ⟨fun h => h.recalled (fun _ _ => hrewrites.calls.1) hs.functions.symm,
      fun h => h.recalled (fun _ _ => hrewrites.calls.2) hs.functions⟩
  rw [hs.reachable]
  refine ⟨by simpa using hsearched.distinct, fun n => ?_⟩
  rw [hsearched.mem_iff, hreaches, hs.functions, hrewrites.isUser]

end Program

end ChannelBasic
