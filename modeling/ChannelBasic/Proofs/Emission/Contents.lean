import ChannelBasic.Proofs.Execution.Calls
import ChannelBasic.Proofs.Program.Callees
import ChannelBasic.Proofs.Program.Scopes

/-!
# Proofs/Emission/Contents — the code of a module is that of what it reaches

What a module reaches is found on the bound program, by a search; code is emitted much later, for
functions as they are met in other functions' code.  An expression that is named by its place or
comes to a text has no calls in it, so **every call of a body is a call in its code**
(`Stmt.EmitsAll.mem_calls`), and both come to the same functions (`Assembly.covers_of_analyse`).
Emission enters texts behind those that are there, so those of the module stay in their places.
-/

namespace ChannelBasic

open Code (Label)
open Mention (callees)

/-! ## Calls of a body and calls in its code -/

section Emission

variable {ctx : EmissionContext} {z : EmissionState} {k : Nat}

theorem EmissionContext.callees_of_place {e : Expr} {place : Place}
    (h : ctx.place? e = some place) : callees e.mentions = [] := by
  induction e using Expr.induct generalizing place with
  | name => rfl
  | member i target field r ih =>
    cases r with
    | none => cases h
    | some r =>
      obtain ⟨place', hplace, -⟩ := Option.bind_eq_some_iff.1 h
      exact ih hplace
  | literal | call | unary | binary | cast | pointer => cases h

/-- Naming a place takes no call. -/
theorem EmissionContext.not_mentions_of_place {e : Expr} {place : Place}
    (h : ctx.place? e = some place) : .call (some k) ∉ e.mentions := by
  rw [← Mention.mem_callees, callees_of_place h]
  exact List.not_mem_nil

mutual

theorem Expr.Loads.mem_calls : (e : Expr) → {code : List Piece} → e.Loads ctx z code →
    .call (some k) ∈ e.mentions → k ∈ e.calls
  | .literal i v, _, _, hk => by
    rw [← Mention.mem_callees, Expr.callees_literal] at hk
    cases hk
  | .name _ _ _, _, _, hk => by cases hk
  | .member _ _ _ _, _, ⟨_, _, _, _, hplace, _⟩, hk =>
    absurd hk (EmissionContext.not_mentions_of_place hplace)
  | .call _ _ arguments callee, _, ⟨_, _, _, _, _, _, _, _, _, hpushed, _⟩, hk => by
    obtain hk | hk := List.mem_cons.1 hk
    · obtain rfl := Mention.call.inj hk
      exact List.mem_append_right _ (List.mem_singleton_self k)
    · exact List.mem_append_left _ (Expr.LoadsAll.mem_calls arguments hpushed hk)
  | .unary _ _ operand, _, ⟨_, _, _, hfirst, _⟩, hk => Expr.Loads.mem_calls operand hfirst hk
  | .cast _ operand, _, ⟨_, _, _, _, _, hfirst, _⟩, hk => Expr.Loads.mem_calls operand hfirst hk
  | .binary _ _ left right, _, ⟨_, _, _, _, _, _, _, _, _, hfirst, hsecond, _⟩, hk =>
    (List.mem_append.1 hk).elim
      (fun hk => List.mem_append_right _ (Expr.Loads.mem_calls left hsecond hk))
      fun hk => List.mem_append_left _ (Expr.Loads.mem_calls right hfirst hk)
  | .pointer _ target (some _), _, ⟨_, _, _, _, hfirst, _⟩, hk =>
    Expr.Loads.mem_calls target hfirst hk
  | .pointer _ target none, _, h, hk => by
    rw [Expr.mentions] at hk
    obtain ⟨place, hplace, -⟩ | ⟨content, capacity, x, ⟨-, hfold, -⟩, -⟩ := h
    · exact absurd hk (EmissionContext.not_mentions_of_place hplace)
    · rw [← Mention.mem_callees, Expr.callees_of_fold hfold] at hk
      cases hk

theorem Expr.LoadsAll.mem_calls : (es : List Expr) → {code : List Piece} → {bytes : Nat} →
    Expr.LoadsAll ctx z code bytes es → .call (some k) ∈ Expr.mentionsAll es →
    k ∈ Expr.callsAll es
  | [], _, _, _, hk => by cases hk
  | e :: rest, _, _, ⟨_, _, _, _, _, hlater, hfirst, _⟩, hk =>
    (List.mem_append.1 hk).elim
      (fun hk => List.mem_append_right _ (Expr.Loads.mem_calls e hfirst hk))
      fun hk => List.mem_append_left _ (Expr.LoadsAll.mem_calls rest hlater hk)

end

mutual

theorem Stmt.Emits.mem_calls : (s : Stmt) → {code : List Piece} → s.Emits ctx z code →
    .call (some k) ∈ s.mentions → k ∈ s.calls
  | .var _ _ (some value), _, ⟨_, _, _, _, _, _, _, hfirst, _⟩, hk =>
    Expr.Loads.mem_calls value hfirst hk
  | .var _ _ none, _, _, hk | .return _ none, _, _, hk => by cases hk
  | .assign _ value target, _, ⟨_, _, _, _, hfirst, _, hplace, _⟩, hk =>
    (List.mem_append.1 hk).elim (Expr.Loads.mem_calls value hfirst)
      fun hk => absurd hk (EmissionContext.not_mentions_of_place hplace)
  | .invoke _ call, _, ⟨_, hfirst, _⟩, hk => Expr.Loads.mem_calls call hfirst hk
  | .return _ (some e), _, ⟨_, _, _, _, _, hfirst, _⟩, hk => Expr.Loads.mem_calls e hfirst hk
  | .choose _ branches, _, ⟨_, _, hfirst, _⟩, hk => Branches.Emits.mem_calls branches hfirst hk
  | .count _ counter start finish step body _, _,
      ⟨_, _, _, _, _, _, _, _, _, _, _, _, hplace, hfinish, hstep, hstart, _, _, hbody, _⟩, hk => by
    simp only [Stmt.mentions, List.mem_append] at hk
    simp only [Stmt.calls, List.mem_append]
    obtain (((hk | hk) | hk) | hk) | hk := hk
    · exact absurd hk (EmissionContext.not_mentions_of_place hplace)
    · exact .inl (.inr (Expr.Loads.mem_calls start hstart hk))
    · exact .inl (.inl (.inl (Expr.Loads.mem_calls finish hfinish hk)))
    · cases step with
      | none => cases hk
      | some e => exact .inl (.inl (.inr (Expr.Loads.mem_calls e hstep hk)))
    · exact .inr (Stmt.EmitsAll.mem_calls body hbody hk)
  | .loop _ none body, _, ⟨_, _, _, hbody, _⟩, hk => Stmt.EmitsAll.mem_calls body hbody hk
  | .loop _ (some c) body, _, ⟨_, _, _, _, htest, hbody, _⟩, hk => by
    have hmem : k ∈ c.value.calls ∨ k ∈ Stmt.callsAll body :=
      (List.mem_append.1 hk).imp (Expr.Loads.mem_calls c.value htest)
        (Stmt.EmitsAll.mem_calls body hbody)
    rw [Stmt.calls]
    split
    · exact List.mem_append.2 hmem.symm
    · exact List.mem_append.2 hmem

/-- **Every call that statements mention is one that their code makes.** -/
theorem Stmt.EmitsAll.mem_calls : (ss : List Stmt) → {code : List Piece} →
    Stmt.EmitsAll ctx z code ss → .call (some k) ∈ Stmt.mentionsAll ss → k ∈ Stmt.callsAll ss
  | [], _, _, hk => by cases hk
  | s :: rest, _, ⟨_, _, hfirst, hlater, _⟩, hk =>
    (List.mem_append.1 hk).elim
      (fun hk => List.mem_append_left _ (Stmt.Emits.mem_calls s hfirst hk))
      fun hk => List.mem_append_right _ (Stmt.EmitsAll.mem_calls rest hlater hk)

theorem Branches.Emits.mem_calls {exit : Label} : (b : Branches) → {code : List Piece} →
    b.Emits ctx z exit code → .call (some k) ∈ b.mentions → k ∈ b.calls
  | .done, _, _, hk => by cases hk
  | .otherwise body, _, h, hk => Stmt.EmitsAll.mem_calls body h hk
  | .branch condition body rest, _, ⟨_, _, _, _, htest, hbody, hothers, _⟩, hk => by
    simp only [Branches.mentions, List.mem_append] at hk
    simp only [Branches.calls, List.mem_append]
    exact hk.imp (.imp (Expr.Loads.mem_calls condition htest)
      (Stmt.EmitsAll.mem_calls body hbody)) (Branches.Emits.mem_calls rest hothers)

end

end Emission

/-! ## The functions of a module's code -/

namespace Emission

variable {p : Program} {m : Module} {start : List Piece} {units : List Done} {z : EmissionState}
  {n : Nat}

/-- A function with a label has its code. -/
theorem ModuleCode.mem_units (h : ModuleCode p m start units z) {l : Label}
    (hl : (n, l) ∈ z.entries) : n ∈ units.map (·.number) := by
  obtain ⟨u, hu, heq⟩ := List.mem_map.1 (h.entries.symm.subset hl)
  exact List.mem_map.2 ⟨u, hu, congrArg Prod.fst heq⟩

/-- **What a function calls whose code is done has its code**, if it has a body. -/
theorem ModuleCode.calls (h : ModuleCode p m start units z) {k : Nat}
    (hn : n ∈ units.map (·.number)) (hk : p.Calls n k) (huser : p.IsUser k) :
    k ∈ units.map (·.number) := by
  obtain ⟨u, hu, rfl⟩ := List.mem_map.1 hn
  obtain ⟨f, body, code, hfor⟩ := h.code u hu
  obtain ⟨first, statements, hfirst, hstatements, hcode⟩ := hfor.emitted
  rw [Program.calls_iff hfor.function, Function.mentions_of_user? hfor.user] at hk
  have hmem := Stmt.EmitsAll.mem_calls body.statements hstatements hk
  obtain ⟨j, hj⟩ := List.mem_iff_getElem?.1 hmem
  obtain ⟨i, -, g, hg, hcalls⟩ := forall₂_right hfor.emitted.calls hj
  obtain ⟨g', body', hg', hbody'⟩ := huser
  obtain rfl : g = g' := Option.some.inj (hg.symm.trans hg')
  unfold EmissionState.Calls at hcalls
  split at hcalls
  next hbody => simp [Function.user?, hbody] at hbody'
  next =>
    obtain ⟨l, hl, -⟩ := hcalls
    exact h.mem_units hl

theorem ModuleCode.mem_units_iff (h : ModuleCode p m start units z) :
    n ∈ units.map (·.number) ↔ p.Reaches m n ∧ p.IsUser n := by
  constructor
  · intro hn
    obtain ⟨u, hu, rfl⟩ := List.mem_map.1 hn
    obtain ⟨f, body, code, hfor⟩ := h.code u hu
    exact ⟨hfor.callable.1, f, body, hfor.function, hfor.user⟩
  · rintro ⟨hn, huser⟩
    induction hn with
    | own hn =>
      obtain ⟨l, hl⟩ := h.own _ hn huser
      exact h.mem_units hl
    | call _ hf hk ih =>
      have hcalls := (Program.calls_iff hf).2 hk
      exact h.calls (ih hcalls.isUser) hcalls huser

end Emission

/-- The code of a module is made for what the module reaches: every function with a body that it
reaches has got a label and its code, each once, and no other function has; the texts of the module
are the first ones beside the code, where they were. -/
structure Assembly.Covers (a : Assembly) (p : Program) (m : Module) : Prop where
  once : (a.units.map (·.number)).Nodup
  units : ∀ n, n ∈ a.units.map (·.number) ↔ n ∈ m.reachable ∧ p.IsUser n
  made : ∃ start z, (Emission.module p m).run ⟨.empty, m.static, [], []⟩ =
      .ok ((start, a.units), z) ∧
    z.entries.Perm (a.units.map fun u => (u.number, u.label)) ∧
    (∀ u ∈ a.units, ∃ f body code, u.For p m z f body code) ∧
    assemble z.labels (start ++ a.units.flatMap (·.code)) = .ok (a.code, a.labels)
  texts : m.static.texts <+: a.static.texts
  bytes : m.static.bytes <+: a.static.bytes

/-- The texts that come first take the first bytes. -/
theorem StaticData.bytes_prefix {d d' : StaticData} (h : d.texts <+: d'.texts) :
    d.bytes <+: d'.bytes := by
  obtain ⟨later, hlater⟩ := h
  rw [bytes, bytes, ← hlater, List.flatMap_append]
  exact List.prefix_append _ _

/-- **The code of a module is that of the functions it reaches**, and its texts stay where they
are. -/
theorem Assembly.covers_of_analyse {raw : Raw.Program} {p : Program} {m : Module} {a : Assembly}
    (hp : Program.analyse raw = .ok p) (hm : m ∈ p.modules) (ha : m.assembly p = .ok a) :
    a.Covers p m := by
  obtain ⟨start, z, hrun, hassemble, hstatic, hcode⟩ :=
    Module.emitted_of_assembly ((Program.analysed_of_analyse hp).static m hm) ha
  have htexts : m.static.texts <+: a.static.texts := hstatic ▸ hcode.static
  refine ⟨hcode.once, fun n => ?_,
    ⟨start, z, hrun, hcode.entries.symm, hcode.code, hassemble⟩,
    htexts, StaticData.bytes_prefix htexts⟩
  rw [hcode.mem_units_iff, (Program.exactly_reachable hp hm).2]
  exact ⟨fun h => ⟨⟨h.1, .inr h.2⟩, h.2⟩, fun h => ⟨h.1.1, h.2⟩⟩

/-- The module that reaches a library by another one has code for both. -/
theorem Assembly.covers_of_analyse_relayed : Program.analyse .relayed = .ok .relayed ∧
    ∃ m a, m ∈ Program.relayed.modules ∧ m.assembly .relayed = .ok a ∧
      a.Covers .relayed m := by
  have hp : Program.analyse .relayed = .ok .relayed := Checked.eq_ok (by decide +kernel)
  have hmodules : ∃ m ∈ Program.relayed.modules, (m.assembly .relayed).isOk = true := by
    decide +kernel
  obtain ⟨m, hm, hok⟩ := hmodules
  obtain ⟨a, ha⟩ := Checked.exists_of_isOk hok
  exact ⟨hp, m, a, hm, ha, covers_of_analyse hp hm ha⟩

end ChannelBasic
