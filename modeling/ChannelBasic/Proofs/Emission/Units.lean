import Mathlib.Data.List.Nodup
import ChannelBasic.Proofs.Emission.Code
import ChannelBasic.Proofs.Typing.Nodes

/-!
# Proofs/Emission/Units — every function that can be called has its code

Functions wait in a queue for their code, and none is queued twice, so the queue runs empty before
the bound on the rounds is reached.  Then the functions with a label are those whose code is done:
**a label that is called stands in front of a function's code** (`ends_module`).
-/

namespace ChannelBasic

open Code

/-- The functions that a module can come to run: its own, and those that they call. -/
inductive Program.Reaches (p : Program) (m : Module) : Nat → Prop
  | own {n : Nat} (h : n ∈ m.functions) : Reaches p m n
  | call {n k : Nat} {f : Function} (h : Reaches p m n) (hf : p.functions[n]? = some f)
      (hk : .call (some k) ∈ f.mentions) : Reaches p m k

/-- A function that has a body. -/
def Program.IsUser (p : Program) (n : Nat) : Prop :=
  ∃ f body, p.functions[n]? = some f ∧ f.user? = some body

theorem Program.isUser_iff {p : Program} {n : Nat} :
    ((p.functions[n]?).map Function.isUser).getD false = true ↔ p.IsUser n := by
  cases hf : p.functions[n]? with
  | none => simp [IsUser, hf]
  | some f => simp [IsUser, hf, Function.isUser, Option.isSome_iff_exists]

theorem Program.IsUser.lt {p : Program} {n : Nat} (h : p.IsUser n) : n < p.functions.size := by
  obtain ⟨f, body, hf, -⟩ := h
  exact (Array.getElem?_eq_some_iff.1 hf).1

/-- A function of the program that a module can come to run. -/
def Program.Callable (p : Program) (m : Module) (n : Nat) : Prop :=
  p.Reaches m n ∧ n < p.functions.size

/-- **A module comes to run its own functions and those of libraries**, no others. -/
theorem Program.Analysed.owner_of_reaches {p : Program} (h : p.Analysed) {k n : Nat} {m : Module}
    (hm : p.modules[k]? = some m) (hn : p.Reaches m n) {f : Function}
    (hf : p.functions[n]? = some f) : f.owner = .module k ∨ f.owner.isLibrary = true := by
  induction hn generalizing f with
  | own hn =>
    have howner := h.modules k m hm _ hn
    rw [Program.owner?, hf] at howner
    exact .inl (Option.some.inj howner)
  | call _ hg hk ih =>
    have hv := h.visible hg hk
    rw [Program.visible, Program.owner?, hf, Option.map_some] at hv
    simp only [Bool.or_eq_true, beq_iff_eq] at hv
    obtain hv | hv := hv
    · rw [hv]
      exact ih hg
    · exact .inr hv

/-- The code of a function, `z` knowing the texts and labels of its whole module. -/
structure Emission.Done.For (u : Emission.Done) (p : Program) (m : Module) (z : EmissionState)
    (f : Function) (body : UserBody) (code : List Piece) : Prop where
  callable : p.Callable m u.number
  function : p.functions[u.number]? = some f
  user : f.user? = some body
  name : u.name = f.name
  entry : (u.number, u.label) ∈ z.entries
  arguments : u.arguments = body.frame.arguments
  result : p.types.resultSize? f.returns = some u.result
  pieces : u.code = .mark u.label :: code
  emitted : EmissionContext.Body ⟨p, f, body, m.fields⟩ z code

theorem Function.mentions_of_user? {f : Function} {body : UserBody} (h : f.user? = some body) :
    f.mentions = Stmt.mentionsAll body.statements := by
  unfold user? at h
  unfold mentions
  split at h
  next b hb =>
    obtain rfl := Option.some.inj h
    rfl
  next => cases h

namespace Emission

variable {p : Program} {m : Module} {s : EmissionState} {n : Nat}

/-- What a callable function calls is callable. -/
theorem allow_mentions {f : Function} (h : p.Callable m n) (hf : p.functions[n]? = some f) :
    Mention.Allow p.functions.size (p.Callable m) f.mentions :=
  fun _ hk hcall => ⟨.call h.1 hf hcall, hk⟩

theorem ends_resultSize (types : TypeTable) (place : Location) (returns : Option TypeId) :
    Ends (resultSize types place returns) s fun k s' =>
      s' = s ∧ types.resultSize? returns = some k := by
  cases returns with
  | some t => exact Ends.lifts fun _ h => ⟨rfl, TypeTable.sizeAt_eq_ok.1 h⟩
  | none => exact Ends.value ⟨rfl, rfl⟩

/-- The code of one function. -/
theorem ends_functionUnit (hn : p.Callable m n) :
    Ends (functionUnit p m n) s fun u s' => s.Grows (p.Callable m) s' ∧ u.number = n ∧
      ∀ z, s'.Known z → ∃ f body code, u.For p m z f body code := by
  unfold functionUnit
  refine (ends_entry hn).seq fun l s₁ h₁ => ?_
  obtain ⟨hg₁, hl⟩ := h₁
  split
  next => exact Ends.refused
  next f body hf =>
    obtain ⟨g, hg, hgf⟩ := Option.bind_eq_some_iff.1 hf
    obtain ⟨b, hb, hgb⟩ := Option.map_eq_some_iff.1 hgf
    obtain ⟨rfl, rfl⟩ := Prod.mk.inj hgb
    let ctx : EmissionContext := ⟨p, g, b, m.fields⟩
    have hallow : Mention.Allow ctx.program.functions.size (p.Callable m)
        (Stmt.mentionsAll ctx.body.statements) := by
      rw [← Function.mentions_of_user? hb]
      exact allow_mentions hn hg
    refine (ends_function hallow).seq fun code s₂ h₂ => ?_
    refine (ends_resultSize p.types g.location g.returns).seq fun size s₃ h₃ => ?_
    obtain ⟨rfl, hsize⟩ := h₃
    exact Ends.value ⟨hg₁.trans h₂.1, rfl, fun z hz => ⟨g, b, code, hn, hg, hb, rfl,
      hz.entries _ (h₂.1.entries _ hl), rfl, hsize, rfl, h₂.2 z hz⟩⟩

/-- What is known after the code of some functions is done, `done` being those done before. -/
structure UnitsDone (p : Program) (m : Module) (done : List Nat) (s : EmissionState)
    (units : List Done) (s' : EmissionState) : Prop where
  known : s.Known s'
  sound : s.static.Sound → s'.static.Sound
  callable : ∀ e ∈ s'.entries, p.Callable m e.1
  counted : s'.Counted (done ++ units.map (·.number))
  units : ∀ u ∈ units, ∀ z, s'.Known z → ∃ f body code, u.For p m z f body code

/-- **A round takes one function from the queue**, and whatever it adds to the queue has got its
label then. -/
theorem ends_functionUnits (bound : Nat) : (s : EmissionState) → (done : List Nat) →
    s.Counted done → (∀ e ∈ s.entries, p.Callable m e.1) →
    Ends (functionUnits p m bound) s fun units s' => UnitsDone p m done s units s' ∧
      (s'.queue = [] ∨ units.length = bound) := by
  induction bound with
  | zero =>
    intro s done hs hcallable
    refine Ends.value ⟨⟨.refl s, fun h => h, hcallable, ?_, by simp⟩, .inr rfl⟩
    rwa [List.map_nil, List.append_nil]
  | succ bound ih =>
    intro s done hs hcallable
    unfold functionUnits
    refine Ends.reads ?_
    split
    next hq =>
      refine Ends.value ⟨⟨.refl s, fun h => h, hcallable, ?_, by simp⟩, .inl hq⟩
      rwa [List.map_nil, List.append_nil]
    next number rest hq =>
      have hnumber : p.Callable m number := by
        have hmem : number ∈ s.entries.map Prod.fst := hs.perm.symm.subset (by simp [hq])
        obtain ⟨e, he, rfl⟩ := List.mem_map.1 hmem
        exact hcallable e he
      refine Ends.seq (Ends.modifies (Q := fun _ s' => s' = { s with queue := rest }) rfl) ?_
      rintro - s₁ rfl
      refine (ends_functionUnit hnumber).seq fun u s₂ h₂ => ?_
      obtain ⟨hg, rfl, hu⟩ := h₂
      have hcallable₂ : ∀ e ∈ s₂.entries, p.Callable m e.1 :=
        fun e he => (hg.new e he).elim (hcallable e) id
      refine (ih s₂ _ (hg.counted _ (hs.popped hq)) hcallable₂).seq fun units s₃ h₃ => ?_
      obtain ⟨hdone, hend⟩ := h₃
      have hpopped : s.Known s₂ := ⟨hg.static, hg.entries⟩
      refine Ends.value ⟨⟨hpopped.trans hdone.known, fun h => hdone.sound (hg.sound h),
        hdone.callable, ?_, ?_⟩, ?_⟩
      · simpa using hdone.counted
      · intro v hv z hz
        obtain rfl | hv := List.mem_cons.1 hv
        · exact hu z (hdone.known.trans hz)
        · exact hdone.units v hv z hz
      · exact hend.imp_right (congrArg (· + 1))

/-- The function that a module starts with is one of its own and has a body. -/
theorem main?_eq_some {f : Function} (h : main? p m = some (n, f)) :
    n ∈ m.functions ∧ p.functions[n]? = some f ∧ f.isUser = true := by
  obtain ⟨k, hk, hfound⟩ := List.exists_of_findSome?_eq_some h
  obtain ⟨g, hg, hfound⟩ := Option.bind_eq_some_iff.1 hfound
  split at hfound
  next huser =>
    obtain ⟨rfl, rfl⟩ := Prod.mk.inj (Option.some.inj hfound)
    rw [Bool.and_eq_true] at huser
    exact ⟨hk, hg, huser.1⟩
  next => cases hfound

/-- The first instructions of a module: room for the result of the function it starts with, its
call, and the end. -/
def Starts (p : Program) (m : Module) (start : List Piece) (z : EmissionState) : Prop :=
  match main? p m with
  | none => start = [.op .finish]
  | some (number, f) => ∃ size l, p.types.resultSize? f.returns = some size ∧
      (number, l) ∈ z.entries ∧
      start = roomFor f.returns size ++ [.op (.call .user (.label l)), .op .finish]

theorem ends_bootstrap (p : Program) (m : Module) :
    Ends (bootstrap p m) s fun start s' => s.Grows (p.Callable m) s' ∧
      ∀ z, s'.Known z → Starts p m start z := by
  unfold bootstrap
  split
  next hmain =>
    refine Ends.value ⟨.refl _ s, fun z _ => ?_⟩
    simp only [Starts, hmain]
  next number f hmain =>
    obtain ⟨hown, hf, -⟩ := main?_eq_some hmain
    have hnumber : p.Callable m number := ⟨.own hown, (Array.getElem?_eq_some_iff.1 hf).1⟩
    refine (ends_resultRoom p.types f.location f.returns).seq fun room s₁ h₁ => ?_
    obtain ⟨rfl, size, hsize, rfl⟩ := h₁
    refine (ends_entry hnumber).seq fun l s₂ h₂ => ?_
    refine Ends.value ⟨h₂.1, fun z hz => ?_⟩
    simp only [Starts, hmain]
    exact ⟨size, l, hsize, hz.entries _ h₂.2, rfl⟩

/-- The module's own functions get labels. -/
theorem ends_owned : Ends (m.functions.forM fun number => do
    if ((p.functions[number]?).map Function.isUser).getD false then
      let _ ← entry number) s fun _ s' => s.Grows (p.Callable m) s' ∧
        ∀ n ∈ m.functions, p.IsUser n → ∃ l, (n, l) ∈ s'.entries := by
  refine (Ends.eachHas (I := fun _ => True) (K := EmissionState.Grows (p.Callable m))
    (Q := fun n s' => p.IsUser n → ∃ l, (n, l) ∈ s'.entries) (.refl _) .trans
    (fun h hg hn => (h hn).imp fun l hl => hg.entries _ hl) (fun n hn s _ => ?_) trivial).mono
    fun _ _ h => h.2
  split
  next huser =>
    have hcallable : p.Callable m n := ⟨.own hn, (Program.isUser_iff.1 huser).lt⟩
    refine (ends_entry hcallable).seq fun l s' h => ?_
    exact Ends.value ⟨trivial, h.1, fun _ => ⟨l, h.2⟩⟩
  next hnative =>
    exact Ends.value ⟨trivial, .refl _ s, fun huser => absurd (Program.isUser_iff.2 huser) hnative⟩

/-- What the code of a module consists of, `z` knowing its texts and labels. -/
structure ModuleCode (p : Program) (m : Module) (start : List Piece) (units : List Done)
    (z : EmissionState) : Prop where
  starts : Starts p m start z
  sound : z.static.Sound
  code : ∀ u ∈ units, ∃ f body code, u.For p m z f body code
  entries : (units.map fun u => (u.number, u.label)).Perm z.entries
  once : (units.map (·.number)).Nodup
  own : ∀ n ∈ m.functions, p.IsUser n → ∃ l, (n, l) ∈ z.entries
  static : m.static.texts <+: z.static.texts

/-- When no function waits, the functions with a label are those done. -/
theorem UnitsDone.perm {units : List Done} {z : EmissionState}
    (h : UnitsDone p m [] s units z) (hq : z.queue = []) :
    (z.entries.map Prod.fst).Perm (units.map (·.number)) := by
  have hperm := h.counted.perm
  rwa [hq, List.nil_append, List.append_nil] at hperm

/-- When no function waits, the code of none is done twice. -/
theorem UnitsDone.once {units : List Done} {z : EmissionState}
    (h : UnitsDone p m [] s units z) (hq : z.queue = []) : (units.map (·.number)).Nodup :=
  (h.perm hq).nodup_iff.1 h.counted.nodup

/-- When no function waits, the labels of functions are those of the functions done. -/
theorem UnitsDone.entries {units : List Done} {z : EmissionState}
    (h : UnitsDone p m [] s units z) (hq : z.queue = []) :
    (units.map fun u => (u.number, u.label)).Perm z.entries := by
  have hnodup : (units.map fun u => (u.number, u.label)).Nodup := by
    refine List.Nodup.of_map Prod.fst ?_
    rw [List.map_map]
    exact h.once hq
  have hsubset : ∀ e ∈ units.map fun u => (u.number, u.label), e ∈ z.entries := by
    intro e he
    obtain ⟨u, hu, rfl⟩ := List.mem_map.1 he
    obtain ⟨f, body, code, hfor⟩ := h.units u hu z (.refl z)
    exact hfor.entry
  refine (List.Nodup.subperm hnodup hsubset).perm_of_length_le ?_
  simpa using (h.perm hq).length_eq.le

/-- **Every function with a label has its code in the module.** -/
theorem ends_module (hstatic : m.static.Sound) :
    Ends (module p m) ⟨.empty, m.static, [], []⟩ fun r z => ModuleCode p m r.1 r.2 z := by
  unfold module
  refine (ends_bootstrap p m).seq fun start s₁ h₁ => ?_
  obtain ⟨hg₁, hstart⟩ := h₁
  refine ends_owned.seq fun _ s₂ h₂ => ?_
  obtain ⟨hg₂, hown⟩ := h₂
  have hg := hg₁.trans hg₂
  have hcounted : s₂.Counted [] := hg.counted [] ⟨.refl _, List.nodup_nil⟩
  have hcallable : ∀ e ∈ s₂.entries, p.Callable m e.1 := fun e he =>
    (hg.new e he).elim (fun h => by cases h) id
  refine (ends_functionUnits p.functions.size s₂ [] hcounted hcallable).seq fun units z h => ?_
  obtain ⟨hdone, hend⟩ := h
  have hqueue : z.queue = [] := hend.elim id fun hlen =>
    hdone.counted.queue_eq_nil (fun e he => (hdone.callable e he).2) (by simp [hlen])
  exact Ends.value ⟨hstart z (hg₂.known.trans hdone.known), hdone.sound (hg.sound hstatic),
    fun u hu => hdone.units u hu z (.refl z), hdone.entries hqueue,
    hdone.once hqueue, fun n hn huser => (hown n hn huser).imp fun l hl => hdone.known.entries _ hl,
    hg.static.trans hdone.known.static⟩

end Emission

/-- **The code of a module is put together from what is emitted for it.** -/
theorem Module.emitted_of_assembly {p : Program} {m : Module} {a : Assembly}
    (hstatic : m.static.Sound) (ha : m.assembly p = .ok a) :
    ∃ start z, (Emission.module p m).run ⟨.empty, m.static, [], []⟩ = .ok ((start, a.units), z) ∧
      assemble z.labels (start ++ a.units.flatMap (·.code)) = .ok (a.code, a.labels) ∧
      a.static = z.static ∧ Emission.ModuleCode p m start a.units z := by
  obtain ⟨⟨⟨start, units⟩, z⟩, hrun, ha⟩ := Checked.bind_eq_ok.1 ha
  obtain ⟨⟨code, labels⟩, hassemble, ha⟩ := Checked.bind_eq_ok.1 ha
  obtain rfl := Checked.pure_eq_ok.1 ha
  exact ⟨start, z, hrun, hassemble, rfl, Emission.ends_module hstatic _ _ hrun⟩

end ChannelBasic
