import ChannelBasic.Proofs.Program.Refusals

/-!
# Proofs/Raw/Declarations — what a program declares, it declares once

A section is added to what has been read only if its name is not taken, so whatever is read from
lines `DeclaresOnce`.  Two of the steps are not plain additions at the end:

* `insertModule_append`, `exists_of_insertModule`: **a module goes between those whose names come
  before its own and those whose names come after**, so modules in order stay in order
  (`pairwise_insertModule`).  That they are in order is also why a name that is taken is found
  (`insertModule_of_mem`).
* `Module.functions_addFunction`: a function outside a code block joins a block or starts one, and
  comes after all functions of its module either way.

Entering such a program into tables is never refused for a function (`Program.declares_once`).
-/

namespace ChannelBasic

namespace Raw

variable {α β : Type} {line : Line} {m : Module} {p : Program}

/-- One more member whose key no other has. -/
theorem nodup_map_concat {key : α → β} {as : List α} {a : α} (has : (as.map key).Nodup)
    (ha : key a ∉ as.map key) : ((as ++ [a]).map key).Nodup := by
  rw [List.map_append, List.map_singleton, List.nodup_append']
  exact ⟨has, List.nodup_singleton _, List.disjoint_singleton.2 ha⟩

theorem notMem_map_of_any [DecidableEq β] {key : α → β} {as : List α} {b : β}
    (h : ¬ (as.any fun a => key a == b) = true) : b ∉ as.map key := by
  simpa using h

/-! ## Code blocks -/

theorem freshFunction_eq_ok {taken : List Function} {f : Function} :
    freshFunction taken f = .ok () ↔ f.name ∉ taken.map (·.name) := by
  unfold freshFunction
  split
  next h => simpa using h
  next h => simpa using h

theorem gives_freshFunction (taken : List Function) (f : Function) :
    Gives (fun _ => f.name ∉ taken.map (·.name))
      (liftM (freshFunction taken f) : LineReading Unit) :=
  .lifts fun _ h => freshFunction_eq_ok.1 h

theorem gives_freshFunctions (taken fs : List Function) :
    Gives (fun _ => ∀ f ∈ fs, f.name ∉ taken.map (·.name))
      (fs.forM fun f => (freshFunction taken f : LineReading Unit)) := by
  induction fs with
  | nil => exact .value (by simp)
  | cons f fs ih =>
    exact (gives_freshFunction taken f).seq fun _ hf =>
      ih.mono fun _ hfs => List.forall_mem_cons.2 ⟨hf, hfs⟩

theorem gives_blockFunctions (opened : Location) (bound : Nat) {found : List Function}
    (hfound : (found.map (·.name)).Nodup) :
    Gives (fun fs => (fs.map (·.name)).Nodup) (blockFunctions opened bound found) := by
  induction bound generalizing found with
  | zero => exact .refused
  | succ bound ih =>
    unfold blockFunctions
    refine .after fun line => ?_
    split
    · exact .after fun _ => .value hfound
    · refine .after fun f => (gives_freshFunction found f).seq fun _ hf => ?_
      exact ih (nodup_map_concat hfound hf)

theorem gives_codeBlock (bound : Nat) (executors : List String) :
    Gives (fun b => (b.functions.map (·.name)).Nodup) (codeBlock bound line executors) :=
  (gives_blockFunctions line.whole bound (by simp)).seq fun _ h => .value h

/-! ## The parts of a module -/

/-- No two data sets of a module have the same access, and no two functions the same name. -/
structure Module.DeclaresOnce (m : Module) : Prop where
  dataSets : (m.dataSets.map (·.access)).Nodup
  functions : (m.functions.map (·.name)).Nodup

theorem Module.functions_addBlock (b : CodeBlock) :
    ({ m with codeBlocks := m.codeBlocks ++ [b] } : Module).functions =
      m.functions ++ b.functions := by
  simp [functions]

/-- **A function outside a code block comes after all that its module has**, whether it joins the
last block or not. -/
theorem Module.functions_addFunction (f : Function) :
    (m.addFunction f).functions = m.functions ++ [f] := by
  unfold addFunction
  split
  next block hblock =>
    split
    · obtain ⟨rest, hrest⟩ := List.getLast?_eq_some_iff.1 hblock
      simp [functions, hrest]
    · exact functions_addBlock _
  next => exact functions_addBlock _

theorem Module.dataSets_addFunction (f : Function) : (m.addFunction f).dataSets = m.dataSets := by
  unfold addFunction
  split
  · split <;> rfl
  · rfl

/-- **Each way for a function into a module asks whether its name is taken**: a code block of its
own functions, then of the module; a function outside of one, of the module. -/
theorem gives_modulePart (bound : Nat) (hm : m.DeclaresOnce) :
    Gives Module.DeclaresOnce (modulePart bound m line) := by
  unfold modulePart
  split
  · refine .after fun data => ?_
    split
    · exact .refused_seq
    next hdata =>
      exact .value ⟨nodup_map_concat hm.dataSets (notMem_map_of_any hdata), hm.functions⟩
  split
  · -- the functions of the block differ from each other, and none is one of the module's
    refine .after fun _ => (gives_codeBlock bound []).seq fun block hblock => ?_
    refine (gives_freshFunctions m.functions block.functions).seq fun _ hfresh => .value ?_
    refine ⟨hm.dataSets, ?_⟩
    rw [Module.functions_addBlock, List.map_append, List.nodup_append']
    refine ⟨hm.functions, hblock, fun name hname hown => ?_⟩
    obtain ⟨f, hf, rfl⟩ := List.mem_map.1 hown
    exact hfresh f hf hname
  split
  · refine .after fun f => (gives_freshFunction m.functions f).seq fun _ hf => .value ⟨?_, ?_⟩
    · rw [Module.dataSets_addFunction]
      exact hm.dataSets
    · rw [Module.functions_addFunction]
      exact nodup_map_concat hm.functions hf
  · exact .refused

theorem gives_moduleParts (opened : Location) (bound : Nat) (hm : m.DeclaresOnce) :
    Gives Module.DeclaresOnce (moduleParts opened bound m) := by
  induction bound generalizing m with
  | zero => exact .refused
  | succ bound ih =>
    unfold moduleParts
    refine .after fun line => ?_
    split
    · exact .after fun _ => .value hm
    · exact (gives_modulePart bound hm).seq fun _ hm' => ih hm'

theorem gives_moduleHead : Gives Module.DeclaresOnce moduleHead := by
  unfold moduleHead
  refine .after fun _ => .after fun _ => .after fun _ => .value ⟨?_, ?_⟩
  · simp
  · simp [Module.functions]

theorem gives_afterWord {r : Reading α} {P : α → Prop} (hr : Gives P r) :
    Gives P (liftM (afterWord line r) : LineReading α) := by
  refine .lifts fun a ha => ?_
  obtain ⟨c, hc⟩ := run'_eq_ok.1 ha
  exact Gives.after (fun _ => hr) (.ofTokens line line.tokens) a c hc

/-! ## Modules in their order -/

section Order

variable {before after ms ms' : List Module}

/-- **However the place of a module is searched for, there is only one**: all names before it are
smaller, and the one right behind it is larger. -/
theorem insertModule_append (hbefore : ∀ n ∈ before, n.name < m.name)
    (hafter : ∀ n ∈ after.head?, m.name < n.name) :
    insertModule m (before ++ after) = .ok (before ++ m :: after) := by
  induction before with
  | nil =>
    cases after with
    | nil => rfl
    | cons n rest =>
      have hlt : m.name < n.name := hafter n rfl
      have hne : m.name ≠ n.name := fun h => String.lt_irrefl _ (h ▸ hlt)
      simp [insertModule, hne, hlt]
  | cons n before ih =>
    obtain ⟨hn, hbefore⟩ := List.forall_mem_cons.1 hbefore
    have hne : m.name ≠ n.name := fun h => String.lt_irrefl _ (h ▸ hn)
    simp [insertModule, hne, String.lt_asymm hn, ih hbefore]

theorem exists_of_insertModule (h : insertModule m ms = .ok ms') :
    ∃ before after, ms = before ++ after ∧ ms' = before ++ m :: after ∧
      (∀ n ∈ before, n.name < m.name) ∧ ∀ n ∈ after.head?, m.name < n.name := by
  induction ms generalizing ms' with
  | nil =>
    cases h
    exact ⟨[], [], rfl, rfl, by simp, by simp⟩
  | cons n rest ih =>
    unfold insertModule at h
    split at h
    · cases h
    next hne =>
      split at h
      next hlt =>
        cases h
        exact ⟨[], n :: rest, rfl, rfl, by simp, by simpa using hlt⟩
      next hge =>
        obtain ⟨rest', hrest, h⟩ := Checked.bind_eq_ok.1 h
        cases h
        obtain ⟨before, after, rfl, rfl, hbefore, hafter⟩ := ih hrest
        -- neither equal nor smaller: the search goes on past smaller names only
        have hn : n.name < m.name := by
          by_contra hle
          exact hne (beq_iff_eq.2 (String.le_antisymm (String.not_lt.1 hle) (String.not_lt.1 hge)))
        exact ⟨n :: before, after, rfl, rfl, List.forall_mem_cons.2 ⟨hn, hbefore⟩, hafter⟩

theorem perm_insertModule (h : insertModule m ms = .ok ms') : ms'.Perm (m :: ms) := by
  obtain ⟨before, after, rfl, rfl, -, -⟩ := exists_of_insertModule h
  exact List.perm_middle

/-- **Modules in order stay in order.** -/
theorem pairwise_insertModule (hms : ms.Pairwise fun n k => n.name < k.name)
    (h : insertModule m ms = .ok ms') : ms'.Pairwise fun n k => n.name < k.name := by
  obtain ⟨before, after, rfl, rfl, hbefore, hhead⟩ := exists_of_insertModule h
  obtain ⟨hb, ha, hacross⟩ := List.pairwise_append.1 hms
  have hafter : ∀ n ∈ after, m.name < n.name := by
    cases after with
    | nil => simp
    | cons n rest =>
      have hn : m.name < n.name := hhead n rfl
      refine List.forall_mem_cons.2 ⟨hn, fun k hk => ?_⟩
      exact String.lt_trans hn ((List.pairwise_cons.1 ha).1 k hk)
  refine List.pairwise_append.2 ⟨hb, List.pairwise_cons.2 ⟨hafter, ha⟩, fun n hn k hk => ?_⟩
  obtain rfl | hk := List.mem_cons.1 hk
  · exact hbefore n hn
  · exact hacross n hn k hk

theorem insertModule_eq_error {d : Diagnostic} (h : insertModule m ms = .error d) :
    d = Rule.moduleAlreadyExists.about m.location m.name ∧ ∃ n ∈ ms, n.name = m.name := by
  induction ms with
  | nil => cases h
  | cons n rest ih =>
    unfold insertModule at h
    split at h
    next heq =>
      cases h
      exact ⟨rfl, n, List.mem_cons_self, (beq_iff_eq.1 heq).symm⟩
    next =>
      split at h
      · cases h
      · cases hrest : insertModule m rest with
        | ok ms' =>
          rw [hrest] at h
          cases h
        | error d' =>
          rw [hrest] at h
          cases h
          obtain ⟨hd, k, hk, hname⟩ := ih hrest
          exact ⟨hd, k, List.mem_cons_of_mem _ hk, hname⟩

/-- **Among modules in order a name that is taken is found**; where they are out of order, the
search may end before it. -/
theorem insertModule_of_mem (hms : ms.Pairwise fun n k => n.name < k.name) {n : Module}
    (hn : n ∈ ms) (hname : n.name = m.name) :
    insertModule m ms = .error (Rule.moduleAlreadyExists.about m.location m.name) := by
  cases h : insertModule m ms with
  | error d => rw [(insertModule_eq_error h).1]
  | ok ms' =>
    obtain ⟨before, after, rfl, rfl, -, -⟩ := exists_of_insertModule h
    obtain ⟨-, hafter, hbefore⟩ := List.pairwise_append.1 (pairwise_insertModule hms h)
    refine (String.lt_irrefl m.name ?_).elim
    obtain hn | hn := List.mem_append.1 hn
    · exact hname ▸ hbefore n hn m List.mem_cons_self
    · exact hname ▸ (List.pairwise_cons.1 hafter).1 n hn

end Order

/-! ## Programs -/

/-- **Nothing is declared twice**: types and the functions of each library have different names,
modules stand in the order of theirs, and each of them declares once. -/
structure Program.DeclaresOnce (p : Program) : Prop where
  structs : (p.structs.map (·.name)).Nodup
  libraries : ∀ b ∈ p.libraries, (b.functions.map (·.name)).Nodup
  modules : p.modules.Pairwise fun m n => m.name < n.name
  members : ∀ m ∈ p.modules, m.DeclaresOnce

theorem gives_programPart (bound : Nat) (hp : p.DeclaresOnce) :
    Gives Program.DeclaresOnce (programPart bound p line) := by
  unfold programPart
  split
  · exact .after fun _ => .after fun _ =>
      .value ⟨hp.structs, hp.libraries, hp.modules, hp.members⟩
  split
  · refine .after fun s => ?_
    split
    · exact .refused_seq
    next hs =>
      have hstructs := nodup_map_concat hp.structs (notMem_map_of_any hs)
      exact .value ⟨hstructs, hp.libraries, hp.modules, hp.members⟩
  split
  · refine .after fun executors => (gives_codeBlock bound executors).seq fun block hblock => ?_
    have hlibraries := List.forall_mem_append.2 ⟨hp.libraries, List.forall_mem_singleton.2 hblock⟩
    exact .value ⟨hp.structs, hlibraries, hp.modules, hp.members⟩
  split
  · refine (gives_afterWord gives_moduleHead).seq fun head hhead => ?_
    refine (gives_moduleParts _ bound hhead).seq fun m hm => ?_
    refine Gives.seq (.lifts fun ms hms => hms) fun ms hms => .value ?_
    refine ⟨hp.structs, hp.libraries, pairwise_insertModule hp.modules hms, fun n hn => ?_⟩
    exact List.forall_mem_cons.2 ⟨hm, hp.members⟩ n ((perm_insertModule hms).mem_iff.1 hn)
  split
  · exact .after fun _ => .after fun _ =>
      .value ⟨hp.structs, hp.libraries, hp.modules, hp.members⟩
  · exact .refused

theorem gives_programParts (bound : Nat) (hp : p.DeclaresOnce) :
    Gives Program.DeclaresOnce (programParts bound p) := by
  induction bound generalizing p with
  | zero => exact .value hp
  | succ bound ih =>
    unfold programParts
    refine .reads fun lines => ?_
    split
    · exact .value hp
    · exact .after fun _ => (gives_programPart bound hp).seq fun _ hp' => ih hp'

theorem declaresOnce_ofLines {lines : List Line} (h : Program.ofLines lines = .ok p) :
    p.DeclaresOnce := by
  obtain ⟨lines', hrun⟩ := run'_eq_ok.1 h
  refine gives_programParts lines.length ?_ lines p lines' hrun
  exact ⟨by simp [Program.empty], by simp [Program.empty], by simp [Program.empty],
    by simp [Program.empty]⟩

/-- **A program that is read declares nothing twice, and its modules are in the order of their
names**; so the tables have a place for each of its functions. -/
theorem Program.declares_once {lines : List Line} (h : Program.ofLines lines = .ok p) :
    p.DeclaresOnce ∧
      ∀ d, ChannelBasic.Program.ofRaw p = .error d → d.rule ≠ .functionAlreadyExists := by
  have hp := declaresOnce_ofLines h
  refine ⟨hp, fun d hd => ChannelBasic.Program.rule_ofRaw (R := (· ≠ .functionAlreadyExists))
    (by decide) (by decide) (by decide) (by decide) (fun m hm hnames => ?_) hd⟩
  exact (hnames (hp.members m hm).functions).elim

/-- Modules out of order; functions in a library, before, in and after a code block. -/
def scattered : Checked (List Line) :=
  ["TYPE T", "END TYPE", "TYPE U", "END TYPE", "CODE", "DECLARE FUNCTION F()", "END CODE",
    "MODULE B N", "END MODULE",
    "MODULE A N", "DATA INPUT", "END DATA", "DATA", "END DATA", "DECLARE FUNCTION F()", "CODE",
    "DECLARE FUNCTION G()", "END CODE", "DECLARE FUNCTION H()", "DECLARE FUNCTION K()",
    "END MODULE"].zipIdx.mapM fun (text, number) => Line.read "main.bas" (number + 1) text

theorem Program.declares_once_scattered :
    ∃ lines p, scattered = .ok lines ∧ Program.ofLines lines = .ok p ∧
      p.modules.map (fun m => (m.name, m.codeBlocks.map fun b => b.functions.map (·.name))) =
        [("A", [["F"], ["G"], ["H", "K"]]), ("B", [])] ∧
      p.DeclaresOnce ∧
      ∀ d, ChannelBasic.Program.ofRaw p = .error d → d.rule ≠ .functionAlreadyExists := by
  have h : (do
      let p ← Program.ofLines (← scattered)
      return p.modules.map fun m =>
        (m.name, m.codeBlocks.map fun b => b.functions.map (·.name)) : Checked _) =
      .ok [("A", [["F"], ["G"], ["H", "K"]]), ("B", [])] := by decide +kernel
  obtain ⟨lines, hlines, h⟩ := Checked.bind_eq_ok.1 h
  obtain ⟨p, hread, h⟩ := Checked.bind_eq_ok.1 h
  exact ⟨lines, p, hlines, hread, Checked.pure_eq_ok.1 h, declares_once hread⟩

end Raw

end ChannelBasic
