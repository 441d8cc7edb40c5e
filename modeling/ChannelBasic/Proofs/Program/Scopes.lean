import ChannelBasic.Proofs.Program.Reach

/-!
# Proofs/Program/Scopes — which libraries the functions of a module come from

A name is looked up among the functions of the caller's own module or library, and then in the
libraries that are common or share an executor with it; so **every call stays within what is offered
to its caller** (`offers_of_bindNames`).  What a call leads to makes calls of its own, and a library
may be for several executors: the libraries a module comes to use are linked to its executor one
through the other (`Module.Serves`), and need not name it themselves.
-/

namespace ChannelBasic

/-! ## What functions can call -/

mutual

theorem Expr.Plain.visible {t : TypeTable} {visible : Nat → Bool} {k : Nat} : (e : Expr) →
    e.Plain t visible → .call (some k) ∈ e.mentions → visible k = true
  | .literal _ (.text _), _, hk | .literal _ (.boolean _), _, hk | .literal _ (.integral _), _, hk
  | .literal _ (.real _), _, hk | .name _ _ _, _, hk => by simp [Expr.mentions] at hk
  | .member _ target _ _, h, hk => Expr.Plain.visible target h hk
  | .call _ _ arguments _, h, hk => by
    obtain hk | hk := List.mem_cons.1 hk
    · exact h.1 k (Mention.call.inj hk).symm
    · exact Expr.PlainAll.visible arguments h.2 hk
  | .unary _ _ operand, h, hk => Expr.Plain.visible operand h hk
  | .binary _ _ left right, h, hk => (List.mem_append.1 hk).elim
    (Expr.Plain.visible left h.1) (Expr.Plain.visible right h.2)

theorem Expr.PlainAll.visible {t : TypeTable} {visible : Nat → Bool} {k : Nat} :
    (es : List Expr) → Expr.PlainAll t visible es → .call (some k) ∈ Expr.mentionsAll es →
      visible k = true
  | [], _, hk => by cases hk
  | e :: rest, h, hk => (List.mem_append.1 hk).elim
    (Expr.Plain.visible e h.1) (Expr.PlainAll.visible rest h.2)

end

theorem Expr.Plain.visible_of {t : TypeTable} {visible : Nat → Bool} {k : Nat}
    {value : Option Expr} (h : ∀ e, value = some e → e.Plain t visible)
    (hk : .call (some k) ∈ Expr.mentionsOf value) : visible k = true := by
  cases value with
  | none => cases hk
  | some e => exact Expr.Plain.visible e (h e rfl) hk

mutual

theorem Stmt.Plain.visible {t : TypeTable} {visible : Nat → Bool} {k : Nat} : (s : Stmt) →
    s.Plain t visible → .call (some k) ∈ s.mentions → visible k = true
  | .var _ _ _, h, hk | .return _ _, h, hk => Expr.Plain.visible_of h hk
  | .assign _ value target, h, hk => (List.mem_append.1 hk).elim
    (Expr.Plain.visible value h.1) (Expr.Plain.visible target h.2)
  | .invoke _ call, h, hk => Expr.Plain.visible call h hk
  | .choose _ branches, h, hk => Branches.Plain.visible branches h hk
  | .count _ counter start finish step body _, ⟨⟨hc, hs, hf, hstep⟩, hb⟩, hk => by
    simp only [Stmt.mentions, List.mem_append] at hk
    obtain (((hk | hk) | hk) | hk) | hk := hk
    · exact Expr.Plain.visible counter hc hk
    · exact Expr.Plain.visible start hs hk
    · exact Expr.Plain.visible finish hf hk
    · exact Expr.Plain.visible_of hstep hk
    · exact Stmt.PlainAll.visible body hb hk
  | .loop _ condition body, ⟨hc, hb⟩, hk => by
    obtain hk | hk := List.mem_append.1 hk
    · refine Expr.Plain.visible_of (t := t) (fun e he => ?_) hk
      obtain ⟨c, hc', rfl⟩ := Option.map_eq_some_iff.1 he
      exact hc c hc'
    · exact Stmt.PlainAll.visible body hb hk

/-- Statements as they are written call only what can be seen. -/
theorem Stmt.PlainAll.visible {t : TypeTable} {visible : Nat → Bool} {k : Nat} :
    (ss : List Stmt) → Stmt.PlainAll t visible ss → .call (some k) ∈ Stmt.mentionsAll ss →
      visible k = true
  | [], _, hk => by cases hk
  | s :: rest, h, hk => (List.mem_append.1 hk).elim
    (Stmt.Plain.visible s h.1) (Stmt.PlainAll.visible rest h.2)

theorem Branches.Plain.visible {t : TypeTable} {visible : Nat → Bool} {k : Nat} : (b : Branches) →
    b.Plain t visible → .call (some k) ∈ b.mentions → visible k = true
  | .done, _, hk => by cases hk
  | .otherwise body, h, hk => Stmt.PlainAll.visible body h hk
  | .branch condition body rest, ⟨hc, hb, hr⟩, hk => by
    simp only [Branches.mentions, List.mem_append] at hk
    obtain (hk | hk) | hk := hk
    · exact Expr.Plain.visible condition hc hk
    · exact Stmt.PlainAll.visible body hb hk
    · exact Branches.Plain.visible rest hr hk

end

namespace Program

variable {p p' : Program} {owner : Owner} {name : String} {n k : Nat}

/-- The functions of an owner, and the executors it is for. -/
def scope? (p : Program) : Owner → Option (List Nat × List String)
  | .module index => (p.modules[index]?).map fun m => (m.functions, [m.executor])
  | .library index => (p.libraries[index]?).map fun l => (l.functions, l.executors)

/-- What functions of an owner can call: its own functions, and those of libraries that are there
for its executors. -/
def Offers (p : Program) (owner : Owner) (k : Nat) : Prop :=
  ∃ functions executors, p.scope? owner = some (functions, executors) ∧
    (k ∈ functions ∨ ∃ l ∈ p.libraries, l.isVisible executors = true ∧ k ∈ l.functions)

theorem function?_eq (p : Program) (owner : Owner) (name : String) :
    p.function? owner name = (p.scope? owner).bind fun x =>
      p.functionNamed? x.1 name <|> p.libraryFunction? x.2 name := by
  cases owner with
  | module index =>
    unfold function? scope?
    dsimp only
    cases p.modules[index]? <;> rfl
  | library index =>
    unfold function? scope?
    dsimp only
    cases p.libraries[index]? <;> rfl

/-- A name means a function that is offered. -/
theorem offers_of_function? (h : p.function? owner name = some k) : p.Offers owner k := by
  rw [function?_eq] at h
  obtain ⟨⟨functions, executors⟩, hscope, h⟩ := Option.bind_eq_some_iff.1 h
  rw [Option.orElse_eq_orElse, Option.orElse_eq_or, Option.or_eq_some_iff] at h
  refine ⟨functions, executors, hscope, ?_⟩
  obtain h | ⟨-, h⟩ := h
  · exact .inl (mem_of_functionNamed? h)
  · obtain ⟨l, hl, hk⟩ := List.exists_of_findSome?_eq_some h
    obtain ⟨hl, hvisible⟩ := List.mem_filter.1 hl
    exact .inr ⟨l, hl, hvisible, mem_of_functionNamed? hk⟩

open Classical in
/-- **A bound function calls only what is offered to its owner.** -/
theorem offers_of_bindNames (hp : p.Written fun _ _ => false) (h : p.bindNames = .ok p')
    {f : Function} (hf : p'.functions[n]? = some f) (hk : p'.Calls n k) : p'.Offers f.owner k := by
  obtain ⟨constants, -, h⟩ := Checked.bind_eq_ok.1 h
  obtain ⟨lengths, -, h⟩ := Checked.bind_eq_ok.1 h
  obtain ⟨functions, hfunctions, h⟩ := Checked.bind_eq_ok.1 h
  obtain ⟨channels, -, h⟩ := Checked.bind_eq_ok.1 h
  obtain rfl := Checked.pure_eq_ok.1 h
  rw [calls_iff hf] at hk
  obtain ⟨g, hg, hbind⟩ := forall₂_right (Checked.mapM_eq_ok.1 hfunctions) (k := n)
    (by simpa using hf)
  unfold bindFunction at hbind
  split at hbind
  next arguments hbody =>
    obtain rfl := Except.ok.inj hbind
    simp [Function.mentions, hbody] at hk
  next body hbody =>
    obtain ⟨⟨statements, s⟩, hrun, hbind⟩ := Checked.bind_eq_ok.1 hbind
    obtain rfl := Checked.pure_eq_ok.1 hbind
    have hplain := (hp.functions n g (by simpa using hg) body
      (by rw [Function.user?, hbody])).statements
    have hsee : Binding.Sees ⟨⟨p.constantNames, (p.ownerFields g.owner).map (·.name),
        body.arguments.map (·.name), p.function? g.owner⟩, true, [], declared body.statements,
        none⟩ (fun k => decide (p.Offers g.owner k)) :=
      fun _ _ h => decide_eq_true (offers_of_function? h)
    obtain ⟨-, hplain', -⟩ := Binding.ends_stmts hsee [] body.statements _ hplain _ _ hrun
    exact of_decide_eq_true (Stmt.PlainAll.visible statements hplain' hk)

end Program

/-! ## The libraries of a module -/

/-- Libraries that are linked to the executor of a module: they name it, or another executor of a
library that is linked to it and has a function which the module reaches. -/
inductive Module.Serves (m : Module) (p : Program) : Library → Prop
  | named {l : Library} (h : m.executor ∈ l.executors) : Serves m p l
  | shared {l l' : Library} {n : Nat} {executor : String} (h : Serves m p l) (hl : l ∈ p.libraries)
      (hn : n ∈ l.functions) (hreach : n ∈ m.reachable) (hx : executor ∈ l.executors)
      (hx' : executor ∈ l'.executors) : Serves m p l'

namespace Module

variable {p q : Program} {m m' : Module} {l l' : Library} {n : Nat}

/-- The libraries that a module reaches do not name different executors. -/
def IsUniform (m : Module) (p : Program) : Prop :=
  ∀ l ∈ p.libraries, (∃ n ∈ l.functions, n ∈ m.reachable) →
    ∀ x ∈ l.executors, ∀ y ∈ l.executors, x = y

/-- Where no library leads from one executor to another, all libraries name that of the module. -/
theorem Serves.mem_executors (h : m.Serves p l) (hm : m.IsUniform p) : m.executor ∈ l.executors := by
  induction h with
  | named h => exact h
  | @shared l l' n executor h hl hn hreach hx hx' ih =>
    rwa [hm l hl ⟨n, hn, hreach⟩ _ ih _ hx]

/-- A function that a module may come to run: its own, or one of a library that is common or linked
to its executor. -/
def Admits (m : Module) (p : Program) (n : Nat) : Prop :=
  n ∈ m.functions ∨ ∃ l ∈ p.libraries, n ∈ l.functions ∧ (l.executors = [] ∨ m.Serves p l)

/-- A library that is there for a linked one is common or linked itself. -/
theorem Serves.visible (h : m.Serves p l) (hl : l ∈ p.libraries) (hn : n ∈ l.functions)
    (hreach : n ∈ m.reachable) (hvisible : l'.isVisible l.executors = true) :
    l'.executors = [] ∨ m.Serves p l' := by
  rw [Library.isVisible, Bool.or_eq_true, List.isEmpty_iff, List.any_eq_true] at hvisible
  refine hvisible.imp_right fun hshared => ?_
  obtain ⟨x, hx, hmem⟩ := hshared
  exact h.shared hl hn hreach (List.contains_iff_mem.1 hmem) hx

/-- **What a function calls that a module may run, the module may run.** -/
theorem Admits.offers {visible : Owner → Nat → Bool} (hp : p.Written visible)
    (hlibraries : q.libraries = p.libraries) {j k : Nat} (hm : p.modules[j]? = some m)
    (hm' : p.Surveyed m m') (hn : m'.Admits q n) (hreach : n ∈ m'.reachable) {f : Function}
    (hf : p.functions[n]? = some f) (hk : p.Offers f.owner k) : m'.Admits q k := by
  obtain ⟨functions, executors, hscope, hk⟩ := hk
  have hown {f' : Function} {owner : Owner} (hf' : p.functions[n]? = some f')
      (howner : f'.owner = owner) : p.scope? owner = some (functions, executors) := by
    obtain rfl : f = f' := Option.some.inj (hf.symm.trans hf')
    rwa [← howner]
  obtain hn | ⟨l, hl, hn, hserves⟩ := hn
  · obtain ⟨f', hf', howner⟩ := hp.modules j m hm n (hm'.functions ▸ hn)
    obtain ⟨rfl, rfl⟩ : m.functions = functions ∧ [m.executor] = executors := by
      simpa [Program.scope?, hm] using hown hf' howner
    refine hk.imp (fun hk => hm'.functions ▸ hk) fun hk => ?_
    obtain ⟨l, hl, hvisible, hk⟩ := hk
    rw [Library.isVisible, Bool.or_eq_true, List.isEmpty_iff, List.any_eq_true] at hvisible
    refine ⟨l, hlibraries ▸ hl, hk, hvisible.imp_right fun hnamed => ?_⟩
    obtain ⟨x, hx, hmem⟩ := hnamed
    obtain rfl : x = m.executor := by simpa using hmem
    exact .named (hm'.executor ▸ hx)
  · rw [hlibraries] at hl
    obtain ⟨i, hi⟩ := List.mem_iff_getElem?.1 hl
    obtain ⟨f', hf', howner⟩ := hp.libraries i l hi n hn
    obtain ⟨rfl, rfl⟩ : l.functions = functions ∧ l.executors = executors := by
      simpa [Program.scope?, hi] using hown hf' howner
    obtain hk | ⟨l', hl', hvisible, hk⟩ := hk
    · exact .inr ⟨l, hlibraries ▸ hl, hk, hserves⟩
    · refine .inr ⟨l', hlibraries ▸ hl', hk, ?_⟩
      obtain hcommon | hserves := hserves
      · -- a common library sees common libraries only
        rw [hcommon, Library.isVisible, Bool.or_eq_true, List.isEmpty_iff] at hvisible
        exact .inl (by simpa using hvisible)
      · exact hserves.visible (hlibraries ▸ hl) hn hreach hvisible

/-- **What a module reaches is its own or lies in a library linked to its executor.**  A library
that it reaches is common, or names its executor, or shares an executor with a library that it
reaches and that is so linked; where no library it reaches names two executors, those that are not
common name its own. -/
theorem scoped_of_analyse {raw : Raw.Program} (h : Program.analyse raw = .ok q)
    (hm : m ∈ q.modules) (hn : n ∈ m.reachable) :
    n ∈ m.functions ∨ ∃ l ∈ q.libraries, n ∈ l.functions ∧
      (l.executors = [] ∨ m.Serves q l ∧ (m.IsUniform q → m.executor ∈ l.executors)) := by
  obtain ⟨p₀, h₀, h⟩ := Checked.bind_eq_ok.1 h
  obtain ⟨p, h₁, h⟩ := Checked.bind_eq_ok.1 h
  obtain ⟨p₂, h₂, h⟩ := Checked.bind_eq_ok.1 h
  obtain ⟨hw₀, hu₀⟩ := Program.written_ofRaw h₀
  have hw := hw₀.bound hu₀ h₁
  obtain ⟨hlibraries, hmodules⟩ := Program.surveyed_of_layout h₂ h
  obtain ⟨j, hj⟩ := List.mem_iff_getElem?.1 hm
  obtain ⟨m₁, hm₁, hs⟩ := forall₂_right hmodules hj
  have hreachable {k : Nat} : k ∈ m.reachable ↔
      p.Reaches m₁ k ∧ (k ∈ m₁.functions ∨ p.IsUser k) := by
    rw [hs.reachable]
    exact hw.mem_reachable (List.mem_of_getElem? hm₁)
  -- along the calls that lead to it, every function is admitted
  have hadmits : m.Admits q n := by
    obtain ⟨hreaches, -⟩ := hreachable.1 hn
    clear hn
    induction hreaches with
    | own hn => exact .inl (hs.functions ▸ hn)
    | @call n k f hn hf hk ih =>
      have hcalls := (Program.calls_iff hf).2 hk
      exact ih.offers hw hlibraries hm₁ hs (hreachable.2 ⟨hn, .inr hcalls.isUser⟩) hf
        (Program.offers_of_bindNames hw₀ h₁ hf hcalls)
  refine hadmits.imp_right fun hlibrary => ?_
  obtain ⟨l, hl, hn, hserves⟩ := hlibrary
  exact ⟨l, hl, hn, hserves.imp_right fun hserves => ⟨hserves, hserves.mem_executors⟩⟩

end Module

/-- A library for servers, one for servers and browsers that calls it, and a module for browsers that
calls the second one. -/
def Raw.Program.relayed : Raw.Program :=
  let place : Location := default
  let invoke (name : String) : Raw.Stmt := .call place (.call place name [])
  let function (name : String) (body : List Raw.Stmt) : Raw.Function :=
    ⟨place, name, none, .user [] body⟩
  ⟨[], [], [⟨place, ["SERVER"], [function "G" []]⟩,
      ⟨place, ["BROWSER", "SERVER"], [function "H" [invoke "G"]]⟩],
    [⟨place, "A", "BROWSER", [], [⟨place, [], [function "MAIN" [invoke "H"]]⟩]⟩], []⟩

/-- What `Raw.Program.relayed` means. -/
def Program.relayed : Program := (analyse .relayed).toOption.getD default

/-- The browser module runs `G`, whose library is for servers only. -/
theorem Program.relayed_leaves_scope : Program.analyse .relayed = .ok .relayed ∧
    ¬ ∀ m ∈ Program.relayed.modules, ∀ n ∈ m.reachable, n ∈ m.functions ∨
      ∃ l ∈ Program.relayed.libraries, n ∈ l.functions ∧
        (l.executors = [] ∨ m.executor ∈ l.executors) :=
  ⟨Checked.eq_ok (by decide +kernel), by decide +kernel⟩

/-- The library of `G` is linked to the browser by the library of `H`. -/
theorem Module.scoped_of_analyse_relayed : ∃ m ∈ Program.relayed.modules, 0 ∈ m.reachable ∧
    (0 ∈ m.functions ∨ ∃ l ∈ Program.relayed.libraries, 0 ∈ l.functions ∧
      (l.executors = [] ∨ m.Serves .relayed l ∧
        (m.IsUniform .relayed → m.executor ∈ l.executors))) := by
  have hp : Program.analyse .relayed = .ok .relayed := Checked.eq_ok (by decide +kernel)
  have hreachable : ∃ m ∈ Program.relayed.modules, 0 ∈ m.reachable := by decide +kernel
  obtain ⟨m, hm, hn⟩ := hreachable
  exact ⟨m, hm, hn, scoped_of_analyse hp hm hn⟩

end ChannelBasic
