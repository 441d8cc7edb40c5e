import ChannelBasic.Proofs.Program.Tiling
import ChannelBasic.Proofs.Trees

/-!
# Proofs/Program/Ownership — a program stays a tree

A program is a tree of nodes, from the program itself down to the operands of its expressions.  In
the tables most of it is written as a tree; but a library or a module lists its functions by their
numbers, a function records which library or module it belongs to, and variables go by the numbers
under which statements declare them.  So the nodes of a program make a tree if no function is listed
twice and each is listed by its owner, and no variable is declared twice (`Program.Listed.isTree`),
and the walk misses no function and no variable (`Listed.reachable_iff`).  That is so once the
tables are filled (`Written.listed`), and no pass changes it (`Listed.kept`).
-/

namespace ChannelBasic

/-! ## The nodes of a program -/

/-- What goes by a number in a program. -/
inductive Program.Tag where
  | constant (index : Nat)
  | struct (index : Nat)
  | library (index : Nat)
  | module (index : Nat)
  | channel (index : Nat)
  | function (index : Nat)
  /-- A variable of a function. -/
  | localVar (function index : Nat)
  deriving DecidableEq, Repr

/-- The number that an owner goes by. -/
def Owner.tag : Owner → Program.Tag
  | .library index => .library index
  | .module index => .module index

open Program (Tag)

mutual

/-- The nodes of an expression. -/
def Expr.skeleton : Expr → Skeleton Tag
  | .literal .. | .name .. => .node none []
  | .member _ target _ _ => .node none [target.skeleton]
  | .call _ _ arguments _ => .node none (Expr.skeletons arguments)
  | .unary _ _ operand => .node none [operand.skeleton]
  | .binary _ _ left right => .node none [left.skeleton, right.skeleton]
  | .cast _ operand => .node none [operand.skeleton]
  | .pointer _ target _ => .node none [target.skeleton]

/-- The nodes of some expressions. -/
def Expr.skeletons : List Expr → List (Skeleton Tag)
  | [] => []
  | e :: rest => e.skeleton :: Expr.skeletons rest

end

mutual

/-- The nodes of a statement of a function: one that declares a variable goes by the variable's
number, and a block is a node of its own. -/
def Stmt.skeleton (function : Nat) : Stmt → Skeleton Tag
  | .var _ index value =>
    .node (some (.localVar function index)) (Expr.skeletons value.toList)
  | .assign _ value target => .node none [value.skeleton, target.skeleton]
  | .invoke _ call => .node none [call.skeleton]
  | .return _ value => .node none (Expr.skeletons value.toList)
  | .choose _ branches => .node none (branches.skeletons function)
  | .count _ counter start finish step body _ =>
    .node none (Expr.skeletons ([counter, start, finish] ++ step.toList) ++
      [.node none (Stmt.skeletons function body)])
  | .loop _ condition body =>
    .node none (Expr.skeletons (condition.map (·.value)).toList ++
      [.node none (Stmt.skeletons function body)])

/-- The nodes of some statements. -/
def Stmt.skeletons (function : Nat) : List Stmt → List (Skeleton Tag)
  | [] => []
  | s :: rest => s.skeleton function :: Stmt.skeletons function rest

/-- The nodes of the branches of an `IF`: each condition and its block. -/
def Branches.skeletons (function : Nat) : Branches → List (Skeleton Tag)
  | .done => []
  | .otherwise body => [.node none (Stmt.skeletons function body)]
  | .branch condition body rest =>
    condition.skeleton :: .node none (Stmt.skeletons function body) :: rest.skeletons function

end

/-- The node of something without parts. -/
def Slot.skeleton (_ : Slot) : Skeleton Tag := .node none []

/-- The nodes right below a function: its arguments and the block of its body, in which implicit
variables come first. -/
def UserBody.skeletons (function : Nat) (body : UserBody) : List (Skeleton Tag) :=
  body.arguments.map Slot.skeleton ++
    [.node none (body.implicit.map (fun index => .node (some (.localVar function index)) []) ++
      Stmt.skeletons function body.statements)]

namespace Program

variable {p p' q : Program} {n : Nat}

/-- The nodes of the function with a number; a native one has no parts. -/
def functionSkeleton (p : Program) (n : Nat) : Skeleton Tag :=
  .node (some (.function n)) (((p.functions[n]?).bind Function.user?).elim [] (·.skeletons n))

/-- Declarations that go by their numbers, each with the nodes right below it. -/
def numbered {α : Type} (tag : Nat → Tag) (parts : α → List (Skeleton Tag)) (as : List α) :
    List (Tag × List (Skeleton Tag)) :=
  as.mapIdx fun k a => (tag k, parts a)

/-- The declarations of a program, each with the nodes right below it. -/
def declarations (p : Program) : List (Tag × List (Skeleton Tag)) :=
  numbered .constant (fun c => [c.value.skeleton]) p.constants.toList ++
  numbered .struct (fun s => s.fields.map Slot.skeleton) p.structs.toList ++
  numbered .library (fun l => l.functions.map p.functionSkeleton) p.libraries ++
  numbered .module (fun m => m.dataSets.map (fun d => .node none (d.fields.map Slot.skeleton)) ++
    m.functions.map p.functionSkeleton) p.modules ++
  numbered .channel (fun _ => []) p.channels

/-- The nodes of a program. -/
def skeleton (p : Program) : Skeleton Tag :=
  .node none (p.declarations.map fun d => .node (some d.1) d.2)

/-- The owner that a function records. -/
def recordedOwner (p : Program) : Tag → Option Tag
  | .function n => (p.owner? n).map Owner.tag
  | _ => none

/-- **The nodes of a program as a graph.** -/
def graph (p : Program) : Graph (Skeleton.Node Tag) := p.skeleton.graph p.recordedOwner

/-- The variables that a function declares. -/
def variablesOf (p : Program) (n : Nat) : List Nat :=
  ((p.functions[n]?).bind Function.user?).elim [] fun body =>
    body.implicit ++ Stmt.variablesAll body.statements

/-- What a function and its variables go by. -/
def labelsOf (p : Program) (n : Nat) : List Tag :=
  .function n :: (p.variablesOf n).map (.localVar n)

/-- Each function is listed once, by its owner, and each variable is declared once. -/
structure Listed (p : Program) : Prop where
  libraries : ∀ (k : Nat) (l : Library), p.libraries[k]? = some l →
    l.functions.Nodup ∧ ∀ n ∈ l.functions, p.owner? n = some (.library k)
  modules : ∀ (k : Nat) (m : Module), p.modules[k]? = some m →
    m.functions.Nodup ∧ ∀ n ∈ m.functions, p.owner? n = some (.module k)
  declared : ∀ n, (p.variablesOf n).Nodup

end Program

/-! ## The labels of a program -/

mutual

theorem Expr.labels_skeleton : (e : Expr) → e.skeleton.labels = []
  | .literal .. | .name .. => by simp [Expr.skeleton]
  | .member _ e _ _ | .unary _ _ e | .cast _ e | .pointer _ e _ => by
    simp [Expr.skeleton, e.labels_skeleton]
  | .call _ _ arguments _ => by simp [Expr.skeleton, Expr.labels_skeletons arguments]
  | .binary _ _ left right => by
    simp [Expr.skeleton, left.labels_skeleton, right.labels_skeleton]

theorem Expr.labels_skeletons : (es : List Expr) →
    (Expr.skeletons es).flatMap Skeleton.labels = []
  | [] => by rw [Expr.skeletons, List.flatMap_nil]
  | e :: rest => by
    rw [Expr.skeletons, List.flatMap_cons, e.labels_skeleton, Expr.labels_skeletons rest,
      List.append_nil]

end

mutual

theorem Stmt.labels_skeleton (n : Nat) : (s : Stmt) →
    (s.skeleton n).labels = s.variables.map (.localVar n)
  | .var _ index value => by
    simp [Stmt.skeleton, Stmt.variables, Expr.labels_skeletons]
  | .assign _ value target => by simp [Stmt.skeleton, Stmt.variables, Expr.labels_skeleton]
  | .invoke _ call => by simp [Stmt.skeleton, Stmt.variables, Expr.labels_skeleton]
  | .return _ value => by simp [Stmt.skeleton, Stmt.variables, Expr.labels_skeletons]
  | .choose _ branches => by
    simp [Stmt.skeleton, Stmt.variables, Branches.labels_skeletons n branches]
  | .count _ counter start finish step body _ => by
    simp [Stmt.skeleton, Stmt.variables, Expr.labels_skeletons, Stmt.labels_skeletons n body]
  | .loop _ condition body => by
    simp [Stmt.skeleton, Stmt.variables, Expr.labels_skeletons, Stmt.labels_skeletons n body]

theorem Stmt.labels_skeletons (n : Nat) : (l : List Stmt) →
    (Stmt.skeletons n l).flatMap Skeleton.labels = (Stmt.variablesAll l).map (.localVar n)
  | [] => by simp [Stmt.skeletons, Stmt.variablesAll]
  | s :: rest => by
    simp [Stmt.skeletons, Stmt.variablesAll, s.labels_skeleton n, Stmt.labels_skeletons n rest]

theorem Branches.labels_skeletons (n : Nat) : (b : Branches) →
    (b.skeletons n).flatMap Skeleton.labels = b.variables.map (.localVar n)
  | .done => by simp [Branches.skeletons, Branches.variables]
  | .otherwise body => by
    simp [Branches.skeletons, Branches.variables, Stmt.labels_skeletons n body]
  | .branch condition body rest => by
    simp [Branches.skeletons, Branches.variables, condition.labels_skeleton,
      Stmt.labels_skeletons n body, rest.labels_skeletons n]

end

theorem Slot.labels_skeleton (s : Slot) : s.skeleton.labels = [] := by simp [Slot.skeleton]

/-- Parts of lists that know which one they come from have nothing twice. -/
theorem nodup_flatMap_of_key {α β γ : Type} {l : List α} {f : α → List β} (key : α → γ)
    (back : β → Option γ) (hl : (l.map key).Nodup) (h : ∀ a ∈ l, (f a).Nodup)
    (hback : ∀ a ∈ l, ∀ b ∈ f a, back b = some (key a)) : (l.flatMap f).Nodup := by
  refine List.nodup_flatMap.2 ⟨h, (List.pairwise_map.1 hl).imp_of_mem fun {a a'} ha ha' hne => ?_⟩
  refine List.disjoint_left.2 fun b hb hb' => hne ?_
  exact Option.some.inj ((hback a ha b hb).symm.trans (hback a' ha' b hb'))

namespace Program

open Checking

variable {p q : Program} {n : Nat}

/-- A function goes by its number, and its variables by theirs. -/
theorem labels_functionSkeleton (p : Program) (n : Nat) :
    (p.functionSkeleton n).labels = p.labelsOf n := by
  rw [functionSkeleton, Skeleton.labels_node, labelsOf, variablesOf]
  cases (p.functions[n]?).bind Function.user? with
  | none => rfl
  | some body =>
    have hargument : (body.arguments.map Slot.skeleton).flatMap Skeleton.labels = [] := by
      simp [Slot.labels_skeleton]
    have himplicit : (body.implicit.map fun index =>
        Skeleton.node (some (Tag.localVar n index)) []).flatMap Skeleton.labels =
          body.implicit.map (.localVar n) := by
      rw [List.flatMap_map, List.map_eq_flatMap]
      rfl
    simp [UserBody.skeletons, hargument, himplicit, Stmt.labels_skeletons]

/-- Which function something with a number is, or belongs to. -/
def Tag.function? : Tag → Option Nat
  | .function n | .localVar n _ => some n
  | _ => none

/-- Which declaration of the program something with a number is, or belongs to. -/
def home (p : Program) (tag : Tag) : Option Tag :=
  match tag.function? with
  | some n => (p.owner? n).map Owner.tag
  | none => some tag

/-- Some library or module lists a function. -/
def IsListed (p : Program) (n : Nat) : Prop :=
  (∃ l ∈ p.libraries, n ∈ l.functions) ∨ ∃ m ∈ p.modules, n ∈ m.functions

/-- A declaration has parts without labels, and some functions of its own, each once. -/
structure Declares (p : Program) (tag : Tag) (parts : List (Skeleton Tag)) : Prop where
  function : tag.function? = none
  parts : ∃ (plain : List (Skeleton Tag)) (functions : List Nat),
    parts = plain ++ functions.map p.functionSkeleton ∧ plain.flatMap Skeleton.labels = [] ∧
      functions.Nodup ∧ ∀ n ∈ functions, p.IsListed n ∧ (p.owner? n).map Owner.tag = some tag

theorem Declares.of_plain {tag : Tag} {parts : List (Skeleton Tag)}
    (function : tag.function? = none) (h : parts.flatMap Skeleton.labels = []) :
    p.Declares tag parts :=
  ⟨function, parts, [], by simp, h, List.nodup_nil, by simp⟩

theorem mem_numbered_iff {α : Type} {tag : Nat → Tag} {parts : α → List (Skeleton Tag)}
    {as : List α} {d : Tag × List (Skeleton Tag)} :
    d ∈ numbered tag parts as ↔ ∃ k a, as[k]? = some a ∧ d = (tag k, parts a) := by
  rw [numbered, List.mem_mapIdx]
  constructor
  · rintro ⟨k, hk, rfl⟩
    exact ⟨k, as[k], List.getElem?_eq_getElem hk, rfl⟩
  · rintro ⟨k, a, ha, rfl⟩
    obtain ⟨hk, rfl⟩ := List.getElem?_eq_some_iff.1 ha
    exact ⟨k, hk, rfl⟩

theorem Listed.declares (h : p.Listed) {d : Tag × List (Skeleton Tag)} (hd : d ∈ p.declarations) :
    p.Declares d.1 d.2 := by
  simp only [declarations, List.mem_append, or_assoc] at hd
  obtain hd | hd | hd | hd | hd := hd
  · obtain ⟨k, c, -, rfl⟩ := mem_numbered_iff.1 hd
    exact .of_plain rfl (by simp [Expr.labels_skeleton])
  · obtain ⟨k, s, -, rfl⟩ := mem_numbered_iff.1 hd
    exact .of_plain rfl (by simp [Slot.labels_skeleton])
  · obtain ⟨k, l, hl, rfl⟩ := mem_numbered_iff.1 hd
    obtain ⟨hnodup, howner⟩ := h.libraries k l hl
    exact ⟨rfl, [], l.functions, rfl, rfl, hnodup, fun n hn =>
      ⟨.inl ⟨l, List.mem_of_getElem? hl, hn⟩, by rw [howner n hn, Option.map_some, Owner.tag]⟩⟩
  · obtain ⟨k, m, hm, rfl⟩ := mem_numbered_iff.1 hd
    obtain ⟨hnodup, howner⟩ := h.modules k m hm
    exact ⟨rfl, _, m.functions, rfl, by simp [Slot.labels_skeleton], hnodup, fun n hn =>
      ⟨.inr ⟨m, List.mem_of_getElem? hm, hn⟩, by rw [howner n hn, Option.map_some, Owner.tag]⟩⟩
  · obtain ⟨k, c, -, rfl⟩ := mem_numbered_iff.1 hd
    exact .of_plain rfl rfl

theorem nodup_tags (p : Program) : (p.declarations.map (·.1)).Nodup := by
  have tags {α : Type} {tag : Nat → Tag} {parts : α → List (Skeleton Tag)} {as : List α} :
      (numbered tag parts as).map (·.1) = (List.range as.length).map tag := by
    refine List.ext_getElem (by simp [numbered]) fun k hk hk' => ?_
    simp [numbered]
  have range {tag : Nat → Tag} (htag : ∀ i j, tag i = tag j → i = j) (n : Nat) :
      ((List.range n).map tag).Nodup := List.nodup_range.map fun i j h => htag i j h
  have apart {tag tag' : Nat → Tag} (h : ∀ i j, tag i ≠ tag' j) (m n : Nat) :
      ((List.range m).map tag).Disjoint ((List.range n).map tag') := by
    rintro _ hi hj
    obtain ⟨i, -, rfl⟩ := List.mem_map.1 hi
    obtain ⟨j, -, heq⟩ := List.mem_map.1 hj
    exact h i j heq.symm
  simp only [declarations, List.map_append, tags, List.nodup_append', List.disjoint_append_left,
    range (fun _ _ => Tag.constant.inj), range (fun _ _ => Tag.struct.inj),
    range (fun _ _ => Tag.library.inj), range (fun _ _ => Tag.module.inj),
    range (fun _ _ => Tag.channel.inj), true_and]
  and_intros <;> refine apart (fun i j h => ?_) _ _ <;> cases h

theorem function?_of_mem_labelsOf {t : Tag} (h : t ∈ p.labelsOf n) : t.function? = some n := by
  obtain rfl | h := List.mem_cons.1 h
  · rfl
  · obtain ⟨i, -, rfl⟩ := List.mem_map.1 h
    rfl

theorem Listed.nodup_labelsOf (h : p.Listed) (n : Nat) : (p.labelsOf n).Nodup :=
  List.nodup_cons.2 ⟨by simp, (h.declared n).map fun _ _ h => (Tag.localVar.inj h).2⟩

/-- The labels below a declaration: those of its functions. -/
theorem Declares.labels {tag : Tag} {parts : List (Skeleton Tag)} (h : p.Declares tag parts) :
    ∃ functions : List Nat, parts.flatMap Skeleton.labels = functions.flatMap p.labelsOf ∧
      functions.Nodup ∧ ∀ n ∈ functions, p.IsListed n ∧ (p.owner? n).map Owner.tag = some tag := by
  obtain ⟨plain, functions, rfl, hplain, hnodup, howner⟩ := h.parts
  refine ⟨functions, ?_, hnodup, howner⟩
  rw [List.flatMap_append, hplain, List.nil_append, List.flatMap_map]
  exact congrArg (functions.flatMap ·) (funext p.labels_functionSkeleton)

/-- **No number stands for two nodes of a program.** -/
theorem Listed.nodup_labels (h : p.Listed) : p.skeleton.labels.Nodup := by
  rw [skeleton, Skeleton.labels_node, List.flatMap_map]
  refine nodup_flatMap_of_key (·.1) p.home p.nodup_tags (fun d hd => ?_) fun d hd t ht => ?_
  all_goals
    obtain ⟨functions, hlabels, hnodup, howner⟩ := (h.declares hd).labels
    have hfunction := (h.declares hd).function
  · rw [Skeleton.labels_node, hlabels]
    refine List.nodup_cons.2 ⟨fun hmem => ?_, ?_⟩
    · obtain ⟨n, -, ht⟩ := List.mem_flatMap.1 hmem
      rw [function?_of_mem_labelsOf ht] at hfunction
      cases hfunction
    · refine nodup_flatMap_of_key id Tag.function? (by rwa [List.map_id])
        (fun n _ => h.nodup_labelsOf n) fun n _ t ht => function?_of_mem_labelsOf ht
  · rw [Skeleton.labels_node, hlabels] at ht
    obtain rfl | ht := List.mem_cons.1 ht
    · rw [home, hfunction]
    · obtain ⟨n, hn, ht⟩ := List.mem_flatMap.1 ht
      rw [home, function?_of_mem_labelsOf ht]
      exact (howner n hn).2

theorem recordedOwner_of_function? {t : Tag} (h : t.function? = none) :
    p.recordedOwner t = none := by
  cases t <;> first | rfl | cases h

theorem records_functionSkeleton (p : Program) (n : Nat) :
    (p.functionSkeleton n).Records p.recordedOwner := by
  refine Skeleton.records_of_labels fun t ht => ?_
  have hlabels : .function n :: (p.functionSkeleton n).parts.flatMap Skeleton.labels =
      p.labelsOf n := (Skeleton.labels_eq _).symm.trans (p.labels_functionSkeleton n)
  rw [List.tail_eq_of_cons_eq hlabels] at ht
  obtain ⟨i, -, rfl⟩ := List.mem_map.1 ht
  rfl

theorem Declares.records {tag : Tag} {parts : List (Skeleton Tag)} (h : p.Declares tag parts) :
    (Skeleton.node (some tag) parts).Records p.recordedOwner := by
  obtain ⟨plain, functions, rfl, hplain, -, howner⟩ := h.parts
  have hnone {o : Skeleton Tag} (ho : o ∈ plain) :=
    Skeleton.of_labels_eq_nil (List.flatMap_eq_nil_iff.1 hplain o ho)
  refine .node (fun o ho t ht x hx => ?_) fun o ho => ?_
  all_goals obtain ho | ho := List.mem_append.1 ho
  · rw [(hnone ho).1] at ht
    cases ht
  · obtain ⟨n, hn, rfl⟩ := List.mem_map.1 ho
    obtain rfl := Option.some.inj ht
    exact (howner n hn).2.symm.trans hx
  · refine Skeleton.records_of_labels fun t ht => ?_
    rw [(hnone ho).2] at ht
    cases ht
  · obtain ⟨n, hn, rfl⟩ := List.mem_map.1 ho
    exact p.records_functionSkeleton n

/-- **A function that records an owner stands right below it.** -/
theorem Listed.records (h : p.Listed) : p.skeleton.Records p.recordedOwner := by
  refine .node (fun o ho t ht x hx => ?_) fun o ho => ?_
  all_goals obtain ⟨d, hd, rfl⟩ := List.mem_map.1 ho
  · obtain rfl := Option.some.inj ht
    rw [recordedOwner_of_function? (h.declares hd).function] at hx
    cases hx
  · exact (h.declares hd).records

/-- **The nodes of a program make a tree if each function is listed once, by its owner, and each
variable is declared once.** -/
theorem Listed.isTree (h : p.Listed) : p.graph.IsTree :=
  (Skeleton.Orderly.owned ⟨h.nodup_labels, by simp [skeleton, Skeleton.label?], h.records⟩).isTree

theorem IsListed.mem_labels (hn : p.IsListed n) {t : Tag} (ht : t ∈ p.labelsOf n) :
    t ∈ p.skeleton.labels := by
  have below {functions : List Nat} (hn : n ∈ functions) :
      t ∈ (functions.map p.functionSkeleton).flatMap Skeleton.labels :=
    List.mem_flatMap.2 ⟨_, List.mem_map_of_mem hn, by rwa [labels_functionSkeleton]⟩
  rw [skeleton, Skeleton.labels_node, List.flatMap_map]
  refine List.mem_append_right _ (List.mem_flatMap.2 ?_)
  simp only [declarations, List.mem_append, or_assoc, Skeleton.labels_node]
  obtain ⟨l, hl, hn⟩ | ⟨m, hm, hn⟩ := hn
  · obtain ⟨k, hk⟩ := List.getElem?_of_mem hl
    exact ⟨_, .inr (.inr (.inl (mem_numbered_iff.2 ⟨k, l, hk, rfl⟩))), .inr (below hn)⟩
  · obtain ⟨k, hk⟩ := List.getElem?_of_mem hm
    refine ⟨_, .inr (.inr (.inr (.inl (mem_numbered_iff.2 ⟨k, m, hk, rfl⟩)))), .inr ?_⟩
    rw [List.flatMap_append]
    exact List.mem_append_right _ (below hn)

/-- **The functions that are reached are those that are listed, and the variables that are reached
are those that they declare.** -/
theorem Listed.reachable_iff (h : p.Listed) {t : Tag} (ht : t.function? = some n) :
    p.graph.Reachable (.labelled t) ↔ p.IsListed n ∧ t ∈ p.labelsOf n := by
  refine (Skeleton.reachable_labelled_iff h.nodup_labels).trans ⟨fun hmem => ?_, fun hn =>
    hn.1.mem_labels hn.2⟩
  rw [skeleton, Skeleton.labels_node, List.flatMap_map] at hmem
  obtain ⟨d, hd, hmem⟩ := List.mem_flatMap.1 hmem
  obtain ⟨functions, hlabels, -, hlists⟩ := (h.declares hd).labels
  rw [Skeleton.labels_node, hlabels] at hmem
  obtain rfl | hmem := List.mem_cons.1 hmem
  · rw [(h.declares hd).function] at ht
    cases ht
  · obtain ⟨k, hk, hmem⟩ := List.mem_flatMap.1 hmem
    obtain rfl : n = k := Option.some.inj (ht.symm.trans (function?_of_mem_labelsOf hmem))
    exact ⟨(hlists n hk).1, hmem⟩

/-! ## The passes -/

theorem variablesOf_of_user? {f : Function} {body : UserBody} (hf : p.functions[n]? = some f)
    (hb : f.user? = some body) :
    p.variablesOf n = body.implicit ++ Stmt.variablesAll body.statements := by
  rw [variablesOf, hf, Option.bind_some, hb, Option.elim_some]

/-- **Tables in order list each function once, by its owner, and declare each variable once.** -/
theorem Written.listed {visible : Owner → Nat → Bool} (h : p.Written visible) : p.Listed where
  libraries k l hl := by
    refine ⟨h.apart l (List.mem_of_getElem? hl), fun n hn => ?_⟩
    obtain ⟨f, hf, howner⟩ := h.libraries k l hl n hn
    rw [owner?, hf, Option.map_some, howner]
  modules k m hm := by
    refine ⟨h.distinct m (List.mem_of_getElem? hm), fun n hn => ?_⟩
    obtain ⟨f, hf, howner⟩ := h.modules k m hm n hn
    rw [owner?, hf, Option.map_some, howner]
  declared n := by
    unfold variablesOf
    cases hbody : (p.functions[n]?).bind Function.user? with
    | none => exact List.nodup_nil
    | some body =>
      obtain ⟨f, hf, hb⟩ := Option.bind_eq_some_iff.1 hbody
      exact (h.functions n f hf body hb).perm_range.nodup_iff.2 List.nodup_range

/-- **A pass that lists the same functions and has them declare the same variables leaves a tree a
tree.** -/
theorem Listed.kept {R : UserBody → UserBody → Prop} (h : p.Listed)
    (hR : ∀ body body', R body body' → body'.implicit = body.implicit ∧
      Stmt.variablesAll body'.statements = Stmt.variablesAll body.statements)
    (hfunctions : List.Forall₂ (Function.Like R) p.functions.toList q.functions.toList)
    (hlibraries : q.libraries = p.libraries)
    (hmodules : List.Forall₂ (fun m m' => m'.functions = m.functions) p.modules q.modules) :
    q.Listed := by
  have howner {n : Nat} {o : Owner} (hn : p.owner? n = some o) : q.owner? n = some o := by
    obtain ⟨f, hf, rfl⟩ := Option.map_eq_some_iff.1 hn
    obtain ⟨f', hf', hlike⟩ := forall₂_left hfunctions (k := n) (by simpa using hf)
    rw [owner?, ← Array.getElem?_toList, hf', Option.map_some, hlike.owner]
  refine ⟨fun k l hl => ?_, fun k m' hm' => ?_, fun n => ?_⟩
  · obtain ⟨hnodup, howned⟩ := h.libraries k l (hlibraries ▸ hl)
    exact ⟨hnodup, fun n hn => howner (howned n hn)⟩
  · obtain ⟨m, hm, heq⟩ := forall₂_right hmodules hm'
    obtain ⟨hnodup, howned⟩ := h.modules k m hm
    rw [heq]
    exact ⟨hnodup, fun n hn => howner (howned n hn)⟩
  · unfold variablesOf
    cases hbody : (q.functions[n]?).bind Function.user? with
    | none => exact List.nodup_nil
    | some body' =>
      obtain ⟨f', hf', hb'⟩ := Option.bind_eq_some_iff.1 hbody
      obtain ⟨f, hf, hlike⟩ := forall₂_right hfunctions (k := n) (by simpa using hf')
      obtain ⟨body, hb, hr⟩ := hlike.user body' hb'
      obtain ⟨himplicit, hdeclared⟩ := hR body body' hr
      have := h.declared n
      rw [variablesOf_of_user? (by simpa using hf) hb] at this
      rwa [Option.elim_some, himplicit, hdeclared]

/-- Checking types keeps what is listed. -/
theorem Listed.checked (h : p.Listed) (hw : p.Written p.visible) (hq : p.checkTypes = .ok q) :
    q.Listed := by
  obtain ⟨⟨fs, s'⟩, hrun, hq⟩ := Checked.bind_eq_ok.1 hq
  obtain rfl := Checked.pure_eq_ok.1 hq
  obtain ⟨s, -, hrun⟩ := program_eq_ok hw hrun
  obtain ⟨-, hchecked, -⟩ := known_of_checked hrun
  exact h.kept (fun _ _ h => ⟨h.implicit, h.declared⟩) hchecked rfl
    (List.forall₂_same.2 fun _ _ => rfl)

/-- What is made of a program as written, pass by pass. -/
inductive Stage (raw : Raw.Program) : Program → Prop where
  | entered {p₀ : Program} {mentions : List TypeMention}
      (h : (Lowering.program raw).run' ⟨.initial, #[], [], #[], #[]⟩ = .ok (p₀, mentions)) :
      Stage raw p₀
  | typesBound {p₀ : Program} (h : ofRaw raw = .ok p₀) : Stage raw p₀
  | namesBound {p₀ p₁ : Program} (h : ofRaw raw = .ok p₀) (h₁ : p₀.bindNames = .ok p₁) :
      Stage raw p₁
  | reachFound {p₀ p₁ : Program} (h : ofRaw raw = .ok p₀) (h₁ : p₀.bindNames = .ok p₁) :
      Stage raw p₁.withReach
  | typesChecked {p₀ p₁ p₂ : Program} (h : ofRaw raw = .ok p₀) (h₁ : p₀.bindNames = .ok p₁)
      (h₂ : p₁.withReach.checkTypes = .ok p₂) : Stage raw p₂
  | laidOut {p₀ p₁ p₂ p₃ : Program} (h : ofRaw raw = .ok p₀) (h₁ : p₀.bindNames = .ok p₁)
      (h₂ : p₁.withReach.checkTypes = .ok p₂) (h₃ : p₂.layout = .ok p₃) : Stage raw p₃

theorem Stage.listed {raw : Raw.Program} (h : Stage raw p) : p.Listed := by
  have bound {p₀ p₁ : Program} (h : ofRaw raw = .ok p₀) (h₁ : p₀.bindNames = .ok p₁) :
      p₁.Written p₁.visible :=
    let ⟨hw, hu⟩ := written_ofRaw h
    hw.bound hu h₁
  cases h with
  | entered h =>
    obtain ⟨s, hrun⟩ := run'_eq_ok.1 h
    exact (Lowering.ends_program raw Lowering.sound_initial TypeTable.numbers_initial _ _
      hrun).1.listed
  | typesBound h => exact (written_ofRaw h).1.listed
  | namesBound h h₁ => exact (bound h h₁).listed
  | reachFound h h₁ => exact (bound h h₁).withReach.listed
  | typesChecked h h₁ h₂ =>
    have hw := (bound h h₁).withReach
    exact hw.listed.checked hw h₂
  | laidOut h h₁ h₂ h₃ =>
    have hw := (bound h h₁).withReach
    obtain ⟨hrelaid, -⟩ := relaid_of_checkTypes hw h₂ h₃
    exact (hw.listed.checked hw h₂).kept (fun _ _ h => ⟨h.implicit, h.declared⟩) hrelaid.functions
      (laysOut_of_layout h₃).libraries (hrelaid.modules.imp fun _ _ h => h.functions)

/-- What `Raw.Program.joining` means. -/
def joining : Program := (analyse .joining).toOption.getD default

/-- In the block of `MAIN` the counter of the loop, which is implicit, comes before `X`. -/
example : joining.graph.children (.place [1, 1, 0]) =
    [.labelled (.localVar 1 1), .labelled (.localVar 1 0), .place [1, 1, 0, 2]] := by
  decide +kernel

end Program

end ChannelBasic
