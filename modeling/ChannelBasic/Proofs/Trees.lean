import Mathlib.Data.List.Induction
import Mathlib.Data.List.Nodup
import Mathlib.Logic.Relation

/-!
# Proofs/Trees — graphs of nodes that record their owners

A graph lists the children of every node and records an owner for it; nothing in this makes it a
tree.  It is one as soon as every child records the node that lists it, no node lists a child twice,
and going down comes to an end (`Graph.Owned.isTree`): an owner is one node, so two nodes that list
the same child are one, and two ways down to a node would meet in a node that lies below itself.

What is written and then entered into tables is a tree of places, a **skeleton**, some of whose
nodes go by a label, their number in a table.  Its nodes make a tree if no label stands twice and
what labels record of their owners is right (`Skeleton.Orderly.owned`).
-/

namespace ChannelBasic

/-- Nodes with their children and their recorded owners. -/
structure Graph (N : Type) where
  root : N
  children : N → List N
  owner : N → Option N

namespace Graph

variable {N : Type} {g : Graph N} {a b c n m : N} {stack order rest : List N}

/-- One node is listed by another. -/
def Child (g : Graph N) (n m : N) : Prop := m ∈ g.children n

/-- A node lies below another, or is it. -/
def Below (g : Graph N) : N → N → Prop := Relation.ReflTransGen g.Child

/-- A node is found by going down from the root. -/
def Reachable (g : Graph N) (n : N) : Prop := g.Below g.root n

/-- **A walk**: nodes are taken from a stack, each one is noted and its children are put in its
place, until the stack is empty. -/
inductive Walk (g : Graph N) : List N → List N → Prop where
  | done : Walk g [] []
  | next {n : N} {stack order : List N} (h : Walk g (g.children n ++ stack) order) :
      Walk g (n :: stack) (n :: order)

/-- **A climb**: the owner of a node, the owner's owner and so on, up to a node without owner. -/
inductive Climb (g : Graph N) : N → List N → Prop where
  | done {n : N} (h : g.owner n = none) : Climb g n []
  | next {n m : N} {rest : List N} (h : g.owner n = some m) (hm : Climb g m rest) :
      Climb g n (m :: rest)

/-- The nodes that are found by going down make a tree, and record it. -/
structure IsTree (g : Graph N) : Prop where
  /-- The root is no child, and has no owner. -/
  root : g.owner g.root = none ∧ ∀ n, g.Reachable n → g.root ∉ g.children n
  /-- Any other node is a child of one node, at one position. -/
  child : ∀ n, g.Reachable n → n ≠ g.root →
    ∃! at' : N × Nat, g.Reachable at'.1 ∧ (g.children at'.1)[at'.2]? = some n
  /-- That node is the recorded owner. -/
  owner : ∀ n m, g.Reachable n → m ∈ g.children n → g.owner m = some n
  /-- A walk from the root ends, and comes to each node once. -/
  walk : ∃ order, g.Walk [g.root] order ∧ order.Nodup ∧ ∀ n, n ∈ order ↔ g.Reachable n
  /-- A climb from any node ends at the root. -/
  climb : ∀ n, g.Reachable n → ∃ owners, g.Climb n owners ∧ (n :: owners).getLast? = some g.root

/-! ## Down and up -/

/-- What makes a graph a tree. -/
structure Owned (g : Graph N) : Prop where
  root : g.owner g.root = none
  owner : ∀ n m, m ∈ g.children n → g.owner m = some n
  nodup : ∀ n, (g.children n).Nodup
  wellFounded : WellFounded fun m n => g.Child n m

namespace Owned

variable (h : g.Owned)

include h

theorem eq_of_child (ha : g.Child a n) (hb : g.Child b n) : a = b :=
  Option.some.inj ((h.owner a n ha).symm.trans (h.owner b n hb))

/-- Nothing lies below its own child. -/
theorem not_below (hc : g.Child n m) : ¬ g.Below m n := by
  induction n using h.wellFounded.induction generalizing m with
  | _ n ih =>
    intro hb
    -- a way around the node is a way around its child
    obtain rfl | ⟨x, hx, hxn⟩ := Relation.ReflTransGen.cases_head hb
    · exact ih m hc hc .refl
    · exact ih m hc hx (.tail hxn hc)

/-- Of two nodes above a third one, one is above the other. -/
theorem below_or_below (ha : g.Below a n) (hb : g.Below b n) : g.Below a b ∨ g.Below b a := by
  induction ha generalizing b with
  | refl => exact .inr hb
  | @tail x y hx hxy ih =>
    obtain rfl | ⟨z, hz, hzy⟩ := Relation.ReflTransGen.cases_tail hb
    · exact .inl (.tail hx hxy)
    · obtain rfl := h.eq_of_child hxy hzy
      exact ih hz

/-- **Nothing lies below two children of a node.** -/
theorem eq_of_below (ha : g.Child n a) (hb : g.Child n b) (hm : g.Below a m) (hm' : g.Below b m) :
    a = b := by
  have key {x y : N} (hx : g.Child n x) (hy : g.Child n y) (hxy : g.Below x y) : x = y := by
    obtain rfl | ⟨z, hz, hzy⟩ := Relation.ReflTransGen.cases_tail hxy
    · rfl
    · obtain rfl := h.eq_of_child hzy hy
      exact absurd hz (h.not_below hx)
  obtain hab | hba := h.below_or_below hm hm'
  · exact key ha hb hab
  · exact (key hb ha hba).symm

/-! ## The walk -/

/-- Notes of walks from some children of a node are put together. -/
theorem exists_walks {cs : List N} (hsub : ∀ c ∈ cs, g.Child n c) (hcs : cs.Nodup)
    (ih : ∀ c ∈ cs, ∃ order,
      (∀ stack rest, g.Walk stack rest → g.Walk (c :: stack) (order ++ rest)) ∧
        order.Nodup ∧ ∀ m, m ∈ order ↔ g.Below c m) :
    ∃ order, (∀ stack rest, g.Walk stack rest → g.Walk (cs ++ stack) (order ++ rest)) ∧
      order.Nodup ∧ ∀ m, m ∈ order ↔ ∃ c ∈ cs, g.Below c m := by
  induction cs with
  | nil => exact ⟨[], fun _ _ hw => hw, .nil, by simp⟩
  | cons c cs ihcs =>
    obtain ⟨hc, hcs'⟩ := List.nodup_cons.1 hcs
    obtain ⟨first, hfirst, hnodup, hmem⟩ := ih c List.mem_cons_self
    obtain ⟨later, hlater, hnodup', hmem'⟩ := ihcs (fun d hd => hsub d (List.mem_cons_of_mem c hd))
      hcs' fun d hd => ih d (List.mem_cons_of_mem c hd)
    refine ⟨first ++ later, fun stack rest hw => ?_, ?_, fun m => ?_⟩
    · rw [List.append_assoc]
      exact hfirst _ _ (hlater _ _ hw)
    · refine List.nodup_append.2 ⟨hnodup, hnodup', ?_⟩
      rintro x hx _ hy rfl
      obtain ⟨d, hd, hdx⟩ := (hmem' x).1 hy
      have hcd := h.eq_of_below (hsub c List.mem_cons_self)
        (hsub d (List.mem_cons_of_mem c hd)) ((hmem x).1 hx) hdx
      exact hc (hcd ▸ hd)
    · rw [List.mem_append, hmem, hmem', List.exists_mem_cons_iff]

/-- **The walk from a node ends, and comes once to each node below it.** -/
theorem exists_walk (n : N) :
    ∃ order, (∀ stack rest, g.Walk stack rest → g.Walk (n :: stack) (order ++ rest)) ∧
      order.Nodup ∧ ∀ m, m ∈ order ↔ g.Below n m := by
  induction n using h.wellFounded.induction with
  | _ n ih =>
    obtain ⟨order, hwalk, hnodup, hmem⟩ := h.exists_walks (fun c hc => hc) (h.nodup n) ih
    refine ⟨n :: order, fun stack rest hw => .next (hwalk stack rest hw),
      List.nodup_cons.2 ⟨fun hn => ?_, hnodup⟩, fun m => ?_⟩
    · obtain ⟨c, hc, hcn⟩ := (hmem n).1 hn
      exact h.not_below hc hcn
    · rw [List.mem_cons, hmem, eq_comm]
      exact (Relation.ReflTransGen.cases_head_iff (r := g.Child)).symm

/-! ## The climb -/

theorem exists_climb (hn : g.Reachable n) :
    ∃ owners, g.Climb n owners ∧ (n :: owners).getLast? = some g.root := by
  induction hn with
  | refl => exact ⟨[], .done h.root, rfl⟩
  | @tail m n _ hmn ih =>
    obtain ⟨owners, hclimb, hlast⟩ := ih
    exact ⟨m :: owners, .next (h.owner m n hmn) hclimb, by rwa [List.getLast?_cons_cons]⟩

/-- **A graph whose children record who lists them is a tree.** -/
theorem isTree : g.IsTree where
  root := ⟨h.root, fun n _ hn => by cases h.root.symm.trans (h.owner n _ hn)⟩
  child n hn hne := by
    obtain rfl | ⟨m, hm, hmn⟩ := Relation.ReflTransGen.cases_tail hn
    · exact absurd rfl hne
    obtain ⟨i, hi⟩ := List.getElem?_of_mem hmn
    refine ⟨(m, i), ⟨hm, hi⟩, ?_⟩
    rintro ⟨m', j⟩ ⟨-, hj⟩
    obtain rfl := h.eq_of_child (List.mem_of_getElem? hj) hmn
    obtain ⟨hi, hin⟩ := List.getElem?_eq_some_iff.1 hi
    obtain ⟨hj, hjn⟩ := List.getElem?_eq_some_iff.1 hj
    exact Prod.ext rfl ((h.nodup m').getElem_inj_iff.1 (hjn.trans hin.symm))
  owner n m _ hm := h.owner n m hm
  walk := by
    obtain ⟨order, hwalk, hnodup, hmem⟩ := h.exists_walk g.root
    refine ⟨order, ?_, hnodup, hmem⟩
    simpa using hwalk [] [] .done
  climb n hn := h.exists_climb hn

end Owned

end Graph

/-! ## Skeletons -/

/-- What is left of something written if only its nodes count: a node, which may be entered
somewhere under a label, and what stands below it in its order. -/
inductive Skeleton (L : Type) where
  | node (label : Option L) (parts : List (Skeleton L))

namespace Skeleton

/-- A node of a skeleton is known by its label or, if it has none, by its place. -/
inductive Node (L : Type) where
  | labelled (label : L)
  | place (path : List Nat)
  deriving DecidableEq, Repr

variable {L : Type} {o p : Skeleton L} {os : List (Skeleton L)} {l : L} {j : Nat} {path : List Nat}

/-- The label of the node on top. -/
def label? : Skeleton L → Option L
  | .node label _ => label

/-- What stands right below the node on top. -/
def parts : Skeleton L → List (Skeleton L)
  | .node _ parts => parts

/-- What stands at a place. -/
def at? (o : Skeleton L) : List Nat → Option (Skeleton L)
  | [] => some o
  | j :: path => (o.parts[j]?).bind (·.at? path)

mutual

/-- All labels, that of a node before those below it. -/
def labels : Skeleton L → List L
  | .node label parts => label.toList ++ labelsAll parts

/-- All labels in some skeletons. -/
def labelsAll : List (Skeleton L) → List L
  | [] => []
  | o :: rest => o.labels ++ labelsAll rest

end

mutual

/-- The number of nodes. -/
def size : Skeleton L → Nat
  | .node _ parts => sizeAll parts + 1

/-- The number of nodes in some skeletons. -/
def sizeAll : List (Skeleton L) → Nat
  | [] => 0
  | o :: rest => o.size + sizeAll rest

end

theorem size_le_sizeAll (h : o ∈ os) : o.size ≤ sizeAll os := by
  induction os with
  | nil => cases h
  | cons p rest ih =>
    rw [sizeAll]
    obtain rfl | h := List.mem_cons.1 h
    · exact Nat.le_add_right ..
    · exact Nat.le_trans (ih h) (Nat.le_add_left ..)

theorem size_lt_of_mem_parts (h : p ∈ o.parts) : p.size < o.size := by
  cases o with
  | node label parts => exact Nat.lt_succ_of_le (size_le_sizeAll h)

theorem labelsAll_eq_flatMap (os : List (Skeleton L)) : labelsAll os = os.flatMap labels := by
  induction os with
  | nil => rw [labelsAll, List.flatMap_nil]
  | cons o rest ih => rw [labelsAll, List.flatMap_cons, ih]

@[simp]
theorem labels_node (label : Option L) (parts : List (Skeleton L)) :
    (node label parts).labels = label.toList ++ parts.flatMap labels := by
  rw [labels, labelsAll_eq_flatMap]

theorem labels_eq (o : Skeleton L) : o.labels = o.label?.toList ++ o.parts.flatMap labels := by
  cases o with
  | node label parts => exact labels_node label parts

theorem of_labels_eq_nil (h : o.labels = []) : o.label? = none ∧ o.parts.flatMap labels = [] := by
  rw [labels_eq, List.append_eq_nil_iff, Option.toList_eq_nil_iff] at h
  exact h

theorem at?_append (o : Skeleton L) (path path' : List Nat) :
    o.at? (path ++ path') = (o.at? path).bind (·.at? path') := by
  induction path generalizing o with
  | nil => rfl
  | cons j path ih =>
    rw [List.cons_append, at?, at?, Option.bind_assoc]
    exact congrArg _ (funext ih)

theorem at?_snoc (h : o.at? path = some p) (j : Nat) : o.at? (path ++ [j]) = p.parts[j]? := by
  rw [at?_append, h, Option.bind_some, at?]
  exact Option.bind_fun_some _

theorem mem_labels_of_at? (h : o.at? path = some p) (hl : p.label? = some l) : l ∈ o.labels := by
  induction path generalizing o with
  | nil =>
    obtain rfl := Option.some.inj h
    rw [labels_eq, hl]
    exact List.mem_cons_self
  | cons j path ih =>
    obtain ⟨q, hq, h⟩ := Option.bind_eq_some_iff.1 h
    rw [labels_eq]
    exact List.mem_append_right _ (List.mem_flatMap.2 ⟨q, List.mem_of_getElem? hq, ih h⟩)

mutual

theorem exists_at?_of_mem_labels : (o : Skeleton L) → l ∈ o.labels →
    ∃ path p, o.at? path = some p ∧ p.label? = some l
  | .node label parts, h => by
    rw [labels] at h
    obtain h | h := List.mem_append.1 h
    · exact ⟨[], _, rfl, Option.mem_toList.1 h⟩
    · obtain ⟨j, q, hq, path, p, hp, hl⟩ := exists_at?_of_mem_labelsAll parts h
      exact ⟨j :: path, p, Option.bind_eq_some_iff.2 ⟨q, hq, hp⟩, hl⟩

theorem exists_at?_of_mem_labelsAll : (os : List (Skeleton L)) → l ∈ labelsAll os →
    ∃ (j : Nat) (o : Skeleton L), os[j]? = some o ∧
      ∃ path p, o.at? path = some p ∧ p.label? = some l
  | [], h => by
    rw [labelsAll] at h
    cases h
  | o :: rest, h => by
    rw [labelsAll] at h
    obtain h | h := List.mem_append.1 h
    · exact ⟨0, o, rfl, exists_at?_of_mem_labels o h⟩
    · obtain ⟨j, q, hq, hp⟩ := exists_at?_of_mem_labelsAll rest h
      exact ⟨j + 1, q, by rwa [List.getElem?_cons_succ], hp⟩

end

/-- The node at a place. -/
def nodeAt (o : Skeleton L) (path : List Nat) : Node L :=
  match (o.at? path).bind label? with
  | some l => .labelled l
  | none => .place path

theorem nodeAt_of_label (h : o.at? path = some p) (hl : p.label? = some l) :
    o.nodeAt path = .labelled l := by
  rw [nodeAt, h, Option.bind_some, hl]

theorem nodeAt_of_none (h : o.at? path = some p) (hl : p.label? = none) :
    o.nodeAt path = .place path := by
  rw [nodeAt, h, Option.bind_some, hl]

/-- What labels record is right: a node with a label that records another one stands right below
the node with that one. -/
def Records (o : Skeleton L) (recorded : L → Option L) : Prop :=
  ∀ path p, o.at? path = some p → ∀ q ∈ p.parts, ∀ l, q.label? = some l →
    ∀ m, recorded l = some m → p.label? = some m

/-- No label stands twice, and what is recorded is right. -/
structure Orderly (o : Skeleton L) (recorded : L → Option L) : Prop where
  nodup : o.labels.Nodup
  root : ∀ l, o.label? = some l → recorded l = none
  records : o.Records recorded

theorem Records.node {recorded : L → Option L} {label : Option L} {parts : List (Skeleton L)}
    (hparts : ∀ q ∈ parts, ∀ l, q.label? = some l → ∀ m, recorded l = some m → label = some m)
    (h : ∀ q ∈ parts, q.Records recorded) : (Skeleton.node label parts).Records recorded := by
  intro path p hp
  cases path with
  | nil =>
    obtain rfl := Option.some.inj hp
    exact hparts
  | cons j path =>
    obtain ⟨q, hq, hp⟩ := Option.bind_eq_some_iff.1 hp
    exact h q (List.mem_of_getElem? hq) path p hp

/-- Where no label below the top records anything, nothing recorded is wrong. -/
theorem records_of_labels {recorded : L → Option L}
    (h : ∀ l ∈ o.parts.flatMap labels, recorded l = none) : o.Records recorded := by
  intro path p hp q hq l hl m hm
  obtain ⟨j, hj⟩ := List.getElem?_of_mem hq
  have hat : o.at? (path ++ [j]) = some q := by rw [at?_snoc hp, hj]
  obtain ⟨i, rest, hpath⟩ := List.exists_cons_of_ne_nil (List.append_ne_nil_of_right_ne_nil path
    (List.cons_ne_nil j []))
  rw [hpath] at hat
  obtain ⟨r, hr, hat⟩ := Option.bind_eq_some_iff.1 hat
  have := h l (List.mem_flatMap.2 ⟨r, List.mem_of_getElem? hr, mem_labels_of_at? hat hl⟩)
  rw [hm] at this
  cases this

section Places

variable [DecidableEq L]

mutual

/-- The place of a label, the first one if there are more. -/
def find? (l : L) : Skeleton L → Option (List Nat)
  | .node label parts =>
    if label = some l then some [] else (findAmong? l parts).map fun x => x.1 :: x.2

/-- Which of some skeletons has a label, and the place of the label there. -/
def findAmong? (l : L) : List (Skeleton L) → Option (Nat × List Nat)
  | [] => none
  | o :: rest =>
    match o.find? l with
    | some path => some (0, path)
    | none => (findAmong? l rest).map fun x => (x.1 + 1, x.2)

end

mutual

/-- Where a label is found it stands. -/
theorem exists_of_find? : (o : Skeleton L) → {path : List Nat} → o.find? l = some path →
    ∃ p, o.at? path = some p ∧ p.label? = some l
  | .node label parts, path, h => by
    rw [find?] at h
    split at h
    next hl =>
      obtain rfl := Option.some.inj h
      exact ⟨_, rfl, hl⟩
    next =>
      obtain ⟨⟨j, rest⟩, hx, rfl⟩ := Option.map_eq_some_iff.1 h
      obtain ⟨q, hq, p, hp, hl⟩ := exists_of_findAmong? parts hx
      exact ⟨p, Option.bind_eq_some_iff.2 ⟨q, hq, hp⟩, hl⟩

theorem exists_of_findAmong? : (os : List (Skeleton L)) → {j : Nat} → {path : List Nat} →
    findAmong? l os = some (j, path) →
      ∃ o, os[j]? = some o ∧ ∃ p, o.at? path = some p ∧ p.label? = some l
  | [], _, _, h => by
    rw [findAmong?] at h
    cases h
  | o :: rest, j, path, h => by
    rw [findAmong?] at h
    split at h
    next hpath =>
      obtain ⟨rfl, rfl⟩ := Prod.mk.inj (Option.some.inj h)
      exact ⟨o, rfl, exists_of_find? o hpath⟩
    next =>
      obtain ⟨⟨k, path'⟩, hx, heq⟩ := Option.map_eq_some_iff.1 h
      obtain ⟨rfl, rfl⟩ := Prod.mk.inj heq
      obtain ⟨q, hq, hp⟩ := exists_of_findAmong? rest hx
      exact ⟨q, by rwa [List.getElem?_cons_succ], hp⟩

end

theorem find?_eq_none (h : l ∉ o.labels) : o.find? l = none :=
  Option.eq_none_iff_forall_not_mem.2 fun _ hpath =>
    have ⟨_, hp, hl⟩ := exists_of_find? o hpath
    h (mem_labels_of_at? hp hl)

theorem findAmong?_of_getElem? (hnodup : (os.flatMap labels).Nodup) (ho : os[j]? = some o)
    (hl : l ∈ o.labels) (h : o.find? l = some path) : findAmong? l os = some (j, path) := by
  induction os generalizing j with
  | nil => cases ho
  | cons q rest ih =>
    rw [List.flatMap_cons, List.nodup_append] at hnodup
    rw [findAmong?]
    cases j with
    | zero =>
      obtain rfl : q = o := by simpa using ho
      rw [h]
    | succ j =>
      rw [List.getElem?_cons_succ] at ho
      have hrest : l ∈ rest.flatMap labels := List.mem_flatMap.2 ⟨o, List.mem_of_getElem? ho, hl⟩
      rw [find?_eq_none fun hq => hnodup.2.2 l hq l hrest rfl, ih hnodup.2.1 ho]
      rfl

/-- **A label that stands once is found where it stands.** -/
theorem find?_of_at? (hnodup : o.labels.Nodup) (h : o.at? path = some p) (hl : p.label? = some l) :
    o.find? l = some path := by
  induction path generalizing o with
  | nil =>
    obtain rfl := Option.some.inj h
    cases o with
    | node label parts =>
      obtain rfl : label = some l := hl
      rw [find?, if_pos rfl]
  | cons j path ih =>
    obtain ⟨q, hq, h⟩ := Option.bind_eq_some_iff.1 h
    rw [labels_eq, List.nodup_append] at hnodup
    have hmem := mem_labels_of_at? h hl
    have hparts : l ∈ o.parts.flatMap labels :=
      List.mem_flatMap.2 ⟨q, List.mem_of_getElem? hq, hmem⟩
    have hqnodup : q.labels.Nodup := (List.nodup_flatMap.1 hnodup.2.1).1 q (List.mem_of_getElem? hq)
    have hfind := findAmong?_of_getElem? hnodup.2.1 hq hmem (ih hqnodup h)
    cases o with
    | node label parts =>
      have hne : label ≠ some l := by
        rintro rfl
        exact hnodup.2.2 l (by simp [label?]) l hparts rfl
      rw [find?, if_neg hne]
      exact Option.map_eq_some_iff.2 ⟨_, hfind, rfl⟩

/-! ## The graph of a skeleton -/

/-- Where a node stands. -/
def placeOf? (o : Skeleton L) : Node L → Option (List Nat)
  | .labelled l => o.find? l
  | .place path =>
    match o.at? path with
    | some (.node none _) => some path
    | _ => none

/-- The nodes right below a node. -/
def children (o : Skeleton L) (n : Node L) : List (Node L) :=
  match (o.placeOf? n).bind fun path => (o.at? path).map fun p => (path, p.parts.length) with
  | some (path, count) => (List.range count).map fun j => o.nodeAt (path ++ [j])
  | none => []

/-- The node right above a node. -/
def above? (o : Skeleton L) (n : Node L) : Option (Node L) :=
  (o.placeOf? n).bind fun path => if path = [] then none else some (o.nodeAt path.dropLast)

/-- The owner of a node: the one that is recorded, for some labels by another label, or else the
node above it. -/
def owner (o : Skeleton L) (recorded : L → Option L) : Node L → Option (Node L)
  | .labelled l =>
    match recorded l with
    | some m => some (.labelled m)
    | none => o.above? (.labelled l)
  | .place path => o.above? (.place path)

/-- The graph of a skeleton. -/
def graph (o : Skeleton L) (recorded : L → Option L) : Graph (Node L) where
  root := o.nodeAt []
  children := o.children
  owner := o.owner recorded

/-- The node that stands at a place stands there only. -/
theorem placeOf?_nodeAt (hnodup : o.labels.Nodup) (h : o.at? path = some p) :
    o.placeOf? (o.nodeAt path) = some path := by
  cases hl : p.label? with
  | none =>
    rw [nodeAt_of_none h hl, placeOf?, h]
    cases p with
    | node label parts =>
      obtain rfl : label = none := hl
      rfl
  | some l =>
    rw [nodeAt_of_label h hl, placeOf?]
    exact find?_of_at? hnodup h hl

theorem exists_of_placeOf? {n : Node L} (h : o.placeOf? n = some path) :
    ∃ p, o.at? path = some p ∧ o.nodeAt path = n := by
  cases n with
  | labelled l =>
    obtain ⟨p, hp, hl⟩ := exists_of_find? o h
    exact ⟨p, hp, nodeAt_of_label hp hl⟩
  | place path' =>
    rw [placeOf?] at h
    split at h
    next hp =>
      obtain rfl := Option.some.inj h
      exact ⟨_, hp, nodeAt_of_none hp rfl⟩
    next => cases h

theorem mem_children_iff {n m : Node L} : m ∈ o.children n ↔ ∃ path p j, o.placeOf? n = some path ∧
    o.at? path = some p ∧ j < p.parts.length ∧ o.nodeAt (path ++ [j]) = m := by
  unfold children
  split
  next path count h =>
    obtain ⟨path', hpath, h⟩ := Option.bind_eq_some_iff.1 h
    obtain ⟨p, hp, h⟩ := Option.map_eq_some_iff.1 h
    obtain ⟨rfl, rfl⟩ := Prod.mk.inj h
    rw [List.mem_map]
    constructor
    · rintro ⟨j, hj, rfl⟩
      exact ⟨path', p, j, hpath, hp, List.mem_range.1 hj, rfl⟩
    · rintro ⟨path'', p', j, hpath', hp', hj, rfl⟩
      obtain rfl := Option.some.inj (hpath.symm.trans hpath')
      obtain rfl := Option.some.inj (hp.symm.trans hp')
      exact ⟨j, List.mem_range.2 hj, rfl⟩
  next h =>
    refine ⟨fun hm => absurd hm List.not_mem_nil, ?_⟩
    rintro ⟨path, p, j, hpath, hp, -⟩
    rw [hpath, Option.bind_some, hp] at h
    cases h

theorem above?_of_placeOf? {n : Node L} (h : o.placeOf? n = some (path ++ [j])) :
    o.above? n = some (o.nodeAt path) := by
  rw [above?, h, Option.bind_some, if_neg (by simp), List.dropLast_concat]

/-- How many nodes stand at a node and below it. -/
def sizeAt (o : Skeleton L) (n : Node L) : Nat := ((o.placeOf? n).bind o.at?).elim 0 size

/-- **The graph of a skeleton is a tree if no label stands twice and what is recorded is right.** -/
theorem Orderly.owned {recorded : L → Option L} (h : o.Orderly recorded) :
    (o.graph recorded).Owned where
  root := by
    have htop : o.at? [] = some o := rfl
    have habove : o.above? (o.nodeAt []) = none := by
      rw [above?, placeOf?_nodeAt h.nodup htop, Option.bind_some, if_pos rfl]
    change o.owner recorded (o.nodeAt []) = none
    cases hl : o.label? with
    | none => rwa [nodeAt_of_none htop hl] at habove ⊢
    | some l =>
      rw [nodeAt_of_label htop hl] at habove ⊢
      rw [owner, h.root l hl]
      exact habove
  owner n m hm := by
    obtain ⟨path, p, j, hpath, hp, hj, rfl⟩ := mem_children_iff.1 hm
    obtain ⟨p', hp', rfl⟩ := exists_of_placeOf? hpath
    obtain rfl := Option.some.inj (hp.symm.trans hp')
    have hq : o.at? (path ++ [j]) = some p.parts[j] := by
      rw [at?_snoc hp, List.getElem?_eq_getElem hj]
    have habove := above?_of_placeOf? (placeOf?_nodeAt h.nodup hq)
    change o.owner recorded (o.nodeAt (path ++ [j])) = some (o.nodeAt path)
    cases hl : p.parts[j].label? with
    | none => rwa [nodeAt_of_none hq hl] at habove ⊢
    | some l =>
      rw [nodeAt_of_label hq hl] at habove ⊢
      rw [owner]
      split
      next x hx =>
        rw [nodeAt_of_label hp (h.records path p hp _ (List.getElem_mem hj) l hl x hx)]
      next => exact habove
  nodup n := by
    change (o.children n).Nodup
    unfold children
    split
    next path count hcount =>
      obtain ⟨path', hpath, hcount⟩ := Option.bind_eq_some_iff.1 hcount
      obtain ⟨p, hp, hcount⟩ := Option.map_eq_some_iff.1 hcount
      obtain ⟨rfl, rfl⟩ := Prod.mk.inj hcount
      have hplace {i : Nat} (hi : i ∈ List.range p.parts.length) :
          o.placeOf? (o.nodeAt (path' ++ [i])) = some (path' ++ [i]) :=
        placeOf?_nodeAt h.nodup (by
          rw [at?_snoc hp, List.getElem?_eq_getElem (List.mem_range.1 hi)])
      refine List.Nodup.map_on (fun i hi k hk heq => ?_) List.nodup_range
      have := (hplace hi).symm.trans ((congrArg _ heq).trans (hplace hk))
      simpa using this
    next => exact List.nodup_nil
  wellFounded := by
    refine Subrelation.wf (fun {m n} hm => ?_) (InvImage.wf o.sizeAt Nat.lt_wfRel.wf)
    obtain ⟨path, p, j, hpath, hp, hj, rfl⟩ := mem_children_iff.1 hm
    have hq : o.at? (path ++ [j]) = some p.parts[j] := by
      rw [at?_snoc hp, List.getElem?_eq_getElem hj]
    change o.sizeAt _ < o.sizeAt n
    rw [sizeAt, placeOf?_nodeAt h.nodup hq, Option.bind_some, hq, Option.elim_some, sizeAt,
      hpath, Option.bind_some, hp, Option.elim_some]
    exact size_lt_of_mem_parts (List.getElem_mem hj)

/-- **Every node of a skeleton is reached.** -/
theorem reachable_nodeAt {recorded : L → Option L} (hnodup : o.labels.Nodup)
    (h : o.at? path = some p) : (o.graph recorded).Reachable (o.nodeAt path) := by
  induction path using List.reverseRecOn generalizing p with
  | nil => exact .refl
  | append_singleton path j ih =>
    rw [at?_append] at h
    obtain ⟨q, hq, h⟩ := Option.bind_eq_some_iff.1 h
    obtain ⟨r, hr, -⟩ := Option.bind_eq_some_iff.1 h
    obtain ⟨hj, -⟩ := List.getElem?_eq_some_iff.1 hr
    exact .tail (ih hq)
      (mem_children_iff.2 ⟨path, q, j, placeOf?_nodeAt hnodup hq, hq, hj, rfl⟩)

/-- The labels that are reached are those of the skeleton. -/
theorem reachable_labelled_iff {recorded : L → Option L} (hnodup : o.labels.Nodup) :
    (o.graph recorded).Reachable (.labelled l) ↔ l ∈ o.labels := by
  have label {path : List Nat} (h : o.nodeAt path = .labelled l) : l ∈ o.labels := by
    unfold nodeAt at h
    split at h
    next m hm =>
      obtain ⟨p, hp, hl⟩ := Option.bind_eq_some_iff.1 hm
      obtain rfl := Node.labelled.inj h
      exact mem_labels_of_at? hp hl
    next => cases h
  constructor
  · intro h
    obtain heq | ⟨n, -, hn⟩ := Relation.ReflTransGen.cases_tail h
    · exact label heq.symm
    · obtain ⟨path, p, j, -, -, -, heq⟩ := mem_children_iff.1 hn
      exact label heq
  · intro h
    obtain ⟨path, p, hp, hl⟩ := exists_at?_of_mem_labels o h
    rw [← nodeAt_of_label hp hl]
    exact reachable_nodeAt hnodup hp

end Places

end Skeleton

end ChannelBasic
