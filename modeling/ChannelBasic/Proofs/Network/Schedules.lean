import ChannelBasic.Machine.Network
import ChannelBasic.Proofs.Machine.Steps
import ChannelBasic.Proofs.Passes

/-!
# Proofs/Network/Schedules — machines without wires between them do not notice the schedule

A host lets its machines run in turns, of any length and in any order, and lets the wires carry
their bytes now and then: a **schedule** is the list of what it does.  A turn starts with no texts
printed, and no instruction looks at the texts printed before it (`Step.Blind`); so a run that is cut
into turns prints, turn after turn, what the whole run prints.  Where no wire joins two machines,
**what becomes of a machine depends on the sum of its quotas alone** (`Session.stands_follow`), and
two schedules that give each machine the same sum cannot be told apart
(`Executable.schedule_independent`).
-/

namespace ChannelBasic

open Code

/-! ## Texts that have been printed before -/

/-- The machine with texts before those that it has printed. -/
def Machine.precededBy (texts : Array String) (m : Machine) : Machine :=
  { m with printed := texts ++ m.printed }

namespace Step

variable {α β : Type} {x : Step α} {f : α → Step β}

/-- What a step comes to, with texts before those that have been printed. -/
def precede (texts : Array String) :
    EStateM.Result Halt Machine α → EStateM.Result Halt Machine α
  | .ok a m => .ok a (m.precededBy texts)
  | .error h m => .error h (m.precededBy texts)

/-- A step does the same whatever has been printed before. -/
def Blind (x : Step α) : Prop := ∀ texts m, x (m.precededBy texts) = precede texts (x m)

namespace Blind

theorem seq (hx : Blind x) (hf : ∀ a, Blind (f a)) : Blind (x >>= f) := by
  intro texts m
  have h := hx texts m
  cases hm : x m with
  | ok a m' =>
    rw [hm] at h
    rw [bind_ok h, bind_ok hm, hf a]
  | error e m' =>
    rw [hm] at h
    rw [bind_error h, bind_error hm]
    rfl

/-- What comes after reading the machine may depend on it, but not on its texts. -/
theorem reads {g : Machine → Step β} (hg : ∀ m, Blind (g m))
    (htexts : ∀ texts m, g (m.precededBy texts) = g m) : Blind (get >>= g) := by
  intro texts m
  rw [get_bind, get_bind, htexts]
  exact hg m texts m

theorem value (a : α) : Blind (pure a) := fun _ _ => rfl

theorem refused (e : Fault) : Blind (fail e : Step α) := fun _ _ => rfl

theorem lifts (y : Except Fault α) : Blind (lift y) := by
  cases y with
  | ok a => exact value a
  | error e => exact refused e

theorem selects (y : Option α) : Blind (select y) := by
  cases y with
  | some a => exact value a
  | none => exact refused _

/-- A change that leaves the texts alone. -/
theorem modifies {g : Machine → Machine}
    (h : ∀ texts m, g (m.precededBy texts) = (g m).precededBy texts) :
    Blind (modify g : Step Unit) := by
  intro texts m
  exact congrArg (EStateM.Result.ok ()) (h texts m)

theorem choice {c : Prop} [Decidable c] {y : Step α} (hx : Blind x) (hy : Blind y) :
    Blind (if c then x else y) := by
  split
  · exact hx
  · exact hy

end Blind

/-! ## Memory, stack and registers -/

theorem blind_read (address count : Int) : Blind (read address count) :=
  .reads (fun _ => .lifts _) fun _ _ => rfl

theorem blind_write (address : Int) (data : List UInt8) : Blind (write address data) := by
  intro texts m
  unfold write
  change (if m.memory.inside address data.length = true then _ else _) = _
  split <;> rfl

theorem blind_copy (source target count : Int) : Blind (copy source target count) :=
  .seq (blind_read _ _) fun _ => blind_write _ _

theorem blind_reserve (n : Int) : Blind (reserve n) := by
  intro texts m
  unfold reserve
  change (if 0 ≤ n ∧ m.limit ≤ m.sp - n then _ else _) = _
  split <;> rfl

theorem blind_release (n : Int) : Blind (release n) := by
  intro texts m
  unfold release
  change (if n < 0 then _ else if m.sp + n ≤ m.memory.top then _ else _) = _
  split
  · rfl
  · split <;> rfl

theorem blind_frameAddress (offset : Int) : Blind (frameAddress offset) :=
  .reads (fun _ => .choice (.value _) (.refused _)) fun _ _ => rfl

theorem blind_push (data : List UInt8) : Blind (push data) :=
  .seq (blind_reserve _) fun _ => blind_write _ _

theorem blind_pushZeros (n : Int) : Blind (pushZeros n) :=
  .seq (blind_reserve _) fun _ => blind_write _ _

theorem blind_pushValue (v : Value) (n : Int) : Blind (pushValue v n) :=
  .seq (blind_reserve _) fun _ => blind_write _ _

theorem blind_pop (n : Int) : Blind (pop n) :=
  .reads (fun _ => .seq (blind_read _ _) fun _ => .seq (blind_release _) fun _ => .value _)
    fun _ _ => rfl

theorem blind_popInt : Blind popInt := .seq (blind_pop 4) fun _ => .value _

theorem blind_popValue (type : ValueType) (n : Int) : Blind (popValue type n) :=
  .seq (blind_pop n) fun _ => .lifts _

theorem blind_goto (address : Int) : Blind (goto address) := .modifies fun _ _ => rfl

theorem blind_following : Blind following := .reads (fun _ => .value _) fun _ _ => rfl

theorem blind_advance : Blind advance := .modifies fun _ _ => rfl

theorem blind_stop : Blind stop := .modifies fun _ _ => rfl

/-! ## Instructions -/

theorem blind_load (r : Record) : Blind (load r) := by
  refine .seq (.selects _) fun storage => ?_
  cases storage with
  | global => exact .seq (blind_reserve _) fun _ => blind_copy _ _ _
  | frame =>
    exact .seq (blind_frameAddress _) fun _ => .seq (blind_reserve _) fun _ => blind_copy _ _ _
  | immediate => exact .choice (blind_push _) (.refused _)
  | framePointer => exact .seq (blind_frameAddress _) fun _ => blind_push _
  | zero => exact blind_pushZeros _

theorem blind_store (r : Record) : Blind (store r) := by
  have rest (target : Int) : Blind (do
      copy (← get).sp target r.x0.toInt
      release r.x0.toInt) :=
    .reads (fun _ => .seq (blind_copy _ _ _) fun _ => blind_release _) fun _ _ => rfl
  refine .seq (.selects _) fun storage => ?_
  cases storage with
  | global => exact rest _
  | frame => exact .seq (blind_frameAddress _) rest
  | _ => exact .seq (.refused _) rest

theorem blind_cast (r : Record) : Blind (cast r) :=
  .seq (.selects _) fun _ => .seq (blind_popValue _ _) fun _ => .seq (.selects _) fun _ =>
    .seq (.lifts _) fun _ => blind_pushValue _ _

theorem blind_binary (op : Opcode) (r : Record) : Blind (binary op r) :=
  .seq (.selects _) fun _ => .seq (blind_popValue _ _) fun _ => .seq (blind_popValue _ _) fun _ =>
    .seq (.lifts _) fun _ => blind_pushValue _ _

theorem blind_compare (r : Record) : Blind (compare r) :=
  .seq (.selects _) fun _ => .seq (.selects _) fun _ => .seq (blind_popValue _ _) fun _ =>
    .seq (blind_popValue _ _) fun _ => .seq (.lifts _) fun _ => blind_push _

theorem blind_unary (f : Value → Except Fault Value) (r : Record) : Blind (unary f r) :=
  .seq (.selects _) fun _ => .seq (blind_popValue _ _) fun _ => .seq (.lifts _) fun _ =>
    blind_pushValue _ _

theorem blind_sign (r : Record) : Blind (sign r) :=
  .seq (.selects _) fun _ => .seq (blind_popValue _ _) fun _ => .seq (.lifts _) fun _ =>
    blind_push _

/-- **A function of the host is given the memory and the stack pointer only**, and what it prints
comes after what has been printed. -/
theorem blind_callNative (natives : Natives) (name : String) :
    Blind (callNative natives name) := by
  intro texts m
  have happend (texts' : List String) :
      texts ++ m.printed ++ texts' = texts ++ (m.printed ++ texts') := by
    rw [← Array.toList_inj]
    simp
  unfold callNative
  simp only [Machine.precededBy, happend]
  cases (natives.call name m.memory m.sp).halt <;> rfl

theorem blind_call (natives : Natives) (r : Record) : Blind (call natives r) := by
  refine .seq blind_following fun _ => .seq (blind_push _) fun _ => .seq (.selects _) fun kind => ?_
  cases kind with
  | user => exact blind_goto _
  | native =>
    exact .reads (fun _ => .seq (.lifts _) fun _ => .seq (blind_callNative natives _) fun _ =>
      .seq blind_popInt fun _ => blind_goto _) fun _ _ => rfl

theorem blind_ret : Blind ret :=
  .seq blind_popInt fun _ => .seq (blind_goto _) fun _ =>
    .reads (fun _ => .choice blind_stop (.value _)) fun _ _ => rfl

theorem blind_enter (r : Record) : Blind (enter r) :=
  .reads (fun _ => .seq (blind_push _) fun _ => .seq (.modifies fun _ _ => rfl) fun _ =>
    .seq (blind_reserve _) fun _ => .value _) fun _ _ => rfl

theorem blind_leave (r : Record) : Blind (leave r) :=
  .seq (blind_release _) fun _ => .seq blind_popInt fun _ => .modifies fun _ _ => rfl

theorem blind_branch (r : Record) : Blind (branch r) :=
  .seq (blind_pop 1) fun _ => .seq (.selects _) fun _ => .choice (blind_goto _) blind_advance

theorem blind_execute (natives : Natives) (r : Record) (op : Opcode) :
    Blind (execute natives r op) := by
  have next {x : Step Unit} (h : Blind x) : Blind (do x; advance) := .seq h fun _ => blind_advance
  cases op with
  | NOP => exact blind_advance
  | LOAD => exact next (blind_load r)
  | STORE => exact next (blind_store r)
  | CAST => exact next (blind_cast r)
  | POP => exact .seq (blind_pop _) fun _ => blind_advance
  | DUP => exact .reads (fun _ => .seq (blind_read _ _) fun _ => next (blind_push _)) fun _ _ => rfl
  | CALL => exact blind_call natives r
  | RET => exact blind_ret
  | ENTER => exact next (blind_enter r)
  | LEAVE => exact next (blind_leave r)
  | CMP => exact next (blind_compare r)
  | SIGN => exact next (blind_sign r)
  | NEG => exact next (blind_unary _ r)
  | NOT => exact next (blind_unary _ r)
  | IF => exact blind_branch r
  | JUMP => exact blind_goto _
  | END => exact blind_stop
  | _ => exact next (blind_binary _ r)

theorem blind_fetch : Blind fetch := by
  refine .reads (fun _ => .seq (blind_read _ _) fun bytes => ?_) fun _ _ => rfl
  cases Record.decode? bytes with
  | some r => exact .value r
  | none => exact .refused _

theorem blind_step (natives : Natives) : Blind (step natives) :=
  .seq blind_fetch fun _ => .seq (.selects _) fun _ => blind_execute natives _ _

end Step

namespace Machine

variable {natives : Natives}

theorem tick_precededBy (texts : Array String) (m : Machine) :
    (m.precededBy texts).tick natives = (m.tick natives).precededBy texts := by
  unfold tick EStateM.run
  rw [Step.blind_step natives texts m]
  cases Step.step natives m <;> rfl

theorem run_precededBy (texts : Array String) (quota : Nat) (m : Machine) :
    (m.precededBy texts).run natives quota = (m.run natives quota).precededBy texts := by
  induction quota generalizing m with
  | zero => rfl
  | succ quota ih =>
    unfold run
    change (if m.isRunning = true then _ else _) = _
    split
    · rw [tick_precededBy, ih]
    · rfl

theorem precededBy_silent (m : Machine) : m.silent.precededBy m.printed = m := by
  simp [precededBy, silent]

theorem silent_precededBy (texts : Array String) (m : Machine) :
    (m.precededBy texts).silent = m.silent := rfl

/-- **A run cut into two prints in two parts what it prints.** -/
theorem run_silent_add (m : Machine) (k n : Nat) :
    m.silent.run natives (k + n) =
      ((m.silent.run natives k).silent.run natives n).precededBy
        (m.silent.run natives k).printed := by
  rw [run_add, ← run_precededBy, precededBy_silent]

end Machine

namespace Node

variable {natives : Natives}

/-- The node without the texts that its machine has printed. -/
def silenced (d : Node) : Node := { d with machine := d.machine.silent }

theorem turn_silenced (quota : Nat) (d : Node) :
    d.silenced.turn natives quota = d.turn natives quota := rfl

/-- A turn after a turn leaves the node as one long turn does, but for the texts. -/
theorem silenced_turn_turn (k n : Nat) (d : Node) :
    ((d.turn natives k).turn natives n).silenced = (d.turn natives (k + n)).silenced := by
  simp only [turn, silenced, Machine.run_silent_add, Machine.silent_precededBy]

/-- What two turns print, one after the other, one long turn prints. -/
theorem printed_turn_turn (k n : Nat) (d : Node) :
    (d.turn natives k).machine.printed.toList ++
        ((d.turn natives k).turn natives n).machine.printed.toList =
      (d.turn natives (k + n)).machine.printed.toList := by
  simp only [turn, Machine.run_silent_add, Machine.precededBy, Array.toList_append]

end Node

/-! ## Schedules -/

namespace Network

/-- What a host can do with the machines of a program. -/
inductive Act where
  /-- Let one machine run for a while. -/
  | turn (node quota : Nat)
  /-- Let the wires carry their bytes. -/
  | transmit

/-- The number of instructions that a machine is given. -/
def Act.quota : Act → Nat → Nat
  | .turn node quota, i => if i = node then quota else 0
  | .transmit, _ => 0

/-- What a host does, one thing after another. -/
abbrev Schedule := List Act

/-- The number of instructions that a machine is given in all. -/
def Schedule.total (s : Schedule) (i : Nat) : Nat := (s.map (·.quota i)).sum

/-- A host at work. -/
structure Session where
  network : Network
  /-- The texts printed so far, each with the number of the node that printed it. -/
  log : List (Nat × String)

/-- The texts that the machine of a node has printed in its last turn. -/
def spoken (nodes : Array Node) (i : Nat) : List String :=
  (nodes[i]?.map (·.machine.printed.toList)).getD []

/-- A wire that starts and ends in one module carries nothing. -/
theorem transfer_of_owner_eq {w : Wire} (h : w.source.owner = w.destination.owner)
    (nodes : Array Node) : transfer nodes w = nodes := by
  have hnone : outgoing nodes w = none := by
    unfold outgoing
    rw [h]
    cases find? nodes w.destination.owner <;> simp
  rw [transfer, hnone]

theorem transmit_of_owner_eq {n : Network}
    (h : ∀ w ∈ n.wires, w.source.owner = w.destination.owner) : n.transmit = n := by
  have hfold (ws : List Wire) (hws : ∀ w ∈ ws, w.source.owner = w.destination.owner) :
      ws.foldl transfer n.nodes = n.nodes := by
    induction ws with
    | nil => rfl
    | cons w ws ih =>
      rw [List.foldl_cons, transfer_of_owner_eq (hws w List.mem_cons_self)]
      exact ih fun w' hw' => hws w' (List.mem_cons_of_mem w hw')
  rw [transmit, hfold n.wires h]

namespace Session

variable {natives : Natives} {n : Network} {q : Nat → Nat} {s : Session}

/-- The host has done one thing more. -/
def act (natives : Natives) (s : Session) : Act → Session
  | .turn i quota =>
    let nodes := s.network.nodes.modify i (Node.turn natives quota)
    ⟨{ s.network with nodes }, s.log ++ (spoken nodes i).map (i, ·)⟩
  | .transmit => ⟨s.network.transmit, s.log⟩

/-- The host has done all that a schedule says. -/
def follow (natives : Natives) (s : Session) (schedule : Schedule) : Session :=
  schedule.foldl (act natives) s

/-- The texts that a node has printed, in their order. -/
def texts (s : Session) (i : Nat) : List String := (s.log.filter (·.1 == i)).map (·.2)

/-- The session has come as far as if each node of a network had had one turn, with the quota that
`q` gives. -/
structure Stands (natives : Natives) (n : Network) (q : Nat → Nat) (s : Session) : Prop where
  wires : s.network.wires = n.wires
  nodes : ∀ (i : Nat) (d : Node), n.nodes[i]? = some d → ∃ d', s.network.nodes[i]? = some d' ∧
    d'.silenced = (d.turn natives (q i)).silenced ∧
    s.texts i = (d.turn natives (q i)).machine.printed.toList

theorem stands_start (natives : Natives) (n : Network) : Stands natives n (fun _ => 0) ⟨n, []⟩ where
  wires := rfl
  nodes _ d hd := ⟨d, hd, rfl, rfl⟩

/-- What a node says is added to its own texts. -/
theorem texts_act_turn (node quota i : Nat) :
    (s.act natives (.turn node quota)).texts i =
      s.texts i ++ if i = node then
        spoken (s.network.nodes.modify node (Node.turn natives quota)) node else [] := by
  simp only [act, texts]
  rw [List.filter_append, List.map_append, List.filter_map, List.map_map]
  congr 1
  by_cases h : i = node
  · subst h
    simp [Function.comp_def]
  · simp [h, Function.comp_def, Ne.symm h]

/-- **One thing that the host does takes a session as far as it should.** -/
theorem Stands.act (h : s.Stands natives n q)
    (hn : ∀ w ∈ n.wires, w.source.owner = w.destination.owner) (a : Act) :
    (s.act natives a).Stands natives n (fun i => q i + a.quota i) := by
  cases a with
  | transmit =>
    have hs : s.act natives .transmit = s := by
      rw [Session.act, transmit_of_owner_eq (h.wires ▸ hn)]
    rw [hs]
    exact h
  | turn node quota =>
    refine ⟨h.wires, fun i d hd => ?_⟩
    obtain ⟨d', hd', hsilent, htexts⟩ := h.nodes i d hd
    by_cases hi : i = node
    · subst hi
      -- the node's texts count for nothing in its next turn
      have hturn : d'.turn natives quota = (d.turn natives (q i)).turn natives quota := by
        rw [← Node.turn_silenced, hsilent, Node.turn_silenced]
      have hmodified : (s.network.nodes.modify i (Node.turn natives quota))[i]? =
          some (d'.turn natives quota) := by
        rw [Array.getElem?_modify, if_pos rfl, hd']
        rfl
      refine ⟨_, hmodified, ?_, ?_⟩
      · rw [hturn, Node.silenced_turn_turn, Act.quota, if_pos rfl]
      · rw [texts_act_turn, if_pos rfl, htexts, spoken, hmodified, Act.quota, if_pos rfl]
        rw [Option.map_some, Option.getD_some, hturn, Node.printed_turn_turn]
    · refine ⟨d', ?_, ?_, ?_⟩
      · rw [Session.act, Array.getElem?_modify, if_neg (Ne.symm hi), hd']
      · rw [hsilent, Act.quota, if_neg hi, Nat.add_zero]
      · rw [texts_act_turn, if_neg hi, List.append_nil, htexts, Act.quota, if_neg hi, Nat.add_zero]

/-- **A schedule gives a node what one turn with the sum of its quotas gives it.** -/
theorem Stands.follow (h : s.Stands natives n q)
    (hn : ∀ w ∈ n.wires, w.source.owner = w.destination.owner) (schedule : Schedule) :
    (s.follow natives schedule).Stands natives n (fun i => q i + schedule.total i) := by
  induction schedule generalizing s q with
  | nil => exact h
  | cons a rest ih =>
    have htotal : (fun i => q i + Schedule.total (a :: rest) i) =
        fun i => q i + a.quota i + Schedule.total rest i := by
      funext i
      simp [Schedule.total, Nat.add_assoc]
    rw [htotal]
    exact ih (h.act hn a)

end Session

/-- A round as a schedule: each node has its turn, and then the wires carry their bytes. -/
def Schedule.round (size quota : Nat) : Schedule :=
  (List.range size).map (.turn · quota) ++ [.transmit]

theorem follow_turns (natives : Natives) (quota k : Nat) (s : Session) :
    (s.follow natives ((List.range k).map (.turn · quota))).network.wires = s.network.wires ∧
      ∀ j, (s.follow natives ((List.range k).map (.turn · quota))).network.nodes[j]? =
        if j < k then s.network.nodes[j]?.map (Node.turn natives quota)
        else s.network.nodes[j]? := by
  induction k with
  | zero => exact ⟨rfl, fun j => by simp [Session.follow]⟩
  | succ k ih =>
    obtain ⟨hwires, hnodes⟩ := ih
    have hlast : s.follow natives ((List.range (k + 1)).map (.turn · quota)) =
        (s.follow natives ((List.range k).map (.turn · quota))).act natives (.turn k quota) := by
      simp [Session.follow, List.range_succ]
    rw [hlast]
    refine ⟨hwires, fun j => ?_⟩
    simp only [Session.act, Array.getElem?_modify, hnodes]
    by_cases hj : k = j
    · simp [hj]
    · simp only [if_neg hj, show j < k + 1 ↔ j < k by omega]

/-- **The rounds of a network are such schedules.** -/
theorem round_eq_follow (natives : Natives) (quota : Nat) (n : Network) :
    (n.round natives quota).2 =
      (Session.follow natives ⟨n, []⟩ (.round n.nodes.size quota)).network := by
  obtain ⟨hwires, hnodes⟩ := follow_turns natives quota n.nodes.size ⟨n, []⟩
  have hturns : (Session.follow natives ⟨n, []⟩ ((List.range n.nodes.size).map
      (.turn · quota))).network = { n with nodes := n.nodes.map (Node.turn natives quota) } := by
    refine congr (congrArg Network.mk (Array.ext_getElem? fun j => ?_)) hwires
    rw [hnodes, Array.getElem?_map]
    split
    · rfl
    next hj => rw [Array.getElem?_eq_none (not_lt.1 hj)]; rfl
  have hround : Session.follow natives ⟨n, []⟩ (.round n.nodes.size quota) =
      (Session.follow natives ⟨n, []⟩ ((List.range n.nodes.size).map (.turn · quota))).act natives
        .transmit := by
    simp [Session.follow, Schedule.round]
  rw [hround, Session.act, hturns]
  rfl

/-- The nodes of a network that has just been started are the modules, in their order. -/
theorem start_eq_ok {images : List Image} {wires : List Wire} {size : Nat} {n : Network}
    (h : start images wires size = .ok n) :
    n.wires = wires ∧
      List.Forall₂ (fun image d => Node.start size image = .ok d) images n.nodes.toList := by
  have hmap (images : List Image) (ds : List Node)
      (h : images.mapM (Node.start size) = .ok ds) :
      List.Forall₂ (fun image d => Node.start size image = .ok d) images ds := by
    induction images generalizing ds with
    | nil => cases h; exact .nil
    | cons image images ih =>
      rw [List.mapM_cons] at h
      cases hd : Node.start size image with
      | error e => rw [hd] at h; cases h
      | ok d =>
        cases hds : images.mapM (Node.start size) with
        | error e => rw [hd, hds] at h; cases h
        | ok ds' =>
          rw [hd, hds] at h
          cases h
          exact .cons hd (ih ds' hds)
  unfold start at h
  cases hds : images.mapM (Node.start size) with
  | error e => rw [hds] at h; cases h
  | ok ds =>
    rw [hds] at h
    cases h
    exact ⟨rfl, hmap images ds hds⟩

end Network

theorem Node.name_of_start {size : Nat} {image : Image} {d : Node}
    (h : Node.start size image = .ok d) : d.name = image.name := by
  unfold start at h
  split at h <;> cases h
  rfl

open Network in
/-- **Machines that no wire joins do not notice how they are scheduled.**  Two hosts start the same
compiled program, with the same functions of their own to call, and let the machines run in any
order and in turns of any length.  If each machine is given the same number of instructions by both,
then it ends with the same registers, the same memory and the same event, and its module has printed
the same texts in the same order. -/
theorem Executable.schedule_independent {x : Executable} {size : Nat} {n : Network}
    (hlocal : ∀ w ∈ x.wires, w.source.owner = w.destination.owner)
    (hn : Network.start x.images x.wires size = .ok n) (natives : Natives)
    (s₁ s₂ : Schedule) (htotal : ∀ i, s₁.total i = s₂.total i) :
    ∀ (i : Nat) (image : Image), x.images[i]? = some image →
      ∃ m₁ m₂, (Session.follow natives ⟨n, []⟩ s₁).network.nodes[i]? = some ⟨image.name, m₁⟩ ∧
        (Session.follow natives ⟨n, []⟩ s₂).network.nodes[i]? = some ⟨image.name, m₂⟩ ∧
        m₁.silent = m₂.silent ∧
        (Session.follow natives ⟨n, []⟩ s₁).texts i =
          (Session.follow natives ⟨n, []⟩ s₂).texts i := by
  intro i image himage
  obtain ⟨hwires, hnodes⟩ := Network.start_eq_ok hn
  obtain ⟨d, hd, hstart⟩ := forall₂_left hnodes himage
  have hlocal' : ∀ w ∈ n.wires, w.source.owner = w.destination.owner := hwires ▸ hlocal
  have hd' : n.nodes[i]? = some d := by rwa [Array.getElem?_toList] at hd
  have hstands := Session.stands_start natives n
  obtain ⟨⟨name₁, m₁⟩, h₁, hd₁, ht₁⟩ := (hstands.follow hlocal' s₁).nodes i d hd'
  obtain ⟨⟨name₂, m₂⟩, h₂, hd₂, ht₂⟩ := (hstands.follow hlocal' s₂).nodes i d hd'
  have hname : d.name = image.name := Node.name_of_start hstart
  obtain rfl : name₁ = image.name := (congrArg Node.name hd₁).trans hname
  obtain rfl : name₂ = image.name := (congrArg Node.name hd₂).trans hname
  rw [htotal i] at hd₁ ht₁
  exact ⟨m₁, m₂, h₁, h₂, congrArg Node.machine (hd₁.trans hd₂.symm), ht₁.trans ht₂.symm⟩

/-- Two modules that print a text each. -/
def Raw.Program.greeting : Raw.Program :=
  let place : Location := default
  let main (text : String) : Raw.Function :=
    ⟨place, "MAIN", none, .user [] [.call place (.call place "print" [.text place text])]⟩
  ⟨[], [], [⟨place, [], [⟨place, "print", none, .native [.pointer (.constant .string)]⟩]⟩],
    [⟨place, "A", "NODE", [], [⟨place, [], [main "a"]⟩]⟩,
      ⟨place, "B", "NODE", [], [⟨place, [], [main "b"]⟩]⟩], []⟩

/-- What `Raw.Program.greeting` compiles to. -/
def Executable.greeting : Executable :=
  (Program.analyse .greeting >>= ofProgram).toOption.getD default

open Network in
/-- The two modules, run in turns cut in two, and run one after the other. -/
theorem Executable.schedule_independent_greeting :
    (Program.analyse .greeting >>= ofProgram) = .ok greeting ∧
      ∃ n, Network.start greeting.images greeting.wires 256 = .ok n ∧
        let natives := Natives.empty.insert "print" Native.print
        let s₁ := Session.follow natives ⟨n, []⟩
          [.turn 0 2, .turn 1 5, .transmit, .turn 0 6, .turn 1 3]
        let s₂ := Session.follow natives ⟨n, []⟩ [.turn 1 8, .turn 0 8]
        ∀ (i : Nat) (image : Image), greeting.images[i]? = some image → ∃ m₁ m₂,
          s₁.network.nodes[i]? = some ⟨image.name, m₁⟩ ∧
            s₂.network.nodes[i]? = some ⟨image.name, m₂⟩ ∧
            m₁.silent = m₂.silent ∧ s₁.texts i = s₂.texts i := by
  have hcompiled : (Program.analyse .greeting >>= ofProgram) = .ok greeting :=
    Checked.eq_ok (by decide +kernel)
  have hstart : (Network.start greeting.images greeting.wires 256).isOk = true := by
    decide +kernel
  have hlocal : ∀ w ∈ greeting.wires, w.source.owner = w.destination.owner := by decide +kernel
  cases hn : Network.start greeting.images greeting.wires 256 with
  | error e =>
    rw [hn] at hstart
    cases hstart
  | ok n =>
    refine ⟨hcompiled, n, rfl, schedule_independent hlocal hn _ _ _ fun i => ?_⟩
    simp only [Schedule.total, Act.quota, List.map_cons, List.map_nil, List.sum_cons, List.sum_nil]
    split_ifs <;> rfl

end ChannelBasic
