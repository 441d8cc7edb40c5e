import Mathlib.Logic.Function.Basic
import ChannelBasic.Proofs.Emission.Labels

/-!
# Proofs/Emission/Linking — labels are resolved exactly once

A label is only a number, so nothing keeps a label of one table from being presented to another.
Whatever is done to some tables, in whatever order, a label keeps the address it has got
(`Labels.address?_act`): a table takes an address for a label of its own that has none, and refuses
any other.  Linking refuses exactly when a label of the table is without address or an operand names
none of them (`Link.exists_link_iff`), and **what it gives is one record for each instruction**, in
which every operand has become the number it stands for (`Link.written_of_link`).
-/

namespace ChannelBasic.Code

/-! ## Tables of labels -/

/-- What is done to one of several tables of labels. -/
inductive LabelAction where
  | create (table : Nat)
  /-- The label may have been handed out by any table, or by none. -/
  | bind (table : Nat) (label : Label) (address : Int32)

namespace Labels

/-- The tables after an action; a table that refuses a label stays what it is. -/
def act (tables : Nat → Labels) : LabelAction → Nat → Labels
  | .create table => Function.update tables table (tables table).create.2
  | .bind table label address =>
    match (tables table).bind label address with
    | .ok ls => Function.update tables table ls
    | .error _ => tables

/-- The tables after some actions, all being empty at first. -/
def after (actions : List LabelAction) : Nat → Labels := actions.foldl act fun _ => .empty

variable {ls ls' : Labels} {l : Label} {x : Int32} {tables : Nat → Labels} {table : Nat}

theorem after_concat (actions : List LabelAction) (a : LabelAction) :
    after (actions ++ [a]) = act (after actions) a := by
  rw [after, List.foldl_append]
  rfl

theorem act_of_bind (h : (tables table).bind l x = .ok ls) :
    act tables (.bind table l x) = Function.update tables table ls := by rw [act, h]

theorem act_of_refused {d : Diagnostic} (h : (tables table).bind l x = .error d) :
    act tables (.bind table l x) = tables := by rw [act, h]

@[simp] theorem address?_create (ls : Labels) (l : Label) :
    ls.create.2.address? l = ls.address? l := by
  simp only [create, address?, Array.getElem?_push]
  split
  next h =>
    rw [h, Array.getElem?_eq_none (Nat.le_refl _)]
    rfl
  next => rfl

/-- **A table takes an address for a label of its own that has none**, and no other. -/
theorem bind_isOk_iff : (ls.bind l x).isOk = true ↔ l.number < ls.size ∧ ls.address? l = none := by
  unfold bind address? size
  split
  next h =>
    obtain ⟨hlt, -⟩ := Array.getElem?_eq_some_iff.1 h
    exact iff_of_true rfl ⟨hlt, by rw [h]; rfl⟩
  next h => exact iff_of_false Bool.noConfusion fun hnone => by rw [h] at hnone; cases hnone.2
  next h =>
    refine iff_of_false Bool.noConfusion fun hlt => ?_
    rw [Array.getElem?_eq_getElem hlt.1] at h
    cases h

/-- **A label keeps the address it has got**, whatever is done to its table and to others. -/
theorem address?_act (a : LabelAction) (h : (tables table).address? l = some x) :
    (act tables a table).address? l = some x := by
  cases a with
  | create other =>
    rw [act, Function.update_apply]
    split
    next heq => rw [address?_create, ← heq, h]
    next => exact h
  | bind other label address =>
    cases hbind : (tables other).bind label address with
    | error => rwa [act_of_refused hbind]
    | ok ls =>
      rw [act_of_bind hbind, Function.update_apply]
      split
      next heq =>
        subst heq
        exact (ChannelBasic.Labels.address?_bind hbind).2 l x h
      next => exact h

theorem address?_after (actions later : List LabelAction)
    (h : (after actions table).address? l = some x) :
    (after (actions ++ later) table).address? l = some x := by
  rw [after, List.foldl_append]
  change (later.foldl act (after actions) table).address? l = some x
  generalize after actions = tables at h ⊢
  induction later generalizing tables with
  | nil => exact h
  | cons a later ih => exact ih _ (address?_act a h)

end Labels

/-! ## Linked code -/

namespace Link

/-- What an operand stands for: a number for itself, an offset for a place behind the start of its
data, a label for its address. -/
inductive StandsFor (l : Link) : Operand → Int32 → Prop
  | value (n : Int32) : l.StandsFor (.value n) n
  | static (offset : Int32) : l.StandsFor (.static offset) (l.staticBase + offset)
  | dynamic (offset : Int32) : l.StandsFor (.dynamic offset) (l.dynamicBase + offset)
  | label {label : Label} {address : Int32} (h : l.labels.address? label = some address) :
    l.StandsFor (.label label) address

/-- A record is an instruction with its operands replaced by what they stand for. -/
structure Replaces (l : Link) (i : Instruction) (r : Record) : Prop where
  opcode : r.opcode = i.opcode.code
  selectors : r.p0 = i.p0 ∧ r.p1 = i.p1 ∧ r.p2 = 0
  x0 : l.StandsFor i.x0 r.x0
  x1 : l.StandsFor i.x1 r.x1
  x2 : l.StandsFor i.x2 r.x2

/-- The bytes are those of one record after the other, one for each instruction, and each record is
read back from its sixteen bytes. -/
structure Written (l : Link) (code : List Instruction) (bytes : List UInt8) : Prop where
  records : ∃ rs : List Record, bytes = rs.flatMap Record.encode ∧ rs.length = code.length
  length : bytes.length = 16 * code.length
  reads : ∀ k i, code[k]? = some i →
    ∃ r, Record.decode? ((bytes.drop (16 * k)).take 16) = some r ∧ l.Replaces i r
  /-- A number of 64 bits in the last two operands is put together again. -/
  immediate : ∀ k size v, code[k]? = some (.loadImmediate size v) →
    ∃ r, Record.decode? ((bytes.drop (16 * k)).take 16) = some r ∧ Word.read r.immediate = v

variable {l : Link} {code : List Instruction} {i : Instruction} {x : Operand} {n : Int32}
  {bytes : List UInt8} {rs : List Record}

theorem resolve_eq_ok_iff : l.resolve x = .ok n ↔ l.StandsFor x n := by
  constructor
  · intro h
    cases x with
    | value m => exact Except.ok.inj h ▸ .value m
    | static offset => exact Except.ok.inj h ▸ .static offset
    | dynamic offset => exact Except.ok.inj h ▸ .dynamic offset
    | label label =>
      rw [resolve] at h
      split at h
      next address haddress => exact Except.ok.inj h ▸ .label haddress
      next => cases h
  · rintro (_ | _ | _ | h)
    · rfl
    · rfl
    · rfl
    · rw [resolve, h]

theorem replaces_of_resolve {r : Record} (h : i.resolve l.resolve = .ok r) : l.Replaces i r := by
  obtain ⟨x0, x1, x2, h0, h1, h2, rfl⟩ := resolve_eq_ok h
  exact ⟨rfl, ⟨rfl, rfl, rfl⟩, resolve_eq_ok_iff.1 h0, resolve_eq_ok_iff.1 h1,
    resolve_eq_ok_iff.1 h2⟩

/-- A label whose address is known is one of the table. -/
theorem StandsFor.lt {label : Label} (h : l.StandsFor x n) (hx : x.label? = some label) :
    label.number < l.labels.size := by
  cases h with
  | value | static | dynamic => cases hx
  | label h =>
    obtain rfl := Option.some.inj hx
    by_contra hge
    rw [Labels.address?, Array.getElem?_eq_none (Nat.le_of_not_lt hge)] at h
    cases h

theorem Replaces.lt {r : Record} {label : Label} (h : l.Replaces i r)
    (hlabel : label ∈ i.targets) : label.number < l.labels.size := by
  simp only [Instruction.targets, List.mem_append, Option.mem_toList] at hlabel
  obtain (hx | hx) | hx := hlabel
  · exact h.x0.lt hx
  · exact h.x1.lt hx
  · exact h.x2.lt hx

theorem link_eq_ok (h : l.link code = .ok bytes) :
    (∀ label : Label, label.number < l.labels.size → (l.labels.address? label).isSome = true) ∧
      ∃ rs, l.records code = .ok rs ∧ bytes = rs.flatMap Record.encode := by
  unfold link at h
  split at h
  · cases h
  next hnone =>
    obtain ⟨rs, hrs, h⟩ := Checked.bind_eq_ok.1 h
    refine ⟨fun label hlt => ?_, rs, hrs, (Checked.pure_eq_ok.1 h).symm⟩
    have hbound := Array.findIdx?_eq_none_iff.1 hnone _ (Array.getElem_mem hlt)
    rw [Labels.address?, Array.getElem?_eq_getElem hlt]
    cases haddress : l.labels.addresses[label.number] with
    | none =>
      rw [haddress] at hbound
      cases hbound
    | some address => rfl

/-- **Code can be linked exactly if all labels have addresses and no operand names another.** -/
theorem exists_link_iff : (∃ bytes, l.link code = .ok bytes) ↔
    (∀ label : Label, label.number < l.labels.size → (l.labels.address? label).isSome = true) ∧
      ∀ i ∈ code, ∀ label ∈ i.targets, label.number < l.labels.size := by
  constructor
  · rintro ⟨bytes, h⟩
    obtain ⟨hbound, rs, hrs, -⟩ := link_eq_ok h
    refine ⟨hbound, fun i hi label hlabel => ?_⟩
    obtain ⟨k, hk⟩ := List.mem_iff_getElem?.1 hi
    obtain ⟨r, -, hr⟩ := forall₂_left (Checked.mapM_eq_ok.1 hrs) hk
    exact (replaces_of_resolve hr).lt hlabel
  · rintro ⟨hbound, htargets⟩
    exact exists_link hbound fun i hi label hlabel => hbound label (htargets i hi label hlabel)

theorem drop_records (rs : List Record) (k : Nat) :
    (rs.flatMap Record.encode).drop (16 * k) = (rs.drop k).flatMap Record.encode := by
  induction k generalizing rs with
  | zero => rfl
  | succ k ih =>
    cases rs with
    | nil => simp
    | cons r rest =>
      have hlen : r.encode.length = 16 := Record.length_encode r
      rw [List.flatMap_cons, Nat.mul_succ, Nat.add_comm, ← List.drop_drop, ← hlen,
        List.drop_left, hlen, ih, List.drop_succ_cons]

/-- Each record is read back from where it lies. -/
theorem decode?_record {r : Record} {k : Nat} (h : rs[k]? = some r) :
    Record.decode? (((rs.flatMap Record.encode).drop (16 * k)).take 16) = some r := by
  obtain ⟨hk, rfl⟩ := List.getElem?_eq_some_iff.1 h
  have hlen : (rs[k]).encode.length = 16 := Record.length_encode _
  rw [drop_records, List.drop_eq_getElem_cons hk, List.flatMap_cons, ← hlen, List.take_left]
  simpa using Record.decode?_encode rs[k] []

/-- The two halves of a number come together again. -/
theorem Replaces.read_immediate {size : Int32} {v : Int64} {r : Record}
    (h : l.Replaces (.loadImmediate size v) r) : Word.read r.immediate = v := by
  have hx1 : v.toInt32 = r.x1 := Except.ok.inj (resolve_eq_ok_iff.2 h.x1)
  have hx2 : (v >>> 32).toInt32 = r.x2 := Except.ok.inj (resolve_eq_ok_iff.2 h.x2)
  rw [Record.immediate, ← hx1, ← hx2, Word.ofInt32_append, Word.read_ofInt64]

/-- **What linking gives is one record for each instruction.** -/
theorem written_of_link (h : l.link code = .ok bytes) : l.Written code bytes := by
  obtain ⟨-, rs, hrs, rfl⟩ := link_eq_ok h
  have hall := Checked.mapM_eq_ok.1 hrs
  have reads {k : Nat} {i : Instruction} (hk : code[k]? = some i) : ∃ r,
      Record.decode? (((rs.flatMap Record.encode).drop (16 * k)).take 16) = some r ∧
        l.Replaces i r := by
    obtain ⟨r, hr, hresolve⟩ := forall₂_left hall hk
    exact ⟨r, decode?_record hr, replaces_of_resolve hresolve⟩
  refine ⟨⟨rs, rfl, hall.length_eq.symm⟩, ?_, fun k i => reads, fun k size v hk => ?_⟩
  · rw [List.length_flatMap, hall.length_eq]
    simp [recordSize, Nat.mul_comm]
  · obtain ⟨r, hr, hreplaces⟩ := reads hk
    exact ⟨r, hr, hreplaces.read_immediate⟩

end Link

/-! ## Whatever is done to the tables -/

/-- One of several tables after some actions: what is bound stays bound, and linking with it asks
for no more than that all of its labels are bound and no others are named. -/
structure Labels.ResolvesOnce (actions : List LabelAction) (table : Nat) : Prop where
  /-- An address that a label has got is its address for good. -/
  stays : ∀ later l x, (after actions table).address? l = some x →
    (after (actions ++ later) table).address? l = some x
  /-- A label of the table that has no address gets the one it is bound to. -/
  binds : ∀ l x, ((after actions table).bind l x).isOk = true →
    (after (actions ++ [.bind table l x]) table).address? l = some x
  /-- Any other label is refused. -/
  accepts : ∀ l x, ((after actions table).bind l x).isOk = true ↔
    l.number < (after actions table).size ∧ (after actions table).address? l = none
  /-- A label that is refused changes nothing. -/
  refuses : ∀ l x d, (after actions table).bind l x = .error d →
    after (actions ++ [.bind table l x]) = after actions
  /-- Code is linked exactly if every label is bound and no operand names another. -/
  links : ∀ staticBase dynamicBase code,
    (∃ bytes, Link.link ⟨after actions table, staticBase, dynamicBase⟩ code = .ok bytes) ↔
      (∀ l : Label, l.number < (after actions table).size →
        ((after actions table).address? l).isSome = true) ∧
      ∀ i ∈ code, ∀ l ∈ i.targets, l.number < (after actions table).size
  /-- Linked code is one record for each instruction. -/
  image : ∀ staticBase dynamicBase code bytes,
    Link.link ⟨after actions table, staticBase, dynamicBase⟩ code = .ok bytes →
      Link.Written ⟨after actions table, staticBase, dynamicBase⟩ code bytes

/-- **Whatever is done to tables of labels, and with whatever labels, each label is resolved
once.** -/
theorem Labels.resolves_once (actions : List LabelAction) (table : Nat) :
    ResolvesOnce actions table where
  stays later _ _ := address?_after actions later
  binds l x hok := by
    obtain ⟨ls, hls⟩ := Checked.exists_of_isOk hok
    rw [after_concat, act_of_bind hls]
    simpa using (ChannelBasic.Labels.address?_bind hls).1
  accepts _ _ := bind_isOk_iff
  refuses _ _ _ h := by rw [after_concat, act_of_refused h]
  links _ _ _ := Link.exists_link_iff
  image _ _ _ _ := Link.written_of_link

/-- A label that the first table has handed out is none of the second one, which refuses it. -/
example : (Labels.after [.create 0, .create 0, .create 1, .bind 1 ⟨1⟩ 16, .bind 0 ⟨1⟩ 32,
      .bind 0 ⟨1⟩ 48] 0).address? ⟨1⟩ = some 32 := by decide +kernel

end ChannelBasic.Code
