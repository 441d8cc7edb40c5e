import ChannelBasic.Proofs.Execution.Simulation

/-!
# Proofs/Execution/Refinement — a function answers what its tree comes to

For a function without calls, addresses and counting loops that has the stack it needs
(`EmissionContext.stack`), **a machine that is called to run it stops with just the result and the
data sets that its tree comes to, and divides by zero just if its tree does**
(`Module.stopsWith_iff_of_invoke`).  A machine follows the tree whatever the fuel is
(`Module.Built.follows`); with more fuel than a run has taken steps the tree cannot be unfinished, so
the run has ended as the tree does (`Machine.Follows.ends`).
-/

namespace ChannelBasic

open Code

/-! ## The whole of a function -/

namespace EmissionContext

variable {ctx : EmissionContext} {index : Nat}

theorem localSize_le_room (h : index ∈ ctx.body.implicit) : ctx.localSize index ≤ ctx.room := by
  unfold room
  generalize ctx.body.implicit = indices at h
  induction indices with
  | nil => cases h
  | cons i indices ih =>
    rw [List.foldr_cons]
    obtain rfl | h := List.mem_cons.1 h
    · exact le_max_left _ _
    · exact (ih h).trans (le_max_right _ _)

theorem roomAll_le_room : Stmt.roomAll ctx ctx.body.statements ≤ ctx.room := by
  unfold room
  generalize ctx.body.implicit = indices
  induction indices with
  | nil => exact le_rfl
  | cons i indices ih => exact ih.trans (le_max_right _ _)

/-- A function does not go on behind its end. -/
theorem exec_ne_next (fuel : Nat) (σ σ' : Store) : ctx.exec fuel σ ≠ .next σ' := by
  unfold exec
  cases Stmt.execAll ctx fuel ctx.body.statements (ctx.body.implicit.foldl ctx.cleared σ) <;>
    exact Completion.noConfusion

/-- The bytes of the stack that a function without calls needs, the return address of its caller and
its result of some bytes included. -/
def stack (ctx : EmissionContext) (result : Nat) : Nat :=
  Layout.linkSize + ctx.body.frame.arguments + result + ctx.body.frame.locals + ctx.room

end EmissionContext

namespace Machine

variable {Γ : Env} {S : Setting} {image : Image} {l : Link} {a : Activation} {room fuel : Nat}
  {m : Machine} {ip : Int} {σ : Store}

/-- Variables get their first values one after the other. -/
theorem Mirrors.clearsAll (natives : Natives) (hA : a.Hosts S image l room) (hS : S.Fits Γ)
    {indices : List Nat} {codes : List (List Piece)}
    (hcodes : List.Forall₂ (S.ctx.Initialises S.state) indices codes)
    (hroom : ∀ index ∈ indices, S.ctx.localSize index ≤ room)
    (hlies : image.Lies l ip codes.flatten) (h : m.Mirrors S image a ip [] σ) :
    ∃ k, (m.run natives k).Mirrors S image a (ip + Piece.size codes.flatten) []
      (indices.foldl S.ctx.cleared σ) := by
  induction hcodes generalizing m ip σ with
  | nil => exact ⟨0, by simpa [Machine.run] using h⟩
  | @cons index code indices codes hcode _ ih =>
    rw [List.flatten_cons] at hlies ⊢
    obtain ⟨k, hfirst⟩ :=
      h.clears natives hA hS hcode hlies.left (hroom index List.mem_cons_self)
    obtain ⟨k', hrest⟩ :=
      ih (fun i hi => hroom i (List.mem_cons_of_mem index hi)) hlies.right hfirst
    refine ⟨k + k', ?_⟩
    rw [run_add, Piece.size_append, Nat.cast_add, ← add_assoc]
    exact hrest

/-- **The code of a function does what the function makes of a store**, once its frame is open. -/
theorem Mirrors.follows_body (natives : Natives) (h : m.Mirrors S image a (ip + recordSize) [] σ)
    (hA : a.Hosts S image l S.ctx.room) (hS : S.Fits Γ)
    (ht : Stmt.TypedAll Γ S.ctx.function.returns S.ctx.body.statements)
    (hp : Stmt.areStructured S.ctx.body.statements = true) {code : List Piece}
    (hcode : S.ctx.Body S.state code) (hlies : image.Lies l ip code) (ip' : Int) (fuel : Nat) :
    m.Follows natives S image a ip' fuel (S.ctx.exec fuel σ) := by
  obtain ⟨first, statements, hfirst, hstatements, rfl⟩ := hcode
  have hfirst' : image.Lies l (ip + recordSize) first.flatten := by
    simpa [add_assoc] using hlies.left.left.right
  have hstatements' : image.Lies l (ip + recordSize + Piece.size first.flatten) statements := by
    simpa [add_assoc] using hlies.left.right
  have hleave : image.Lies l (ip + recordSize + Piece.size first.flatten + Piece.size statements)
      (Emission.leave S.ctx ++ []) := by
    simpa [add_assoc] using hlies.right
  obtain ⟨k, hrun⟩ := h.clearsAll natives hA hS hfirst
    (fun _ hindex => EmissionContext.localSize_le_room hindex) hfirst'
  have hbody : m.Follows natives S image a
      (ip + recordSize + Piece.size first.flatten + Piece.size statements) fuel
      (Stmt.execAll S.ctx fuel S.ctx.body.statements (S.ctx.body.implicit.foldl S.ctx.cleared σ)) :=
    (Follows.of_run (Stmt.followsAll natives hA hS _ hp ht EmissionContext.roomAll_le_room
      hstatements hstatements' hrun)).mono (Nat.le_add_left fuel k)
  exact hbody.andThen fun m' σ' h' => h'.leaves natives hA hleave ip' fuel

end Machine

/-! ## The frame of a function that is called from outside -/

namespace Machine

/-- What a function finds when it is called: the bytes where its frame will lie, and those of the
data sets. -/
def store (m : Machine) (image : Image) : Store where
  byte place := (m.memory.byte? (place.address (m.sp - 4) image.dynamicBase)).getD 0

section

variable {S : Setting} {image : Image} {l : Link} {room : Nat} {m : Machine} {ip back : Int}
  {rest : List Piece}

theorem byte?_store {place : Place} (hlow : 0 ≤ place.address (m.sp - 4) image.dynamicBase)
    (hhigh : place.address (m.sp - 4) image.dynamicBase + 1 ≤ m.memory.size) :
    m.memory.byte? (place.address (m.sp - 4) image.dynamicBase) =
      some ((m.store image).byte place) := by
  obtain ⟨data, hlen, hdata⟩ := Memory.exists_has (n := 1) hlow (by exact_mod_cast hhigh)
  have hbyte := (Memory.has_iff.1 hdata).2.2 0 (by omega)
  rw [Nat.cast_zero, add_zero, List.getElem?_eq_getElem (by omega)] at hbyte
  simp only [store, hbyte, Option.getD_some]

/-- A function that is called from outside opens its frame, if there is room for it. -/
theorem Called.hosts (natives : Natives)
    (h : m.Called image ip back (S.ctx.body.frame.arguments + S.result)) (hS : S.In image l)
    (hcode : image.Lies l ip (.op (.enter (Word.size32 S.ctx.body.frame.locals)) :: rest))
    (hroom : m.HasRoom (4 + S.ctx.body.frame.locals + room : Nat)) (hentry : m.entrySp = m.sp + 4) :
    (m.opened S.ctx.body.frame.locals (S.ctx.body.frame.arguments + S.result) back).Hosts S image l
        room ∧
      (m.tick natives).Runs image
        (m.opened S.ctx.body.frame.locals (S.ctx.body.frame.arguments + S.result) back)
        (ip + recordSize) 0 ∧ (m.tick natives).memory = m.framed.memory := by
  have hlimit := h.holds.limit
  unfold HasRoom at hroom
  have hframe : m.framed.HasRoom S.ctx.body.frame.locals := by
    unfold HasRoom
    rw [framed_sp, framed_limit]
    omega
  obtain ⟨hproper, htick, hruns⟩ := h.opens natives hS hcode (by unfold HasRoom; omega) hframe
  refine ⟨⟨hS, hproper, ⟨rfl, rfl⟩, ?_, ?_⟩, hruns, by rw [htick]; rfl⟩ <;>
    dsimp only [opened] <;> omega

/-- **A machine that is called mirrors the store that its function finds.** -/
theorem Called.shows (h : m.Called image ip back (S.ctx.body.frame.arguments + S.result))
    (hA : (m.opened S.ctx.body.frame.locals (S.ctx.body.frame.arguments + S.result) back).Hosts S
      image l room) :
    m.memory.Shows S (m.sp - 4) image.dynamicBase (m.store image) := fun place hplace => by
  have hlow := hA.proper.low
  have hsp := (h.ready hA.within).sp
  have hdata := hA.within.data
  have htop : m.framed.memory.top = m.memory.top := Memory.top_put ..
  have hsize := Memory.top_le_size m.memory
  dsimp only [opened] at hlow
  obtain ⟨_, -, hbound⟩ | ⟨_, -, hbound⟩ := hA.bounds hplace <;>
    (dsimp only [opened] at hbound; exact byte?_store (by omega) (by omega))

/-- Opening a frame leaves the places of the function alone. -/
theorem Called.mirrors (natives : Natives)
    (h : m.Called image ip back (S.ctx.body.frame.arguments + S.result)) (hS : S.In image l)
    (hcode : image.Lies l ip (.op (.enter (Word.size32 S.ctx.body.frame.locals)) :: rest))
    (hroom : m.HasRoom (4 + S.ctx.body.frame.locals + room : Nat)) (hentry : m.entrySp = m.sp + 4) :
    (m.tick natives).Mirrors S image
      (m.opened S.ctx.body.frame.locals (S.ctx.body.frame.arguments + S.result) back)
      (ip + recordSize) [] (m.store image) := by
  obtain ⟨hA, hruns, hmemory⟩ := h.hosts natives hS hcode hroom hentry
  refine mirrors_nil hruns hA fun place hplace => ?_
  have hready := h.ready hS
  have hlow := hready.limit
  have hhigh := hready.sp_le_size
  have hlen : (Word.ofInt 4 m.lp).length = 4 := Word.length_ofInt ..
  unfold HasRoom at hroom
  have hsame : m.memory.Same (fun x => x < m.sp - 4 ∨ m.sp ≤ x) m.framed.memory := by
    refine (Memory.same_put (by omega) (by omega)).mono fun x hx => ?_
    omega
  rw [hmemory]
  refine (hsame.byte _ ?_).trans (h.shows hA place hplace)
  -- the frame pointer of the caller is saved in the link, where no place is
  have hlink : Layout.linkSize = 8 := rfl
  cases place with
  | frame offset =>
    dsimp only [Place.address, opened]
    rcases hplace with hplace | hplace <;> omega
  | data offset =>
    obtain ⟨_, h, -⟩ | ⟨_, -, -, hbound⟩ := hA.bounds hplace
    · cases h
    · have hframe := hA.proper.low
      dsimp only [opened] at hframe hbound ⊢
      omega

end

end Machine

/-! ## Runs that end -/

/-- A machine has stopped with some bytes as its result, at the top of memory, and some in its data
sets. -/
structure Machine.StopsWith (m : Machine) (image : Image) (entry : Entry)
    (result data : List UInt8) : Prop where
  stopped : m.event = .halted .stopped
  result : m.memory.read (m.memory.top - entry.result) entry.result = .ok result
  data : m.memory.read image.dynamicBase image.dataSize = .ok data

namespace Machine

variable {Γ : Env} {S : Setting} {image : Image} {l : Link} {a : Activation} {room n k : Nat}
  {m : Machine} {ip : Int} {natives : Natives} {c : Completion} {σ : Store} {entry : Entry}

/-- A machine ends in one way only. -/
theorem run_unique (hn : (m.run natives n).event ≠ .running)
    (hk : (m.run natives k).event ≠ .running) : m.run natives n = m.run natives k := by
  have ended {i j : Nat} (hi : (m.run natives i).event ≠ .running) (hij : i ≤ j) :
      m.run natives i = m.run natives j := by
    obtain ⟨d, rfl⟩ := Nat.exists_eq_add_of_le hij
    rw [run_add, run_of_halted hi]
  obtain hle | hle := le_total n k
  · exact ended hn hle
  · exact (ended hk hle).symm

/-- **A run that has ended has ended as the function does**, if there is fuel for more rounds than it
has taken steps. -/
theorem Follows.ends (h : m.Follows natives S image a ip (n + 1) c) (hnext : ∀ σ, c ≠ .next σ)
    (hn : (m.run natives n).event ≠ .running) :
    (∃ σ, c = .returned σ ∧ (m.run natives n).event = .halted .stopped ∧
      (m.run natives n).memory.size = a.memory.size ∧
        (m.run natives n).memory.Shows S a.lp image.dynamicBase σ) ∨
      c = .faulted .divisionByZero ∧
        (m.run natives n).event = .halted (.fault .divisionByZero) := by
  cases c with
  | next σ => exact absurd rfl (hnext σ)
  | returned σ =>
    obtain ⟨k, hstopped, hmemory⟩ := h
    have hk : (m.run natives k).event ≠ .running := by simp [hstopped]
    rw [run_unique hn hk]
    exact .inl ⟨σ, rfl, hstopped, hmemory⟩
  | faulted f =>
    obtain ⟨rfl, k, hfault⟩ := h
    have hk : (m.run natives k).event ≠ .running := by simp [hfault]
    rw [run_unique hn hk]
    exact .inr ⟨rfl, hfault⟩
  | unfinished =>
    -- more steps than the run has taken, and the machine still runs
    obtain ⟨k, hk, hrunning⟩ := h
    obtain ⟨d, rfl⟩ := Nat.exists_eq_add_of_le hk
    rw [add_assoc, run_add, run_of_halted hn] at hrunning
    exact absurd hrunning hn



/-- A machine that has stopped has the result and the data sets of the store that it shows. -/
theorem stopsWith_of_shows (hS : S.Fits Γ) (hA : a.Hosts S image l room)
    (htop : a.lp + Layout.linkSize + a.above = a.memory.top) (hresult : entry.result = S.result)
    (hstopped : m.event = .halted .stopped) (hsize : m.memory.size = a.memory.size)
    (hσ : m.memory.Shows S a.lp image.dynamicBase σ) :
    m.StopsWith image entry (σ.read (.frame S.ctx.body.frame.result) S.result)
      (σ.read (.data 0) S.data) := by
  have hmtop : m.memory.top = a.memory.top := Memory.top_eq hsize
  have hle := Memory.top_le_size m.memory
  have habove := hA.frame.above
  have hframe := hS.frame
  have hdata := hA.within.data
  have hlow := hA.proper.low
  have haddress : (Place.frame S.ctx.body.frame.result).address a.lp image.dynamicBase =
      m.memory.top - entry.result := by
    dsimp only [Place.address]
    rw [hframe, hmtop, ← htop, habove, hresult]
    push_cast
    ring
  have hbase : (Place.data 0).address a.lp image.dynamicBase = image.dynamicBase := by
    dsimp only [Place.address]
    ring
  have hbytes := hσ.has hS.has_result (by rw [haddress]; omega) (by rw [haddress]; omega)
  have hfields := hσ.has S.has_data (by rw [hbase]; omega) (by rw [hbase]; omega)
  rw [haddress] at hbytes
  rw [hbase] at hfields
  exact ⟨hstopped, hbytes.read (by rw [hresult, Store.length_read]),
    hfields.read (by rw [hdata, Store.length_read])⟩

section

variable (h : ∀ fuel, m.Follows natives S image a ip fuel (S.ctx.exec fuel σ))

include h

/-- **A machine that follows a function stops with what the function comes to**, and only with
that. -/
theorem stopsWith_iff (hS : S.Fits Γ) (hA : a.Hosts S image l room)
    (htop : a.lp + Layout.linkSize + a.above = a.memory.top) (hresult : entry.result = S.result)
    (result data : List UInt8) :
    (∃ n, (m.run natives n).StopsWith image entry result data) ↔
      ∃ fuel σ', S.ctx.exec fuel σ = .returned σ' ∧
        σ'.read (.frame S.ctx.body.frame.result) S.result = result ∧
          σ'.read (.data 0) S.data = data := by
  constructor
  · rintro ⟨n, hn⟩
    have hended : (m.run natives n).event ≠ .running := by simp [hn.stopped]
    obtain ⟨σ', hexec, hstopped, hsize, hshows⟩ | ⟨-, hfault⟩ :=
      (h (n + 1)).ends (EmissionContext.exec_ne_next _ σ) hended
    · have hstops := stopsWith_of_shows hS hA htop hresult hstopped hsize hshows
      exact ⟨n + 1, σ', hexec, Except.ok.inj (hstops.result.symm.trans hn.result),
        Except.ok.inj (hstops.data.symm.trans hn.data)⟩
    · rw [hn.stopped] at hfault
      cases hfault
  · rintro ⟨fuel, σ', hexec, rfl, rfl⟩
    have hfollows := h fuel
    rw [hexec] at hfollows
    obtain ⟨k, hstopped, hsize, hshows⟩ := hfollows
    exact ⟨k, stopsWith_of_shows hS hA htop hresult hstopped hsize hshows⟩

/-- **A machine that follows a function divides by zero just if the function does.** -/
theorem divides_iff : (∃ n, (m.run natives n).event = .halted (.fault .divisionByZero)) ↔
    ∃ fuel, S.ctx.exec fuel σ = .faulted .divisionByZero := by
  constructor
  · rintro ⟨n, hn⟩
    have hended : (m.run natives n).event ≠ .running := by simp [hn]
    obtain ⟨σ', -, hstopped, -⟩ | ⟨hexec, -⟩ :=
      (h (n + 1)).ends (EmissionContext.exec_ne_next _ σ) hended
    · rw [hn] at hstopped
      cases hstopped
    · exact ⟨n + 1, hexec⟩
  · rintro ⟨fuel, hexec⟩
    have hfollows := h fuel
    rw [hexec] at hfollows
    exact hfollows.2

end

end Machine

/-! ## Modules -/

/-- A store that a function starts with: its arguments, zeros where its result is going to be, and
the data sets as they are.  What its variables have is left open. -/
structure Store.Starts (σ : Store) (ctx : EmissionContext) (result : Nat) (machine : Machine)
    (image : Image) (arguments : List UInt8) : Prop where
  arguments : σ.read (.frame Layout.linkSize) ctx.body.frame.arguments = arguments
  result : σ.read (.frame ctx.body.frame.result) result = List.replicate result 0
  data : machine.memory.read image.dynamicBase image.dataSize =
    .ok (σ.read (.data 0) image.dataSize.toNat)

/-- A function that is called from outside finds its arguments, and zeros in the place of its
result. -/
theorem Machine.Invoked.starts {Γ : Env} {S : Setting} {image : Image} {machine machine' : Machine}
    {entry : Entry} {arguments : List UInt8} (h : machine.Invoked machine' entry arguments)
    (hholds : machine.Holds image) (hS : S.Fits Γ) (hdata : image.dataSize = S.data)
    (harguments : entry.arguments = S.ctx.body.frame.arguments) (hresult : entry.result = S.result)
    (hσ : machine'.memory.Shows S (machine'.sp - 4) image.dynamicBase (machine'.store image)) :
    (machine'.store image).Starts S.ctx S.result machine image arguments := by
  have hlimit := hholds.limit
  have hle := hholds.le_top
  have htop := Memory.top_le_size machine.memory
  have hsize := h.same.size
  have hlink : (Word.ofInt 4 0).length = 4 := Word.length_ofInt ..
  have hlength := h.length
  have hzeros : (List.replicate entry.result.toNat (0 : UInt8)).length = S.result := by
    rw [List.length_replicate, hresult, Int.toNat_natCast]
  -- what lies at a place is what the store has there
  have found {place : Place} {n : Nat} {x : Int} {data : List UInt8} (hplace : S.Has place n)
      (hx : place.address (machine'.sp - 4) image.dynamicBase = x)
      (hmem : machine'.memory.Has x data) (hlen : data.length = n) :
      (machine'.store image).read place n = data := by
    have hlow := hmem.nonneg
    have hhigh := hmem.le_size
    have hbytes := hσ.has hplace (by omega) (by omega)
    rw [hx] at hbytes
    exact hmem.unique hbytes (by rw [Store.length_read, hlen])
  have hframe := h.frame
  rw [List.append_assoc] at hframe
  have hpassed : S.Has (.frame Layout.linkSize) S.ctx.body.frame.arguments :=
    .inr ⟨le_rfl, by push_cast; omega⟩
  refine ⟨found hpassed ?_ hframe.right.left (by omega), ?_, ?_⟩
  · dsimp only [Place.address]
    rw [hlink]
    unfold Layout.linkSize
    push_cast
    ring
  · rw [found hS.has_result ?_ hframe.right.right hzeros, hresult, Int.toNat_natCast]
    dsimp only [Place.address]
    rw [hlink, hS.frame, hlength, harguments]
    unfold Layout.linkSize
    push_cast
    ring
  · have hbase : (Place.data 0).address (machine'.sp - 4) image.dynamicBase = image.dynamicBase := by
      dsimp only [Place.address]
      ring
    have hbytes := hσ.has S.has_data (by omega) (by omega)
    rw [hbase] at hbytes
    rw [hdata, Int.toNat_natCast]
    refine (hbytes.same h.same.symm fun x _ hx => ?_).read (by rw [Store.length_read])
    rw [Store.length_read] at hx
    omega

namespace Module

variable {raw : Raw.Program} {p : Program} {m : Module} {a : Assembly} {image : Image}
  {start : List Piece} {z : EmissionState} {u : Emission.Done} {f : Function} {body : UserBody}
  {code : List Piece} {machine machine' : Machine} {arguments : List UInt8}

/-- **A machine that is called follows the tree of its function.** -/
theorem Built.follows (hbuilt : m.Built p a image start z) (h : p.Complete) (hm : m ∈ p.modules)
    (hlt : image.dynamicBase < 2 ^ 31) (hu : u ∈ a.units) (hfor : u.For p m z f body code)
    (hstructured : Stmt.areStructured body.statements = true) (hholds : machine.Holds image)
    (hinvoked : machine.Invoked machine' (a.entry u) arguments)
    (hroom : machine.limit + EmissionContext.stack ⟨p, f, body, m.fields⟩ u.result ≤
      machine.memory.top) (natives : Natives) :
    let S := u.setting p m z f body (fun _ => True) id
    let frame := machine'.opened body.frame.locals (body.frame.arguments + u.result) 0
    machine'.Called image (a.entry u).address 0 (S.ctx.body.frame.arguments + S.result) ∧
      frame.Hosts S image a.link S.ctx.room ∧
        ∀ fuel, machine'.Follows natives S image frame 0 fuel
          (S.ctx.exec fuel (machine'.store image)) := by
  intro S frame
  have hdata : image.dataSize = m.dataSize := hbuilt.dataSize
  have hS : S.In image a.link := hbuilt.within hlt u f body _
  have hfits : S.Fits _ := h.fits hm hfor.callable.1 hfor.function hfor.user hfor.result
    (counts_id p) z _ _
  have htyped := h.analysed.typed u.number f hfor.function body hfor.user
  have hlies := (hbuilt.lies hlt hu).1
  rw [hfor.pieces] at hlies
  have hcode := hlies.after_mark
  obtain ⟨rest, hrest⟩ : ∃ rest, code = .op (.enter (Word.size32 body.frame.locals)) :: rest := by
    obtain ⟨first, statements, -, -, hcode⟩ := hfor.emitted
    exact ⟨_, hcode⟩
  have hentry : image.Lies a.link (a.entry u).address
      (.op (.enter (Word.size32 S.ctx.body.frame.locals)) :: rest) := hrest ▸ hcode
  have harguments : (a.entry u).arguments = body.frame.arguments := congrArg Int.ofNat hfor.arguments
  have hresult : (a.entry u).result = u.result := rfl
  have hcalled : machine'.Called image (a.entry u).address 0
      (S.ctx.body.frame.arguments + S.result) := by
    refine hinvoked.called hholds (by omega) ?_
    rw [harguments, hresult]
    rfl
  have hfree : machine'.HasRoom (4 + S.ctx.body.frame.locals + S.ctx.room : Nat) := by
    have hsp := hinvoked.sp
    rw [harguments, hresult] at hsp
    unfold Machine.HasRoom
    rw [hinvoked.limit, hsp]
    unfold EmissionContext.stack Layout.linkSize at hroom
    push_cast at hroom ⊢
    dsimp only [S, Emission.Done.setting]
    omega
  obtain ⟨hA, -⟩ := hcalled.hosts natives hS hentry hfree hinvoked.entrySp
  have hmirrors := hcalled.mirrors natives hS hentry hfree hinvoked.entrySp
  refine ⟨hcalled, hA, fun fuel => ?_⟩
  have hfollows := hmirrors.follows_body natives hA hfits htyped hstructured hfor.emitted hcode 0 fuel
  rw [← Machine.run_one (hcalled.ready hS)] at hfollows
  exact hfollows.of_run.mono (Nat.le_add_left fuel 1)

/-- A machine that has the stack that a function needs can be called to run it.  It finds what the
function starts with, and ends as its tree does. -/
theorem Built.answers (hbuilt : m.Built p a image start z) (h : p.Complete) (hm : m ∈ p.modules)
    (hu : u ∈ a.units) (hf : p.functions[u.number]? = some f) (hbody : f.user? = some body)
    (hstructured : Stmt.areStructured body.statements = true) (hholds : machine.Holds image)
    (harguments : arguments.length = body.frame.arguments)
    (hroom : machine.limit + EmissionContext.stack ⟨p, f, body, m.fields⟩ u.result ≤
      machine.memory.top) :
    ∃ machine', (Step.invoke (a.entry u) arguments).run machine = .ok () machine' ∧
      (machine'.store image).Starts ⟨p, f, body, m.fields⟩ u.result machine image arguments ∧
      ∀ natives : Natives,
        (∀ result data, (∃ n, (machine'.run natives n).StopsWith image (a.entry u) result data) ↔
          ∃ fuel σ, EmissionContext.exec ⟨p, f, body, m.fields⟩ fuel (machine'.store image) =
              .returned σ ∧
            σ.read (.frame body.frame.result) u.result = result ∧
              σ.read (.data 0) m.dataSize = data) ∧
        ((∃ n, (machine'.run natives n).event = .halted (.fault .divisionByZero)) ↔
          ∃ fuel, EmissionContext.exec ⟨p, f, body, m.fields⟩ fuel (machine'.store image) =
            .faulted .divisionByZero) := by
  obtain ⟨f', body', code, hfor⟩ := hbuilt.code.code u hu
  obtain rfl := Option.some.inj (hf.symm.trans hfor.function)
  obtain rfl := Option.some.inj (hbody.symm.trans hfor.user)
  have hdata : 0 ≤ image.dataSize := by
    rw [hbuilt.dataSize]
    exact Int.natCast_nonneg _
  have hlimit : 0 ≤ machine.limit := by
    rw [hholds.limit]
    omega
  have hentry : (a.entry u).arguments = body.frame.arguments := congrArg Int.ofNat hfor.arguments
  have hresult : (a.entry u).result = u.result := rfl
  have hfits := h.fits hm hfor.callable.1 hf hbody hfor.result (counts_id p) z
    (fun k => .call (some k) ∈ f.mentions) fun _ => True
  obtain ⟨machine', hrun⟩ : ∃ machine', (Step.invoke (a.entry u) arguments).run machine =
      .ok () machine' := by
    refine Step.exists_invoke hlimit (by rw [hentry, harguments]) (by rw [hresult]; omega) ?_
    rw [hentry, hresult]
    unfold EmissionContext.stack Layout.linkSize at hroom
    push_cast at hroom
    omega
  have hinvoked := Step.invoked_of_invoke hlimit hrun
  have hfollows := hbuilt.follows h hm (hholds.dynamicBase_lt hdata) hu hfor hstructured hholds
    hinvoked hroom
  obtain ⟨hcalled, hA, -⟩ := hfollows .empty
  refine ⟨machine', hrun, hinvoked.starts hholds hfits hbuilt.dataSize hentry hresult
    (hcalled.shows hA), fun natives => ⟨?_, Machine.divides_iff (hfollows natives).2.2⟩⟩
  refine Machine.stopsWith_iff (hfollows natives).2.2 hfits hA ?_ hresult
  have htop : machine'.framed.memory.top = machine.memory.top :=
    (Memory.top_put ..).trans hinvoked.same.top
  have hsp := hinvoked.sp
  rw [hentry, hresult] at hsp
  dsimp only [Machine.opened]
  unfold Layout.linkSize
  rw [htop]
  push_cast
  omega

end Module

/-! ## A sum -/

/-- A machine of some bytes with a module in memory and zeros behind it. -/
def Machine.holding (image : Image) (size : Nat) : Machine where
  memory := ⟨(image.bytes ++ List.replicate (size - image.bytes.length) 0).toArray⟩
  ip := 0
  sp := size
  lp := size
  entrySp := size
  limit := image.dynamicBase + image.dataSize
  event := .running
  printed := #[]

theorem Machine.holds_holding {image : Image} {size : Nat}
    (h : image.dynamicBase + image.dataSize ≤ (holding image size).memory.top) :
    (holding image size).Holds image where
  bytes := by simp [holding, Memory.Has, Memory.read, Memory.inside, Memory.size]
  limit := rfl
  le_top := h

/-- Whether a function of some name, if it is called, finds the stack that it needs and comes to
some bytes as its result and some in the data sets, no loop having more rounds than `fuel`. -/
def Assembly.comesTo (a : Assembly) (p : Program) (m : Module) (image : Image) (machine : Machine)
    (name : String) (arguments result data : List UInt8) (fuel : Nat) : Bool :=
  a.units.any fun u => u.name == name &&
    match p.functions[u.number]?, (p.functions[u.number]?).bind (·.user?) with
    | some f, some body =>
      Stmt.areStructured body.statements && arguments.length == body.frame.arguments &&
      decide (machine.limit + EmissionContext.stack ⟨p, f, body, m.fields⟩ u.result ≤
        machine.memory.top) &&
      match (Step.invoke (a.entry u) arguments).run machine with
      | .ok _ machine' =>
        match EmissionContext.exec ⟨p, f, body, m.fields⟩ fuel (machine'.store image) with
        | .returned σ => σ.read (.frame body.frame.result) u.result == result &&
          σ.read (.data 0) m.dataSize == data
        | _ => false
      | .error _ _ => false
    | _, _ => false

/-- A module whose function `SUM` adds up the numbers from its argument down to 2, and keeps the
sum. -/
def Raw.Program.sum : Raw.Program :=
  let place : Location := default
  let name (x : String) : Raw.Expr := .name place x
  let number (k : Int64) : Raw.Expr := .integer place k
  let sum : Raw.Function := ⟨place, "SUM", some (.scalar .integer),
    .user [⟨place, "N", .scalar .integer⟩]
      [.var place "S" (some (.scalar .integer)) none,
        .loop place (some ⟨false, false, .binary place .greater (name "N") (number 0)⟩)
          [.choose place (.branch (.binary place .equal (name "N") (number 1))
              [.assign place (name "LAST") (name "S")]
              (.otherwise [.assign place (name "S") (.binary place .add (name "S") (name "N"))])),
            .assign place (name "N") (.binary place .subtract (name "N") (number 1))],
        .return place (some (name "S"))]⟩
  ⟨[], [], [], [⟨place, "M", "NODE",
    [⟨place, .hidden, [⟨place, "LAST", .scalar .integer⟩]⟩], [⟨place, [], [sum]⟩]⟩], []⟩

/-- What `Raw.Program.sum` means. -/
def Program.sum : Program := (analyse .sum).toOption.getD default

end ChannelBasic
