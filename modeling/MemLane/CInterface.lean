import MemLane.MapStore
import MemLane.Startup

/-!
# The C interface

The `ml_` functions of `lib.rs`, called by any number of processes that share the named
region, one call at a time.  Keys and values come out of the caller's memory, and `ml_get`
writes into it.  A handle is the address of a client, and every client maps the one region:
`ml_create` initialises it again for all of them, `ml_close` leaves it as it is.  There is no
region before the first `ml_create`, and the operating system gives it its size.

A null pointer among the arguments is answered before any other argument is looked at.  A call
with a handle that is neither null nor live goes to a client that has been freed: its behaviour
is undefined, and so is that of everything that comes after it.  The pointers that are not null
are good for the lengths they come with.

The region is anything that answers the operations of a client.
-/

namespace MemLane

/-! ## The memory of a process -/

/-- The memory of a process; address 0 is the null pointer. -/
abbrev CMemory := Nat → UInt8

/-- `slice::from_raw_parts`. -/
def CMemory.slice (mem : CMemory) (ptr len : Nat) : Bytes :=
  (List.range len).map fun i => mem (ptr + i)

/-- `ptr::copy_nonoverlapping`. -/
def CMemory.copy (mem : CMemory) (ptr : Nat) (data : Bytes) : CMemory :=
  fun a => if ptr ≤ a ∧ a < ptr + data.length then data.getD (a - ptr) 0 else mem a

theorem CMemory.copy_outside (mem : CMemory) {ptr a : Nat} {data : Bytes}
    (h : a < ptr ∨ ptr + data.length ≤ a) : mem.copy ptr data a = mem a :=
  if_neg (by omega)

/-- What has been copied is read back. -/
theorem CMemory.slice_copy (mem : CMemory) (ptr : Nat) (data : Bytes) :
    (mem.copy ptr data).slice ptr data.length = data := by
  apply List.ext_getElem
  · rw [slice, List.length_map, List.length_range]
  · intro i hi hdata
    simp only [slice, List.getElem_map, List.getElem_range]
    rw [copy, if_pos ⟨Nat.le_add_right _ _, Nat.add_lt_add_left hdata _⟩,
      Nat.add_sub_cancel_left, List.getD_eq_getElem?_getD, List.getElem?_eq_getElem hdata]
    rfl

/-! ## The functions on a client -/

inductive MlReturn
  | handle (handle : Nat)
  | int32 (n : Int32)
  | int64 (n : Int64)
  | uint64 (n : UInt64)
  | unit

/-! The functions of this section are what follows the checks for null pointers. -/

section Functions

variable {σ : Type} (store : ClientStore σ) (s : σ) (mem : CMemory)

def mlSet (keyPtr keyLen valPtr valLen : Nat) (ttlSecs : UInt64) (clock : Clock) :
    MlReturn × CMemory × σ :=
  let result : Except MemLaneError Bool × σ :=
    store s (.set (mem.slice keyPtr keyLen) (mem.slice valPtr valLen) ttlSecs) clock
  (.int32 (match result.1 with
    | .ok _ => 1
    | .error _ => 0), mem, result.2)

def mlGet (keyPtr keyLen outBuf outBufLen : Nat) (clock : Clock) : MlReturn × CMemory × σ :=
  let result : Except MemLaneError (Option Bytes) × σ :=
    store s (.get (mem.slice keyPtr keyLen)) clock
  match result.1 with
  | .ok (some val) =>
      let copyLen := min val.length outBufLen
      (.int64 (Int64.ofNat copyLen), mem.copy outBuf (val.take copyLen), result.2)
  | .ok none => (.int64 (-1), mem, result.2)
  | .error _ => (.int64 (-2), mem, result.2)

/-- What `ml_del` and `ml_exists` make of a result. -/
def foundInt32 : Except MemLaneError Bool → Int32
  | .ok true => 1
  | _ => 0

def mlDel (keyPtr keyLen : Nat) (clock : Clock) : MlReturn × CMemory × σ :=
  let result : Except MemLaneError Bool × σ := store s (.del (mem.slice keyPtr keyLen)) clock
  (.int32 (foundInt32 result.1), mem, result.2)

def mlExists (keyPtr keyLen : Nat) (clock : Clock) : MlReturn × CMemory × σ :=
  let result : Except MemLaneError Bool × σ :=
    store s (.existsKey (mem.slice keyPtr keyLen)) clock
  (.int32 (foundInt32 result.1), mem, result.2)

def mlFlush (clock : Clock) : MlReturn × CMemory × σ :=
  let result : Except MemLaneError Unit × σ := store s .flush clock
  (.int32 (match result.1 with
    | .ok _ => 1
    | .error _ => 0), mem, result.2)

def mlUsedCount (clock : Clock) : MlReturn × CMemory × σ :=
  let result : UInt64 × σ := store s .usedCount clock
  (.uint64 result.1, mem, result.2)

def mlCapacity : MlReturn × CMemory × σ := (.uint64 (UInt64.ofNat slotCount), mem, s)

end Functions

/-! ## Processes -/

/-- A call of a process, or what the process does to its own memory.  `mapped` says whether
the operating system maps the region, `box` where the client is allocated. -/
inductive MlCall
  | own (mem : CMemory)
  | mlCreate (mapped : Bool) (box : Nat)
  | mlOpen (mapped : Bool) (box : Nat)
  | mlClose (handle : Nat)
  | mlSet (handle keyPtr keyLen valPtr valLen : Nat) (ttlSecs : UInt64) (clock : Clock)
  | mlGet (handle keyPtr keyLen outBuf outBufLen : Nat) (clock : Clock)
  | mlDel (handle keyPtr keyLen : Nat) (clock : Clock)
  | mlExists (handle keyPtr keyLen : Nat) (clock : Clock)
  | mlFlush (handle : Nat) (clock : Clock)
  | mlUsedCount (handle : Nat) (clock : Clock)
  | mlCapacity (handle : Nat)

/-- A kind of region: how it answers a client, what `create_arena` makes of what is there, and
whether `open_arena` takes it. -/
structure RegionKind (σ : Type) where
  store : ClientStore σ
  create : Option σ → σ
  opens : σ → Bool

/-- The region of `shm.rs`.  A new one is zeroed by the operating system. -/
def arenaRegion (hashFn : Bytes → UInt64) : RegionKind Arena where
  store := arenaStore hashFn
  create region := createArena (region.getD zeroedRegion)
  opens region := (openArena region).isOk

/-- A region that is a finite map. -/
def mapRegion : RegionKind KeyMap where
  store := mapStore
  create _ := ∅
  opens _ := true

/-- The processes, with their live handles and their memory, and the region, once there is
one. -/
structure Processes (σ π : Type) where
  region : Option σ
  handles : π → List Nat
  mem : π → CMemory

namespace Processes

variable {σ π : Type} [DecidableEq π] (kind : RegionKind σ) (procs : Processes σ π) (p : π)

/-- Before anything is created. -/
def start (mem : π → CMemory) : Processes σ π :=
  { region := none, handles := fun _ => [], mem := mem }

/-- A new client, at address `box`. -/
def connect (region : σ) (box : Nat) : MlReturn × Processes σ π :=
  (.handle box, { procs with
    region := some region
    handles := Function.update procs.handles p (box :: procs.handles p) })

/-- A call with a handle and other pointers among its arguments, and what it returns if one of
them is null.  Without a live handle there is no client to call. -/
def onClient (handle : Nat) (pointers : List Nat) (ifNull : MlReturn)
    (call : σ → CMemory → MlReturn × CMemory × σ) : Option (MlReturn × Processes σ π) :=
  if 0 ∈ handle :: pointers then some (ifNull, procs)
  else if handle ∉ procs.handles p then none
  else
    match procs.region with
    | none => none
    | some s =>
        let result := call s (procs.mem p)
        some (result.1, { procs with
          region := some result.2.2
          mem := Function.update procs.mem p result.2.1 })

/-- Carry out a call of process `p`, if its behaviour is defined. -/
def call : MlCall → Option (MlReturn × Processes σ π)
  | .own mem => some (.unit, { procs with mem := Function.update procs.mem p mem })
  | .mlCreate mapped box =>
      some (if mapped then procs.connect p (kind.create procs.region) box else (.handle 0, procs))
  | .mlOpen mapped box =>
      some (match procs.region with
        | none => (.handle 0, procs)
        | some region =>
            if mapped ∧ kind.opens region then procs.connect p region box
            else (.handle 0, procs))
  | .mlClose handle =>
      if handle = 0 then some (.unit, procs)
      else if handle ∉ procs.handles p then none
      else
        some (.unit, { procs with
          handles := Function.update procs.handles p ((procs.handles p).erase handle) })
  | .mlSet handle keyPtr keyLen valPtr valLen ttlSecs clock =>
      procs.onClient p handle [keyPtr, valPtr] (.int32 0) fun s mem =>
        mlSet kind.store s mem keyPtr keyLen valPtr valLen ttlSecs clock
  | .mlGet handle keyPtr keyLen outBuf outBufLen clock =>
      procs.onClient p handle [keyPtr, outBuf] (.int64 (-2)) fun s mem =>
        mlGet kind.store s mem keyPtr keyLen outBuf outBufLen clock
  | .mlDel handle keyPtr keyLen clock =>
      procs.onClient p handle [keyPtr] (.int32 0) fun s mem =>
        mlDel kind.store s mem keyPtr keyLen clock
  | .mlExists handle keyPtr keyLen clock =>
      procs.onClient p handle [keyPtr] (.int32 0) fun s mem =>
        mlExists kind.store s mem keyPtr keyLen clock
  | .mlFlush handle clock =>
      procs.onClient p handle [] (.int32 0) fun s mem => mlFlush kind.store s mem clock
  | .mlUsedCount handle clock =>
      procs.onClient p handle [] (.uint64 0) fun s mem => mlUsedCount kind.store s mem clock
  | .mlCapacity handle =>
      procs.onClient p handle [] (.uint64 0) fun s mem => mlCapacity s mem

/-- One call of one process, as long as the behaviour of all of them is defined. -/
def exec (state : Option (Processes σ π)) (input : π × MlCall) :
    Option MlReturn × Option (Processes σ π) :=
  let result := state.bind fun procs => procs.call kind input.1 input.2
  (result.map Prod.fst, result.map Prod.snd)

end Processes

/-! ## The header -/

section Header

variable {hashFn : Bytes → UInt64} {arena : Arena}

/-- No operation of a client changes the magic number. -/
theorem arenaStore_magic (q : Query) (clock : Clock) :
    (arenaStore hashFn arena q clock).2.header.magic = arena.header.magic := by
  have hget : ∀ key, (MemLane.get hashFn arena key clock).2.header.magic =
      arena.header.magic := by
    intro key
    have houtcome := get_outcome hashFn arena key clock
    generalize MemLane.get hashFn arena key clock = result at houtcome ⊢
    cases houtcome <;> rfl
  cases q with
  | get key =>
      simp only [arenaStore, MemLaneClient.get]
      split
      · rfl
      · exact hget key
  | existsKey key =>
      simp only [arenaStore, MemLaneClient.existsKey]
      split
      · rfl
      · exact hget key
  | set key value ttlSecs =>
      simp only [arenaStore, MemLaneClient.set]
      split
      · rfl
      · split
        · rfl
        · have houtcome := set_outcome hashFn arena key value ttlSecs clock
          generalize MemLane.set hashFn arena key value ttlSecs clock = result at houtcome ⊢
          cases houtcome with
          | claimed _ _ hscan | reused hscan | updated _ _ _ _ _ hscan | full hscan =>
              have hmagic := congrArg ArenaHeader.magic hscan.evicts.header
              exact hmagic
  | del key =>
      simp only [arenaStore, MemLaneClient.del]
      split
      · rfl
      · have houtcome := del_outcome hashFn arena key
        generalize MemLane.del hashFn arena key = result at houtcome ⊢
        cases houtcome <;> rfl
  | flush | usedCount => rfl

end Header

/-! ## The interface of a map -/

/-- The call stores nothing that expires, and does not look at the counter. -/
def MlCall.Plain : MlCall → Prop
  | .mlSet _ _ _ _ _ ttlSecs _ => ttlSecs = 0
  | .mlUsedCount _ _ => False
  | _ => True

/-- The arena has been created, and stands for the map. -/
def RegionRefines (hashFn : Bytes → UInt64) (arena : Arena) (m : KeyMap) : Prop :=
  Refines hashFn arena m ∧ arena.header.magic = arenaMagic

/-- The regions are related, if there are any, and nothing else is different. -/
structure Processes.Matches {σ τ π : Type} (R : σ → τ → Prop) (procs : Processes σ π)
    (procs' : Processes τ π) : Prop where
  region : Option.Rel R procs.region procs'.region
  handles : procs.handles = procs'.handles
  mem : procs.mem = procs'.mem

section Matches

variable {hashFn : Bytes → UInt64}

theorem RegionRefines.createArena (region : Option Arena) :
    RegionRefines hashFn ((arenaRegion hashFn).create region) ∅ := ⟨.createArena _, rfl⟩

theorem RegionRefines.opens {arena : Arena} {m : KeyMap} (h : RegionRefines hashFn arena m) :
    (arenaRegion hashFn).opens arena = true := by
  have hopen : openArena arena = .ok arena := openArena_eq_ok.mpr ⟨h.2, rfl⟩
  simp only [arenaRegion, hopen]
  rfl

theorem RegionRefines.alike (hashFn : Bytes → UInt64) :
    Script.Alike (arenaStore hashFn) mapStore Query.Plain (RegionRefines hashFn) := by
  intro arena m q clock h hplain
  obtain ⟨hanswer, hnext⟩ := arenaStore_alike hashFn arena m q clock h.1 hplain
  exact ⟨hanswer, hnext, (arenaStore_magic q clock).trans h.2⟩

variable {σ τ π : Type} [DecidableEq π] {R : σ → τ → Prop} {procs : Processes σ π}
  {procs' : Processes τ π} {p : π}

/-- Two calls return the same, leave the same memory behind, and related regions. -/
def CallsAlike (R : σ → τ → Prop) (result : MlReturn × CMemory × σ)
    (result' : MlReturn × CMemory × τ) : Prop :=
  result.1 = result'.1 ∧ result.2.1 = result'.2.1 ∧ R result.2.2 result'.2.2

/-- Neither call has a defined behaviour, or both return the same and the processes match. -/
def CallsMatch (R : σ → τ → Prop) :
    Option (MlReturn × Processes σ π) → Option (MlReturn × Processes τ π) → Prop :=
  Option.Rel fun result result' => result.1 = result'.1 ∧ result.2.Matches R result'.2

theorem Processes.Matches.onClient (h : procs.Matches R procs') {handle : Nat}
    {pointers : List Nat} {ifNull : MlReturn} {call : σ → CMemory → MlReturn × CMemory × σ}
    {call' : τ → CMemory → MlReturn × CMemory × τ}
    (halike : ∀ s t mem, R s t → CallsAlike R (call s mem) (call' t mem)) :
    CallsMatch R (procs.onClient p handle pointers ifNull call)
      (procs'.onClient p handle pointers ifNull call') := by
  obtain ⟨region, handles, mem⟩ := procs
  obtain ⟨region', handles', mem'⟩ := procs'
  obtain ⟨hregion, hhandles, hmem⟩ := h
  simp only at hregion hhandles hmem
  subst hhandles hmem
  unfold Processes.onClient
  split
  · exact .some ⟨rfl, hregion, rfl, rfl⟩
  · simp only
    split
    · exact .none
    · cases hregion with
      | none => exact .none
      | some hR =>
          obtain ⟨hreturn, hmem, hnext⟩ := halike _ _ (mem p) hR
          refine .some ⟨hreturn, .some hnext, rfl, ?_⟩
          simp only [hmem]

section Functions

variable {store : ClientStore σ} {store' : ClientStore τ} {P : Query → Prop} {s : σ} {t : τ}
  {mem : CMemory} {clock : Clock}

theorem mlSet_alike (halike : Script.Alike store store' P R) (hR : R s t)
    {keyPtr keyLen valPtr valLen : Nat} {ttlSecs : UInt64}
    (hset : P (.set (mem.slice keyPtr keyLen) (mem.slice valPtr valLen) ttlSecs)) :
    CallsAlike R (mlSet store s mem keyPtr keyLen valPtr valLen ttlSecs clock)
      (mlSet store' t mem keyPtr keyLen valPtr valLen ttlSecs clock) := by
  obtain ⟨hanswer, hnext⟩ := halike s t _ clock hR hset
  refine ⟨?_, rfl, hnext⟩
  simp only [mlSet, hanswer]

theorem mlDel_alike (halike : Script.Alike store store' P R) (hR : R s t) {keyPtr keyLen : Nat}
    (hdel : P (.del (mem.slice keyPtr keyLen))) :
    CallsAlike R (mlDel store s mem keyPtr keyLen clock)
      (mlDel store' t mem keyPtr keyLen clock) := by
  obtain ⟨hanswer, hnext⟩ := halike s t _ clock hR hdel
  refine ⟨?_, rfl, hnext⟩
  simp only [mlDel, hanswer]

theorem mlExists_alike (halike : Script.Alike store store' P R) (hR : R s t) {keyPtr keyLen : Nat}
    (hexists : P (.existsKey (mem.slice keyPtr keyLen))) :
    CallsAlike R (mlExists store s mem keyPtr keyLen clock)
      (mlExists store' t mem keyPtr keyLen clock) := by
  obtain ⟨hanswer, hnext⟩ := halike s t _ clock hR hexists
  refine ⟨?_, rfl, hnext⟩
  simp only [mlExists, hanswer]

theorem mlGet_alike (halike : Script.Alike store store' P R) (hR : R s t)
    {keyPtr keyLen outBuf outBufLen : Nat} (hget : P (.get (mem.slice keyPtr keyLen))) :
    CallsAlike R (mlGet store s mem keyPtr keyLen outBuf outBufLen clock)
      (mlGet store' t mem keyPtr keyLen outBuf outBufLen clock) := by
  obtain ⟨hanswer, hnext⟩ := halike s t _ clock hR hget
  simp only [mlGet, hanswer]
  cases (store' t (.get (mem.slice keyPtr keyLen)) clock).1 with
  | error e => exact ⟨rfl, rfl, hnext⟩
  | ok value => cases value <;> exact ⟨rfl, rfl, hnext⟩

theorem mlFlush_alike (halike : Script.Alike store store' P R) (hR : R s t) (hflush : P .flush) :
    CallsAlike R (mlFlush store s mem clock) (mlFlush store' t mem clock) := by
  obtain ⟨hanswer, hnext⟩ := halike s t _ clock hR hflush
  refine ⟨?_, rfl, hnext⟩
  simp only [mlFlush, hanswer]

end Functions

theorem Processes.Matches.connect {region : σ} {region' : τ} (h : procs.Matches R procs')
    (hR : R region region') (box : Nat) :
    CallsMatch R (some (procs.connect p region box)) (some (procs'.connect p region' box)) := by
  refine .some ⟨rfl, .some hR, ?_, h.mem⟩
  simp only [Processes.connect, h.handles]

/-- A plain call does the same in both worlds. -/
theorem Processes.Matches.call {procs : Processes Arena π} {procs' : Processes KeyMap π}
    (h : procs.Matches (RegionRefines hashFn) procs') {call : MlCall} (hplain : call.Plain) :
    CallsMatch (RegionRefines hashFn) (procs.call (arenaRegion hashFn) p call)
      (procs'.call mapRegion p call) := by
  have halike := RegionRefines.alike hashFn
  have hsame (r : MlReturn) : CallsMatch (RegionRefines hashFn) (some (r, procs))
      (some (r, procs')) := .some ⟨rfl, h⟩
  cases call with
  | own mem =>
      refine .some ⟨rfl, h.region, h.handles, ?_⟩
      simp only [h.mem]
  | mlCreate mapped box =>
      cases mapped with
      | false => exact hsame _
      | true => exact h.connect (.createArena procs.region) box
  | mlOpen mapped box =>
      obtain ⟨region, handles, mem⟩ := procs
      obtain ⟨region', handles', mem'⟩ := procs'
      have hregion := h.region
      simp only at hregion
      cases hregion with
      | none => exact hsame _
      | some hR =>
          cases mapped with
          | false => exact hsame _
          | true =>
              simp only [Processes.call, hR.opens, mapRegion]
              exact h.connect hR box
  | mlClose handle =>
      have hhandles := h.handles
      simp only [Processes.call, hhandles]
      split
      · exact hsame _
      · split
        · exact .none
        · exact .some ⟨rfl, h.region, rfl, h.mem⟩
  | mlSet handle keyPtr keyLen valPtr valLen ttlSecs clock =>
      obtain rfl : ttlSecs = 0 := hplain
      simp only [Processes.call]
      refine h.onClient ?_
      exact fun s t mem hR => mlSet_alike halike hR rfl
  | mlGet =>
      simp only [Processes.call]
      refine h.onClient ?_
      exact fun s t mem hR => mlGet_alike halike hR trivial
  | mlDel =>
      simp only [Processes.call]
      refine h.onClient ?_
      exact fun s t mem hR => mlDel_alike halike hR trivial
  | mlExists =>
      simp only [Processes.call]
      refine h.onClient ?_
      exact fun s t mem hR => mlExists_alike halike hR trivial
  | mlFlush =>
      simp only [Processes.call]
      refine h.onClient ?_
      exact fun s t mem hR => mlFlush_alike halike hR trivial
  | mlUsedCount => exact hplain.elim
  | mlCapacity =>
      refine h.onClient ?_
      exact fun s t mem hR => ⟨rfl, rfl, hR⟩

omit [DecidableEq π] in
theorem CallsMatch.map {result : Option (MlReturn × Processes σ π)}
    {result' : Option (MlReturn × Processes τ π)} (h : CallsMatch R result result') :
    result.map Prod.fst = result'.map Prod.fst ∧
      Option.Rel (Processes.Matches R) (result.map Prod.snd) (result'.map Prod.snd) := by
  cases h with
  | none => exact ⟨rfl, .none⟩
  | some h => exact ⟨congrArg some h.1, .some h.2⟩

/-- **Processes share one map.**  For any fingerprint function, any number of processes and any
order of their calls, one at a time: as long as no call asks for an expiry or for the counter,
every call returns, and leaves in the memory of its process, what it would if the region were a
finite map with at most `slotCount` keys, which `ml_create` empties under all handles.  This
holds up to the first call with a stale handle, which both runs meet at the same place. -/
theorem c_interface_refines_map {π : Type} [DecidableEq π] (hashFn : Bytes → UInt64)
    (mem : π → CMemory) (calls : List (π × MlCall)) (hplain : ∀ call ∈ calls, call.2.Plain) :
    Run.trace (Processes.exec (arenaRegion hashFn)) (some (.start mem)) calls =
        Run.trace (Processes.exec mapRegion) (some (.start mem)) calls ∧
      Option.Rel (Processes.Matches (RegionRefines hashFn))
        (Run.after (Processes.exec (arenaRegion hashFn)) (some (.start mem)) calls)
        (Run.after (Processes.exec mapRegion) (some (.start mem)) calls) := by
  refine Run.lockstep ?_ (.some ⟨.none, rfl, rfl⟩) hplain
  intro state state' call h hcall
  cases h with
  | none => exact ⟨rfl, .none⟩
  | some h => exact (h.call hcall).map

end Matches

/-- One process creates the arena and sets a key, another opens it, gives a null pointer, reads
the value into a buffer of eight bytes, and creates the arena again.  The handle that the first
process closes is stale. -/
def sharedCalls : List (Bool × MlCall) :=
  [(true, .mlCreate true 100), (false, .mlOpen true 200),
    (true, .mlSet 100 1 2 5 3 0 fun _ => 0), (false, .mlGet 200 1 2 0 8 fun _ => 0),
    (false, .mlGet 200 1 2 50 8 fun _ => 0), (false, .mlCreate true 201),
    (true, .mlGet 100 1 2 50 8 fun _ => 0), (true, .mlClose 100), (true, .mlCapacity 100),
    (false, .mlCapacity 201)]

theorem c_interface_refines_map_shared :
    (Run.trace (Processes.exec (arenaRegion siphash)) (some (.start fun _ a => UInt8.ofNat a))
      sharedCalls).map Prod.snd =
        [some (.handle 100), some (.handle 200), some (.int32 1), some (.int64 (-2)),
          some (.int64 3), some (.handle 201), some (.int64 (-1)), some .unit, none, none] := by
  have hplain : ∀ call ∈ sharedCalls, call.2.Plain := by
    intro call hcall
    simp only [sharedCalls, List.mem_cons, List.not_mem_nil, or_false] at hcall
    rcases hcall with rfl | rfl | rfl | rfl | rfl | rfl | rfl | rfl | rfl | rfl
    all_goals trivial
  rw [(c_interface_refines_map siphash (fun _ a => UInt8.ofNat a) sharedCalls hplain).1]
  rfl

/-! ## The region of a run -/

/-- The region is in order, and where there is a client there is a region. -/
structure Processes.Sound {π : Type} (hashFn : Bytes → UInt64) (procs : Processes Arena π) :
    Prop where
  tableInv : ∀ arena, procs.region = some arena → TableInv hashFn arena
  mapped : ∀ p handle, handle ∈ procs.handles p → ∃ arena, procs.region = some arena

section Sound

variable {hashFn : Bytes → UInt64} {π : Type} [DecidableEq π] {procs procs' : Processes Arena π}
  {p : π} {r : MlReturn}

theorem Processes.Sound.connect {region : Arena} (hinv : TableInv hashFn region) (box : Nat) :
    (procs.connect p region box).2.Sound hashFn where
  tableInv := by
    intro arena harena
    cases harena
    exact hinv
  mapped _ _ _ := ⟨region, rfl⟩

theorem Processes.Sound.onClient (h : procs.Sound hashFn) {handle : Nat} {pointers : List Nat}
    {ifNull : MlReturn} {call : Arena → CMemory → MlReturn × CMemory × Arena}
    (hcall : ∀ s mem, TableInv hashFn s → TableInv hashFn (call s mem).2.2)
    (hnext : procs.onClient p handle pointers ifNull call = some (r, procs')) :
    procs'.Sound hashFn := by
  unfold Processes.onClient at hnext
  split at hnext
  · cases hnext
    exact h
  · split at hnext
    · cases hnext
    · cases hregion : procs.region with
      | none => simp only [hregion, reduceCtorEq] at hnext
      | some s =>
          simp only [hregion, Option.some.injEq, Prod.mk.injEq] at hnext
          obtain ⟨_, rfl⟩ := hnext
          refine ⟨?_, fun _ _ _ => ⟨_, rfl⟩⟩
          intro arena harena
          cases harena
          exact hcall s _ (h.tableInv s hregion)

theorem mlGet_region (arena : Arena) (mem : CMemory) (keyPtr keyLen outBuf outBufLen : Nat)
    (clock : Clock) :
    (mlGet (arenaStore hashFn) arena mem keyPtr keyLen outBuf outBufLen clock).2.2 =
      (MemLaneClient.get hashFn arena (mem.slice keyPtr keyLen) clock).2 := by
  unfold mlGet
  simp only
  split <;> rfl

/-- Every call with a defined behaviour leaves the region in order. -/
theorem Processes.Sound.call (h : procs.Sound hashFn) {call : MlCall}
    (hnext : procs.call (arenaRegion hashFn) p call = some (r, procs')) : procs'.Sound hashFn := by
  cases call with
  | own mem =>
      cases hnext
      exact ⟨h.tableInv, h.mapped⟩
  | mlCreate mapped box =>
      cases mapped with
      | false =>
          cases hnext
          exact h
      | true =>
          cases hnext
          exact .connect (.createArena _) box
  | mlOpen mapped box =>
      simp only [Processes.call, Option.some.injEq] at hnext
      split at hnext
      · cases hnext
        exact h
      · next region hregion =>
          split at hnext
          · cases hnext
            exact .connect (h.tableInv region hregion) box
          · cases hnext
            exact h
  | mlClose handle =>
      simp only [Processes.call] at hnext
      split at hnext
      · cases hnext
        exact h
      · split at hnext
        · cases hnext
        · next hlive =>
            cases hnext
            exact ⟨h.tableInv, fun _ _ _ => h.mapped p handle (not_not.mp hlive)⟩
  | mlSet =>
      simp only [Processes.call] at hnext
      exact h.onClient (fun s mem hinv => hinv.query _ _) hnext
  | mlGet =>
      simp only [Processes.call] at hnext
      refine h.onClient (fun s mem hinv => ?_) hnext
      exact mlGet_region s mem _ _ _ _ _ ▸ hinv.query (.get _) _
  | mlDel =>
      simp only [Processes.call] at hnext
      exact h.onClient (fun s mem hinv => hinv.query _ _) hnext
  | mlExists =>
      simp only [Processes.call] at hnext
      exact h.onClient (fun s mem hinv => hinv.query _ _) hnext
  | mlFlush =>
      simp only [Processes.call] at hnext
      exact h.onClient (fun s mem hinv => hinv.query _ _) hnext
  | mlUsedCount =>
      simp only [Processes.call] at hnext
      exact h.onClient (fun s mem hinv => hinv.query _ _) hnext
  | mlCapacity =>
      simp only [Processes.call] at hnext
      exact h.onClient (fun s mem hinv => hinv) hnext

theorem Processes.sound_of_run {mem : π → CMemory} {calls : List (π × MlCall)}
    (hrun : Run.after (Processes.exec (arenaRegion hashFn)) (some (.start mem)) calls =
      some procs) : procs.Sound hashFn := by
  suffices hall : ∀ procs : Processes Arena π,
      Run.after (Processes.exec (arenaRegion hashFn)) (some (.start mem)) calls = some procs →
        procs.Sound hashFn from hall procs hrun
  refine Run.after_invariant (fun state : Option (Processes Arena π) =>
    ∀ procs, state = some procs → procs.Sound hashFn) ?_ ?_ calls
  · intro state input h procs' hnext
    obtain ⟨⟨r, _⟩, hcall, rfl⟩ := Option.map_eq_some_iff.mp hnext
    obtain ⟨procs, rfl, hcall⟩ := Option.bind_eq_some_iff.mp hcall
    exact (h procs rfl).call hcall
  · intro procs hstart
    cases hstart
    exact ⟨nofun, nofun⟩

end Sound

/-! ## The buffer of a read -/

/-- A search for the key reads this value: the entry is stored, and no slot up to its own ends
the search as expired. -/
def Arena.Yields (hashFn : Bytes → UInt64) (arena : Arena) (key value : Bytes) (clock : Clock) :
    Prop :=
  ∃ d, d < slotCount ∧ (arena.probed (hashFn key) d).state = stateOccupied ∧
    (arena.probed (hashFn key) d).readKey = key ∧
    (arena.probed (hashFn key) d).readValue = value ∧
    ∀ m, m ≤ d → ¬ ExpiredAt arena (hashFn key) clock m

/-- The front of the value has been copied into the buffer, and the rest of the memory is as it
was.  The number of bytes is returned. -/
structure Fills (value : Bytes) (outBuf outBufLen : Nat) (mem mem' : CMemory) (returned : Int64) :
    Prop where
  returned : returned.toInt = min value.length outBufLen
  copied : mem'.slice outBuf (min value.length outBufLen) = value.take outBufLen
  outside : ∀ a, a < outBuf ∨ outBuf + min value.length outBufLen ≤ a → mem' a = mem a
  whole : maxValLen ≤ outBufLen → value.take outBufLen = value

/-- What `ml_get` returns, and what it makes of the memory of its process. -/
inductive MlGetOutcome (hashFn : Bytes → UInt64) (arena : Arena) (key : Bytes)
    (outBuf outBufLen : Nat) (clock : Clock) (mem : CMemory) : Int64 → CMemory → Prop
  | tooLong (hlong : maxKeyLen < key.length) :
      MlGetOutcome hashFn arena key outBuf outBufLen clock mem (-2) mem
  | missing (hshort : key.length ≤ maxKeyLen)
      (hnone : ∀ value, ¬ arena.Yields hashFn key value clock) :
      MlGetOutcome hashFn arena key outBuf outBufLen clock mem (-1) mem
  | found {value : Bytes} {returned : Int64} {mem' : CMemory}
      (hyields : arena.Yields hashFn key value clock)
      (hfills : Fills value outBuf outBufLen mem mem' returned) :
      MlGetOutcome hashFn arena key outBuf outBufLen clock mem returned mem'

section Buffer

variable {hashFn : Bytes → UInt64} {arena : Arena} {key value : Bytes} {mem : CMemory}
  {clock : Clock}

theorem Arena.Yields.stores (h : arena.Yields hashFn key value clock) :
    ∃ expiry, arena.Stores key value expiry := by
  obtain ⟨d, _, hocc, hkey, hvalue, _⟩ := h
  exact ⟨_, _, hocc, hkey, hvalue, rfl⟩

theorem Arena.Stores.value_length {expiry : UInt64} (h : arena.Stores key value expiry) :
    value.length ≤ maxValLen := by
  obtain ⟨i, _, _, hvalue, _⟩ := h
  rw [← hvalue, Slot.readValue, Buffer.slice, List.length_ofFn]
  exact Nat.min_le_right _ _

/-- The client reads the values that a search for the key reads. -/
theorem TableInv.get_eq_some_iff_yields (hinv : TableInv hashFn arena) :
    (MemLaneClient.get hashFn arena key clock).1 = .ok (some value) ↔
      arena.Yields hashFn key value clock := by
  rw [MemLaneClient.get_eq_some_iff]
  constructor
  · rintro ⟨_, hfound⟩
    obtain ⟨d, hd, hocc, hkey, rfl, _⟩ := get_found hfound
    exact ⟨d, hd, hocc, hkey, rfl, (get_of_stored hinv hd hocc hkey).mp hfound⟩
  · intro hyields
    obtain ⟨_, hstores⟩ := hyields.stores
    obtain ⟨d, hd, hocc, hkey, rfl, hlive⟩ := hyields
    exact ⟨hstores.key_length, (get_of_stored hinv hd hocc hkey).mpr hlive⟩

theorem fills_copy (hle : value.length ≤ maxValLen) (outBuf outBufLen : Nat) (mem : CMemory) :
    Fills value outBuf outBufLen mem (mem.copy outBuf (value.take (min value.length outBufLen)))
      (Int64.ofNat (min value.length outBufLen)) := by
  have hlength : (value.take outBufLen).length = min value.length outBufLen := by
    rw [List.length_take, Nat.min_comm]
  have htake : value.take (min value.length outBufLen) = value.take outBufLen := by
    rw [Nat.min_comm, ← List.take_take, List.take_length]
  rw [htake]
  refine ⟨?_, ?_, ?_, ?_⟩
  · unfold maxValLen at hle
    exact Int64.toInt_ofNat_of_lt (by omega)
  · rw [← hlength]
    exact mem.slice_copy outBuf _
  · intro a ha
    rw [← hlength] at ha
    exact mem.copy_outside ha
  · intro hbuf
    exact List.take_of_length_le (hle.trans hbuf)

theorem MemLaneClient.get_evicts (hashFn : Bytes → UInt64) (arena : Arena) (key : Bytes)
    (clock : Clock) :
    Evicts (hashFn key) clock arena (MemLaneClient.get hashFn arena key clock).2 := by
  unfold MemLaneClient.get
  split
  · exact .refl _ _ _
  · exact MemLane.get_evicts hashFn arena key clock

/-- A call on a live client ends in one of the three ways. -/
theorem mlGet_outcome (hinv : TableInv hashFn arena) (mem : CMemory)
    (keyPtr keyLen outBuf outBufLen : Nat) (clock : Clock) :
    ∃ returned, (mlGet (arenaStore hashFn) arena mem keyPtr keyLen outBuf outBufLen clock).1 =
        .int64 returned ∧
      MlGetOutcome hashFn arena (mem.slice keyPtr keyLen) outBuf outBufLen clock mem returned
        (mlGet (arenaStore hashFn) arena mem keyPtr keyLen outBuf outBufLen clock).2.1 := by
  cases hget : (MemLaneClient.get hashFn arena (mem.slice keyPtr keyLen) clock).1 with
  | error e =>
      simp only [mlGet, arenaStore, hget]
      refine ⟨-2, rfl, .tooLong ?_⟩
      by_contra hshort
      simp only [MemLaneClient.get, if_neg hshort] at hget
      split at hget <;> cases hget
  | ok found =>
      cases found with
      | none =>
          simp only [mlGet, arenaStore, hget]
          refine ⟨-1, rfl, .missing ?_ ?_⟩
          · by_contra hlong
            rw [MemLaneClient.get, if_pos (not_le.mp hlong)] at hget
            cases hget
          · intro value hyields
            rw [hinv.get_eq_some_iff_yields.mpr hyields] at hget
            cases hget
      | some value =>
          have hyields := hinv.get_eq_some_iff_yields.mp hget
          obtain ⟨_, hstores⟩ := hyields.stores
          simp only [mlGet, arenaStore, hget]
          exact ⟨_, rfl, .found hyields (fills_copy hstores.value_length outBuf outBufLen mem)⟩

/-- **Reads stay in their buffer.**  After any run of the processes, `ml_get` with a null
pointer returns -2 and changes nothing, and with a stale handle its behaviour is undefined.
With a live one, however the arguments overlap and however short the buffer is, nothing of the
other processes changes, the region only by the eviction of expired entries, and of its own
memory the buffer alone: it takes the front of the value that a search for the key reads, all
of it if there is room for the longest value, and the number of bytes is returned.  If the key
is too long, or nothing is read, the memory stays as it is and -2 or -1 is returned. -/
theorem ml_get_fills_buffer {π : Type} [DecidableEq π] (hashFn : Bytes → UInt64)
    (mem : π → CMemory) (calls : List (π × MlCall)) (procs : Processes Arena π)
    (hrun : Run.after (Processes.exec (arenaRegion hashFn)) (some (.start mem)) calls =
      some procs) (p : π) (handle keyPtr keyLen outBuf outBufLen : Nat) (clock : Clock) :
    let key := (procs.mem p).slice keyPtr keyLen
    let result := procs.call (arenaRegion hashFn) p
      (.mlGet handle keyPtr keyLen outBuf outBufLen clock)
    (handle = 0 ∨ keyPtr = 0 ∨ outBuf = 0 → result = some (.int64 (-2), procs)) ∧
    (handle ≠ 0 → keyPtr ≠ 0 → outBuf ≠ 0 →
      (handle ∉ procs.handles p → result = none) ∧
      (handle ∈ procs.handles p → ∃ returned procs' arena arena',
        result = some (.int64 returned, procs') ∧
        procs.region = some arena ∧ procs'.region = some arena' ∧
        Evicts (hashFn key) clock arena arena' ∧ procs'.handles = procs.handles ∧
        (∀ q, q ≠ p → procs'.mem q = procs.mem q) ∧
        MlGetOutcome hashFn arena key outBuf outBufLen clock (procs.mem p) returned
          (procs'.mem p))) := by
  have hsound := Processes.sound_of_run hrun
  simp only [Processes.call]
  unfold Processes.onClient
  refine ⟨?_, ?_⟩
  · intro hnull
    exact if_pos (by simpa [eq_comm] using hnull)
  · intro hhandle hkey hbuf
    rw [if_neg (by simp [hhandle.symm, hkey.symm, hbuf.symm])]
    refine ⟨fun hstale => if_pos hstale, ?_⟩
    intro hlive
    obtain ⟨arena, hregion⟩ := hsound.mapped p handle hlive
    obtain ⟨returned, hreturned, houtcome⟩ := mlGet_outcome (hsound.tableInv arena hregion)
      (procs.mem p) keyPtr keyLen outBuf outBufLen clock
    rw [if_neg (not_not.mpr hlive)]
    simp only [hregion]
    refine ⟨returned, _, arena, _, congrArg some (Prod.ext hreturned rfl), rfl, rfl, ?_, rfl,
      ?_, ?_⟩
    · rw [arenaRegion, mlGet_region]
      exact MemLaneClient.get_evicts hashFn arena _ clock
    · exact fun q hq => Function.update_of_ne hq _ _
    · simp only [Function.update_self]
      exact houtcome

end Buffer

/-- The arena of `sharedCalls` after its first `ml_set`. -/
def sharedArena : Arena :=
  arenaAfter siphash zeroedRegion [⟨.set [1, 2] [5, 6, 7] 0, fun _ => 0⟩]

/-- The second process reads the three bytes into a buffer of two. -/
theorem ml_get_fills_buffer_short :
    ∃ procs returned procs',
      Run.after (Processes.exec (arenaRegion siphash)) (some (.start fun _ a => UInt8.ofNat a))
          (sharedCalls.take 3) = some procs ∧
        procs.call (arenaRegion siphash) false (.mlGet 200 1 2 50 2 fun _ => 0) =
          some (.int64 returned, procs') ∧
        returned.toInt = 2 ∧ (procs'.mem false).slice 50 2 = [5, 6] ∧ procs'.mem false 52 = 52 := by
  obtain ⟨procs, hrun⟩ : ∃ procs, Run.after (Processes.exec (arenaRegion siphash))
      (some (.start fun _ a => UInt8.ofNat a)) (sharedCalls.take 3) = some procs := ⟨_, rfl⟩
  have hregion : procs.region = some sharedArena := by
    cases hrun
    rfl
  have hhandles : procs.handles false = [200] := by
    cases hrun
    rfl
  have hmem : procs.mem false = fun a => UInt8.ofNat a := by
    cases hrun
    rfl
  have hget : (MemLaneClient.get siphash sharedArena [1, 2] fun _ => 0).1 =
      .ok (some [5, 6, 7]) := by
    decide +kernel
  have hinv : TableInv siphash sharedArena := .arenaAfter _ _ _
  have hlive := (ml_get_fills_buffer siphash _ _ procs hrun false 200 1 2 50 2 fun _ => 0).2
    (by decide) (by decide) (by decide)
  obtain ⟨returned, procs', arena, arena', hcall, harena, _, _, _, _, houtcome⟩ :=
    hlive.2 (hhandles ▸ List.mem_cons_self)
  obtain rfl : arena = sharedArena := Option.some.inj (harena.symm.trans hregion)
  refine ⟨procs, returned, procs', hrun, hcall, ?_⟩
  have hkey : (procs.mem false).slice 1 2 = [1, 2] := by
    rw [hmem]
    rfl
  rw [hkey] at houtcome
  generalize hmem' : procs'.mem false = mem' at houtcome ⊢
  cases houtcome with
  | tooLong hlong => exact absurd hlong (by decide)
  | missing _ hnone => exact (hnone _ (hinv.get_eq_some_iff_yields.mp hget)).elim
  | found hyields hfills =>
      rw [hinv.get_eq_some_iff_yields.mpr hyields] at hget
      cases hget
      refine ⟨hfills.returned, hfills.copied, ?_⟩
      rw [hfills.outside 52 (.inr (by decide)), hmem]
      rfl

end MemLane
