import MemLane.SlotAccess
import MemLane.SipHash
import MemLane.TableInvariant

/-!
# Opening an arena while it is created

`create_arena` makes its stores to the shared region one after another: the four fields of
the header, the magic number first, and then the five fields of every slot.  `open_arena`
looks at the magic number alone.  So it succeeds from the first store on, and on a region
left over from an earlier run even before it, while the rest of the region is as it was and
the remaining stores are still to come.

An opened arena can be relied on only when no store remains.
-/

namespace MemLane

/-! ## The stores of `create_arena` -/

/-- The fields that `Slot::init` stores. -/
inductive SlotField
  | state
  | fingerprint
  | expiresAtMs
  | keyLen
  | valLen
  deriving DecidableEq

def SlotField.reset (slot : Slot) : SlotField → Slot
  | .state => { slot with state := stateEmpty }
  | .fingerprint => { slot with fingerprint := 0 }
  | .expiresAtMs => { slot with expiresAtMs := 0 }
  | .keyLen => { slot with keyLen := 0 }
  | .valLen => { slot with valLen := 0 }

/-- In the order of `Slot::init`. -/
def initFields : List SlotField := [.state, .fingerprint, .expiresAtMs, .keyLen, .valLen]

inductive CreateStore
  | magic
  | version
  | slotCount
  | usedCount
  | slot (i : Fin slotCount) (field : SlotField)

def CreateStore.write (arena : Arena) : CreateStore → Arena
  | .magic => { arena with header := { arena.header with magic := arenaMagic } }
  | .version => { arena with header := { arena.header with version := arenaVersion } }
  | .slotCount =>
      { arena with header := { arena.header with slotCount := UInt32.ofNat MemLane.slotCount } }
  | .usedCount => arena.storeUsedCount 0
  | .slot i field => arena.setSlot i (field.reset (arena.slots i))

def headerStores : List CreateStore := [.magic, .version, .slotCount, .usedCount]

def slotStores (i : Fin slotCount) : List CreateStore := initFields.map (.slot i)

/-- The stores in program order. -/
def createStores : List CreateStore :=
  headerStores ++ (List.finRange slotCount).flatMap slotStores

theorem final_slotStores (arena : Arena) (i : Fin slotCount) :
    Run.final CreateStore.write arena (slotStores i) = arena.setSlot i (arena.slots i).init := by
  simp [slotStores, initFields, CreateStore.write, SlotField.reset, Slot.init]

theorem final_flatMap_slotStores (arena : Arena) (is : List (Fin slotCount)) :
    Run.final CreateStore.write arena (is.flatMap slotStores) =
      { arena with
        slots := fun j => if j ∈ is then (arena.slots j).init else arena.slots j } := by
  induction is generalizing arena with
  | nil => simp
  | cons i is ih =>
      rw [List.flatMap_cons, Run.final_append, final_slotStores, ih]
      refine Arena.ext' rfl fun j => ?_
      by_cases hj : j = i
      · subst hj
        simp [Slot.init]
      · simp [hj]

/-- All stores together are `create_arena`. -/
theorem final_createStores (region : Arena) :
    Run.final CreateStore.write region createStores = createArena region := by
  rw [createStores, Run.final_append, final_flatMap_slotStores]
  simp only [List.mem_finRange, if_true]
  rfl

theorem flatMap_finRange_succ {α : Type*} (n : Nat) (f : Fin (n + 1) → List α) :
    (List.finRange (n + 1)).flatMap f =
      (List.finRange n).flatMap (fun i => f i.castSucc) ++ f (Fin.last n) := by
  rw [List.finRange_succ_last, List.flatMap_append, List.flatMap_map, List.flatMap_singleton]

theorem headerStores_length_lt : headerStores.length < createStores.length := by
  have hmem : CreateStore.slot 0 .state ∈ (List.finRange slotCount).flatMap slotStores :=
    List.mem_flatMap.mpr ⟨0, List.mem_finRange 0, List.mem_cons_self⟩
  rw [createStores, List.length_append]
  exact Nat.lt_add_of_pos_right (List.length_pos_of_mem hmem)

def lastSlot : Fin slotCount := Fin.last 65535

/-- The last store is to the value length of the last slot. -/
theorem createStores_eq :
    ∃ front, createStores = front ++ [.slot lastSlot .valLen] := by
  refine ⟨headerStores ++ ((List.finRange 65535).flatMap (fun i => slotStores i.castSucc) ++
    [.slot lastSlot .state, .slot lastSlot .fingerprint,
      .slot lastSlot .expiresAtMs, .slot lastSlot .keyLen]), ?_⟩
  rw [List.append_assoc, List.append_assoc]
  exact congrArg (headerStores ++ ·) (flatMap_finRange_succ 65535 slotStores)

/-- The region when `create_arena` has made `n` of its stores. -/
def interrupted (region : Arena) (n : Nat) : Arena :=
  Run.final CreateStore.write region (createStores.take n)

/-- The magic number is stored first. -/
theorem interrupted_magic (region : Arena) {n : Nat} (hn : n ≠ 0) :
    (interrupted region n).header.magic = arenaMagic := by
  obtain ⟨n, rfl⟩ := Nat.exists_eq_succ_of_ne_zero hn
  have hstep (arena : Arena) (store : CreateStore) (h : arena.header.magic = arenaMagic) :
      (store.write arena).header.magic = arenaMagic := by
    cases store with
    | magic => rfl
    | _ => exact h
  exact Run.invariant_all _ hstep (s := CreateStore.magic.write region) rfl
    (createStores.tail.take n)

/-- `open_arena`, once the operating system has mapped the region. -/
def openArena (region : Arena) : Except String Arena :=
  if region.header.magic ≠ arenaMagic then
    .error ("Invalid arena magic: 0x" ++ String.ofList (Nat.toDigits 16 region.header.magic.toNat))
  else .ok region

theorem openArena_eq_ok {region arena : Arena} :
    openArena region = .ok arena ↔ region.header.magic = arenaMagic ∧ region = arena := by
  unfold openArena
  split
  · next hne => exact ⟨nofun, fun h => absurd h.1 hne⟩
  · next heq => exact ⟨fun h => ⟨not_not.mp heq, Except.ok.inj h⟩, fun h => congrArg _ h.2⟩

/-! ## Two processes -/

/-- The creating process, with the stores it has still to make, and the clients of a process
that has opened the arena. -/
structure Startup (ι : Type*) where
  remaining : List CreateStore
  system : System ι

/-- A step of the creating process or of a client of the other. -/
inductive StartupInput (ι : Type*)
  | create
  | client (input : ι × Event)

section Processes

variable {ι : Type*} [DecidableEq ι] (hashFn : Bytes → UInt64)

def Startup.next (s : Startup ι) : StartupInput ι → Startup ι
  | .create =>
      match s.remaining with
      | [] => s
      | store :: remaining =>
          { remaining, system := { s.system with arena := store.write s.system.arena } }
  | .client input => { s with system := s.system.next hashFn input }

/-- The other process has opened the arena after `n` stores. -/
def Startup.opened (arena : Arena) (n : Nat) : Startup ι where
  remaining := createStores.drop n
  system := { arena, pc := fun _ => .idle }

/-- A client has called `set`, and the call has returned successfully. -/
def Startup.SetCompleted (s : Startup ι) (inputs : List (StartupInput ι)) (key value : Bytes)
    (expiry : UInt64) : Prop :=
  ∃ before c ttlSecs now during after,
    inputs = before ++ .client (c, .start (.set key value ttlSecs) now) :: during ++ after ∧
    ttlToExpiry ttlSecs now = expiry ∧
    ((Run.final (Startup.next hashFn) s before).system.pc c).resting = true ∧
    (∀ request now, .client (c, .start request now) ∉ during) ∧
    ((Run.final (Startup.next hashFn) s
        (before ++ .client (c, .start (.set key value ttlSecs) now) :: during)).system.pc c =
          .done key (.set .inserted) ∨
      (Run.final (Startup.next hashFn) s
        (before ++ .client (c, .start (.set key value ttlSecs) now) :: during)).system.pc c =
          .done key (.set .updated))

/-- No store of the creating process takes away what a completed `set` has stored. -/
def Startup.KeepsSets (s : Startup ι) : Prop :=
  ∀ inputs key value expiry, s.SetCompleted hashFn inputs key value expiry →
    (Run.final (Startup.next hashFn) s inputs).system.arena.Stores key value expiry →
    (Run.final (Startup.next hashFn) s (inputs ++ [.create])).system.arena.Stores key value expiry

/-- The header is that of this layout, and no slot holds an entry. -/
structure Arena.Initialised (arena : Arena) : Prop where
  version : arena.header.version = arenaVersion
  slotCount : arena.header.slotCount = UInt32.ofNat MemLane.slotCount
  unoccupied : ∀ i, (arena.slots i).state ≠ stateOccupied

variable (ι)

/-- An arena that is opened after `n` stores is an initialised one. -/
def OpenedSafely (region : Arena) (n : Nat) : Prop :=
  ∀ arena, openArena (interrupted region n) = .ok arena →
    arena.Initialised ∧ (Startup.opened arena n : Startup ι).KeepsSets hashFn

end Processes

/-! ## What remains to be stored -/

section Remaining

variable {ι : Type*} [DecidableEq ι] {hashFn : Bytes → UInt64}

theorem Startup.final_client (s : Startup ι) (inputs : List (ι × Event)) :
    Run.final (Startup.next hashFn) s (inputs.map .client) =
      { s with system := Run.final (System.next hashFn) s.system inputs } := by
  induction inputs generalizing s with
  | nil => rfl
  | cons input inputs ih => exact ih (s.next hashFn (.client input))

theorem Startup.final_create (s : Startup ι) (m : Nat) :
    Run.final (Startup.next hashFn) s (List.replicate m .create) =
      { remaining := s.remaining.drop m
        system := { s.system with
          arena := Run.final CreateStore.write s.system.arena (s.remaining.take m) } } := by
  induction m generalizing s with
  | zero => rfl
  | succ m ih =>
      rw [List.replicate_succ, Run.final_cons, ih]
      obtain ⟨remaining, system⟩ := s
      cases remaining with
      | nil => simp [Startup.next]
      | cons store remaining => rfl

/-- A key goes to its home slot, if that is EMPTY. -/
theorem reaches_insert_home {arena : Arena} {key value : Bytes} {expiry : UInt64}
    (hempty : (arena.probed (hashFn key) 0).state = stateEmpty) :
    Reaches hashFn arena (.probe (.set key value expiry none) 0 .state)
      ((arena.setSlot (probeIndex (hashFn key) 0)
          (claimSlot (arena.probed (hashFn key) 0) (hashFn key) key value expiry)).fetchAddUsed,
        .done key (.set .inserted)) := by
  refine .step 0 (access_empty 0 (by decide) hempty) ?_
  apply reaches_claim
  exact .step 0 rfl .refl

theorem stores_claimSlot (arena : Arena) (i : Fin slotCount) (slot : Slot) (fingerprint : UInt64)
    {key value : Bytes} (expiry : UInt64) (hk : key.length ≤ maxKeyLen)
    (hv : value.length ≤ maxValLen) :
    (arena.setSlot i (claimSlot slot fingerprint key value expiry)).fetchAddUsed.Stores key value
      expiry := by
  refine ⟨i, ?_⟩
  rw [Arena.fetchAddUsed_slots, Arena.setSlot_slots, if_pos rfl]
  exact ⟨claimSlot_state, claimSlot_readKey hk, claimSlot_readValue hv, claimSlot_expiresAtMs⟩

/-- A store to the value length takes away the only value. -/
theorem not_stores_valLen {arena : Arena} {i : Fin slotCount} {key value : Bytes} {expiry : UInt64}
    (hvalue : value ≠ []) (honly : ∀ j, j ≠ i → (arena.slots j).state = stateEmpty) :
    ¬ ((CreateStore.slot i .valLen).write arena).Stores key value expiry := by
  intro hstored
  obtain ⟨j, hocc, _, hread, _⟩ := hstored
  rw [CreateStore.write, Arena.setSlot_slots] at hocc hread
  split at hocc
  · next hj =>
      rw [if_pos hj] at hread
      apply hvalue
      rw [← hread]
      rfl
  · next hj => exact stateEmpty_ne_stateOccupied ((honly j hj).symm.trans hocc)

/-- When no store remains, none comes. -/
theorem Startup.keepsSets_of_nil {s : Startup ι} (h : s.remaining = []) :
    s.KeepsSets hashFn := by
  intro inputs key value expiry _ hstored
  have hnil : (Run.final (Startup.next hashFn) s inputs).remaining = [] := by
    refine Run.invariant_all (fun s : Startup ι => s.remaining = []) ?_ h inputs
    intro s input hs
    cases input with
    | create =>
        rw [Startup.next, hs]
        exact hs
    | client input => exact hs
  rw [Run.final_append, Run.final_cons, Run.final_nil, Startup.next, hnil]
  exact hstored

/-- The creating process goes on to its last store. -/
theorem Startup.final_to_last {front : List CreateStore} {last : CreateStore}
    (hfront : createStores = front ++ [last]) (region : Arena) {n : Nat} (hn : n ≤ front.length) :
    Run.final (Startup.next hashFn) (Startup.opened (interrupted region n) n : Startup ι)
        (List.replicate (front.length - n) .create) =
      { remaining := [last]
        system := { arena := Run.final CreateStore.write region front, pc := fun _ => .idle } } := by
  have htake : createStores.take n ++ (createStores.drop n).take (front.length - n) = front := by
    rw [← List.take_add, Nat.add_sub_cancel' hn, hfront, List.take_left]
  have hdrop : (createStores.drop n).drop (front.length - n) = [last] := by
    rw [List.drop_drop, Nat.add_sub_cancel' hn, hfront, List.drop_left]
  rw [Startup.final_create, Startup.opened]
  simp only [hdrop, interrupted]
  rw [← Run.final_append, htake]

/-- A run of one client that sets a key and returns. -/
theorem Startup.setCompleted {s s' : Startup ι} {creates : List (StartupInput ι)} {arena : Arena}
    (c : ι) (key value : Bytes) (ttlSecs now : UInt64)
    (hcreates : Run.final (Startup.next hashFn) s creates = s')
    (hrest : (s'.system.pc c).resting = true)
    (hreach : Reaches hashFn s'.system.arena ((Request.set key value ttlSecs).start now)
      (arena, .done key (.set .inserted))) :
    ∃ inputs, s.SetCompleted hashFn inputs key value (ttlToExpiry ttlSecs now) ∧
      (Run.final (Startup.next hashFn) s inputs).remaining = s'.remaining ∧
      (Run.final (Startup.next hashFn) s inputs).system.arena = arena := by
  obtain ⟨readings, hrun⟩ := hreach
  let during : List (StartupInput ι) := (readings.map fun now => (c, Event.access now)).map .client
  have hfinal : Run.final (Startup.next hashFn) s
      (creates ++ .client (c, .start (.set key value ttlSecs) now) :: during) =
      { s' with
        system :=
          { arena, pc := Function.update s'.system.pc c (.done key (.set .inserted)) } } := by
    have hstart : s'.system.next hashFn (c, .start (.set key value ttlSecs) now) =
        { s'.system with
          pc := Function.update s'.system.pc c ((Request.set key value ttlSecs).start now) } :=
      if_pos hrest
    rw [Run.final_append, hcreates, Run.final_cons, Startup.final_client, Startup.next, hstart,
      System.final_accesses]
    simp only [Function.update_self, Function.update_idem, hrun]
  refine ⟨creates ++ .client (c, .start (.set key value ttlSecs) now) :: during, ?_, ?_, ?_⟩
  · refine ⟨creates, c, ttlSecs, now, during, [], (List.append_nil _).symm, rfl, ?_, ?_, ?_⟩
    · rw [hcreates]
      exact hrest
    · intro request later hmem
      simp [during] at hmem
    · rw [hfinal]
      exact .inl (Function.update_self ..)
  · rw [hfinal]
  · rw [hfinal]

/-- An arena that is opened with a store outstanding is not an initialised one: the last
store can take away a value that a client has set. -/
theorem not_openedSafely [Inhabited ι] {region : Arena} {n : Nat}
    (hmagic : (interrupted region n).header.magic = arenaMagic) (hn : n < createStores.length) :
    ¬ OpenedSafely ι siphash region n := by
  intro hsafe
  obtain ⟨_, hkeeps⟩ := hsafe _ (openArena_eq_ok.mpr ⟨hmagic, rfl⟩)
  obtain ⟨front, hfront⟩ := createStores_eq
  have hle : n ≤ front.length := by
    rw [hfront, List.length_append, List.length_singleton] at hn
    omega
  have hcreate : Run.final (Startup.next siphash)
      (Startup.opened (interrupted region n) n : Startup ι) _ = _ :=
    Startup.final_to_last hfront region hle
  generalize harena : Run.final CreateStore.write region front = arena at hcreate
  have hlast : (CreateStore.slot lastSlot .valLen).write arena = createArena region := by
    rw [← final_createStores, hfront, Run.final_append, harena]
    rfl
  have hempty (i : Fin slotCount) : (arena.slots i).state = stateEmpty := by
    have hslot : ((arena.setSlot lastSlot
        { arena.slots lastSlot with valLen := 0 }).slots i).state = stateEmpty :=
      congrArg (fun arena : Arena => (arena.slots i).state) hlast
    rw [Arena.setSlot_slots] at hslot
    split at hslot
    · next hi =>
        rw [hi]
        exact hslot
    · exact hslot
  -- the home slot of this key is the last one
  have hhome : probeIndex (siphash [252, 241]) 0 = lastSlot := by decide +kernel
  obtain ⟨inputs, hcompleted, hremaining, hstored⟩ :=
    Startup.setCompleted default [252, 241] [1] 0 0 hcreate rfl (reaches_insert_home (hempty _))
  simp only [hhome, ttlToExpiry_zero] at hcompleted hremaining hstored
  have hkept := hkeeps inputs [252, 241] [1] 0 hcompleted
  rw [Run.final_append, Run.final_cons, Run.final_nil, Startup.next, hremaining, hstored] at hkept
  refine not_stores_valLen (by decide) ?_
    (hkept (stores_claimSlot _ _ _ _ _ (by decide) (by decide)))
  intro j hj
  rw [Arena.fetchAddUsed_slots, Arena.setSlot_slots, if_neg hj]
  exact hempty j

/-- **Opening is safe** when it fails, and when no store of `create_arena` remains; otherwise
never, whatever the region held. -/
theorem openedSafely_iff [Inhabited ι] (region : Arena) (n : Nat) :
    OpenedSafely ι siphash region n ↔
      n = 0 ∧ region.header.magic ≠ arenaMagic ∨ createStores.length ≤ n := by
  constructor
  · intro hsafe
    by_contra hcond
    obtain ⟨hfirst, hn⟩ := not_or.mp hcond
    refine not_openedSafely ?_ (not_le.mp hn) hsafe
    by_cases hzero : n = 0
    · subst hzero
      exact not_not.mp fun hne => hfirst ⟨rfl, hne⟩
    · exact interrupted_magic region hzero
  · intro hcond arena hopen
    obtain ⟨hmagic, rfl⟩ := openArena_eq_ok.mp hopen
    rcases hcond with ⟨rfl, hne⟩ | hn
    · exact absurd hmagic hne
    · have hall : interrupted region n = createArena region := by
        rw [interrupted, List.take_of_length_le hn, final_createStores]
      refine ⟨?_, Startup.keepsSets_of_nil (List.drop_eq_nil_of_le hn)⟩
      rw [hall]
      exact ⟨rfl, rfl, fun i => stateEmpty_ne_stateOccupied⟩

end Remaining

/-- Left over from an earlier run: a slot is OCCUPIED. -/
def leftoverRegion : Arena :=
  (createArena zeroedRegion).setSlot lastSlot
    (claimSlot (zeroedRegion.slots lastSlot) (siphash [252, 241]) [252, 241] [1] 0)

/-- `open_arena` succeeds after the first store, when the version is not stored yet; before
it, on a region with an old entry; and after the header is stored, when nothing looks wrong
but a value that is set can still be lost. -/
theorem early_open_unsafe :
    (openArena (interrupted zeroedRegion 1) = .ok (interrupted zeroedRegion 1) ∧
      (interrupted zeroedRegion 1).header.version ≠ arenaVersion) ∧
    (openArena (interrupted leftoverRegion 0) = .ok (interrupted leftoverRegion 0) ∧
      ((interrupted leftoverRegion 0).slots lastSlot).state = stateOccupied) ∧
    (openArena (interrupted zeroedRegion 4) = .ok (interrupted zeroedRegion 4) ∧
      (interrupted zeroedRegion 4).Initialised ∧
      ¬ (Startup.opened (interrupted zeroedRegion 4) 4 : Startup Unit).KeepsSets siphash) := by
  have hheader : interrupted zeroedRegion 4 = Run.final CreateStore.write zeroedRegion headerStores :=
    rfl
  have hinit : (interrupted zeroedRegion 4).Initialised := by
    rw [hheader]
    exact ⟨rfl, rfl, fun i => stateEmpty_ne_stateOccupied⟩
  have hunsafe : ¬ OpenedSafely Unit siphash zeroedRegion 4 := by
    apply not_openedSafely
    · exact interrupted_magic zeroedRegion (by decide)
    · exact headerStores_length_lt
  refine ⟨⟨rfl, by decide⟩, ⟨rfl, rfl⟩, rfl, hinit, ?_⟩
  intro hkeeps
  apply hunsafe
  intro arena hopen
  obtain ⟨_, rfl⟩ := openArena_eq_ok.mp hopen
  exact ⟨hinit, hkeeps⟩

end MemLane
