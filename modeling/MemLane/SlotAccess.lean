import MemLane.InterleavedOps

/-!
# Map operations in single slot accesses

The operations of `HashMap` cut into their individual accesses to the shared
region, in program order: one load, store, exchange or buffer copy is one atomic
step, under sequential consistency.  `read_key`, `read_value`, `write_key` and
`write_value` are two accesses each, the length and the buffer.

The operations are those of `MemLaneClient`, so a request whose key or value is
too long never reaches the table.
-/

namespace MemLane

/-- The operation of a client, with what it carries through its probe loop. -/
inductive Task
  | get (key : Bytes)
  | set (key value : Bytes) (expiry : UInt64) (firstTombstone : Option (Fin slotCount))
  | del (key : Bytes)
  deriving DecidableEq

def Task.key : Task → Bytes
  | .get key => key
  | .set key _ _ _ => key
  | .del key => key

/-- The next access of an iteration of a probe loop.  `keyBuf` has the key length that
was loaded. -/
inductive Point
  | state
  | fingerprint
  | expiry
  | evict
  | keyLen
  | keyBuf (len : UInt64)
  deriving DecidableEq

/-- The next access of an in-place update. -/
inductive UpdatePoint
  | valBuf
  | valLen
  | expiry
  deriving DecidableEq

/-- The next access of `claim_slot`. -/
inductive ClaimPoint
  | keyBuf
  | keyLen
  | valBuf
  | valLen
  | fingerprint
  | expiry
  | state
  deriving DecidableEq

/-- The local state of a client: where it stands, and the values it has in hand. -/
inductive Pc
  | idle
  | probe (task : Task) (i : Nat) (point : Point)
  | valLen (key : Bytes) (idx : Fin slotCount)
  | valBuf (key : Bytes) (idx : Fin slotCount) (len : UInt64)
  | update (key value : Bytes) (expiry : UInt64) (idx : Fin slotCount) (point : UpdatePoint)
  | claim (key value : Bytes) (expiry : UInt64) (target : Fin slotCount) (counted : Bool)
      (point : ClaimPoint)
  | countInsert (key : Bytes)
  | delCas (key : Bytes) (i : Nat)
  | countDelete (key : Bytes)
  | done (key : Bytes) (result : OpResult)
  deriving DecidableEq

/-- The next iteration. -/
def Task.continue (task : Task) (i : Nat) : Pc := .probe task (i + 1) .state

/-- `if first_tombstone.is_none() { first_tombstone = Some(idx) }`. -/
def Task.note (idx : Fin slotCount) : Task → Task
  | .set key value expiry firstTombstone => .set key value expiry (firstTombstone.or (some idx))
  | task => task

@[simp] theorem Task.note_key (task : Task) (idx : Fin slotCount) :
    (task.note idx).key = task.key := by
  cases task <;> rfl

/-- After the last iteration. -/
def Task.exhausted : Task → Pc
  | .get key => .done key (.get .notFound)
  | .set key value expiry (some target) => .claim key value expiry target false .keyBuf
  | .set key _ _ none => .done key (.set .full)
  | .del key => .done key (.del .notFound)

/-- At an EMPTY slot. -/
def Task.atEmpty (idx : Fin slotCount) : Task → Pc
  | .get key => .done key (.get .notFound)
  | .set key value expiry firstTombstone =>
      .claim key value expiry (firstTombstone.getD idx) true .keyBuf
  | .del key => .done key (.del .notFound)

/-- Behind a matching fingerprint: `del` does not look at the expiry. -/
def Task.afterFingerprint : Task → Point
  | .del _ => .keyLen
  | _ => .expiry

/-- Behind the eviction of an expired entry. -/
def Task.afterEvict (idx : Fin slotCount) (i : Nat) : Task → Pc
  | .get key => .done key (.get .expired)
  | task => (task.note idx).continue i

/-- At a slot with the key. -/
def Task.atKey (idx : Fin slotCount) (i : Nat) : Task → Pc
  | .get key => .valLen key idx
  | .set key value expiry _ => .update key value expiry idx .valBuf
  | .del key => .delCas key i

def UpdatePoint.write (value : Bytes) (expiry : UInt64) (slot : Slot) : UpdatePoint → Slot
  | .valBuf => slot.copyValue value
  | .valLen => slot.storeValLen value
  | .expiry => { slot with expiresAtMs := expiry }

def UpdatePoint.next : UpdatePoint → Option UpdatePoint
  | .valBuf => some .valLen
  | .valLen => some .expiry
  | .expiry => none

def ClaimPoint.write (fingerprint : UInt64) (key value : Bytes) (expiry : UInt64) (slot : Slot) :
    ClaimPoint → Slot
  | .keyBuf => slot.copyKey key
  | .keyLen => slot.storeKeyLen key
  | .valBuf => slot.copyValue value
  | .valLen => slot.storeValLen value
  | .fingerprint => { slot with fingerprint := fingerprint }
  | .expiry => { slot with expiresAtMs := expiry }
  | .state => { slot with state := stateOccupied }

def ClaimPoint.next : ClaimPoint → Option ClaimPoint
  | .keyBuf => some .keyLen
  | .keyLen => some .valBuf
  | .valBuf => some .valLen
  | .valLen => some .fingerprint
  | .fingerprint => some .expiry
  | .expiry => some .state
  | .state => none

section Step

variable (hashFn : Bytes → UInt64) (arena : Arena) (now : UInt64)

def probeAccess (task : Task) (i : Nat) : Point → Arena × Pc
  | .state =>
      if i < slotCount then
        let idx := probeIndex (hashFn task.key) i
        let state := (arena.slots idx).state
        if state = stateEmpty then (arena, task.atEmpty idx)
        else if state = stateTombstone then (arena, (task.note idx).continue i)
        else if state = stateOccupied then (arena, .probe task i .fingerprint)
        else (arena, task.continue i)
      else (arena, task.exhausted)
  | .fingerprint =>
      let idx := probeIndex (hashFn task.key) i
      if (arena.slots idx).fingerprint ≠ hashFn task.key then (arena, task.continue i)
      else (arena, .probe task i task.afterFingerprint)
  | .expiry =>
      let idx := probeIndex (hashFn task.key) i
      if (arena.slots idx).isExpired now then (arena, .probe task i .evict)
      else (arena, .probe task i .keyLen)
  | .evict =>
      let idx := probeIndex (hashFn task.key) i
      (arena.setSlot idx ((arena.slots idx).compareExchange stateOccupied stateTombstone).2,
        task.afterEvict idx i)
  | .keyLen =>
      let idx := probeIndex (hashFn task.key) i
      (arena, .probe task i (.keyBuf (arena.slots idx).keyLen))
  | .keyBuf len =>
      let idx := probeIndex (hashFn task.key) i
      if (arena.slots idx).keyBuf.slice len.toNat ≠ task.key then (arena, task.continue i)
      else (arena, task.atKey idx i)

/-- One store of an in-place update. -/
def updateAccess (key value : Bytes) (expiry : UInt64) (idx : Fin slotCount)
    (point : UpdatePoint) : Arena × Pc :=
  (arena.setSlot idx (point.write value expiry (arena.slots idx)),
    match point.next with
    | some point => .update key value expiry idx point
    | none => .done key (.set .updated))

/-- One store of `claim_slot`; only a claim at an EMPTY slot is counted. -/
def claimAccess (key value : Bytes) (expiry : UInt64) (target : Fin slotCount) (counted : Bool)
    (point : ClaimPoint) : Arena × Pc :=
  (arena.setSlot target (point.write (hashFn key) key value expiry (arena.slots target)),
    match point.next with
    | some point => .claim key value expiry target counted point
    | none => if counted then .countInsert key else .done key (.set .inserted))

/-- One access of a client, at a reading of the clock. -/
def Pc.access : Pc → Arena × Pc
  | .idle => (arena, .idle)
  | .probe task i point => probeAccess hashFn arena now task i point
  | .valLen key idx => (arena, .valBuf key idx (arena.slots idx).valLen)
  | .valBuf key idx len =>
      (arena, .done key (.get (.found ((arena.slots idx).valBuf.slice len.toNat))))
  | .update key value expiry idx point => updateAccess arena key value expiry idx point
  | .claim key value expiry target counted point =>
      claimAccess hashFn arena key value expiry target counted point
  | .countInsert key => (arena.fetchAddUsed, .done key (.set .inserted))
  | .delCas key i =>
      let idx := probeIndex (hashFn key) i
      match (arena.slots idx).compareExchange stateOccupied stateTombstone with
      | (true, deleted) => (arena.setSlot idx deleted, .countDelete key)
      | (false, _) => (arena, (Task.del key).continue i)
  | .countDelete key => (arena.fetchSubUsed, .done key (.del .deleted))
  | .done key result => (arena, .done key result)

end Step

/-- The accesses of a probe loop by what they find. -/
inductive ProbeMove (hashFn : Bytes → UInt64) (arena : Arena) (now : UInt64) (task : Task)
    (i : Nat) : Point → Arena × Pc → Prop
  | exhausted (hi : ¬ i < slotCount) :
      ProbeMove hashFn arena now task i .state (arena, task.exhausted)
  | empty (hi : i < slotCount) (hstate : (arena.probed (hashFn task.key) i).state = stateEmpty) :
      ProbeMove hashFn arena now task i .state
        (arena, task.atEmpty (probeIndex (hashFn task.key) i))
  | tombstone (hi : i < slotCount)
      (hstate : (arena.probed (hashFn task.key) i).state = stateTombstone) :
      ProbeMove hashFn arena now task i .state
        (arena, (task.note (probeIndex (hashFn task.key) i)).continue i)
  | occupied (hi : i < slotCount)
      (hstate : (arena.probed (hashFn task.key) i).state = stateOccupied) :
      ProbeMove hashFn arena now task i .state (arena, .probe task i .fingerprint)
  | passed {point : Point} : ProbeMove hashFn arena now task i point (arena, task.continue i)
  | matched (hfp : (arena.probed (hashFn task.key) i).fingerprint = hashFn task.key) :
      ProbeMove hashFn arena now task i .fingerprint (arena, .probe task i task.afterFingerprint)
  | expired (hexp : (arena.probed (hashFn task.key) i).isExpired now = true) :
      ProbeMove hashFn arena now task i .expiry (arena, .probe task i .evict)
  | kept : ProbeMove hashFn arena now task i .expiry (arena, .probe task i .keyLen)
  | evicted :
      ProbeMove hashFn arena now task i .evict
        (arena.setSlot (probeIndex (hashFn task.key) i)
          ((arena.probed (hashFn task.key) i).compareExchange stateOccupied stateTombstone).2,
          task.afterEvict (probeIndex (hashFn task.key) i) i)
  | keyLen :
      ProbeMove hashFn arena now task i .keyLen
        (arena, .probe task i (.keyBuf (arena.probed (hashFn task.key) i).keyLen))
  | keyBuf {len : UInt64}
      (hkey : (arena.probed (hashFn task.key) i).keyBuf.slice len.toNat = task.key) :
      ProbeMove hashFn arena now task i (.keyBuf len)
        (arena, task.atKey (probeIndex (hashFn task.key) i) i)

theorem probeAccess_move (hashFn : Bytes → UInt64) (arena : Arena) (now : UInt64) (task : Task)
    (i : Nat) (point : Point) :
    ProbeMove hashFn arena now task i point (probeAccess hashFn arena now task i point) := by
  cases point with
  | state =>
      rw [probeAccess]
      by_cases hi : i < slotCount
      · rw [if_pos hi]
        by_cases hempty : (arena.probed (hashFn task.key) i).state = stateEmpty
        · exact (if_pos hempty).symm ▸ .empty hi hempty
        · by_cases htomb : (arena.probed (hashFn task.key) i).state = stateTombstone
          · exact ((if_neg hempty).trans (if_pos htomb)).symm ▸ .tombstone hi htomb
          · by_cases hocc : (arena.probed (hashFn task.key) i).state = stateOccupied
            · exact ((if_neg hempty).trans ((if_neg htomb).trans (if_pos hocc))).symm ▸
                .occupied hi hocc
            · exact ((if_neg hempty).trans ((if_neg htomb).trans (if_neg hocc))).symm ▸ .passed
      · rw [if_neg hi]
        exact .exhausted hi
  | fingerprint =>
      rw [probeAccess]
      split
      · exact .passed
      · next hfp => exact .matched (not_not.mp hfp)
  | expiry =>
      rw [probeAccess]
      split
      · next hexp => exact .expired hexp
      · exact .kept
  | evict => exact .evicted
  | keyLen => exact .keyLen
  | keyBuf len =>
      rw [probeAccess]
      split
      · exact .passed
      · next hkey => exact .keyBuf (not_not.mp hkey)

/-- The exchange of `del` succeeds at an OCCUPIED slot only. -/
theorem access_delCas (hashFn : Bytes → UInt64) (arena : Arena) (now : UInt64) (key : Bytes)
    (i : Nat) :
    ((arena.probed (hashFn key) i).state = stateOccupied ∧
      (Pc.delCas key i).access hashFn arena now =
        (arena.setSlot (probeIndex (hashFn key) i)
          { arena.probed (hashFn key) i with state := stateTombstone }, .countDelete key)) ∨
    ((arena.probed (hashFn key) i).state ≠ stateOccupied ∧
      (Pc.delCas key i).access hashFn arena now = (arena, (Task.del key).continue i)) := by
  have hslot : arena.slots (probeIndex (hashFn key) i) = arena.probed (hashFn key) i := rfl
  rw [Pc.access]
  simp only [hslot, Slot.compareExchange]
  by_cases hocc : (arena.probed (hashFn key) i).state = stateOccupied
  · rw [if_pos hocc]
    exact .inl ⟨hocc, rfl⟩
  · rw [if_neg hocc]
    exact .inr ⟨hocc, rfl⟩

/-- What one access makes of a slot: a client buries it, updates it or claims it, or leaves
it alone. -/
inductive SlotMove (hashFn : Bytes → UInt64) (pc : Pc) (idx : Fin slotCount) (slot : Slot) :
    Slot → Prop
  | same : SlotMove hashFn pc idx slot slot
  | buried (hocc : slot.state = stateOccupied) :
      SlotMove hashFn pc idx slot { slot with state := stateTombstone }
  | update {key value : Bytes} {expiry : UInt64} {point : UpdatePoint}
      (hpc : pc = .update key value expiry idx point) :
      SlotMove hashFn pc idx slot (point.write value expiry slot)
  | claim {key value : Bytes} {expiry : UInt64} {counted : Bool} {point : ClaimPoint}
      (hpc : pc = .claim key value expiry idx counted point) :
      SlotMove hashFn pc idx slot (point.write (hashFn key) key value expiry slot)

theorem SlotMove.compareExchange (hashFn : Bytes → UInt64) (pc : Pc) (idx : Fin slotCount)
    (slot : Slot) :
    SlotMove hashFn pc idx slot (slot.compareExchange stateOccupied stateTombstone).2 := by
  unfold Slot.compareExchange
  split
  · next hocc => exact .buried hocc
  · exact .same

theorem SlotMove.setSlot {hashFn : Bytes → UInt64} {pc : Pc} {idx j : Fin slotCount}
    {arena : Arena} {slot : Slot} (h : idx = j → SlotMove hashFn pc idx (arena.slots idx) slot) :
    SlotMove hashFn pc idx (arena.slots idx) ((arena.setSlot j slot).slots idx) := by
  rw [Arena.setSlot_slots]
  split
  · next hj => exact h hj
  · exact .same

/-- Every access is one of these moves for every slot. -/
theorem Pc.access_slot (hashFn : Bytes → UInt64) (arena : Arena) (now : UInt64) (pc : Pc)
    (idx : Fin slotCount) :
    SlotMove hashFn pc idx (arena.slots idx) ((pc.access hashFn arena now).1.slots idx) := by
  cases pc with
  | probe task i point =>
      rw [Pc.access]
      have hmove := probeAccess_move hashFn arena now task i point
      generalize probeAccess hashFn arena now task i point = out at hmove
      cases hmove with
      | evicted =>
          apply SlotMove.setSlot
          intro hidx
          rw [hidx]
          exact .compareExchange hashFn _ _ _
      | _ => exact .same
  | update key value expiry j point =>
      apply SlotMove.setSlot
      intro hidx
      rw [hidx]
      exact .update rfl
  | claim key value expiry target counted point =>
      apply SlotMove.setSlot
      intro hidx
      rw [hidx]
      exact .claim rfl
  | delCas key i =>
      rcases access_delCas hashFn arena now key i with ⟨hocc, heq⟩ | ⟨_, heq⟩
      · rw [heq]
        apply SlotMove.setSlot
        intro hidx
        rw [hidx]
        exact .buried hocc
      · rw [heq]
        exact .same
  | _ => exact .same

/-- A client that executes no operation. -/
def Pc.resting : Pc → Bool
  | .idle | .done .. => true
  | _ => false

/-- A request passes the length checks of the client. -/
def Request.Admitted : Request → Prop
  | .get key => key.length ≤ maxKeyLen
  | .set key value _ => key.length ≤ maxKeyLen ∧ value.length ≤ maxValLen
  | .del key => key.length ≤ maxKeyLen

instance (request : Request) : Decidable request.Admitted :=
  match request with
  | .get key => inferInstanceAs (Decidable (key.length ≤ maxKeyLen))
  | .set key value _ =>
      inferInstanceAs (Decidable (key.length ≤ maxKeyLen ∧ value.length ≤ maxValLen))
  | .del key => inferInstanceAs (Decidable (key.length ≤ maxKeyLen))

def Request.key : Request → Bytes
  | .get key | .set key _ _ | .del key => key

/-- A client starts an operation; `set` computes its expiry first.  A refused request
ends at once. -/
def Request.start (request : Request) (now : UInt64) : Pc :=
  if request.Admitted then
    match request with
    | .get key => .probe (.get key) 0 .state
    | .set key value ttlSecs => .probe (.set key value (ttlToExpiry ttlSecs now) none) 0 .state
    | .del key => .probe (.del key) 0 .state
  else .idle

/-- The arena and the clients that share it. -/
structure System (ι : Type*) where
  arena : Arena
  pc : ι → Pc

/-- What a client does next: start an operation, which it can when it executes none, or
make its next access. -/
inductive Event
  | start (request : Request) (now : UInt64)
  | access (now : UInt64)

section System

variable {ι : Type*} [DecidableEq ι] (hashFn : Bytes → UInt64)

/-- One step of the whole system: which client moves, and how. -/
def System.next (s : System ι) (input : ι × Event) : System ι :=
  match input.2 with
  | .start request now =>
      if (s.pc input.1).resting then
        { s with pc := Function.update s.pc input.1 (request.start now) }
      else s
  | .access now =>
      let result := (s.pc input.1).access hashFn s.arena now
      { arena := result.1, pc := Function.update s.pc input.1 result.2 }

/-- A freshly created arena, and clients that have not started anything. -/
def System.fresh (region : Arena) : System ι :=
  { arena := createArena region, pc := fun _ => .idle }

variable (s : System ι) {c d : ι} (request : Request) (now : UInt64)

theorem System.next_start (h : (s.pc c).resting = true) :
    s.next hashFn (c, .start request now) =
      { s with pc := Function.update s.pc c (request.start now) } := if_pos h

theorem System.next_access :
    s.next hashFn (c, .access now) =
      { arena := ((s.pc c).access hashFn s.arena now).1
        pc := Function.update s.pc c ((s.pc c).access hashFn s.arena now).2 } := rfl

theorem System.next_start_self (h : (s.pc c).resting = true) :
    (s.next hashFn (c, .start request now)).pc c = request.start now := by
  rw [System.next_start hashFn s request now h]
  exact Function.update_self ..

theorem System.next_start_other (h : d ≠ c) :
    (s.next hashFn (c, .start request now)).pc d = s.pc d := by
  unfold System.next
  simp only
  split
  · exact Function.update_of_ne h ..
  · rfl

theorem System.next_start_arena :
    (s.next hashFn (c, .start request now)).arena = s.arena := by
  unfold System.next
  simp only
  split <;> rfl

/-- A client cannot start an operation inside another. -/
theorem System.next_start_busy (h : ¬ (s.pc c).resting = true) :
    s.next hashFn (c, .start request now) = s := if_neg h

theorem System.next_access_self :
    (s.next hashFn (c, .access now)).pc c = ((s.pc c).access hashFn s.arena now).2 :=
  Function.update_self ..

theorem System.next_access_other (h : d ≠ c) :
    (s.next hashFn (c, .access now)).pc d = s.pc d :=
  Function.update_of_ne h ..

/-- The accesses of one client, as those of the client alone. -/
theorem System.final_accesses (c : ι) (readings : List UInt64) :
    Run.final (System.next hashFn) s (readings.map fun now => (c, .access now)) =
      { arena := (Run.final (fun (s : Arena × Pc) now => s.2.access hashFn s.1 now)
          (s.arena, s.pc c) readings).1
        pc := Function.update s.pc c
          (Run.final (fun (s : Arena × Pc) now => s.2.access hashFn s.1 now)
            (s.arena, s.pc c) readings).2 } := by
  induction readings generalizing s with
  | nil => simp
  | cons now readings ih =>
      rw [List.map_cons, Run.final_cons, ih, Run.final_cons, System.next_access]
      simp only [Function.update_self, Function.update_idem]

end System

/-! ## A client on its own -/

/-- A client that runs alone can get from one place to another. -/
def Reaches (hashFn : Bytes → UInt64) (arena : Arena) (pc : Pc) (out : Arena × Pc) : Prop :=
  ∃ readings : List UInt64,
    Run.final (fun (s : Arena × Pc) now => s.2.access hashFn s.1 now) (arena, pc) readings = out

section Alone

variable {hashFn : Bytes → UInt64} {arena : Arena} {pc : Pc} {out : Arena × Pc}

theorem Reaches.refl : Reaches hashFn arena pc (arena, pc) := ⟨[], rfl⟩

theorem Reaches.access (now : UInt64)
    (h : Reaches hashFn (pc.access hashFn arena now).1 (pc.access hashFn arena now).2 out) :
    Reaches hashFn arena pc out := by
  obtain ⟨readings, hrun⟩ := h
  exact ⟨now :: readings, hrun⟩

/-- The next access is known. -/
theorem Reaches.step (now : UInt64) {arena' : Arena} {pc' : Pc}
    (haccess : pc.access hashFn arena now = (arena', pc')) (h : Reaches hashFn arena' pc' out) :
    Reaches hashFn arena pc out := by
  apply Reaches.access now
  rw [haccess]
  exact h

variable {task : Task} {i : Nat}

theorem access_exhausted (now : UInt64) (hi : ¬ i < slotCount) :
    (Pc.probe task i .state).access hashFn arena now = (arena, task.exhausted) := if_neg hi

theorem access_empty (now : UInt64) (hi : i < slotCount)
    (hstate : (arena.probed (hashFn task.key) i).state = stateEmpty) :
    (Pc.probe task i .state).access hashFn arena now =
      (arena, task.atEmpty (probeIndex (hashFn task.key) i)) := by
  rw [Pc.access, probeAccess, if_pos hi]
  exact if_pos hstate

theorem access_tombstone (now : UInt64) (hi : i < slotCount)
    (hstate : (arena.probed (hashFn task.key) i).state = stateTombstone) :
    (Pc.probe task i .state).access hashFn arena now =
      (arena, (task.note (probeIndex (hashFn task.key) i)).continue i) := by
  have hempty : (arena.probed (hashFn task.key) i).state ≠ stateEmpty := by
    rw [hstate]
    exact stateTombstone_ne_stateEmpty
  rw [Pc.access, probeAccess, if_pos hi]
  exact (if_neg hempty).trans (if_pos hstate)

theorem access_occupied (now : UInt64) (hi : i < slotCount)
    (hstate : (arena.probed (hashFn task.key) i).state = stateOccupied) :
    (Pc.probe task i .state).access hashFn arena now = (arena, .probe task i .fingerprint) := by
  have hempty : (arena.probed (hashFn task.key) i).state ≠ stateEmpty := by
    rw [hstate]
    exact stateOccupied_ne_stateEmpty
  have htomb : (arena.probed (hashFn task.key) i).state ≠ stateTombstone := by
    rw [hstate]
    exact stateOccupied_ne_stateTombstone
  rw [Pc.access, probeAccess, if_pos hi]
  exact (if_neg hempty).trans ((if_neg htomb).trans (if_pos hstate))

theorem access_unknown (now : UInt64) (hi : i < slotCount)
    (hempty : (arena.probed (hashFn task.key) i).state ≠ stateEmpty)
    (htomb : (arena.probed (hashFn task.key) i).state ≠ stateTombstone)
    (hocc : (arena.probed (hashFn task.key) i).state ≠ stateOccupied) :
    (Pc.probe task i .state).access hashFn arena now = (arena, task.continue i) := by
  rw [Pc.access, probeAccess, if_pos hi]
  exact (if_neg hempty).trans ((if_neg htomb).trans (if_neg hocc))

theorem access_fingerprint_ne (now : UInt64)
    (hfp : (arena.probed (hashFn task.key) i).fingerprint ≠ hashFn task.key) :
    (Pc.probe task i .fingerprint).access hashFn arena now = (arena, task.continue i) :=
  if_pos hfp

theorem access_fingerprint_eq (now : UInt64)
    (hfp : (arena.probed (hashFn task.key) i).fingerprint = hashFn task.key) :
    (Pc.probe task i .fingerprint).access hashFn arena now =
      (arena, .probe task i task.afterFingerprint) :=
  if_neg (not_not.mpr hfp)

theorem access_expired (now : UInt64)
    (hexp : (arena.probed (hashFn task.key) i).isExpired now = true) :
    (Pc.probe task i .expiry).access hashFn arena now = (arena, .probe task i .evict) :=
  if_pos hexp

theorem access_not_expired (now : UInt64)
    (hexp : ¬ (arena.probed (hashFn task.key) i).isExpired now = true) :
    (Pc.probe task i .expiry).access hashFn arena now = (arena, .probe task i .keyLen) :=
  if_neg hexp

/-- An entry with another fingerprint is passed. -/
theorem reaches_mismatch (hi : i < slotCount)
    (hstate : (arena.probed (hashFn task.key) i).state = stateOccupied)
    (hfp : (arena.probed (hashFn task.key) i).fingerprint ≠ hashFn task.key)
    (h : Reaches hashFn arena (task.continue i) out) :
    Reaches hashFn arena (.probe task i .state) out := by
  apply Reaches.step 0 (access_occupied 0 hi hstate)
  exact Reaches.step 0 (access_fingerprint_ne 0 hfp) h

theorem reaches_match (hi : i < slotCount)
    (hstate : (arena.probed (hashFn task.key) i).state = stateOccupied)
    (hfp : (arena.probed (hashFn task.key) i).fingerprint = hashFn task.key)
    (h : Reaches hashFn arena (.probe task i task.afterFingerprint) out) :
    Reaches hashFn arena (.probe task i .state) out := by
  apply Reaches.step 0 (access_occupied 0 hi hstate)
  exact Reaches.step 0 (access_fingerprint_eq 0 hfp) h

/-- The two accesses of `read_key`, and the comparison. -/
theorem reaches_key_ne
    (hkey : (arena.probed (hashFn task.key) i).readKey ≠ task.key)
    (h : Reaches hashFn arena (task.continue i) out) :
    Reaches hashFn arena (.probe task i .keyLen) out := by
  apply Reaches.step 0 rfl
  exact Reaches.step 0 (if_pos hkey) h

theorem reaches_key_eq
    (hkey : (arena.probed (hashFn task.key) i).readKey = task.key)
    (h : Reaches hashFn arena (task.atKey (probeIndex (hashFn task.key) i) i) out) :
    Reaches hashFn arena (.probe task i .keyLen) out := by
  apply Reaches.step 0 rfl
  exact Reaches.step 0 (if_neg (not_not.mpr hkey)) h

/-- A store of a claim to the slot that was written last. -/
theorem access_claim {key value : Bytes} {expiry : UInt64} {target : Fin slotCount}
    {counted : Bool} {slot : Slot} {point next : ClaimPoint} (hnext : point.next = some next) :
    (Pc.claim key value expiry target counted point).access hashFn (arena.setSlot target slot) 0 =
      (arena.setSlot target (point.write (hashFn key) key value expiry slot),
        .claim key value expiry target counted next) := by
  rw [Pc.access, claimAccess, hnext, Arena.setSlot_setSlot, Arena.setSlot_slots, if_pos rfl]

/-- The seven stores of `claim_slot`. -/
theorem reaches_claim {key value : Bytes} {expiry : UInt64} {target : Fin slotCount}
    {counted : Bool}
    (h : Reaches hashFn
      (arena.setSlot target (claimSlot (arena.slots target) (hashFn key) key value expiry))
      (if counted then .countInsert key else .done key (.set .inserted)) out) :
    Reaches hashFn arena (.claim key value expiry target counted .keyBuf) out := by
  rw [← Arena.setSlot_self arena target]
  apply Reaches.step 0 (access_claim rfl)
  apply Reaches.step 0 (access_claim rfl)
  apply Reaches.step 0 (access_claim rfl)
  apply Reaches.step 0 (access_claim rfl)
  apply Reaches.step 0 (access_claim rfl)
  apply Reaches.step 0 (access_claim rfl)
  apply Reaches.access 0
  rw [Pc.access, claimAccess, Arena.setSlot_setSlot, Arena.setSlot_slots, if_pos rfl]
  exact h

theorem access_update {key value : Bytes} {expiry : UInt64} {idx : Fin slotCount} {slot : Slot}
    {point next : UpdatePoint} (hnext : point.next = some next) :
    (Pc.update key value expiry idx point).access hashFn (arena.setSlot idx slot) 0 =
      (arena.setSlot idx (point.write value expiry slot), .update key value expiry idx next) := by
  rw [Pc.access, updateAccess, hnext, Arena.setSlot_setSlot, Arena.setSlot_slots, if_pos rfl]

/-- The three stores of an update in place. -/
theorem reaches_update {key value : Bytes} {expiry : UInt64} {idx : Fin slotCount}
    (h : Reaches hashFn (arena.setSlot idx (updateSlot (arena.slots idx) value expiry))
      (.done key (.set .updated)) out) :
    Reaches hashFn arena (.update key value expiry idx .valBuf) out := by
  rw [← Arena.setSlot_self arena idx]
  apply Reaches.step 0 (access_update rfl)
  apply Reaches.step 0 (access_update rfl)
  apply Reaches.access 0
  rw [Pc.access, updateAccess, Arena.setSlot_setSlot, Arena.setSlot_slots, if_pos rfl]
  exact h

/-- The accesses of `lazy_evict_if_expired` at an expired entry. -/
theorem reaches_evicted {evicted : Slot} (now : UInt64)
    (hev : (arena.probed (hashFn task.key) i).lazyEvictIfExpired now = (true, evicted))
    (h : Reaches hashFn (arena.setSlot (probeIndex (hashFn task.key) i) evicted)
      (task.afterEvict (probeIndex (hashFn task.key) i) i) out) :
    Reaches hashFn arena (.probe task i .expiry) out := by
  unfold Slot.lazyEvictIfExpired at hev
  split at hev
  · next hexp =>
      obtain rfl := congrArg Prod.snd hev
      apply Reaches.step now (access_expired now hexp)
      exact Reaches.step 0 rfl h
  · cases hev

theorem reaches_kept {kept : Slot} (now : UInt64)
    (hev : (arena.probed (hashFn task.key) i).lazyEvictIfExpired now = (false, kept))
    (h : Reaches hashFn arena (.probe task i .keyLen) out) :
    Reaches hashFn arena (.probe task i .expiry) out := by
  unfold Slot.lazyEvictIfExpired at hev
  split at hev
  · cases hev
  · next hexp => exact Reaches.step now (access_not_expired now hexp) h

/-- Alone, `get` ends as its loop does. -/
theorem reaches_get (arena : Arena) (key : Bytes) (clock : Clock) {i left : Nat}
    (hsum : i + left = slotCount) :
    Reaches hashFn arena (.probe (.get key) i .state)
      ((getLoop arena key (hashFn key) clock i left).2,
        .done key (.get (getLoop arena key (hashFn key) clock i left).1)) := by
  fun_induction getLoop arena key (hashFn key) clock i left with
  | case1 i => exact .step 0 (access_exhausted 0 (by omega)) .refl
  | case2 i left idx slot hempty => exact .step 0 (access_empty 0 (by omega) hempty) .refl
  | case3 i left idx slot hempty htomb ih =>
      exact .step 0 (access_tombstone 0 (by omega) htomb) (ih (by omega))
  | case4 i left idx slot hempty htomb hocc hfp ih =>
      exact reaches_mismatch (by omega) hocc hfp (ih (by omega))
  | case5 i left idx slot hempty htomb hocc hfp evicted hev =>
      refine reaches_match (by omega) hocc (not_not.mp hfp) ?_
      exact reaches_evicted (clock i) hev .refl
  | case6 i left idx slot hempty htomb hocc hfp _ hev hkey ih =>
      refine reaches_match (by omega) hocc (not_not.mp hfp) ?_
      refine reaches_kept (clock i) hev ?_
      exact reaches_key_ne hkey (ih (by omega))
  | case7 i left idx slot hempty htomb hocc hfp _ hev hkey =>
      refine reaches_match (by omega) hocc (not_not.mp hfp) ?_
      refine reaches_kept (clock i) hev ?_
      refine reaches_key_eq (not_not.mp hkey) ?_
      apply Reaches.step 0 rfl
      exact Reaches.step 0 rfl .refl
  | case8 i left idx slot hempty htomb hocc ih =>
      exact .step 0 (access_unknown 0 (by omega) hempty htomb hocc) (ih (by omega))

/-- Alone, `set` ends as its loop does. -/
theorem reaches_set (arena : Arena) (key value : Bytes) (expiry : UInt64) (clock : Clock)
    (firstTombstone : Option (Fin slotCount)) {i left : Nat} (hsum : i + left = slotCount) :
    Reaches hashFn arena (.probe (.set key value expiry firstTombstone) i .state)
      ((setLoop key value (hashFn key) expiry clock arena firstTombstone i left).2,
        .done key (.set
          (setLoop key value (hashFn key) expiry clock arena firstTombstone i left).1)) := by
  fun_induction setLoop key value (hashFn key) expiry clock arena firstTombstone i left with
  | case1 arena i target =>
      refine .step 0 (access_exhausted 0 (by omega)) ?_
      exact reaches_claim .refl
  | case2 arena i => exact .step 0 (access_exhausted 0 (by omega)) .refl
  | case3 arena firstTombstone i left idx slot hempty target =>
      refine .step 0 (access_empty 0 (by omega) hempty) ?_
      apply reaches_claim
      exact .step 0 rfl .refl
  | case4 arena firstTombstone i left idx slot hempty htomb ih =>
      exact .step 0 (access_tombstone 0 (by omega) htomb) (ih (by omega))
  | case5 arena firstTombstone i left idx slot hempty htomb hocc hfp ih =>
      exact reaches_mismatch (by omega) hocc hfp (ih (by omega))
  | case6 arena firstTombstone i left idx slot hempty htomb hocc hfp evicted hev ih =>
      refine reaches_match (by omega) hocc (not_not.mp hfp) ?_
      exact reaches_evicted (clock (i + 1)) hev (ih (by omega))
  | case7 arena firstTombstone i left idx slot hempty htomb hocc hfp _ hev hkey ih =>
      refine reaches_match (by omega) hocc (not_not.mp hfp) ?_
      refine reaches_kept (clock (i + 1)) hev ?_
      exact reaches_key_ne hkey (ih (by omega))
  | case8 arena firstTombstone i left idx slot hempty htomb hocc hfp _ hev hkey =>
      refine reaches_match (by omega) hocc (not_not.mp hfp) ?_
      refine reaches_kept (clock (i + 1)) hev ?_
      refine reaches_key_eq (not_not.mp hkey) ?_
      exact reaches_update .refl
  | case9 arena firstTombstone i left idx slot hempty htomb hocc ih =>
      exact .step 0 (access_unknown 0 (by omega) hempty htomb hocc) (ih (by omega))

theorem access_delCas_success {key : Bytes} {deleted : Slot} (now : UInt64)
    (hcas : (arena.probed (hashFn key) i).compareExchange stateOccupied stateTombstone =
      (true, deleted)) :
    (Pc.delCas key i).access hashFn arena now =
      (arena.setSlot (probeIndex (hashFn key) i) deleted, .countDelete key) := by
  have hcas' : (arena.slots (probeIndex (hashFn key) i)).compareExchange stateOccupied
      stateTombstone = (true, deleted) := hcas
  simp only [Pc.access, hcas']

theorem access_delCas_failure {key : Bytes} {kept : Slot} (now : UInt64)
    (hcas : (arena.probed (hashFn key) i).compareExchange stateOccupied stateTombstone =
      (false, kept)) :
    (Pc.delCas key i).access hashFn arena now = (arena, (Task.del key).continue i) := by
  have hcas' : (arena.slots (probeIndex (hashFn key) i)).compareExchange stateOccupied
      stateTombstone = (false, kept) := hcas
  simp only [Pc.access, hcas']

/-- Alone, `del` ends as its loop does. -/
theorem reaches_del (arena : Arena) (key : Bytes) {i left : Nat} (hsum : i + left = slotCount) :
    Reaches hashFn arena (.probe (.del key) i .state)
      ((delLoop arena key (hashFn key) i left).2,
        .done key (.del (delLoop arena key (hashFn key) i left).1)) := by
  fun_induction delLoop arena key (hashFn key) i left with
  | case1 i => exact .step 0 (access_exhausted 0 (by omega)) .refl
  | case2 i left idx slot hempty => exact .step 0 (access_empty 0 (by omega) hempty) .refl
  | case3 i left idx slot hempty htomb ih =>
      exact .step 0 (access_tombstone 0 (by omega) htomb) (ih (by omega))
  | case4 i left idx slot hempty htomb hocc hfp ih =>
      exact reaches_mismatch (by omega) hocc hfp (ih (by omega))
  | case5 i left idx slot hempty htomb hocc hfp hkey ih =>
      refine reaches_match (by omega) hocc (not_not.mp hfp) ?_
      exact reaches_key_ne hkey (ih (by omega))
  | case6 i left idx slot hempty htomb hocc hfp hkey deleted hcas =>
      refine reaches_match (by omega) hocc (not_not.mp hfp) ?_
      refine reaches_key_eq (not_not.mp hkey) ?_
      refine .step 0 (access_delCas_success 0 hcas) ?_
      exact .step 0 rfl .refl
  | case7 i left idx slot hempty htomb hocc hfp hkey _ hcas ih =>
      refine reaches_match (by omega) hocc (not_not.mp hfp) ?_
      refine reaches_key_eq (not_not.mp hkey) ?_
      exact .step 0 (access_delCas_failure 0 hcas) (ih (by omega))
  | case8 i left idx slot hempty htomb hocc ih =>
      exact .step 0 (access_unknown 0 (by omega) hempty htomb hocc) (ih (by omega))

end Alone

end MemLane
