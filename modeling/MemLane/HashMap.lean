import MemLane.Arena
import MemLane.Ttl

/-!
# The hash map over the slot array

`get`, `set`, `del`, `exists` and `flush_all` of `hashmap.rs`, executed without
interference: each call takes the arena and returns it updated.

The fingerprint function is a parameter.  The clock is too: a call may read it
once at every step of its probe loop, and `set` once more before the loop, so a
call is given the whole sequence of readings it would make.
-/

namespace MemLane

/-- The readings of `now_ms` available to one call. -/
abbrev Clock := Nat → UInt64

inductive GetResult
  | found (value : Bytes)
  | notFound
  | expired
  deriving DecidableEq

inductive SetResult
  | inserted
  | updated
  | full
  deriving DecidableEq

inductive DelResult
  | deleted
  | notFound
  deriving DecidableEq

/-- `(start + i) & (SLOT_COUNT - 1)` with `start = (hash as usize) & (SLOT_COUNT - 1)`. -/
def probeIndex (hash : UInt64) (i : Nat) : Fin slotCount :=
  ⟨((hash.toNat &&& (slotCount - 1)) + i) &&& (slotCount - 1),
    Nat.lt_of_le_of_lt Nat.and_le_right (by decide)⟩

/-- `primary_index` for a given hash. -/
def primaryIndex (hash : UInt64) : Nat := hash.toNat &&& (slotCount - 1)

/-- The mask makes the probe loop the cyclic probe sequence. -/
theorem probeIndex_eq_cell (hash : UInt64) (i : Nat) :
    probeIndex hash i = Probe.cell slotCount (primaryIndex hash) i := by
  apply Fin.ext
  rw [Probe.cell_val, probeIndex, primaryIndex]
  exact Nat.and_two_pow_sub_one_eq_mod _ 16

/-- The slot visited at step `i` of the probe loop. -/
def Arena.probed (arena : Arena) (hash : UInt64) (i : Nat) : Slot :=
  arena.slots (probeIndex hash i)

/-- `claim_slot`, executed as a whole. -/
def claimSlot (slot : Slot) (fingerprint : UInt64) (key value : Bytes) (expiry : UInt64) : Slot :=
  let slot := slot.writeKey key
  let slot := slot.writeValue value
  let slot := { slot with fingerprint := fingerprint }
  let slot := { slot with expiresAtMs := expiry }
  { slot with state := stateOccupied }

/-- The in-place update of `set`. -/
def updateSlot (slot : Slot) (value : Bytes) (expiry : UInt64) : Slot :=
  { slot.writeValue value with expiresAtMs := expiry }

section Get

variable (arena : Arena) (key : Bytes) (hash : UInt64) (clock : Clock)

/-- The probe loop of `get`, from step `i` with the given number of steps left. -/
def getLoop (i : Nat) : Nat → GetResult × Arena
  | 0 => (.notFound, arena)
  | left + 1 =>
      let idx := probeIndex hash i
      let slot := arena.slots idx
      if slot.state = stateEmpty then (.notFound, arena)
      else if slot.state = stateTombstone then getLoop (i + 1) left
      else if slot.state = stateOccupied then
        if slot.fingerprint ≠ hash then getLoop (i + 1) left
        else
          match slot.lazyEvictIfExpired (clock i) with
          | (true, evicted) => (.expired, arena.setSlot idx evicted)
          | (false, _) =>
              if slot.readKey ≠ key then getLoop (i + 1) left
              else (.found slot.readValue, arena)
      else getLoop (i + 1) left

end Get

variable (hashFn : Bytes → UInt64)

def get (arena : Arena) (key : Bytes) (clock : Clock) : GetResult × Arena :=
  getLoop arena key (hashFn key) clock 0 slotCount

/-- `exists`. -/
def existsKey (arena : Arena) (key : Bytes) (clock : Clock) : Bool × Arena :=
  let result := get hashFn arena key clock
  (match result.1 with
    | .found _ => true
    | _ => false,
   result.2)

section Set

variable (key value : Bytes) (hash expiry : UInt64) (clock : Clock)

/-- The probe loop of `set`, from step `i` with the given number of steps left,
and the reuse of a tombstone after a full scan.  Step `i` reads the clock as
`clock (i + 1)`. -/
def setLoop (arena : Arena) (firstTombstone : Option (Fin slotCount)) (i : Nat) :
    Nat → SetResult × Arena
  | 0 =>
      match firstTombstone with
      | some target =>
          (.inserted,
            arena.setSlot target (claimSlot (arena.slots target) hash key value expiry))
      | none => (.full, arena)
  | left + 1 =>
      let idx := probeIndex hash i
      let slot := arena.slots idx
      if slot.state = stateEmpty then
        let target := firstTombstone.getD idx
        (.inserted,
          (arena.setSlot target
            (claimSlot (arena.slots target) hash key value expiry)).fetchAddUsed)
      else if slot.state = stateTombstone then
        setLoop arena (firstTombstone.or (some idx)) (i + 1) left
      else if slot.state = stateOccupied then
        if slot.fingerprint ≠ hash then setLoop arena firstTombstone (i + 1) left
        else
          match slot.lazyEvictIfExpired (clock (i + 1)) with
          | (true, evicted) =>
              setLoop (arena.setSlot idx evicted) (firstTombstone.or (some idx)) (i + 1) left
          | (false, _) =>
              if slot.readKey ≠ key then setLoop arena firstTombstone (i + 1) left
              else (.updated, arena.setSlot idx (updateSlot slot value expiry))
      else setLoop arena firstTombstone (i + 1) left

end Set

/-- `set`.  The first reading of the clock is the one of `ttl_to_expiry`. -/
def set (arena : Arena) (key value : Bytes) (ttlSecs : UInt64) (clock : Clock) :
    SetResult × Arena :=
  setLoop key value (hashFn key) (ttlToExpiry ttlSecs (clock 0)) clock arena none 0 slotCount

section Del

variable (arena : Arena) (key : Bytes) (hash : UInt64)

/-- The probe loop of `del`, from step `i` with the given number of steps left. -/
def delLoop (i : Nat) : Nat → DelResult × Arena
  | 0 => (.notFound, arena)
  | left + 1 =>
      let idx := probeIndex hash i
      let slot := arena.slots idx
      if slot.state = stateEmpty then (.notFound, arena)
      else if slot.state = stateTombstone then delLoop (i + 1) left
      else if slot.state = stateOccupied then
        if slot.fingerprint ≠ hash then delLoop (i + 1) left
        else if slot.readKey ≠ key then delLoop (i + 1) left
        else
          match slot.compareExchange stateOccupied stateTombstone with
          | (true, deleted) => (.deleted, (arena.setSlot idx deleted).fetchSubUsed)
          | (false, _) => delLoop (i + 1) left
      else delLoop (i + 1) left

end Del

def del (arena : Arena) (key : Bytes) : DelResult × Arena :=
  delLoop arena key (hashFn key) 0 slotCount

/-- What `flush_all` leaves of one slot. -/
def flushSlot (slot : Slot) : Slot :=
  { slot with state := stateEmpty, fingerprint := 0, expiresAtMs := 0, keyLen := 0, valLen := 0 }

def flushAll (arena : Arena) : Arena :=
  { header := { arena.header with usedCount := 0 }
    slots := fun i => flushSlot (arena.slots i) }

def usedCount (arena : Arena) : UInt64 := arena.header.usedCount

/-- The slot capacity. -/
def capacity (_arena : Arena) : Nat := slotCount

end MemLane
