import MemLane.Slot
import MemLane.ProbeTable

/-!
# The shared arena

The mapped region (`shm.rs`): a header and a flat array of `slotCount` slots.
`createArena` is what initialisation makes of whatever the named region held
before; it resets the header and the five scalar fields of every slot, and
leaves the byte buffers alone.

`Arena.cells` forgets everything about a slot but the key it offers to a search,
which makes the arena a table in the sense of `ProbeTable`.
-/

namespace MemLane

/-- `"MEMLANE\0"`. -/
def arenaMagic : UInt64 := 0x4D454D4C414E4500

def arenaVersion : UInt32 := 1

/-- Number of slots; a power of two, so that the probe index is a mask. -/
def slotCount : Nat := 65536

instance : NeZero slotCount := ⟨by decide⟩

structure ArenaHeader where
  magic : UInt64
  version : UInt32
  slotCount : UInt32
  usedCount : UInt64

structure Arena where
  header : ArenaHeader
  slots : Fin slotCount → Slot

namespace Arena

/-- Store a whole slot. -/
def setSlot (arena : Arena) (i : Fin slotCount) (slot : Slot) : Arena :=
  { arena with slots := Function.update arena.slots i slot }

/-- `used_count.store(n)`. -/
def storeUsedCount (arena : Arena) (n : UInt64) : Arena :=
  { arena with header := { arena.header with usedCount := n } }

/-- `used_count.fetch_add(1)`; wraps. -/
def fetchAddUsed (arena : Arena) : Arena :=
  arena.storeUsedCount (arena.header.usedCount + 1)

/-- `used_count.fetch_sub(1)`; wraps. -/
def fetchSubUsed (arena : Arena) : Arena :=
  arena.storeUsedCount (arena.header.usedCount - 1)

variable (arena : Arena)

@[simp] theorem setSlot_slots (i j : Fin slotCount) (slot : Slot) :
    (arena.setSlot i slot).slots j = if j = i then slot else arena.slots j := by
  simp [setSlot, Function.update_apply]

@[simp] theorem setSlot_header (i : Fin slotCount) (slot : Slot) :
    (arena.setSlot i slot).header = arena.header := rfl

@[simp] theorem storeUsedCount_slots (n : UInt64) :
    (arena.storeUsedCount n).slots = arena.slots := rfl

@[simp] theorem storeUsedCount_usedCount (n : UInt64) :
    (arena.storeUsedCount n).header.usedCount = n := rfl

@[simp] theorem fetchAddUsed_slots : arena.fetchAddUsed.slots = arena.slots := rfl

@[simp] theorem fetchSubUsed_slots : arena.fetchSubUsed.slots = arena.slots := rfl

@[simp] theorem fetchAddUsed_usedCount :
    arena.fetchAddUsed.header.usedCount = arena.header.usedCount + 1 := rfl

@[simp] theorem fetchSubUsed_usedCount :
    arena.fetchSubUsed.header.usedCount = arena.header.usedCount - 1 := rfl

@[simp] theorem setSlot_setSlot (i : Fin slotCount) (a b : Slot) :
    (arena.setSlot i a).setSlot i b = arena.setSlot i b := by
  simp [setSlot]

theorem setSlot_self (i : Fin slotCount) : arena.setSlot i (arena.slots i) = arena := by
  simp [setSlot]

/-- Two arenas with the same header and the same slots are the same. -/
theorem ext' {a b : Arena} (hheader : a.header = b.header) (hslots : ∀ i, a.slots i = b.slots i) :
    a = b := by
  obtain ⟨ha, sa⟩ := a
  obtain ⟨hb, sb⟩ := b
  obtain rfl : ha = hb := hheader
  obtain rfl : sa = sb := funext hslots
  rfl

end Arena

/-- A region as the operating system hands it out: every byte zero. -/
def zeroedRegion : Arena where
  header := ⟨0, 0, 0, 0⟩
  slots := fun _ => ⟨0, 0, 0, 0, 0, fun _ => 0, fun _ => 0⟩

/-- `create_arena` on a region with contents `region`, once the operating system
has mapped it. -/
def createArena (region : Arena) : Arena where
  header :=
    { magic := arenaMagic
      version := arenaVersion
      slotCount := UInt32.ofNat slotCount
      usedCount := 0 }
  slots := fun i => (region.slots i).init

/-- What a search sees of a slot.  A state byte outside the three constants is
skipped like a tombstone. -/
def Slot.cell (slot : Slot) : Probe.Cell Bytes :=
  if slot.state = stateOccupied then .full slot.readKey
  else if slot.state = stateEmpty then .empty
  else .tombstone

/-- The arena as a linear-probing table of keys. -/
def Arena.cells (arena : Arena) : Probe.Table slotCount Bytes :=
  fun i => (arena.slots i).cell

@[simp] theorem Slot.cell_eq_full {slot : Slot} {k : Bytes} :
    slot.cell = .full k ↔ slot.state = stateOccupied ∧ slot.readKey = k := by
  unfold Slot.cell
  split
  · simp [*]
  · split <;> simp [*]

@[simp] theorem Slot.cell_eq_empty {slot : Slot} :
    slot.cell = .empty ↔ slot.state = stateEmpty := by
  unfold Slot.cell
  split
  · simp [*]
  · split <;> simp [*]

@[simp] theorem Slot.cell_isFull {slot : Slot} :
    slot.cell.isFull = true ↔ slot.state = stateOccupied := by
  simp [Probe.Cell.isFull_iff]

theorem Arena.cells_setSlot (arena : Arena) (i : Fin slotCount) (slot : Slot) :
    (arena.setSlot i slot).cells = Function.update arena.cells i slot.cell := by
  funext j
  simp only [cells, setSlot_slots, Function.update_apply]
  split <;> rfl

theorem Arena.cells_congr {a b : Arena} (h : a.slots = b.slots) : a.cells = b.cells := by
  funext i
  rw [cells, cells, h]

/-- The number of OCCUPIED slots. -/
def Arena.occupied (arena : Arena) : Nat :=
  (Finset.univ.filter (fun i => (arena.slots i).state = stateOccupied)).card

theorem Arena.occupied_eq_load (arena : Arena) : arena.occupied = Probe.load arena.cells :=
  Probe.card_filter_eq_load fun _ => Slot.cell_isFull.symm

/-- A key is stored when some OCCUPIED slot reads back as it. -/
def Arena.Contains (arena : Arena) (key : Bytes) : Prop :=
  ∃ i, (arena.slots i).state = stateOccupied ∧ (arena.slots i).readKey = key

/-- Of an absent key it can be said that only one slot holds it. -/
theorem Arena.only_of_absent {arena : Arena} {key : Bytes} (h : ¬ arena.Contains key)
    {i : Fin slotCount} (j : Fin slotCount) (hocc : (arena.slots j).state = stateOccupied)
    (hkey : (arena.slots j).readKey = key) : j = i :=
  absurd ⟨j, hocc, hkey⟩ h

theorem Arena.contains_iff_holds {arena : Arena} {key : Bytes} :
    arena.Contains key ↔ Probe.Holds arena.cells key := by
  simp [Contains, Probe.Holds, Arena.cells]

/-- An OCCUPIED slot stores `key` with this value and this expiry time. -/
def Arena.Stores (arena : Arena) (key value : Bytes) (expiry : UInt64) : Prop :=
  ∃ i, (arena.slots i).state = stateOccupied ∧ (arena.slots i).readKey = key ∧
    (arena.slots i).readValue = value ∧ (arena.slots i).expiresAtMs = expiry

theorem Arena.Stores.contains {arena : Arena} {key value : Bytes} {expiry : UInt64}
    (h : arena.Stores key value expiry) : arena.Contains key := by
  obtain ⟨i, hstate, hkey, _⟩ := h
  exact ⟨i, hstate, hkey⟩

end MemLane
