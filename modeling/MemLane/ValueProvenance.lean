import MemLane.SlotAccess
import MemLane.SipHash
import Mathlib.Data.Fintype.Basic

/-!
# Where found values come from

Clients share an arena, one slot access at a time.  A slot's key and value are four
pieces of data, two buffers and two lengths, and no access covers more than one.
So a value is put together from accesses between which other clients move.

If no client writes to these data while another is in the middle of reading or
writing them, then the data of a slot are always those of one `set`, unless that
`set` is in the middle of writing them, and every found value was set for its key.
-/

namespace MemLane

/-! ## Reading and writing the data of a slot -/

/-- The key and the value of a slot are untouched. -/
structure Slot.SameData (a b : Slot) : Prop where
  keyBuf : b.keyBuf = a.keyBuf
  keyLen : b.keyLen = a.keyLen
  valBuf : b.valBuf = a.valBuf
  valLen : b.valLen = a.valLen

theorem Slot.SameData.refl (a : Slot) : a.SameData a := ⟨rfl, rfl, rfl, rfl⟩

theorem Slot.SameData.readKey {a b : Slot} (h : a.SameData b) : b.readKey = a.readKey := by
  rw [Slot.readKey, Slot.readKey, h.keyBuf, h.keyLen]

theorem Slot.SameData.readValue {a b : Slot} (h : a.SameData b) : b.readValue = a.readValue := by
  rw [Slot.readValue, Slot.readValue, h.valBuf, h.valLen]

section Writes

variable {slot : Slot} {key value : Bytes}

theorem Slot.slice_copyKey (h : key.length ≤ maxKeyLen) :
    (slot.copyKey key).keyBuf.slice key.length = key := by
  rw [Slot.copyKey, Nat.min_eq_left h, List.take_length]
  exact Buffer.slice_copyFromSlice _ h

theorem Slot.readKey_storeKeyLen (h : key.length ≤ maxKeyLen)
    (hbuf : slot.keyBuf.slice key.length = key) : (slot.storeKeyLen key).readKey = key := by
  have hlt : key.length < 2 ^ 64 := by
    unfold maxKeyLen at h
    omega
  rw [Slot.readKey, Slot.storeKeyLen, Nat.min_eq_left h]
  rw [UInt64.toNat_ofNat_of_lt' hlt]
  exact hbuf

theorem Slot.slice_copyValue (h : value.length ≤ maxValLen) :
    (slot.copyValue value).valBuf.slice value.length = value := by
  rw [Slot.copyValue, Nat.min_eq_left h, List.take_length]
  exact Buffer.slice_copyFromSlice _ h

theorem Slot.readValue_storeValLen (h : value.length ≤ maxValLen)
    (hbuf : slot.valBuf.slice value.length = value) :
    (slot.storeValLen value).readValue = value := by
  have hlt : value.length < 2 ^ 64 := by
    unfold maxValLen at h
    omega
  rw [Slot.readValue, Slot.storeValLen, Nat.min_eq_left h]
  rw [UInt64.toNat_ofNat_of_lt' hlt]
  exact hbuf

end Writes

/-! ## Clients in the middle of the data -/

/-- A `del` reads the key only to compare it. -/
def Task.passesOn : Task → Bool
  | .del _ => false
  | _ => true

/-- The store of a claim is one to the key or the value. -/
def ClaimPoint.writesData : ClaimPoint → Bool
  | .keyBuf | .keyLen | .valBuf | .valLen => true
  | .fingerprint | .expiry | .state => false

/-- A claim has stored a part of the key and the value. -/
def ClaimPoint.midData : ClaimPoint → Bool
  | .keyLen | .valBuf | .valLen => true
  | .keyBuf | .fingerprint | .expiry | .state => false

/-- The slot whose key or value the next access of a `get` or `set` reads. -/
def Pc.dataRead (hashFn : Bytes → UInt64) : Pc → Option (Fin slotCount)
  | .probe task i .keyLen | .probe task i (.keyBuf _) =>
      if task.passesOn then some (probeIndex (hashFn task.key) i) else none
  | .valLen _ idx | .valBuf _ idx _ => some idx
  | _ => none

/-- The slot whose key or value the next access writes. -/
def Pc.dataWrite : Pc → Option (Fin slotCount)
  | .update _ _ _ idx .valBuf | .update _ _ _ idx .valLen => some idx
  | .claim _ _ _ target _ point => if point.writesData then some target else none
  | _ => none

/-- The slot of which the client has read a part of the data and relies on it. -/
def Pc.midRead (hashFn : Bytes → UInt64) : Pc → Option (Fin slotCount)
  | .probe task i (.keyBuf _) =>
      if task.passesOn then some (probeIndex (hashFn task.key) i) else none
  | .valLen _ idx | .valBuf _ idx _ | .update _ _ _ idx .valBuf => some idx
  | _ => none

/-- The slot of which the client has written a part of the data. -/
def Pc.midWrite : Pc → Option (Fin slotCount)
  | .update _ _ _ idx .valLen => some idx
  | .claim _ _ _ target _ point => if point.midData then some target else none
  | _ => none

section Condition

variable {ι : Type*} (hashFn : Bytes → UInt64)

/-- The next access writes no data that another client is in the middle of, and reads
none that another client is in the middle of writing. -/
def Undisturbed (s : System ι) (input : ι × Event) : Prop :=
  match input.2 with
  | .start .. => True
  | .access _ =>
      (∀ idx ∈ (s.pc input.1).dataWrite, ∀ d, d ≠ input.1 →
        (s.pc d).midRead hashFn ≠ some idx ∧ (s.pc d).midWrite ≠ some idx) ∧
      (∀ idx ∈ (s.pc input.1).dataRead hashFn, ∀ d, d ≠ input.1 →
        (s.pc d).midWrite ≠ some idx)

instance [Fintype ι] [DecidableEq ι] (s : System ι) (input : ι × Event) :
    Decidable (Undisturbed hashFn s input) :=
  match input with
  | (_, .start ..) => .isTrue trivial
  | (c, .access _) =>
      have := Option.decidableForallMem (s.pc c).dataWrite
        (p := fun idx => ∀ d, d ≠ c →
          (s.pc d).midRead hashFn ≠ some idx ∧ (s.pc d).midWrite ≠ some idx)
      have := Option.decidableForallMem ((s.pc c).dataRead hashFn)
        (p := fun idx => ∀ d, d ≠ c → (s.pc d).midWrite ≠ some idx)
      instDecidableAnd

end Condition

/-! ## What one access does to the data -/

section Access

variable {hashFn : Bytes → UInt64} {arena : Arena} {now : UInt64} {pc : Pc} {idx : Fin slotCount}

theorem Pc.dataWrite_of_midWrite (h : pc.midWrite = some idx) : pc.dataWrite = some idx := by
  cases pc with
  | update key value expiry j point =>
      cases point with
      | valLen => exact h
      | _ => cases h
  | claim key value expiry target counted point =>
      cases point with
      | keyLen => exact h
      | valBuf => exact h
      | valLen => exact h
      | _ => cases h
  | _ => cases h

theorem UpdatePoint.write_sameData {value : Bytes} {expiry : UInt64} {slot : Slot}
    {point : UpdatePoint} (h : point = .expiry) : slot.SameData (point.write value expiry slot) := by
  subst h
  exact ⟨rfl, rfl, rfl, rfl⟩

theorem ClaimPoint.write_sameData {fingerprint : UInt64} {key value : Bytes} {expiry : UInt64}
    {slot : Slot} {point : ClaimPoint} (h : point.writesData = false) :
    slot.SameData (point.write fingerprint key value expiry slot) := by
  cases point with
  | fingerprint => exact ⟨rfl, rfl, rfl, rfl⟩
  | expiry => exact ⟨rfl, rfl, rfl, rfl⟩
  | state => exact ⟨rfl, rfl, rfl, rfl⟩
  | _ => cases h

theorem Arena.setSlot_sameData {j : Fin slotCount} {slot : Slot}
    (h : j = idx → (arena.slots idx).SameData slot) :
    (arena.slots idx).SameData ((arena.setSlot j slot).slots idx) := by
  rw [Arena.setSlot_slots]
  by_cases hj : idx = j
  · rw [if_pos hj]
    exact h hj.symm
  · rw [if_neg hj]
    exact .refl _

/-- Data are changed by writes to them only. -/
theorem Pc.access_sameData (h : pc.dataWrite ≠ some idx) :
    (arena.slots idx).SameData ((pc.access hashFn arena now).1.slots idx) := by
  have hmove := pc.access_slot hashFn arena now idx
  generalize (pc.access hashFn arena now).1.slots idx = after at hmove
  cases hmove with
  | same => exact .refl _
  | buried => exact ⟨rfl, rfl, rfl, rfl⟩
  | @update key value expiry point hpc =>
      subst hpc
      cases point with
      | expiry => exact UpdatePoint.write_sameData rfl
      | _ => exact absurd rfl h
  | claim hpc =>
      subst hpc
      apply ClaimPoint.write_sameData
      by_contra hwrites
      rw [Bool.not_eq_false] at hwrites
      exact h (if_pos hwrites)

/-- Only the last store of a claim makes a slot OCCUPIED. -/
theorem Pc.access_occupied
    (hocc : ((pc.access hashFn arena now).1.slots idx).state = stateOccupied) :
    (arena.slots idx).state = stateOccupied ∨
      ∃ key value expiry counted, pc = .claim key value expiry idx counted .state := by
  have hmove := pc.access_slot hashFn arena now idx
  generalize (pc.access hashFn arena now).1.slots idx = after at hmove hocc
  cases hmove with
  | same => exact .inl hocc
  | buried => exact absurd hocc stateTombstone_ne_stateOccupied
  | @update key value expiry point _ =>
      left
      cases point with
      | _ => exact hocc
  | @claim key value expiry counted point hpc =>
      cases point with
      | state => exact .inr ⟨key, value, expiry, counted, hpc⟩
      | _ => exact .inl hocc

/-! ## Where a client stands after one access -/

variable {task : Task} {i : Nat}

theorem Task.exhausted_outside (hashFn : Bytes → UInt64) :
    task.exhausted.midRead hashFn = none ∧ task.exhausted.midWrite = none := by
  cases task with
  | get key => exact ⟨rfl, rfl⟩
  | set key value expiry firstTombstone =>
      cases firstTombstone with
      | none => exact ⟨rfl, rfl⟩
      | some target => exact ⟨rfl, rfl⟩
  | del key => exact ⟨rfl, rfl⟩

theorem Task.atEmpty_outside (hashFn : Bytes → UInt64) :
    (task.atEmpty idx).midRead hashFn = none ∧ (task.atEmpty idx).midWrite = none := by
  cases task with
  | _ => exact ⟨rfl, rfl⟩

theorem Task.afterEvict_outside (hashFn : Bytes → UInt64) :
    (task.afterEvict idx i).midRead hashFn = none ∧ (task.afterEvict idx i).midWrite = none := by
  cases task with
  | _ => exact ⟨rfl, rfl⟩

theorem Task.atKey_midWrite : (task.atKey idx i).midWrite = none := by
  cases task with
  | _ => rfl

theorem Task.atKey_midRead {j : Fin slotCount}
    (h : (task.atKey idx i).midRead hashFn = some j) : task.passesOn = true ∧ idx = j := by
  cases task with
  | get key => exact ⟨rfl, Option.some.inj h⟩
  | set key value expiry firstTombstone => exact ⟨rfl, Option.some.inj h⟩
  | del key => cases h

/-- A client is in the middle of writing after a write only. -/
theorem Pc.access_midWrite (h : (pc.access hashFn arena now).2.midWrite = some idx) :
    pc.dataWrite = some idx := by
  cases pc with
  | probe task i point =>
      exfalso
      rw [Pc.access] at h
      have hmove := probeAccess_move hashFn arena now task i point
      generalize probeAccess hashFn arena now task i point = out at hmove h
      cases hmove with
      | exhausted => cases (Task.exhausted_outside hashFn).2.symm.trans h
      | empty => cases (Task.atEmpty_outside hashFn).2.symm.trans h
      | evicted => cases (Task.afterEvict_outside hashFn).2.symm.trans h
      | keyBuf => cases Task.atKey_midWrite.symm.trans h
      | _ => cases h
  | update key value expiry j point =>
      cases point with
      | valBuf => exact h
      | _ => cases h
  | claim key value expiry target counted point =>
      cases point with
      | keyBuf => exact h
      | keyLen => exact h
      | valBuf => exact h
      | state =>
          simp only [Pc.access, claimAccess, ClaimPoint.next] at h
          split at h <;> cases h
      | _ => cases h
  | delCas key i =>
      rcases access_delCas hashFn arena now key i with ⟨_, heq⟩ | ⟨_, heq⟩
      · rw [heq] at h
        cases h
      · rw [heq] at h
        cases h
  | _ => cases h

/-- A client is in the middle of reading after a read only. -/
theorem Pc.access_midRead (h : (pc.access hashFn arena now).2.midRead hashFn = some idx) :
    pc.dataRead hashFn = some idx := by
  cases pc with
  | probe task i point =>
      rw [Pc.access] at h
      have hmove := probeAccess_move hashFn arena now task i point
      generalize probeAccess hashFn arena now task i point = out at hmove h
      cases hmove with
      | exhausted => cases (Task.exhausted_outside hashFn).1.symm.trans h
      | empty => cases (Task.atEmpty_outside hashFn).1.symm.trans h
      | evicted => cases (Task.afterEvict_outside hashFn).1.symm.trans h
      | matched =>
          cases task with
          | _ => cases h
      | keyLen => exact h
      | keyBuf =>
          obtain ⟨hpass, rfl⟩ := Task.atKey_midRead h
          exact if_pos hpass
      | _ => cases h
  | valLen key j => exact h
  | update key value expiry j point =>
      cases point with
      | _ => cases h
  | claim key value expiry target counted point =>
      cases point with
      | state =>
          simp only [Pc.access, claimAccess, ClaimPoint.next] at h
          split at h <;> cases h
      | _ => cases h
  | delCas key i =>
      rcases access_delCas hashFn arena now key i with ⟨_, heq⟩ | ⟨_, heq⟩
      · rw [heq] at h
        cases h
      · rw [heq] at h
        cases h
  | _ => cases h

end Access

/-! ## What a client knows

`sets` holds of the arguments of the `set`s started so far, and `live` of the slots
whose data are those of one of them, or being written. -/

/-- The arguments in hand are those of a started `set`. -/
def Task.Started (sets : Bytes → Bytes → Prop) : Task → Prop
  | .set key value _ _ => sets key value
  | _ => True

/-- What a claim has stored so far is there. -/
def ClaimPoint.Holds (live : Prop) (key value : Bytes) (slot : Slot) : ClaimPoint → Prop
  | .keyBuf => True
  | .keyLen => slot.keyBuf.slice key.length = key
  | .valBuf => slot.readKey = key
  | .valLen => slot.readKey = key ∧ slot.valBuf.slice value.length = value
  | .fingerprint | .expiry | .state => live

/-- What an in-place update has seen and stored so far is there. -/
def UpdatePoint.Holds (key value : Bytes) (slot : Slot) : UpdatePoint → Prop
  | .valBuf => slot.readKey = key
  | .valLen => slot.readKey = key ∧ slot.valBuf.slice value.length = value
  | .expiry => True

/-- What a client has loaded is still there, and what it has in hand was set. -/
def Pc.Holds (hashFn : Bytes → UInt64) (sets : Bytes → Bytes → Prop)
    (live : Fin slotCount → Prop) (arena : Arena) : Pc → Prop
  | .probe task i point =>
      task.Started sets ∧ (point ≠ .state → live (probeIndex (hashFn task.key) i)) ∧
        ∀ len, point = .keyBuf len → task.passesOn = true →
          (arena.probed (hashFn task.key) i).keyLen = len
  | .valLen key idx => live idx ∧ (arena.slots idx).readKey = key
  | .valBuf key idx len =>
      live idx ∧ (arena.slots idx).readKey = key ∧ (arena.slots idx).valLen = len
  | .update key value _ idx point => sets key value ∧ point.Holds key value (arena.slots idx)
  | .claim key value _ target _ point =>
      sets key value ∧ point.Holds (live target) key value (arena.slots target)
  | .done key (.get (.found value)) => sets key value
  | _ => True

section Holds

variable {hashFn : Bytes → UInt64} {sets sets' : Bytes → Bytes → Prop}
  {live live' : Fin slotCount → Prop} {arena arena' : Arena} {pc : Pc}

theorem Task.Started.mono {task : Task} (h : task.Started sets)
    (hsets : ∀ key value, sets key value → sets' key value) : task.Started sets' := by
  cases task with
  | set key value expiry firstTombstone => exact hsets key value h
  | _ => trivial

theorem ClaimPoint.Holds.congr {key value : Bytes} {a b : Slot} {p p' : Prop}
    {point : ClaimPoint} (h : point.Holds p key value a) (hp : p → p')
    (hdata : point.midData = true → a.SameData b) : point.Holds p' key value b := by
  cases point with
  | keyBuf => trivial
  | keyLen =>
      rw [ClaimPoint.Holds, (hdata rfl).keyBuf]
      exact h
  | valBuf =>
      rw [ClaimPoint.Holds, (hdata rfl).readKey]
      exact h
  | valLen =>
      rw [ClaimPoint.Holds, (hdata rfl).readKey, (hdata rfl).valBuf]
      exact h
  | fingerprint => exact hp h
  | expiry => exact hp h
  | state => exact hp h

theorem UpdatePoint.Holds.congr {key value : Bytes} {a b : Slot} {point : UpdatePoint}
    (h : point.Holds key value a) (hdata : point ≠ .expiry → a.SameData b) :
    point.Holds key value b := by
  cases point with
  | valBuf =>
      rw [UpdatePoint.Holds, (hdata (by decide)).readKey]
      exact h
  | valLen =>
      rw [UpdatePoint.Holds, (hdata (by decide)).readKey, (hdata (by decide)).valBuf]
      exact h
  | expiry => trivial

/-- A client keeps its knowledge while nobody writes to the data it relies on. -/
theorem Pc.Holds.mono (h : pc.Holds hashFn sets live arena)
    (hsets : ∀ key value, sets key value → sets' key value) (hlive : ∀ idx, live idx → live' idx)
    (hdata : ∀ idx, pc.midRead hashFn = some idx ∨ pc.midWrite = some idx →
      (arena.slots idx).SameData (arena'.slots idx)) : pc.Holds hashFn sets' live' arena' := by
  cases pc with
  | probe task i point =>
      obtain ⟨htask, hocc, hlen⟩ := h
      refine ⟨htask.mono hsets, fun hpoint => hlive _ (hocc hpoint), ?_⟩
      intro len hpoint hpass
      have hkept := hlen len hpoint hpass
      subst hpoint
      exact ((hdata _ (.inl (if_pos hpass))).keyLen).trans hkept
  | valLen key idx =>
      obtain ⟨hidx, hkey⟩ := h
      have hsame := hdata idx (.inl rfl)
      exact ⟨hlive idx hidx, hsame.readKey.trans hkey⟩
  | valBuf key idx len =>
      obtain ⟨hidx, hkey, hlen⟩ := h
      have hsame := hdata idx (.inl rfl)
      exact ⟨hlive idx hidx, hsame.readKey.trans hkey, hsame.valLen.trans hlen⟩
  | update key value expiry idx point =>
      obtain ⟨hset, hpoint⟩ := h
      refine ⟨hsets key value hset, hpoint.congr ?_⟩
      intro hne
      cases point with
      | valBuf => exact hdata idx (.inl rfl)
      | valLen => exact hdata idx (.inr rfl)
      | expiry => exact absurd rfl hne
  | claim key value expiry target counted point =>
      obtain ⟨hset, hpoint⟩ := h
      exact ⟨hsets key value hset,
        hpoint.congr (hlive target) fun hmid => hdata target (.inr (if_pos hmid))⟩
  | done key result =>
      cases result with
      | get found =>
          cases found with
          | found value => exact hsets key value h
          | _ => trivial
      | _ => trivial
  | _ => trivial

/-- The data of a slot are the arguments of one started `set`. -/
def Slot.Sourced (sets : Bytes → Bytes → Prop) (slot : Slot) : Prop :=
  sets slot.readKey slot.readValue

/-- After a write to the data of a slot, the client is in the middle of writing them, or
they are those of its `set`. -/
theorem Pc.Holds.written {idx : Fin slotCount} (now : UInt64)
    (hbound : ∀ key value, sets key value → key.length ≤ maxKeyLen ∧ value.length ≤ maxValLen)
    (h : pc.Holds hashFn sets live arena) (hwrite : pc.dataWrite = some idx) :
    (pc.access hashFn arena now).2.midWrite = some idx ∨
      ((pc.access hashFn arena now).1.slots idx).Sourced sets := by
  cases pc with
  | update key value expiry j point =>
      obtain ⟨hset, hpoint⟩ := h
      have hvalue := (hbound key value hset).2
      cases point with
      | valBuf => exact .inl hwrite
      | valLen =>
          right
          obtain rfl := Option.some.inj hwrite
          obtain ⟨hkey, hbuf⟩ := hpoint
          rw [Pc.access, updateAccess, Arena.setSlot_slots, if_pos rfl]
          have hread := Slot.readValue_storeValLen hvalue hbuf
          show sets ((arena.slots j).storeValLen value).readKey
            ((arena.slots j).storeValLen value).readValue
          rw [hread]
          exact hkey ▸ hset
      | expiry => cases hwrite
  | claim key value expiry target counted point =>
      obtain ⟨hset, hpoint⟩ := h
      have hvalue := (hbound key value hset).2
      cases point with
      | keyBuf => exact .inl hwrite
      | keyLen => exact .inl hwrite
      | valBuf => exact .inl hwrite
      | valLen =>
          right
          obtain rfl := Option.some.inj hwrite
          obtain ⟨hkey, hbuf⟩ := hpoint
          rw [Pc.access, claimAccess, Arena.setSlot_slots, if_pos rfl]
          have hread := Slot.readValue_storeValLen hvalue hbuf
          show sets ((arena.slots target).storeValLen value).readKey
            ((arena.slots target).storeValLen value).readValue
          rw [hread]
          exact hkey ▸ hset
      | _ => cases hwrite
  | _ => cases hwrite

theorem Task.Started.continue {task : Task} (h : task.Started sets) (i : Nat) :
    (task.continue i).Holds hashFn sets live arena := by
  refine ⟨h, fun hpoint => absurd rfl hpoint, ?_⟩
  intro len hpoint
  cases hpoint

theorem Task.Started.note {task : Task} (h : task.Started sets) (idx : Fin slotCount) :
    (task.note idx).Started sets := by
  cases task with
  | _ => exact h

theorem Task.Started.exhausted {task : Task} (h : task.Started sets) :
    task.exhausted.Holds hashFn sets live arena := by
  cases task with
  | get key => trivial
  | set key value expiry firstTombstone =>
      cases firstTombstone with
      | none => trivial
      | some target => exact ⟨h, trivial⟩
  | del key => trivial

theorem Task.Started.atEmpty {task : Task} (h : task.Started sets) (idx : Fin slotCount) :
    (task.atEmpty idx).Holds hashFn sets live arena := by
  cases task with
  | get key => trivial
  | set key value expiry firstTombstone => exact ⟨h, trivial⟩
  | del key => trivial

theorem Task.Started.afterEvict {task : Task} (h : task.Started sets) (idx : Fin slotCount)
    (i : Nat) : (task.afterEvict idx i).Holds hashFn sets live arena := by
  cases task with
  | get key => trivial
  | set key value expiry firstTombstone => exact (h.note idx).continue i
  | del key => exact (h.note idx).continue i

/-- At a slot with the key, the key that was read is the one that is there. -/
theorem Task.Started.atKey {task : Task} {idx : Fin slotCount} (h : task.Started sets)
    (hlive : live idx) (hkey : task.passesOn = true → (arena.slots idx).readKey = task.key)
    (i : Nat) : (task.atKey idx i).Holds hashFn sets live arena := by
  cases task with
  | get key => exact ⟨hlive, hkey rfl⟩
  | set key value expiry firstTombstone => exact ⟨h, hkey rfl⟩
  | del key => trivial

theorem Pc.Holds.probe {task : Task} {i : Nat} {point : Point} {now : UInt64}
    (h : (Pc.probe task i point).Holds hashFn sets live arena)
    (hocc : ∀ idx, (arena.slots idx).state = stateOccupied → live idx)
    (hlive : ∀ idx, live idx → live' idx) :
    ((Pc.probe task i point).access hashFn arena now).2.Holds hashFn sets live'
      ((Pc.probe task i point).access hashFn arena now).1 := by
  obtain ⟨htask, hpoint, hlen⟩ := h
  rw [Pc.access]
  have hmove := probeAccess_move hashFn arena now task i point
  generalize probeAccess hashFn arena now task i point = out at hmove
  have hat : ∀ next : Point, (∀ len, next ≠ .keyBuf len) →
      live (probeIndex (hashFn task.key) i) →
        (Pc.probe task i next).Holds hashFn sets live' arena := by
    intro next hnext hidx
    refine ⟨htask, fun _ => hlive _ hidx, ?_⟩
    intro len heq
    exact absurd heq (hnext len)
  cases hmove with
  | exhausted _ => exact htask.exhausted
  | empty _ _ => exact htask.atEmpty _
  | tombstone _ _ => exact (htask.note _).continue i
  | occupied _ hstate => exact hat .fingerprint (fun len heq => by cases heq) (hocc _ hstate)
  | passed => exact htask.continue i
  | matched _ =>
      apply hat _ _ (hpoint (by decide))
      intro len heq
      cases task with
      | _ => cases heq
  | expired _ => exact hat .evict (fun len heq => by cases heq) (hpoint (by decide))
  | kept => exact hat .keyLen (fun len heq => by cases heq) (hpoint (by decide))
  | evicted => exact htask.afterEvict _ i
  | keyLen =>
      refine ⟨htask, fun _ => hlive _ (hpoint (by decide)), ?_⟩
      intro len heq _
      exact Point.keyBuf.inj heq
  | keyBuf hkey =>
      apply htask.atKey (hlive _ (hpoint (fun heq => by cases heq)))
      intro hpass
      rw [← hlen _ rfl hpass] at hkey
      exact hkey

/-- What a client knows after its own access. -/
theorem Pc.Holds.access {now : UInt64}
    (hbound : ∀ key value, sets key value → key.length ≤ maxKeyLen ∧ value.length ≤ maxValLen)
    (h : pc.Holds hashFn sets live arena)
    (hocc : ∀ idx, (arena.slots idx).state = stateOccupied → live idx)
    (hlive : ∀ idx, live idx → live' idx)
    (hwrite : ∀ idx, pc.dataWrite = some idx → live' idx)
    (hfound : ∀ key idx len, pc = .valBuf key idx len → (arena.slots idx).Sourced sets) :
    (pc.access hashFn arena now).2.Holds hashFn sets live' (pc.access hashFn arena now).1 := by
  cases pc with
  | idle => trivial
  | probe task i point => exact Pc.Holds.probe h hocc hlive
  | valLen key idx =>
      obtain ⟨hidx, hkey⟩ := h
      exact ⟨hlive idx hidx, hkey, rfl⟩
  | valBuf key idx len =>
      obtain ⟨_, hkey, hlen⟩ := h
      have hsets := hfound key idx len rfl
      rw [Slot.Sourced, hkey, Slot.readValue, hlen] at hsets
      exact hsets
  | update key value expiry idx point =>
      obtain ⟨hset, hpoint⟩ := h
      have hvalue := (hbound key value hset).2
      cases point with
      | valBuf =>
          refine ⟨hset, ?_⟩
          rw [Pc.access, updateAccess, Arena.setSlot_slots, if_pos rfl]
          exact ⟨hpoint, Slot.slice_copyValue hvalue⟩
      | valLen => exact ⟨hset, trivial⟩
      | expiry => trivial
  | claim key value expiry target counted point =>
      obtain ⟨hset, hpoint⟩ := h
      obtain ⟨hkey, hvalue⟩ := hbound key value hset
      cases point with
      | keyBuf =>
          refine ⟨hset, ?_⟩
          rw [Pc.access, claimAccess, Arena.setSlot_slots, if_pos rfl]
          exact Slot.slice_copyKey hkey
      | keyLen =>
          refine ⟨hset, ?_⟩
          rw [Pc.access, claimAccess, Arena.setSlot_slots, if_pos rfl]
          exact Slot.readKey_storeKeyLen hkey hpoint
      | valBuf =>
          refine ⟨hset, ?_⟩
          rw [Pc.access, claimAccess, Arena.setSlot_slots, if_pos rfl]
          exact ⟨hpoint, Slot.slice_copyValue hvalue⟩
      | valLen => exact ⟨hset, hwrite target rfl⟩
      | fingerprint => exact ⟨hset, hlive target hpoint⟩
      | expiry => exact ⟨hset, hlive target hpoint⟩
      | state =>
          simp only [Pc.access, claimAccess, ClaimPoint.next]
          split <;> trivial
  | countInsert key => trivial
  | delCas key i =>
      rcases access_delCas hashFn arena now key i with ⟨_, heq⟩ | ⟨_, heq⟩
      · rw [heq]
        trivial
      · rw [heq]
        have htask : (Task.del key).Started sets := trivial
        exact htask.continue i
  | countDelete key => trivial
  | done key result =>
      cases result with
      | get found =>
          cases found with
          | found value => exact h
          | _ => trivial
      | _ => trivial

end Holds

/-! ## The whole system -/

section System

variable {ι : Type*} {hashFn : Bytes → UInt64} {sets sets' : Bytes → Bytes → Prop}

/-- The slot's data are those of a started `set`, or a client is in the middle of writing
them. -/
def System.Live (sets : Bytes → Bytes → Prop) (s : System ι) (idx : Fin slotCount) : Prop :=
  (s.arena.slots idx).Sourced sets ∨ ∃ c, (s.pc c).midWrite = some idx

/-- What holds of the system in every state of an undisturbed run. -/
structure System.Provenance (hashFn : Bytes → UInt64) (sets : Bytes → Bytes → Prop)
    (s : System ι) : Prop where
  holds : ∀ c, (s.pc c).Holds hashFn sets (s.Live sets) s.arena
  occupied : ∀ idx, (s.arena.slots idx).state = stateOccupied → s.Live sets idx
  exclusive : ∀ c d idx, d ≠ c →
    (s.pc c).midRead hashFn = some idx ∨ (s.pc c).midWrite = some idx →
      (s.pc d).midWrite ≠ some idx

theorem System.Live.mono {s : System ι} {idx : Fin slotCount} (h : s.Live sets idx)
    (hsets : ∀ key value, sets key value → sets' key value) : s.Live sets' idx := by
  rcases h with hsourced | hwriting
  · exact .inl (hsets _ _ hsourced)
  · exact .inr hwriting

theorem System.Provenance.mono {s : System ι} (h : s.Provenance hashFn sets)
    (hsets : ∀ key value, sets key value → sets' key value) : s.Provenance hashFn sets' := by
  refine ⟨?_, ?_, h.exclusive⟩
  · intro c
    exact (h.holds c).mono hsets (fun idx hidx => hidx.mono hsets) fun idx _ => .refl _
  · intro idx hocc
    exact (h.occupied idx hocc).mono hsets

/-- The value that a `get` reads is the one that was set with the key it has read. -/
theorem System.Provenance.sourced {s : System ι} (h : s.Provenance hashFn sets) {c : ι}
    {key : Bytes} {idx : Fin slotCount} {len : UInt64} (hpc : s.pc c = .valBuf key idx len) :
    (s.arena.slots idx).Sourced sets := by
  have hc := h.holds c
  rw [hpc] at hc
  rcases hc.1 with hsourced | ⟨d, hd⟩
  · exact hsourced
  · exfalso
    by_cases hdc : d = c
    · rw [hdc, hpc] at hd
      cases hd
    · have hmid : (s.pc c).midRead hashFn = some idx := by
        rw [hpc]
        rfl
      exact h.exclusive c d idx hdc (.inl hmid) hd

theorem Pc.resting_outside (hashFn : Bytes → UInt64) {pc : Pc} (h : pc.resting = true) :
    pc.midRead hashFn = none ∧ pc.midWrite = none := by
  cases pc with
  | idle => exact ⟨rfl, rfl⟩
  | done key result => exact ⟨rfl, rfl⟩
  | _ => cases h

theorem Request.start_outside (hashFn : Bytes → UInt64) (request : Request) (now : UInt64) :
    (request.start now).midRead hashFn = none ∧ (request.start now).midWrite = none := by
  unfold Request.start
  split
  · cases request with
    | _ => exact ⟨rfl, rfl⟩
  · exact ⟨rfl, rfl⟩

theorem Request.start_holds {request : Request} {now : UInt64} {live : Fin slotCount → Prop}
    {arena : Arena} (hset : ∀ key value ttlSecs, request = .set key value ttlSecs →
      request.Admitted → sets key value) :
    (request.start now).Holds hashFn sets live arena := by
  have hprobe : ∀ task : Task, task.Started sets →
      (Pc.probe task 0 .state).Holds hashFn sets live arena := by
    intro task htask
    refine ⟨htask, fun hpoint => absurd rfl hpoint, ?_⟩
    intro len hpoint
    cases hpoint
  unfold Request.start
  split
  · next hadmitted =>
      cases request with
      | get key => exact hprobe _ trivial
      | set key value ttlSecs => exact hprobe _ (hset key value ttlSecs rfl hadmitted)
      | del key => exact hprobe _ trivial
  · trivial

/-- A fresh system has no data that anybody could know. -/
theorem System.Provenance.fresh (hashFn : Bytes → UInt64) (sets : Bytes → Bytes → Prop)
    (region : Arena) : (System.fresh region : System ι).Provenance hashFn sets := by
  refine ⟨fun c => trivial, ?_, ?_⟩
  · intro idx hocc
    cases hocc
  · intro c d idx _ _ h
    cases h

variable [DecidableEq ι]

/-- Starting an operation adds to what was set, and touches nothing. -/
theorem System.Provenance.start {s : System ι} (h : s.Provenance hashFn sets) {c : ι}
    {request : Request} {now : UInt64}
    (hsets : ∀ key value, sets key value → sets' key value)
    (hrequest : (s.pc c).resting = true → ∀ key value ttlSecs, request = .set key value ttlSecs →
      request.Admitted → sets' key value) :
    (s.next hashFn (c, .start request now)).Provenance hashFn sets' := by
  by_cases hrest : (s.pc c).resting = true
  · obtain ⟨hread, hwrite⟩ := Request.start_outside hashFn request now
    have hself := System.next_start_self hashFn s request now hrest
    have harena : (s.next hashFn (c, .start request now)).arena = s.arena :=
      System.next_start_arena hashFn s request now
    have hlive : ∀ idx, s.Live sets idx →
        (s.next hashFn (c, .start request now)).Live sets' idx := by
      intro idx hidx
      rw [System.Live, harena]
      rcases hidx with hsourced | ⟨d, hd⟩
      · exact .inl (hsets _ _ hsourced)
      · refine .inr ⟨d, ?_⟩
        have hdc : d ≠ c := by
          intro hdc
          rw [hdc, (Pc.resting_outside hashFn hrest).2] at hd
          cases hd
        rw [System.next_start_other hashFn s request now hdc]
        exact hd
    refine ⟨?_, ?_, ?_⟩
    · intro d
      rw [harena]
      by_cases hdc : d = c
      · rw [hdc, hself]
        exact Request.start_holds (hrequest hrest)
      · rw [System.next_start_other hashFn s request now hdc]
        exact (h.holds d).mono hsets hlive fun idx _ => .refl _
    · intro idx hocc
      rw [harena] at hocc
      exact hlive idx (h.occupied idx hocc)
    · intro a b idx hba hmid
      by_cases hb : b = c
      · rw [hb, hself, hwrite]
        exact fun h => by cases h
      · rw [System.next_start_other hashFn s request now hb]
        by_cases ha : a = c
        · rw [ha, hself, hread, hwrite] at hmid
          rcases hmid with h | h <;> cases h
        · rw [System.next_start_other hashFn s request now ha] at hmid
          exact h.exclusive a b idx hba hmid
  · rw [System.next_start_busy hashFn s request now hrest]
    exact h.mono hsets

/-- A live slot stays live. -/
theorem System.Provenance.live {s : System ι} (h : s.Provenance hashFn sets)
    (hbound : ∀ key value, sets key value → key.length ≤ maxKeyLen ∧ value.length ≤ maxValLen)
    {c : ι} {now : UInt64} {idx : Fin slotCount}
    (hidx : (s.pc c).dataWrite = some idx ∨ s.Live sets idx) :
    (s.next hashFn (c, .access now)).Live sets idx := by
  by_cases hwrite : (s.pc c).dataWrite = some idx
  · rcases (h.holds c).written now hbound hwrite with hmid | hsourced
    · refine .inr ⟨c, ?_⟩
      rw [System.next_access_self]
      exact hmid
    · exact .inl hsourced
  · have hsame : (s.arena.slots idx).SameData
        ((s.next hashFn (c, .access now)).arena.slots idx) := Pc.access_sameData hwrite
    rcases hidx with hwrites | hsourced | ⟨d, hd⟩
    · exact absurd hwrites hwrite
    · left
      rw [Slot.Sourced, hsame.readKey, hsame.readValue]
      exact hsourced
    · refine .inr ⟨d, ?_⟩
      have hdc : d ≠ c := by
        intro hdc
        rw [hdc] at hd
        exact hwrite (Pc.dataWrite_of_midWrite hd)
      rw [System.next_access_other hashFn s now hdc]
      exact hd

/-- Step lemma: an undisturbed access keeps the invariant. -/
theorem System.Provenance.access {s : System ι} (h : s.Provenance hashFn sets)
    (hbound : ∀ key value, sets key value → key.length ≤ maxKeyLen ∧ value.length ≤ maxValLen)
    {c : ι} {now : UInt64} (hund : Undisturbed hashFn s (c, .access now)) :
    (s.next hashFn (c, .access now)).Provenance hashFn sets := by
  obtain ⟨hnoWrite, hnoRead⟩ := hund
  have hlive : ∀ idx, s.Live sets idx → (s.next hashFn (c, .access now)).Live sets idx :=
    fun idx hidx => h.live hbound (.inr hidx)
  refine ⟨?_, ?_, ?_⟩
  · intro d
    by_cases hdc : d = c
    · rw [hdc, System.next_access_self]
      refine (h.holds c).access hbound h.occupied hlive ?_ ?_
      · intro idx hwrite
        exact h.live hbound (.inl hwrite)
      · intro key idx len hpc
        exact h.sourced hpc
    · rw [System.next_access_other hashFn s now hdc]
      refine (h.holds d).mono (fun _ _ hset => hset) hlive ?_
      intro idx hmid
      apply Pc.access_sameData
      intro hwrite
      obtain ⟨hread, hmidWrite⟩ := hnoWrite idx hwrite d hdc
      rcases hmid with hmid | hmid
      · exact hread hmid
      · exact hmidWrite hmid
  · intro idx hocc
    apply hlive
    rcases Pc.access_occupied hocc with hbefore | ⟨key, value, expiry, counted, hpc⟩
    · exact h.occupied idx hbefore
    · have hc := h.holds c
      rw [hpc] at hc
      exact hc.2
  · intro a b idx hba hmid hwriting
    by_cases ha : a = c
    · have hbc : b ≠ c := by
        rw [← ha]
        exact hba
      rw [ha, System.next_access_self] at hmid
      rw [System.next_access_other hashFn s now hbc] at hwriting
      rcases hmid with hread | hwrite
      · exact hnoRead idx (Pc.access_midRead hread) b hbc hwriting
      · exact (hnoWrite idx (Pc.access_midWrite hwrite) b hbc).2 hwriting
    · rw [System.next_access_other hashFn s now ha] at hmid
      by_cases hb : b = c
      · rw [hb, System.next_access_self] at hwriting
        obtain ⟨hread, hwrite⟩ := hnoWrite idx (Pc.access_midWrite hwriting) a ha
        rcases hmid with hmid | hmid
        · exact hread hmid
        · exact hwrite hmid
      · rw [System.next_access_other hashFn s now hb] at hwriting
        exact h.exclusive a b idx hba hmid hwriting

/-- A call of `set` with these arguments has been started. -/
def StartedSet (hashFn : Bytes → UInt64) (region : Arena) (inputs : List (ι × Event))
    (key value : Bytes) : Prop :=
  ∃ before c ttlSecs now after,
    inputs = before ++ (c, .start (.set key value ttlSecs) now) :: after ∧
    ((Run.final (System.next hashFn) (System.fresh region) before).pc c).resting = true ∧
    (Request.set key value ttlSecs).Admitted

theorem StartedSet.append {region : Arena} {inputs : List (ι × Event)} {key value : Bytes}
    (h : StartedSet hashFn region inputs key value) (more : List (ι × Event)) :
    StartedSet hashFn region (inputs ++ more) key value := by
  obtain ⟨before, c, ttlSecs, now, after, rfl, hrest, hadmitted⟩ := h
  refine ⟨before, c, ttlSecs, now, after ++ more, ?_, hrest, hadmitted⟩
  rw [List.append_assoc, List.cons_append]

/-- Run lemma: the invariant holds after an undisturbed run. -/
theorem provenance_of_undisturbed {region : Arena} {inputs : List (ι × Event)}
    (hund : Run.Along (System.next hashFn) (Undisturbed hashFn) (System.fresh region) inputs) :
    (Run.final (System.next hashFn) (System.fresh region) inputs).Provenance hashFn
      (StartedSet hashFn region inputs) := by
  refine Run.invariant_history
    (fun inputs s => s.Provenance hashFn (StartedSet hashFn region inputs)) ?_ ?_ hund
  · exact .fresh hashFn _ region
  · intro before input h hinput
    obtain ⟨c, event⟩ := input
    have hsets : ∀ key value, StartedSet hashFn region before key value →
        StartedSet hashFn region (before ++ [(c, event)]) key value :=
      fun key value hset => hset.append [(c, event)]
    cases event with
    | start request now =>
        apply h.start hsets
        intro hrest key value ttlSecs hrequest hadmitted
        subst hrequest
        exact ⟨before, c, ttlSecs, now, [], rfl, hrest, hadmitted⟩
    | access now =>
        have hbound : ∀ key value, StartedSet hashFn region before key value →
            key.length ≤ maxKeyLen ∧ value.length ≤ maxValLen := by
          intro key value hset
          obtain ⟨_, _, _, _, _, _, _, hadmitted⟩ := hset
          exact hadmitted
        exact (h.access hbound hinput).mono hsets

/-- In an undisturbed run, every value that a `get` finds was passed to a `set` of its key
that had been started. -/
theorem found_value_was_set (hashFn : Bytes → UInt64) (region : Arena)
    (inputs : List (ι × Event))
    (hund : Run.Along (System.next hashFn) (Undisturbed hashFn) (System.fresh region) inputs) :
    ∀ before after, inputs = before ++ after → ∀ c key value,
      (Run.final (System.next hashFn) (System.fresh region) before).pc c =
        .done key (.get (.found value)) →
      StartedSet hashFn region before key value := by
  intro before after heq c key value hpc
  subst heq
  have h := (provenance_of_undisturbed (Run.along_append.mp hund).1).holds c
  rw [hpc] at h
  exact h

end System

/-! ## Two clients -/

/-- A client's next accesses. -/
def accesses (c : Fin 2) (count : Nat) : List (Fin 2 × Event) := List.replicate count (c, .access 0)

/-- The first client sets `k` to `aa`, and then updates it to `b` while the second is in the
middle of a `get`: behind the expiry in the first run, behind the value's length in the
second. -/
def overlapRun : List (Fin 2 × Event) :=
  (0, .start (.set [107] [97, 97] 0) 0) :: accesses 0 9 ++ (1, .start (.get [107]) 0) ::
    accesses 1 3 ++ (0, .start (.set [107] [98] 0) 0) :: accesses 0 8 ++ accesses 1 4

def tornRun : List (Fin 2 × Event) :=
  (0, .start (.set [107] [97, 97] 0) 0) :: accesses 0 9 ++ (1, .start (.get [107]) 0) ::
    accesses 1 6 ++ (0, .start (.set [107] [98] 0) 0) :: accesses 0 6 ++ accesses 1 1

theorem found_value_was_set_overlap :
    (Run.final (System.next siphash) (System.fresh zeroedRegion) overlapRun).pc 1 =
      .done [107] (.get (.found [98])) ∧
    StartedSet siphash zeroedRegion overlapRun [107] [98] := by
  have hpc : (Run.final (System.next siphash) (System.fresh zeroedRegion) overlapRun).pc 1 =
      .done [107] (.get (.found [98])) := by decide +kernel
  refine ⟨hpc, ?_⟩
  exact found_value_was_set siphash zeroedRegion overlapRun (by decide +kernel) overlapRun []
    (List.append_nil _).symm 1 [107] [98] hpc

/-- The `get` finds the second byte of the old value behind the new one. -/
theorem torn_value_found :
    (Run.final (System.next siphash) (System.fresh zeroedRegion) tornRun).pc 1 =
      .done [107] (.get (.found [98, 97])) ∧
    ¬ StartedSet siphash zeroedRegion tornRun [107] [98, 97] := by
  refine ⟨by decide +kernel, ?_⟩
  intro h
  obtain ⟨before, c, ttlSecs, now, after, heq, _, _⟩ := h
  have hmem : (c, Event.start (.set [107] [98, 97] ttlSecs) now) ∈ tornRun := by
    rw [heq]
    exact List.mem_append_right _ List.mem_cons_self
  simp [tornRun, accesses] at hmem

end MemLane
