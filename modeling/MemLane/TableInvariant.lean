import MemLane.ProbeOutcome
import MemLane.Client

/-!
# The table invariant

What every reachable arena satisfies, whatever the fingerprint function, the
expiry times and the clock: the state bytes are the three constants, an
OCCUPIED slot carries the fingerprint of its key and admissible lengths, no key
is stored twice, and no EMPTY slot cuts a probe chain.

Two kinds of change keep it.  An eviction or a deletion buries OCCUPIED slots;
a `set` that has reached the end of its search writes one slot.  `SetEffect` is
the second half of the inversion of `set`: with the invariant in hand, what a
`set` has passed determines where the key can be.
-/

namespace MemLane

/-- The key's home slot. -/
def homeIndex (hashFn : Bytes → UInt64) (key : Bytes) : Nat := primaryIndex (hashFn key)

/-- The invariant of a single slot. -/
structure SlotInv (hashFn : Bytes → UInt64) (slot : Slot) : Prop where
  known : slot.state = stateEmpty ∨ slot.state = stateOccupied ∨ slot.state = stateTombstone
  fingerprint : slot.state = stateOccupied → slot.fingerprint = hashFn slot.readKey
  keyLen : slot.state = stateOccupied → slot.keyLen.toNat ≤ maxKeyLen
  valLen : slot.state = stateOccupied → slot.valLen.toNat ≤ maxValLen

/-- The invariant of the arena. -/
structure TableInv (hashFn : Bytes → UInt64) (arena : Arena) : Prop where
  slot : ∀ i, SlotInv hashFn (arena.slots i)
  wellFormed : Probe.WellFormed (homeIndex hashFn) arena.cells

variable {hashFn : Bytes → UInt64}

/-! ## Slots -/

theorem SlotInv.of_empty {slot : Slot} (h : slot.state = stateEmpty) : SlotInv hashFn slot where
  known := .inl h
  fingerprint := fun hocc => by simp [h] at hocc
  keyLen := fun hocc => by simp [h] at hocc
  valLen := fun hocc => by simp [h] at hocc

theorem SlotInv.buried (slot : Slot) : SlotInv hashFn slot.buried where
  known := .inr (.inr rfl)
  fingerprint := fun hocc => by simp at hocc
  keyLen := fun hocc => by simp at hocc
  valLen := fun hocc => by simp at hocc

section Claim

variable {slot : Slot} {key value : Bytes} {hash expiry : UInt64}

@[simp] theorem claimSlot_state :
    (claimSlot slot hash key value expiry).state = stateOccupied := rfl

@[simp] theorem claimSlot_expiresAtMs :
    (claimSlot slot hash key value expiry).expiresAtMs = expiry := rfl

@[simp] theorem claimSlot_fingerprint :
    (claimSlot slot hash key value expiry).fingerprint = hash := rfl

theorem claimSlot_readKey (hk : key.length ≤ maxKeyLen) :
    (claimSlot slot hash key value expiry).readKey = key :=
  Slot.readKey_writeKey hk

theorem claimSlot_readValue (hv : value.length ≤ maxValLen) :
    (claimSlot slot hash key value expiry).readValue = value :=
  Slot.readValue_writeValue hv

theorem claimSlot_cell (hk : key.length ≤ maxKeyLen) :
    (claimSlot slot hash key value expiry).cell = .full key := by
  simp [claimSlot_readKey hk]

/-- A claimed slot satisfies the slot invariant when it carries its key's
fingerprint. -/
theorem SlotInv.claimSlot (hk : key.length ≤ maxKeyLen) :
    SlotInv hashFn (claimSlot slot (hashFn key) key value expiry) where
  known := .inr (.inl rfl)
  fingerprint := fun _ => by rw [claimSlot_readKey hk, claimSlot_fingerprint]
  keyLen := fun _ => Slot.keyLen_writeKey_le slot key
  valLen := fun _ => Slot.valLen_writeValue_le (slot.writeKey key) value

@[simp] theorem updateSlot_state : (updateSlot slot value expiry).state = slot.state := rfl

@[simp] theorem updateSlot_readKey : (updateSlot slot value expiry).readKey = slot.readKey := rfl

@[simp] theorem updateSlot_expiresAtMs : (updateSlot slot value expiry).expiresAtMs = expiry := rfl

theorem updateSlot_readValue (hv : value.length ≤ maxValLen) :
    (updateSlot slot value expiry).readValue = value :=
  Slot.readValue_writeValue hv

@[simp] theorem updateSlot_cell : (updateSlot slot value expiry).cell = slot.cell := rfl

theorem SlotInv.updateSlot (h : SlotInv hashFn slot) :
    SlotInv hashFn (updateSlot slot value expiry) where
  known := h.known
  fingerprint := h.fingerprint
  keyLen := h.keyLen
  valLen := fun _ => Slot.valLen_writeValue_le slot value

end Claim

/-! ## Searches -/

section Search

variable {arena : Arena} {key : Bytes}

theorem TableInv.fingerprint_eq (h : TableInv hashFn arena) {i : Fin slotCount}
    (hocc : (arena.slots i).state = stateOccupied) (hkey : (arena.slots i).readKey = key) :
    (arena.slots i).fingerprint = hashFn key := by
  rw [(h.slot i).fingerprint hocc, hkey]

/-- A slot that the search for `key` passes does not hold `key`. -/
theorem TableInv.not_full_of_passed (h : TableInv hashFn arena) {m : Nat}
    (hpassed : Passed key (hashFn key) (arena.probed (hashFn key) m)) :
    arena.cells (Probe.cell slotCount (homeIndex hashFn key) m) ≠ .full key := by
  intro hfull
  rw [homeIndex, ← probeIndex_eq_cell] at hfull
  obtain ⟨hocc, hkey⟩ := Slot.cell_eq_full.mp hfull
  exact hpassed.mismatch hocc (h.fingerprint_eq hocc hkey) hkey

/-- A search that reaches an EMPTY slot shows the key absent. -/
theorem TableInv.absent_of_empty (h : TableInv hashFn arena) {e : Nat} (he : e < slotCount)
    (hempty : (arena.probed (hashFn key) e).state = stateEmpty)
    (hpassed : ∀ m, m < e → Passed key (hashFn key) (arena.probed (hashFn key) m)) :
    ¬ arena.Contains key := by
  rw [Arena.contains_iff_holds]
  refine h.wellFormed.absent_of_empty he ?_ (fun m hm => h.not_full_of_passed (hpassed m hm))
  rw [homeIndex, ← probeIndex_eq_cell]
  exact Slot.cell_eq_empty.mpr hempty

/-- A search that passes every slot shows the key absent. -/
theorem TableInv.absent_of_full_scan (h : TableInv hashFn arena)
    (hpassed : ∀ m, m < slotCount → Passed key (hashFn key) (arena.probed (hashFn key) m)) :
    ¬ arena.Contains key := by
  rw [Arena.contains_iff_holds]
  exact Probe.absent_of_full_scan (fun m hm => h.not_full_of_passed (hpassed m hm))

/-- Two OCCUPIED slots with the same key are one slot. -/
theorem TableInv.slot_unique (h : TableInv hashFn arena) {i j : Fin slotCount}
    (hi : (arena.slots i).state = stateOccupied) (hj : (arena.slots j).state = stateOccupied)
    (hkey : (arena.slots i).readKey = (arena.slots j).readKey) : i = j :=
  h.wellFormed.nodup (Slot.cell_eq_full.mpr ⟨hi, hkey⟩) (Slot.cell_eq_full.mpr ⟨hj, rfl⟩)

/-- The slots on a stored key's probe path before its own are not EMPTY. -/
theorem TableInv.nonempty_of_chain (h : TableInv hashFn arena) {d m : Nat} (hd : d < slotCount)
    (hocc : (arena.probed (hashFn key) d).state = stateOccupied)
    (hkey : (arena.probed (hashFn key) d).readKey = key) (hm : m < d) :
    (arena.probed (hashFn key) m).state ≠ stateEmpty := by
  have hfull : arena.cells (Probe.cell slotCount (homeIndex hashFn key) d) = .full key := by
    rw [homeIndex, ← probeIndex_eq_cell]
    exact Slot.cell_eq_full.mpr ⟨hocc, hkey⟩
  have hne := h.wellFormed.chain hd hfull m hm
  rw [homeIndex, ← probeIndex_eq_cell] at hne
  exact fun hempty => hne (Slot.cell_eq_empty.mpr hempty)

/-- A key is stored with one value and one expiry time. -/
theorem TableInv.stores_unique (h : TableInv hashFn arena) {v v' : Bytes} {e e' : UInt64}
    (hv : arena.Stores key v e) (hv' : arena.Stores key v' e') : v = v' ∧ e = e' := by
  obtain ⟨i, hi, hik, rfl, rfl⟩ := hv
  obtain ⟨j, hj, hjk, rfl, rfl⟩ := hv'
  obtain rfl := h.slot_unique hi hj (hik.trans hjk.symm)
  exact ⟨rfl, rfl⟩

end Search

/-! ## Changes that keep the invariant -/

/-- A freshly created arena has no OCCUPIED slot. -/
theorem TableInv.createArena (region : Arena) : TableInv hashFn (createArena region) where
  slot := fun _ => .of_empty rfl
  wellFormed := .of_no_keys fun i k hfull => by
    have hstate : ((MemLane.createArena region).slots i).state = stateOccupied :=
      (Slot.cell_eq_full.mp hfull).1
    simp [MemLane.createArena, Slot.init] at hstate

theorem TableInv.flushAll (arena : Arena) : TableInv hashFn (flushAll arena) where
  slot := fun _ => .of_empty rfl
  wellFormed := .of_no_keys fun i k hfull => by
    have hstate : ((MemLane.flushAll arena).slots i).state = stateOccupied :=
      (Slot.cell_eq_full.mp hfull).1
    simp [MemLane.flushAll, flushSlot] at hstate

/-- Only the slots matter. -/
theorem TableInv.congr {a b : Arena} (h : TableInv hashFn a) (hslots : b.slots = a.slots) :
    TableInv hashFn b where
  slot := fun i => hslots ▸ h.slot i
  wellFormed := Arena.cells_congr hslots ▸ h.wellFormed

/-- Burying an OCCUPIED slot keeps the invariant. -/
theorem TableInv.bury {arena : Arena} (h : TableInv hashFn arena) {i : Fin slotCount}
    (hocc : (arena.slots i).state = stateOccupied) :
    TableInv hashFn (arena.setSlot i (arena.slots i).buried) where
  slot := fun j => by
    rw [Arena.setSlot_slots]
    split
    · exact .buried _
    · exact h.slot j
  wellFormed := by
    refine h.wellFormed.buried fun j => ?_
    rw [Arena.cells_setSlot, Function.update_apply]
    split
    · next hj =>
        subst hj
        exact .inr ⟨by simp [Arena.cells, hocc], by simp⟩
    · exact .inl rfl

/-- Evictions keep the invariant. -/
theorem TableInv.evicts {hash : UInt64} {clock : Clock} {a b : Arena} (h : TableInv hashFn a)
    (hev : Evicts hash clock a b) : TableInv hashFn b where
  slot := fun j => by
    rcases hev.slot j with heq | ⟨_, _, _, heq⟩
    · exact heq ▸ h.slot j
    · exact heq ▸ .buried _
  wellFormed := by
    refine h.wellFormed.buried fun j => ?_
    rcases hev.slot j with heq | ⟨hocc, _, _, heq⟩
    · exact .inl (by simp [Arena.cells, heq])
    · exact .inr ⟨by simp [Arena.cells, hocc], by simp [Arena.cells, heq]⟩

/-- Claiming a slot of the key's chain, when no other holds the key, keeps the invariant. -/
theorem TableInv.claim {arena : Arena} (h : TableInv hashFn arena) {key value : Bytes}
    {expiry : UInt64} (hk : key.length ≤ maxKeyLen) {d : Nat} (hd : d < slotCount)
    (honly : ∀ j, (arena.slots j).state = stateOccupied → (arena.slots j).readKey = key →
      j = probeIndex (hashFn key) d)
    (hchain : ∀ m, m < d → (arena.probed (hashFn key) m).state ≠ stateEmpty) (slot : Slot) :
    TableInv hashFn (arena.setSlot (probeIndex (hashFn key) d)
      (claimSlot slot (hashFn key) key value expiry)) where
  slot := fun j => by
    rw [Arena.setSlot_slots]
    split
    · exact .claimSlot hk
    · exact h.slot j
  wellFormed := by
    rw [Arena.cells_setSlot, claimSlot_cell hk, probeIndex_eq_cell]
    refine h.wellFormed.place hd ?_ ?_
    · intro j hfull
      obtain ⟨hocc, hkey⟩ := Slot.cell_eq_full.mp hfull
      rw [homeIndex, ← probeIndex_eq_cell]
      exact honly j hocc hkey
    · intro m hm hempty
      rw [homeIndex, ← probeIndex_eq_cell] at hempty
      exact hchain m hm (Slot.cell_eq_empty.mp hempty)

/-- Updating a slot in place keeps the invariant. -/
theorem TableInv.update {arena : Arena} (h : TableInv hashFn arena) (i : Fin slotCount)
    (value : Bytes) (expiry : UInt64) :
    TableInv hashFn (arena.setSlot i (updateSlot (arena.slots i) value expiry)) where
  slot := fun j => by
    rw [Arena.setSlot_slots]
    split
    · exact (h.slot i).updateSlot
    · exact h.slot j
  wellFormed := by
    rw [Arena.cells_setSlot, updateSlot_cell]
    have hsame : Function.update arena.cells i (arena.slots i).cell = arena.cells :=
      Function.update_eq_self i arena.cells
    rw [hsame]
    exact h.wellFormed

/-! ## The effect of `set` -/

/-- What a `set` did, read with the invariant.  An insertion counts itself in
`used_count` when its search ended at an EMPTY slot, and not when it had to scan
the whole table. -/
inductive SetEffect (key value : Bytes) (hash expiry : UInt64) (clock : Clock)
    (before : Arena) : SetResult × Arena → Prop
  | inserted {now after : Arena} {d : Nat}
      (hevicts : Evicts hash (fun m => clock (m + 1)) before now)
      (habsent : ¬ now.Contains key) (hd : d < slotCount)
      (hfree : (now.probed hash d).state ≠ stateOccupied)
      (hchain : ∀ m, m < d → (now.probed hash m).state ≠ stateEmpty)
      (hslots : after.slots = (now.setSlot (probeIndex hash d)
        (claimSlot (now.probed hash d) hash key value expiry)).slots)
      (hcount : ((∃ i, (now.slots i).state = stateEmpty) ∧
          after.header.usedCount = now.header.usedCount + 1) ∨
        ((∀ i, (now.slots i).state ≠ stateEmpty) ∧
          after.header.usedCount = now.header.usedCount)) :
      SetEffect key value hash expiry clock before (.inserted, after)
  | updated {now : Arena} {i : Fin slotCount}
      (hevicts : Evicts hash (fun m => clock (m + 1)) before now)
      (hocc : (now.slots i).state = stateOccupied) (hkey : (now.slots i).readKey = key) :
      SetEffect key value hash expiry clock before
        (.updated, now.setSlot i (updateSlot (now.slots i) value expiry))
  | full (habsent : ¬ before.Contains key)
      (hfull : ∀ i, (before.slots i).state = stateOccupied) :
      SetEffect key value hash expiry clock before (.full, before)

/-- Evictions that leave every slot OCCUPIED did not happen. -/
theorem Evicts.eq_of_occupied {hash : UInt64} {clock : Clock} {a b : Arena}
    (h : Evicts hash clock a b) (hocc : ∀ i, (b.slots i).state = stateOccupied) : b = a := by
  refine Arena.ext' h.header fun i => ?_
  rcases h.slot i with heq | ⟨_, _, _, heq⟩
  · exact heq
  · have hstate := hocc i
    simp [heq] at hstate

theorem set_effect {arena : Arena} (hinv : TableInv hashFn arena) (key value : Bytes)
    (ttlSecs : UInt64) (clock : Clock) :
    SetEffect key value (hashFn key) (ttlToExpiry ttlSecs (clock 0)) clock arena
      (set hashFn arena key value ttlSecs clock) := by
  have hout := set_outcome hashFn arena key value ttlSecs clock
  generalize set hashFn arena key value ttlSecs clock = res at hout
  cases hout with
  | @claimed now firstTombstone e he hempty hscan =>
      have hnow := hinv.evicts hscan.evicts
      have habsent := hnow.absent_of_empty he hempty hscan.passed
      cases firstTombstone with
      | none =>
          refine .inserted hscan.evicts habsent he (by simp [hempty]) ?_ rfl
            (.inl ⟨⟨_, hempty⟩, rfl⟩)
          exact fun m hm => (hscan.passed m hm).nonempty
      | some target =>
          obtain ⟨d, hd, rfl, htomb, -⟩ := hscan.first
          refine .inserted hscan.evicts habsent (by omega) (by simp [htomb]) ?_ rfl
            (.inl ⟨⟨_, hempty⟩, rfl⟩)
          exact fun m hm => (hscan.passed m (by omega)).nonempty
  | @reused now target hscan =>
      have hnow := hinv.evicts hscan.evicts
      obtain ⟨d, hd, rfl, htomb, -⟩ := hscan.first
      have hnonempty : ∀ i, (now.slots i).state ≠ stateEmpty := by
        intro i
        obtain ⟨j, hj, rfl⟩ := exists_probeIndex (hashFn key) i
        exact (hscan.passed j hj).nonempty
      refine .inserted hscan.evicts (hnow.absent_of_full_scan hscan.passed) hd
        (by simp [htomb]) ?_ rfl (.inr ⟨hnonempty, rfl⟩)
      exact fun m _ => hnonempty (probeIndex (hashFn key) m)
  | updated he hocc hfp hlive hkey hscan => exact .updated hscan.evicts hocc hkey
  | @full now hscan =>
      have hnow := hinv.evicts hscan.evicts
      have hocc : ∀ i, (now.slots i).state = stateOccupied := by
        intro i
        obtain ⟨d, hd, rfl⟩ := exists_probeIndex (hashFn key) i
        rcases (hnow.slot _).known with hempty | hocc | htomb
        · exact ((hscan.passed d hd).nonempty hempty).elim
        · exact hocc
        · exact (hscan.first d hd htomb).elim
      obtain rfl := hscan.evicts.eq_of_occupied hocc
      exact .full (hinv.absent_of_full_scan hscan.passed) hocc

/-! ## Every operation keeps the invariant -/

section Preserved

variable {arena : Arena}

theorem TableInv.get (h : TableInv hashFn arena) (key : Bytes) (clock : Clock) :
    TableInv hashFn (get hashFn arena key clock).2 := by
  have hout := get_outcome hashFn arena key clock
  generalize MemLane.get hashFn arena key clock = res at hout
  cases hout with
  | absent | exhausted | found => exact h
  | expired he hocc hfp hexp hpassed => exact h.bury hocc

theorem TableInv.existsKey (h : TableInv hashFn arena) (key : Bytes) (clock : Clock) :
    TableInv hashFn (existsKey hashFn arena key clock).2 := h.get key clock

theorem TableInv.del (h : TableInv hashFn arena) (key : Bytes) :
    TableInv hashFn (del hashFn arena key).2 := by
  have hout := del_outcome hashFn arena key
  generalize MemLane.del hashFn arena key = res at hout
  cases hout with
  | absent | exhausted => exact h
  | deleted he hocc hfp hkey hpassed => exact (h.bury hocc).congr rfl

theorem TableInv.set (h : TableInv hashFn arena) {key : Bytes} (hk : key.length ≤ maxKeyLen)
    (value : Bytes) (ttlSecs : UInt64) (clock : Clock) :
    TableInv hashFn (set hashFn arena key value ttlSecs clock).2 := by
  have heff := set_effect h key value ttlSecs clock
  generalize MemLane.set hashFn arena key value ttlSecs clock = res at heff
  cases heff with
  | inserted hevicts habsent hd hfree hchain hslots hcount =>
      exact ((h.evicts hevicts).claim hk hd (Arena.only_of_absent habsent) hchain _).congr hslots
  | updated hevicts hocc hkey => exact (h.evicts hevicts).update _ _ _
  | full habsent hfull => exact h

end Preserved

/-! ## Reachable arenas -/

/-- The arenas that sequential client calls reach from a freshly created one. -/
def Reachable (hashFn : Bytes → UInt64) (arena : Arena) : Prop :=
  ∃ region calls, arena = arenaAfter hashFn region calls

/-- One client call keeps the invariant. -/
theorem TableInv.exec {arena : Arena} (h : TableInv hashFn arena) (call : Call) :
    TableInv hashFn (call.exec hashFn arena).2 := by
  obtain ⟨op, clock⟩ := call
  cases op with
  | get key =>
      simp only [Call.exec, MemLaneClient.get]
      split
      · exact h
      · exact h.get key clock
  | set key value ttlSecs =>
      simp only [Call.exec, MemLaneClient.set]
      split
      · exact h
      · next hk =>
          split
          · exact h
          · exact h.set (not_lt.mp hk) value ttlSecs clock
  | del key =>
      simp only [Call.exec, MemLaneClient.del]
      split
      · exact h
      · exact h.del key
  | existsKey key =>
      simp only [Call.exec, MemLaneClient.existsKey]
      split
      · exact h
      · exact h.existsKey key clock
  | flush => exact .flushAll arena

theorem TableInv.arenaAfter (hashFn : Bytes → UInt64) (region : Arena) (calls : List Call) :
    TableInv hashFn (arenaAfter hashFn region calls) :=
  Run.after_invariant (TableInv hashFn) (fun _ call h => h.exec call) (.createArena region) calls

/-- **The representation invariant, in terms of slots.**  After any client calls
on a fresh arena, with any fingerprint function, expiry times and clock
readings: OCCUPIED slots carry the hash of their key and admissible lengths;
distinct OCCUPIED slots store distinct keys; and no slot on the cyclic path
from a stored key's home to its slot is EMPTY. -/
theorem representation_invariant (hashFn : Bytes → UInt64) (region : Arena)
    (calls : List Call) :
    let arena := MemLane.arenaAfter hashFn region calls
    (∀ j, (arena.slots j).state = stateOccupied →
      (arena.slots j).fingerprint = hashFn (arena.slots j).readKey ∧
        (arena.slots j).keyLen.toNat ≤ maxKeyLen ∧ (arena.slots j).valLen.toNat ≤ maxValLen) ∧
    (∀ i j, (arena.slots i).state = stateOccupied → (arena.slots j).state = stateOccupied →
      (arena.slots i).readKey = (arena.slots j).readKey → i = j) ∧
    (∀ j, (arena.slots j).state = stateOccupied →
      ∀ d, d < slotCount → probeIndex (hashFn (arena.slots j).readKey) d = j →
        ∀ m, m ≤ d →
          (arena.slots (probeIndex (hashFn (arena.slots j).readKey) m)).state ≠ stateEmpty) := by
  intro arena
  have hinv : TableInv hashFn arena := .arenaAfter hashFn region calls
  refine ⟨fun j hocc => ?_, fun i j hi hj hkey => hinv.slot_unique hi hj hkey, ?_⟩
  · exact ⟨(hinv.slot j).fingerprint hocc, (hinv.slot j).keyLen hocc, (hinv.slot j).valLen hocc⟩
  · intro j hocc d hd hj m hm
    rcases Nat.lt_or_eq_of_le hm with hlt | rfl
    · refine hinv.nonempty_of_chain hd ?_ ?_ hlt
      · rw [Arena.probed, hj, hocc]
      · rw [Arena.probed, hj]
    · rw [hj, hocc]
      decide

end MemLane
