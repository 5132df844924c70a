import MemLane.History
import MemLane.StoredEntries

/-!
# Searches over settled slots

Clients search a table, one slot access at a time, whose slots hold still: a slot that has
held an entry keeps its data, never becomes EMPTY again, and never expires.  Other clients
may claim and bury slots meanwhile.

What a client knows in the middle of such a search stays true, so a search that ends
without its key shows the key absent from the arena at that moment, and one that finds its
key has read a single entry.
-/

namespace MemLane

variable {hashFn : Bytes → UInt64} {seen seen' : Fin slotCount → Prop} {arena arena' : Arena}
  {task : Task} {i : Nat} {now : UInt64}

/-- The slots `seen` have held an entry, and hold still. -/
structure Settled (hashFn : Bytes → UInt64) (seen : Fin slotCount → Prop) (arena : Arena) :
    Prop where
  inv : TableInv hashFn arena
  occupied : ∀ idx, (arena.slots idx).state = stateOccupied → seen idx
  nonempty : ∀ idx, seen idx → (arena.slots idx).state ≠ stateEmpty
  permanent : ∀ idx, seen idx → (arena.slots idx).expiresAtMs = 0

/-- The slots that hold an entry. -/
def Arena.held (arena : Arena) (idx : Fin slotCount) : Prop :=
  (arena.slots idx).state = stateOccupied

/-- What changes between two arenas without disturbing a search: EMPTY slots may be claimed,
and OCCUPIED slots buried. -/
structure Kept (seen : Fin slotCount → Prop) (before after : Arena) : Prop where
  nonempty : ∀ idx, (before.slots idx).state ≠ stateEmpty → (after.slots idx).state ≠ stateEmpty
  occupied : ∀ idx, (before.slots idx).state ≠ stateEmpty →
    (after.slots idx).state = stateOccupied → after.slots idx = before.slots idx
  data : ∀ idx, seen idx → (before.slots idx).SameData (after.slots idx)

theorem Kept.refl (seen : Fin slotCount → Prop) (arena : Arena) : Kept seen arena arena where
  nonempty := fun _ h => h
  occupied := fun _ _ _ => rfl
  data := fun _ _ => .refl _

/-- Only the slots matter. -/
theorem Kept.of_slots (h : arena'.slots = arena.slots) : Kept seen arena arena' where
  nonempty := fun idx hne => by
    rw [h]
    exact hne
  occupied := fun idx _ _ => by rw [h]
  data := fun idx _ => by
    rw [h]
    exact .refl _

theorem Kept.passed {key : Bytes} {hash : UInt64} {m : Nat} (h : Kept seen arena arena')
    (hpassed : Passed key hash (arena.probed hash m)) : Passed key hash (arena'.probed hash m) where
  nonempty := h.nonempty _ hpassed.nonempty
  mismatch := by
    intro hocc
    have hsame : arena'.probed hash m = arena.probed hash m := h.occupied _ hpassed.nonempty hocc
    rw [hsame] at hocc ⊢
    exact hpassed.mismatch hocc

/-! ## What a client knows in the middle of a search -/

/-- What the accesses before this one have shown of the slot, given whether it has held an
entry. -/
def Point.Knows (held : Prop) (slot : Slot) : Point → Prop
  | .state => True
  | .fingerprint | .expiry | .keyLen => held
  | .evict => False
  | .keyBuf len => held ∧ len = slot.keyLen

/-- What a client in the middle of a search knows.  Nothing is said about a client that
writes to a slot. -/
def Pc.Follows (hashFn : Bytes → UInt64) (seen : Fin slotCount → Prop) (arena : Arena) : Pc → Prop
  | .probe task i point =>
      (∀ m, m < i → Passed task.key (hashFn task.key) (arena.probed (hashFn task.key) m)) ∧
        point.Knows (seen (probeIndex (hashFn task.key) i)) (arena.probed (hashFn task.key) i)
  | .valLen key idx => seen idx ∧ (arena.slots idx).readKey = key
  | .valBuf key idx len =>
      seen idx ∧ (arena.slots idx).readKey = key ∧ len = (arena.slots idx).valLen
  | .delCas key i =>
      (∀ m, m < i → Passed key (hashFn key) (arena.probed (hashFn key) m)) ∧
        seen (probeIndex (hashFn key) i) ∧ (arena.probed (hashFn key) i).readKey = key
  | _ => True

/-- A search knows nothing at its first load. -/
theorem Pc.follows_first (hashFn : Bytes → UInt64) (seen : Fin slotCount → Prop) (arena : Arena)
    (task : Task) : (Pc.probe task 0 .state).Follows hashFn seen arena :=
  ⟨fun m hm => absurd hm (Nat.not_lt_zero m), trivial⟩

theorem Point.Knows.mono {held held' : Prop} {slot slot' : Slot} {point : Point}
    (h : point.Knows held slot) (hheld : held → held' ∧ slot'.keyLen = slot.keyLen) :
    point.Knows held' slot' := by
  cases point with
  | state => trivial
  | evict => exact h.elim
  | keyBuf len => exact ⟨(hheld h.1).1, h.2.trans (hheld h.1).2.symm⟩
  | _ => exact (hheld h).1

/-- What a client knows stays true. -/
theorem Pc.Follows.mono {pc : Pc} (h : pc.Follows hashFn seen arena)
    (hkept : Kept seen arena arena') (hseen : ∀ idx, seen idx → seen' idx) :
    pc.Follows hashFn seen' arena' := by
  cases pc with
  | probe task i point =>
      obtain ⟨hpassed, hknows⟩ := h
      refine ⟨fun m hm => hkept.passed (hpassed m hm), hknows.mono ?_⟩
      intro hheld
      exact ⟨hseen _ hheld, (hkept.data _ hheld).keyLen⟩
  | valLen key idx =>
      obtain ⟨hheld, hkey⟩ := h
      exact ⟨hseen _ hheld, (hkept.data _ hheld).readKey.trans hkey⟩
  | valBuf key idx len =>
      obtain ⟨hheld, hkey, hlen⟩ := h
      exact ⟨hseen _ hheld, (hkept.data _ hheld).readKey.trans hkey,
        hlen.trans (hkept.data _ hheld).valLen.symm⟩
  | delCas key i =>
      obtain ⟨hpassed, hheld, hkey⟩ := h
      exact ⟨fun m hm => hkept.passed (hpassed m hm), hseen _ hheld,
        (hkept.data _ hheld).readKey.trans hkey⟩
  | _ => trivial

/-! ## One access of a search -/

/-- Where one access takes a search: on, to its end without the key, or to the key. -/
inductive Sought (hashFn : Bytes → UInt64) (seen : Fin slotCount → Prop) (arena : Arena)
    (task : Task) (i : Nat) : Pc → Prop
  | onward {next : Nat} {point : Point}
      (h : (Pc.probe task next point).Follows hashFn seen arena) :
      Sought hashFn seen arena task i (.probe task next point)
  | noted {idx : Fin slotCount} (hstate : (arena.slots idx).state = stateTombstone)
      (h : (Pc.probe (task.note idx) (i + 1) .state).Follows hashFn seen arena) :
      Sought hashFn seen arena task i (.probe (task.note idx) (i + 1) .state)
  | exhausted (habsent : ¬ arena.Contains task.key) :
      Sought hashFn seen arena task i task.exhausted
  | empty {e : Nat} (he : e < slotCount)
      (hstate : (arena.probed (hashFn task.key) e).state = stateEmpty)
      (hpassed : ∀ m, m < e → Passed task.key (hashFn task.key) (arena.probed (hashFn task.key) m))
      (habsent : ¬ arena.Contains task.key) :
      Sought hashFn seen arena task i (task.atEmpty (probeIndex (hashFn task.key) e))
  | key (hpassed : ∀ m, m < i →
        Passed task.key (hashFn task.key) (arena.probed (hashFn task.key) m))
      (hheld : seen (probeIndex (hashFn task.key) i))
      (hkey : (arena.probed (hashFn task.key) i).readKey = task.key) :
      Sought hashFn seen arena task i (task.atKey (probeIndex (hashFn task.key) i) i)

theorem Sought.pass (hpassed : ∀ m, m < i →
      Passed task.key (hashFn task.key) (arena.probed (hashFn task.key) m))
    (hself : Passed task.key (hashFn task.key) (arena.probed (hashFn task.key) i)) :
    Sought hashFn seen arena task i (task.continue i) :=
  .onward ⟨forall_lt_succ hpassed hself, trivial⟩

/-- The load of a slot's state. -/
theorem Settled.sought_state (h : Settled hashFn seen arena)
    (hpassed : ∀ m, m < i → Passed task.key (hashFn task.key) (arena.probed (hashFn task.key) m)) :
    ((Pc.probe task i .state).access hashFn arena now).1 = arena ∧
      Sought hashFn seen arena task i ((Pc.probe task i .state).access hashFn arena now).2 := by
  by_cases hi : i < slotCount
  · rcases (h.inv.slot (probeIndex (hashFn task.key) i)).known with hempty | hocc | htomb
    · have hstate : (arena.probed (hashFn task.key) i).state = stateEmpty := hempty
      rw [access_empty now hi hstate]
      exact ⟨rfl, .empty hi hstate hpassed (h.inv.absent_of_empty hi hstate hpassed)⟩
    · have hstate : (arena.probed (hashFn task.key) i).state = stateOccupied := hocc
      rw [access_occupied now hi hstate]
      exact ⟨rfl, .onward ⟨hpassed, h.occupied _ hocc⟩⟩
    · have hstate : (arena.probed (hashFn task.key) i).state = stateTombstone := htomb
      rw [access_tombstone now hi hstate]
      refine ⟨rfl, .noted htomb ⟨?_, trivial⟩⟩
      rw [Task.note_key]
      exact forall_lt_succ hpassed (.of_not_occupied (by simp [hstate]) (by simp [hstate]))
  · rw [access_exhausted now hi]
    exact ⟨rfl, .exhausted (h.inv.absent_of_full_scan fun m hm => hpassed m (by omega))⟩

/-- One access of a search. -/
theorem Settled.sought (h : Settled hashFn seen arena) {point : Point}
    (hfollows : (Pc.probe task i point).Follows hashFn seen arena) :
    ((Pc.probe task i point).access hashFn arena now).1 = arena ∧
      Sought hashFn seen arena task i ((Pc.probe task i point).access hashFn arena now).2 := by
  obtain ⟨hpassed, hknows⟩ := hfollows
  cases point with
  | state => exact h.sought_state hpassed
  | fingerprint =>
      have hnonempty := h.nonempty _ hknows
      by_cases hfp : (arena.probed (hashFn task.key) i).fingerprint = hashFn task.key
      · rw [access_fingerprint_eq now hfp]
        refine ⟨rfl, .onward ⟨hpassed, ?_⟩⟩
        cases task with
        | del key => exact hknows
        | _ => exact hknows
      · rw [access_fingerprint_ne now hfp]
        exact ⟨rfl, .pass hpassed (.of_fingerprint hnonempty hfp)⟩
  | expiry =>
      have hlive : ¬ (arena.probed (hashFn task.key) i).isExpired now = true := by
        have hzero := Slot.isExpired_of_zero (h.permanent _ hknows) now
        rw [Arena.probed, hzero]
        exact Bool.false_ne_true
      rw [access_not_expired now hlive]
      exact ⟨rfl, .onward ⟨hpassed, hknows⟩⟩
  | evict => exact hknows.elim
  | keyLen => exact ⟨rfl, .onward ⟨hpassed, hknows, rfl⟩⟩
  | keyBuf len =>
      obtain ⟨hheld, rfl⟩ := hknows
      have hnonempty := h.nonempty _ hheld
      rw [Pc.access, probeAccess]
      split
      · next hkey => exact ⟨rfl, .pass hpassed ⟨hnonempty, fun _ _ => hkey⟩⟩
      · next hkey => exact ⟨rfl, .key hpassed hheld (not_not.mp hkey)⟩

end MemLane
