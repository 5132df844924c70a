import MemLane.HashMap

/-!
# What a probe loop can do

Each loop of `HashMap` is inverted once: its result is one of a few outcomes, and
each outcome comes with everything the loop has established about the slots it
passed.  Nothing here assumes an invariant of the arena; later files combine
these facts with one.
-/

namespace MemLane

/-- The slot after a successful OCCUPIED → TOMBSTONE exchange. -/
def Slot.buried (slot : Slot) : Slot := { slot with state := stateTombstone }

@[simp] theorem Slot.buried_state (slot : Slot) : slot.buried.state = stateTombstone := rfl

@[simp] theorem Slot.buried_cell (slot : Slot) : slot.buried.cell = .tombstone := by
  simp [Slot.buried, Slot.cell]

theorem Slot.lazyEvictIfExpired_eq_true {slot evicted : Slot} {now : UInt64}
    (hocc : slot.state = stateOccupied) (h : slot.lazyEvictIfExpired now = (true, evicted)) :
    slot.isExpired now = true ∧ evicted = slot.buried := by
  unfold Slot.lazyEvictIfExpired at h
  split at h
  · next hexp =>
      rw [Slot.compareExchange, if_pos hocc] at h
      exact ⟨hexp, (Prod.mk.inj h).2.symm⟩
  · cases h

theorem Slot.lazyEvictIfExpired_eq_false {slot evicted : Slot} {now : UInt64}
    (h : slot.lazyEvictIfExpired now = (false, evicted)) : slot.isExpired now = false := by
  unfold Slot.lazyEvictIfExpired at h
  split at h
  · cases h
  · next hlive => simpa using hlive

/-- `get` and `del` probe past this slot on their way to `key`: it is not EMPTY,
and if it is OCCUPIED with the fingerprint of the key, its key is another one. -/
structure Passed (key : Bytes) (hash : UInt64) (slot : Slot) : Prop where
  nonempty : slot.state ≠ stateEmpty
  mismatch : slot.state = stateOccupied → slot.fingerprint = hash → slot.readKey ≠ key

theorem Passed.of_not_occupied {key : Bytes} {hash : UInt64} {slot : Slot}
    (hne : slot.state ≠ stateEmpty) (hocc : slot.state ≠ stateOccupied) :
    Passed key hash slot := ⟨hne, fun h => (hocc h).elim⟩

theorem Passed.of_fingerprint {key : Bytes} {hash : UInt64} {slot : Slot}
    (hne : slot.state ≠ stateEmpty) (hfp : slot.fingerprint ≠ hash) :
    Passed key hash slot := ⟨hne, fun _ h => (hfp h).elim⟩

theorem forall_lt_succ {P : Nat → Prop} {i : Nat} (h : ∀ m, m < i → P m) (hi : P i) :
    ∀ m, m < i + 1 → P m := by
  intro m hm
  rcases Nat.lt_succ_iff_lt_or_eq.mp hm with hlt | rfl
  · exact h m hlt
  · exact hi

section Get

variable (arena : Arena) (key : Bytes) (hash : UInt64) (clock : Clock)

/-- The slots a `get` has passed: none of them OCCUPIED with the fingerprint of
the key and expired when it was examined. -/
def GetPassed (m : Nat) : Prop :=
  Passed key hash (arena.probed hash m) ∧
    ((arena.probed hash m).state = stateOccupied → (arena.probed hash m).fingerprint = hash →
      (arena.probed hash m).isExpired (clock m) = false)

/-- The outcomes of `get`. -/
inductive GetOutcome : GetResult × Arena → Prop
  | absent {e : Nat} (he : e < slotCount)
      (hempty : (arena.probed hash e).state = stateEmpty)
      (hpassed : ∀ m, m < e → GetPassed arena key hash clock m) :
      GetOutcome (.notFound, arena)
  | exhausted (hpassed : ∀ m, m < slotCount → GetPassed arena key hash clock m) :
      GetOutcome (.notFound, arena)
  | expired {e : Nat} (he : e < slotCount)
      (hocc : (arena.probed hash e).state = stateOccupied)
      (hfp : (arena.probed hash e).fingerprint = hash)
      (hexp : (arena.probed hash e).isExpired (clock e) = true)
      (hpassed : ∀ m, m < e → GetPassed arena key hash clock m) :
      GetOutcome (.expired, arena.setSlot (probeIndex hash e) (arena.probed hash e).buried)
  | found {e : Nat} (he : e < slotCount)
      (hocc : (arena.probed hash e).state = stateOccupied)
      (hfp : (arena.probed hash e).fingerprint = hash)
      (hlive : (arena.probed hash e).isExpired (clock e) = false)
      (hkey : (arena.probed hash e).readKey = key)
      (hpassed : ∀ m, m < e → GetPassed arena key hash clock m) :
      GetOutcome (.found (arena.probed hash e).readValue, arena)

variable {arena key hash clock}

theorem getLoop_outcome {i left : Nat} (hsum : i + left = slotCount)
    (hpassed : ∀ m, m < i → GetPassed arena key hash clock m) :
    GetOutcome arena key hash clock (getLoop arena key hash clock i left) := by
  fun_induction getLoop arena key hash clock i left with
  | case1 i =>
      obtain rfl : i = slotCount := hsum
      exact .exhausted hpassed
  | case2 i left idx slot hempty => exact .absent (by omega) hempty hpassed
  | case3 i left idx slot hempty htomb ih =>
      have hocc : slot.state ≠ stateOccupied := by simp [htomb]
      exact ih (by omega) (forall_lt_succ hpassed
        ⟨.of_not_occupied hempty hocc, fun h => (hocc h).elim⟩)
  | case4 i left idx slot hempty _ _ hfp ih =>
      exact ih (by omega) (forall_lt_succ hpassed
        ⟨.of_fingerprint hempty hfp, fun _ h => (hfp h).elim⟩)
  | case5 i left idx slot _ _ hocc hfp evicted hev =>
      obtain ⟨hexp, rfl⟩ := Slot.lazyEvictIfExpired_eq_true hocc hev
      exact .expired (by omega) hocc (not_not.mp hfp) hexp hpassed
  | case6 i left idx slot hempty _ _ _ _ hev hkey ih =>
      have hlive := Slot.lazyEvictIfExpired_eq_false hev
      exact ih (by omega) (forall_lt_succ hpassed ⟨⟨hempty, fun _ _ => hkey⟩, fun _ _ => hlive⟩)
  | case7 i left idx slot _ _ hocc hfp _ hev hkey =>
      have hlive := Slot.lazyEvictIfExpired_eq_false hev
      exact .found (by omega) hocc (not_not.mp hfp) hlive (not_not.mp hkey) hpassed
  | case8 i left idx slot hempty _ hocc ih =>
      exact ih (by omega) (forall_lt_succ hpassed
        ⟨.of_not_occupied hempty hocc, fun h => (hocc h).elim⟩)

/-- Every `get` ends in one of the outcomes. -/
theorem get_outcome (hashFn : Bytes → UInt64) (arena : Arena) (key : Bytes) (clock : Clock) :
    GetOutcome arena key (hashFn key) clock (get hashFn arena key clock) :=
  getLoop_outcome (Nat.zero_add _) (fun m hm => (Nat.not_lt_zero m hm).elim)

end Get

section Del

variable (arena : Arena) (key : Bytes) (hash : UInt64)

/-- The outcomes of `del`. -/
inductive DelOutcome : DelResult × Arena → Prop
  | absent {e : Nat} (he : e < slotCount)
      (hempty : (arena.probed hash e).state = stateEmpty)
      (hpassed : ∀ m, m < e → Passed key hash (arena.probed hash m)) :
      DelOutcome (.notFound, arena)
  | exhausted (hpassed : ∀ m, m < slotCount → Passed key hash (arena.probed hash m)) :
      DelOutcome (.notFound, arena)
  | deleted {e : Nat} (he : e < slotCount)
      (hocc : (arena.probed hash e).state = stateOccupied)
      (hfp : (arena.probed hash e).fingerprint = hash)
      (hkey : (arena.probed hash e).readKey = key)
      (hpassed : ∀ m, m < e → Passed key hash (arena.probed hash m)) :
      DelOutcome (.deleted,
        (arena.setSlot (probeIndex hash e) (arena.probed hash e).buried).fetchSubUsed)

variable {arena key hash}

theorem delLoop_outcome {i left : Nat} (hsum : i + left = slotCount)
    (hpassed : ∀ m, m < i → Passed key hash (arena.probed hash m)) :
    DelOutcome arena key hash (delLoop arena key hash i left) := by
  fun_induction delLoop arena key hash i left with
  | case1 i =>
      obtain rfl : i = slotCount := hsum
      exact .exhausted hpassed
  | case2 i left idx slot hempty => exact .absent (by omega) hempty hpassed
  | case3 i left idx slot hempty htomb ih =>
      have hocc : slot.state ≠ stateOccupied := by simp [htomb]
      exact ih (by omega) (forall_lt_succ hpassed (.of_not_occupied hempty hocc))
  | case4 i left idx slot hempty _ _ hfp ih =>
      exact ih (by omega) (forall_lt_succ hpassed (.of_fingerprint hempty hfp))
  | case5 i left idx slot hempty _ _ _ hkey ih =>
      exact ih (by omega) (forall_lt_succ hpassed ⟨hempty, fun _ _ => hkey⟩)
  | case6 i left idx slot _ _ hocc hfp hkey deleted hcas =>
      rw [Slot.compareExchange, if_pos hocc] at hcas
      cases hcas
      exact .deleted (by omega) hocc (not_not.mp hfp) (not_not.mp hkey) hpassed
  | case7 i left idx slot _ _ hocc _ _ _ hcas =>
      rw [Slot.compareExchange, if_pos hocc] at hcas
      cases hcas
  | case8 i left idx slot hempty _ hocc ih =>
      exact ih (by omega) (forall_lt_succ hpassed (.of_not_occupied hempty hocc))

/-- Every `del` ends in one of the outcomes. -/
theorem del_outcome (hashFn : Bytes → UInt64) (arena : Arena) (key : Bytes) :
    DelOutcome arena key (hashFn key) (del hashFn arena key) :=
  delLoop_outcome (Nat.zero_add _) (fun m hm => (Nat.not_lt_zero m hm).elim)

end Del

section Set

/-- `after` arises from `before` by lazily evicting slots with this fingerprint,
each found expired at the reading of the clock at its step. -/
structure Evicts (hash : UInt64) (clock : Clock) (before after : Arena) : Prop where
  header : after.header = before.header
  slot : ∀ j, after.slots j = before.slots j ∨
    ((before.slots j).state = stateOccupied ∧ (before.slots j).fingerprint = hash ∧
      (∃ m, m < slotCount ∧ j = probeIndex hash m ∧
        (before.slots j).isExpired (clock m) = true) ∧
      after.slots j = (before.slots j).buried)

theorem Evicts.refl (hash : UInt64) (clock : Clock) (arena : Arena) :
    Evicts hash clock arena arena := ⟨rfl, fun _ => .inl rfl⟩

/-- The reuse candidate of `set` is the first tombstone among the slots it has
passed. -/
def IsFirstTombstone (arena : Arena) (hash : UInt64) (i : Nat) :
    Option (Fin slotCount) → Prop
  | none => ∀ m, m < i → (arena.probed hash m).state ≠ stateTombstone
  | some target => ∃ d, d < i ∧ target = probeIndex hash d ∧
      (arena.probed hash d).state = stateTombstone ∧
      ∀ m, m < d → (arena.probed hash m).state ≠ stateTombstone

/-- Where the loop of `set` stands before step `i`: it has turned `before` into
`now` by evictions, has passed `i` slots, and remembers the first tombstone. -/
structure SetScan (key : Bytes) (hash : UInt64) (clock : Clock) (before now : Arena)
    (firstTombstone : Option (Fin slotCount)) (i : Nat) : Prop where
  evicts : Evicts hash (fun m => clock (m + 1)) before now
  ahead : ∀ m, i ≤ m → m < slotCount → now.probed hash m = before.probed hash m
  passed : ∀ m, m < i → Passed key hash (now.probed hash m)
  first : IsFirstTombstone now hash i firstTombstone

variable {key value : Bytes} {hash expiry : UInt64} {clock : Clock} {before now : Arena}
  {firstTombstone : Option (Fin slotCount)} {i : Nat}

theorem probeIndex_injective {i j : Nat} (hi : i < slotCount) (hj : j < slotCount)
    (h : probeIndex hash i = probeIndex hash j) : i = j := by
  rw [probeIndex_eq_cell, probeIndex_eq_cell] at h
  exact Probe.cell_injective hi hj h

theorem exists_probeIndex (hash : UInt64) (c : Fin slotCount) :
    ∃ d, d < slotCount ∧ probeIndex hash d = c := by
  obtain ⟨d, hd, heq⟩ := Probe.exists_cell (primaryIndex hash) c
  exact ⟨d, hd, (probeIndex_eq_cell hash d).trans heq⟩

/-- Rewriting the slot of one step leaves the slots of the other steps alone. -/
theorem probed_setSlot_of_ne (arena : Arena) (slot : Slot) {m : Nat} (hi : i < slotCount)
    (hm : m < slotCount) (hne : m ≠ i) :
    (arena.setSlot (probeIndex hash i) slot).probed hash m = arena.probed hash m := by
  have hidx : probeIndex hash m ≠ probeIndex hash i :=
    fun h => hne (probeIndex_injective hm hi h)
  simp [Arena.probed, hidx]

@[simp] theorem probed_setSlot_self (arena : Arena) (slot : Slot) :
    (arena.setSlot (probeIndex hash i) slot).probed hash i = slot := by
  simp [Arena.probed]

/-- Passing a slot that is no tombstone keeps the reuse candidate. -/
theorem IsFirstTombstone.pass (h : IsFirstTombstone now hash i firstTombstone)
    (hne : (now.probed hash i).state ≠ stateTombstone) :
    IsFirstTombstone now hash (i + 1) firstTombstone := by
  cases firstTombstone with
  | none => exact forall_lt_succ h hne
  | some target =>
      obtain ⟨d, hd, htarget, hrest⟩ := h
      exact ⟨d, by omega, htarget, hrest⟩

/-- Passing a tombstone records it unless there is a candidate already. -/
theorem IsFirstTombstone.record (h : IsFirstTombstone now hash i firstTombstone)
    (htomb : (now.probed hash i).state = stateTombstone) :
    IsFirstTombstone now hash (i + 1) (firstTombstone.or (some (probeIndex hash i))) := by
  cases firstTombstone with
  | none => exact ⟨i, by omega, rfl, htomb, h⟩
  | some target =>
      obtain ⟨d, hd, htarget, hrest⟩ := h
      exact ⟨d, by omega, htarget, hrest⟩

/-- The candidate depends only on the slots already passed. -/
theorem IsFirstTombstone.congr {now' : Arena}
    (h : IsFirstTombstone now hash i firstTombstone)
    (hsame : ∀ m, m < i → now'.probed hash m = now.probed hash m) :
    IsFirstTombstone now' hash i firstTombstone := by
  cases firstTombstone with
  | none =>
      intro m hm
      rw [hsame m hm]
      exact h m hm
  | some target =>
      obtain ⟨d, hd, htarget, hstate, hfirst⟩ := h
      refine ⟨d, hd, htarget, by rw [hsame d hd]; exact hstate, ?_⟩
      intro m hm
      rw [hsame m (by omega)]
      exact hfirst m hm

/-- The loop passes a slot without writing. -/
theorem SetScan.pass (h : SetScan key hash clock before now firstTombstone i)
    (hpassed : Passed key hash (now.probed hash i))
    (hne : (now.probed hash i).state ≠ stateTombstone) :
    SetScan key hash clock before now firstTombstone (i + 1) where
  evicts := h.evicts
  ahead := fun m hm => h.ahead m (by omega)
  passed := forall_lt_succ h.passed hpassed
  first := h.first.pass hne

/-- The loop passes a tombstone. -/
theorem SetScan.record (h : SetScan key hash clock before now firstTombstone i)
    (htomb : (now.probed hash i).state = stateTombstone) :
    SetScan key hash clock before now (firstTombstone.or (some (probeIndex hash i))) (i + 1) where
  evicts := h.evicts
  ahead := fun m hm => h.ahead m (by omega)
  passed := forall_lt_succ h.passed
    (.of_not_occupied (by simp [htomb]) (by simp [htomb]))
  first := h.first.record htomb

/-- The loop evicts an expired slot and treats it as a tombstone. -/
theorem SetScan.evict (h : SetScan key hash clock before now firstTombstone i)
    (hi : i < slotCount) (hocc : (now.probed hash i).state = stateOccupied)
    (hfp : (now.probed hash i).fingerprint = hash)
    (hexp : (now.probed hash i).isExpired (clock (i + 1)) = true) :
    SetScan key hash clock before
      (now.setSlot (probeIndex hash i) (now.probed hash i).buried)
      (firstTombstone.or (some (probeIndex hash i))) (i + 1) := by
  have hsame : ∀ m, m < i → (now.setSlot (probeIndex hash i)
      (now.probed hash i).buried).probed hash m = now.probed hash m :=
    fun m hm => probed_setSlot_of_ne now _ hi (by omega) (by omega)
  have hbefore := h.ahead i (Nat.le_refl i) hi
  refine ⟨⟨h.evicts.header, ?_⟩, ?_, ?_, ?_⟩
  · intro j
    by_cases hj : j = probeIndex hash i
    · subst hj
      rw [hbefore] at hocc hfp hexp
      refine .inr ⟨hocc, hfp, ⟨i, hi, rfl, hexp⟩, ?_⟩
      simp only [Arena.setSlot_slots, if_true, hbefore]
      rfl
    · simpa only [Arena.setSlot_slots, if_neg hj] using h.evicts.slot j
  · intro m hm hlt
    rw [probed_setSlot_of_ne now _ hi hlt (by omega)]
    exact h.ahead m (by omega) hlt
  · refine forall_lt_succ (fun m hm => ?_) ?_
    · rw [hsame m hm]
      exact h.passed m hm
    · exact .of_not_occupied (by simp) (by simp)
  · exact (h.first.congr hsame).record (by simp)

/-- The outcomes of `set`. -/
inductive SetOutcome (key value : Bytes) (hash expiry : UInt64) (clock : Clock)
    (before : Arena) : SetResult × Arena → Prop
  | claimed {now : Arena} {firstTombstone : Option (Fin slotCount)} {e : Nat}
      (he : e < slotCount) (hempty : (now.probed hash e).state = stateEmpty)
      (hscan : SetScan key hash clock before now firstTombstone e) :
      SetOutcome key value hash expiry clock before (.inserted,
        (now.setSlot (firstTombstone.getD (probeIndex hash e))
          (claimSlot (now.slots (firstTombstone.getD (probeIndex hash e)))
            hash key value expiry)).fetchAddUsed)
  | reused {now : Arena} {target : Fin slotCount}
      (hscan : SetScan key hash clock before now (some target) slotCount) :
      SetOutcome key value hash expiry clock before (.inserted,
        now.setSlot target (claimSlot (now.slots target) hash key value expiry))
  | updated {now : Arena} {firstTombstone : Option (Fin slotCount)} {e : Nat}
      (he : e < slotCount) (hocc : (now.probed hash e).state = stateOccupied)
      (hfp : (now.probed hash e).fingerprint = hash)
      (hlive : (now.probed hash e).isExpired (clock (e + 1)) = false)
      (hkey : (now.probed hash e).readKey = key)
      (hscan : SetScan key hash clock before now firstTombstone e) :
      SetOutcome key value hash expiry clock before (.updated,
        now.setSlot (probeIndex hash e) (updateSlot (now.probed hash e) value expiry))
  | full {now : Arena} (hscan : SetScan key hash clock before now none slotCount) :
      SetOutcome key value hash expiry clock before (.full, now)

theorem setLoop_outcome {left : Nat} (hsum : i + left = slotCount)
    (hscan : SetScan key hash clock before now firstTombstone i) :
    SetOutcome key value hash expiry clock before
      (setLoop key value hash expiry clock now firstTombstone i left) := by
  fun_induction setLoop key value hash expiry clock now firstTombstone i left with
  | case1 now i target =>
      obtain rfl : i = slotCount := hsum
      exact .reused hscan
  | case2 now i =>
      obtain rfl : i = slotCount := hsum
      exact .full hscan
  | case3 now firstTombstone i left idx slot hempty target =>
      exact .claimed (by omega) hempty hscan
  | case4 now firstTombstone i left idx slot _ htomb ih =>
      exact ih (by omega) (hscan.record htomb)
  | case5 now firstTombstone i left idx slot hempty htomb _ hfp ih =>
      exact ih (by omega) (hscan.pass (.of_fingerprint hempty hfp) htomb)
  | case6 now firstTombstone i left idx slot _ _ hocc hfp evicted hev ih =>
      obtain ⟨hexp, rfl⟩ := Slot.lazyEvictIfExpired_eq_true hocc hev
      exact ih (by omega) (hscan.evict (by omega) hocc (not_not.mp hfp) hexp)
  | case7 now firstTombstone i left idx slot hempty htomb _ _ _ _ hkey ih =>
      exact ih (by omega) (hscan.pass ⟨hempty, fun _ _ => hkey⟩ htomb)
  | case8 now firstTombstone i left idx slot _ _ hocc hfp _ hev hkey =>
      have hlive := Slot.lazyEvictIfExpired_eq_false hev
      exact .updated (by omega) hocc (not_not.mp hfp) hlive (not_not.mp hkey) hscan
  | case9 now firstTombstone i left idx slot hempty htomb hocc ih =>
      exact ih (by omega) (hscan.pass (.of_not_occupied hempty hocc) htomb)

/-- Every `set` ends in one of the outcomes. -/
theorem set_outcome (hashFn : Bytes → UInt64) (arena : Arena) (key value : Bytes)
    (ttlSecs : UInt64) (clock : Clock) :
    SetOutcome key value (hashFn key) (ttlToExpiry ttlSecs (clock 0)) clock arena
      (set hashFn arena key value ttlSecs clock) := by
  refine setLoop_outcome (Nat.zero_add _) ⟨.refl _ _ _, fun _ _ _ => rfl, ?_, ?_⟩
  · exact fun m hm => (Nat.not_lt_zero m hm).elim
  · exact fun m hm => (Nat.not_lt_zero m hm).elim

end Set

end MemLane
