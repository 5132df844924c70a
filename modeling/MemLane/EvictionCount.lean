import MemLane.Occupancy

/-!
# The occupancy counter and expiry

`del` takes the entry that it removes off `used_count`.  `lazy_evict_if_expired` turns a
slot into a tombstone in the same way and leaves the counter alone, so every eviction puts
the counter one further ahead of the table.

Whether a search evicts is decided by the arena before it: the search has to come to an
expired entry with the fingerprint of its key before it ends.
-/

namespace MemLane

/-- How far the counter is ahead of the number of OCCUPIED slots, as a `u64`. -/
def Arena.drift (arena : Arena) : UInt64 := usedCount arena - UInt64.ofNat arena.occupied

/-- The counter has changed by what the number of OCCUPIED slots has changed by. -/
def CountsChange (before after : Arena) : Prop :=
  usedCount after - usedCount before =
    UInt64.ofNat after.occupied - UInt64.ofNat before.occupied

/-- An OCCUPIED slot with the given fingerprint, expired at the reading. -/
def Slot.Lapsed (slot : Slot) (hash now : UInt64) : Prop :=
  slot.state = stateOccupied ∧ slot.fingerprint = hash ∧ slot.isExpired now = true

instance (slot : Slot) (hash now : UInt64) : Decidable (slot.Lapsed hash now) :=
  inferInstanceAs (Decidable (_ ∧ _ ∧ _))

/-- From step `i` on, the search for the key comes to a lapsed slot: the slots before it
are neither EMPTY nor the key's own.  Step `m` reads the clock as `clock m`. -/
def MeetsLapsed (arena : Arena) (key : Bytes) (hash : UInt64) (clock : Clock) (i : Nat) : Prop :=
  ∃ e, i ≤ e ∧ e < slotCount ∧ (arena.probed hash e).Lapsed hash (clock e) ∧
    ∀ m, i ≤ m → m < e → Passed key hash (arena.probed hash m)

variable {arena now : Arena} {key value : Bytes} {hash expiry : UInt64} {clock : Clock} {i : Nat}

/-! ## Drift -/

theorem countsChange_iff {before after : Arena} :
    CountsChange before after ↔ after.drift = before.drift := by
  unfold CountsChange Arena.drift
  constructor
  · intro h
    grind
  · intro h
    grind

/-- The number of evictions of one call does not wrap. -/
theorem drift_add_iff {d : UInt64} {k : Nat} (hk : k ≤ slotCount) :
    d + UInt64.ofNat k = d ↔ k = 0 := by
  have hsmall : k < 2 ^ 64 := Nat.lt_of_le_of_lt hk (by decide)
  constructor
  · intro h
    have hzero : UInt64.ofNat k = 0 := by grind
    have hnat := congrArg UInt64.toNat hzero
    rw [UInt64.toNat_ofNat_of_lt' hsmall] at hnat
    exact hnat
  · intro h
    rw [h]
    exact UInt64.add_zero d

theorem Arena.drift_congr {a b : Arena} (hocc : b.occupied = a.occupied)
    (hused : usedCount b = usedCount a) : b.drift = a.drift := by
  rw [Arena.drift, Arena.drift, hocc, hused]

/-- An insertion that counts itself keeps the drift. -/
theorem Arena.drift_claim {target : Fin slotCount} {slot : Slot}
    (hfree : (arena.slots target).state ≠ stateOccupied) (hslot : slot.state = stateOccupied) :
    (arena.setSlot target slot).fetchAddUsed.drift = arena.drift := by
  have hocc : (arena.setSlot target slot).fetchAddUsed.occupied = arena.occupied + 1 :=
    Arena.occupied_place hfree hslot
  have hused : usedCount (arena.setSlot target slot).fetchAddUsed = usedCount arena + 1 := rfl
  have hcast : UInt64.ofNat (arena.occupied + 1) = UInt64.ofNat arena.occupied + 1 :=
    UInt64.ofNat_add _ _
  rw [Arena.drift, Arena.drift, hocc, hused, hcast]
  grind

/-- An eviction puts the counter one further ahead. -/
theorem Arena.drift_bury {target : Fin slotCount}
    (hocc : (arena.slots target).state = stateOccupied) :
    (arena.setSlot target (arena.slots target).buried).drift = arena.drift + 1 := by
  have hbury := Arena.occupied_bury hocc
  have hused : usedCount (arena.setSlot target (arena.slots target).buried) = usedCount arena := rfl
  have hcast := UInt64.ofNat_add (arena.setSlot target (arena.slots target).buried).occupied 1
  rw [hbury] at hcast
  rw [Arena.drift, Arena.drift, hused, hcast]
  grind

/-! ## Meeting an expired entry -/

theorem not_meetsLapsed_slotCount : ¬ MeetsLapsed arena key hash clock slotCount := by
  intro h
  obtain ⟨e, hle, hlt, _⟩ := h
  omega

/-- A slot that is passed and has not lapsed does not matter. -/
theorem meetsLapsed_succ_iff (hpassed : Passed key hash (arena.probed hash i))
    (hlive : ¬ (arena.probed hash i).Lapsed hash (clock i)) :
    MeetsLapsed arena key hash clock (i + 1) ↔ MeetsLapsed arena key hash clock i := by
  constructor
  · intro h
    obtain ⟨e, hle, hlt, hlapsed, hbefore⟩ := h
    refine ⟨e, by omega, hlt, hlapsed, ?_⟩
    intro m hm hme
    by_cases heq : m = i
    · rw [heq]
      exact hpassed
    · exact hbefore m (by omega) hme
  · intro h
    obtain ⟨e, hle, hlt, hlapsed, hbefore⟩ := h
    have hne : e ≠ i := by
      intro heq
      rw [heq] at hlapsed
      exact hlive hlapsed
    exact ⟨e, by omega, hlt, hlapsed, fun m hm hme => hbefore m (by omega) hme⟩

/-- Where the search ends at a slot that has not lapsed, it has met none. -/
theorem not_meetsLapsed_of_stop (hstop : ¬ Passed key hash (arena.probed hash i))
    (hlive : ¬ (arena.probed hash i).Lapsed hash (clock i)) :
    ¬ MeetsLapsed arena key hash clock i := by
  intro h
  obtain ⟨e, hle, hlt, hlapsed, hbefore⟩ := h
  by_cases heq : e = i
  · rw [heq] at hlapsed
    exact hlive hlapsed
  · exact hstop (hbefore i (Nat.le_refl i) (by omega))

theorem meetsLapsed_self (hi : i < slotCount)
    (hlapsed : (arena.probed hash i).Lapsed hash (clock i)) :
    MeetsLapsed arena key hash clock i :=
  ⟨i, Nat.le_refl i, hi, hlapsed, fun m hm hme => by omega⟩

theorem Slot.not_lapsed_of_state {slot : Slot} {t : UInt64} (h : slot.state ≠ stateOccupied) :
    ¬ slot.Lapsed hash t := fun hlapsed => h hlapsed.1

theorem Slot.not_lapsed_of_fingerprint {slot : Slot} {t : UInt64} (h : slot.fingerprint ≠ hash) :
    ¬ slot.Lapsed hash t := fun hlapsed => h hlapsed.2.1

theorem Slot.not_lapsed_of_live {slot : Slot} {t : UInt64} (h : slot.isExpired t = false) :
    ¬ slot.Lapsed hash t := by
  intro hlapsed
  rw [hlapsed.2.2] at h
  cases h

/-! ## The probe loops -/

/-- A `get` evicts at most once, and does if it meets a lapsed slot. -/
theorem getLoop_drift {left : Nat} (hsum : i + left = slotCount) :
    ∃ k, k ≤ 1 ∧ (getLoop arena key hash clock i left).2.drift = arena.drift + UInt64.ofNat k ∧
      (k = 0 ↔ ¬ MeetsLapsed arena key hash clock i) := by
  have hzero : arena.drift = arena.drift + UInt64.ofNat 0 := (UInt64.add_zero _).symm
  fun_induction getLoop arena key hash clock i left with
  | case1 i =>
      obtain rfl : i = slotCount := hsum
      exact ⟨0, by omega, hzero, iff_of_true rfl not_meetsLapsed_slotCount⟩
  | case2 i left idx slot hempty =>
      have hlive : ¬ slot.Lapsed hash (clock i) := Slot.not_lapsed_of_state (by simp [hempty])
      exact ⟨0, by omega, hzero,
        iff_of_true rfl (not_meetsLapsed_of_stop (fun h => h.nonempty hempty) hlive)⟩
  | case3 i left idx slot hempty htomb ih =>
      have hocc : slot.state ≠ stateOccupied := by simp [htomb]
      obtain ⟨k, hk, hdrift, hiff⟩ := ih (by omega)
      rw [meetsLapsed_succ_iff (.of_not_occupied hempty hocc) (Slot.not_lapsed_of_state hocc)] at hiff
      exact ⟨k, hk, hdrift, hiff⟩
  | case4 i left idx slot hempty _ _ hfp ih =>
      obtain ⟨k, hk, hdrift, hiff⟩ := ih (by omega)
      rw [meetsLapsed_succ_iff (.of_fingerprint hempty hfp)
        (Slot.not_lapsed_of_fingerprint hfp)] at hiff
      exact ⟨k, hk, hdrift, hiff⟩
  | case5 i left idx slot _ _ hocc hfp evicted hev =>
      obtain ⟨hexp, rfl⟩ := Slot.lazyEvictIfExpired_eq_true hocc hev
      have hmeets : MeetsLapsed arena key hash clock i :=
        meetsLapsed_self (by omega) ⟨hocc, not_not.mp hfp, hexp⟩
      exact ⟨1, Nat.le_refl 1, Arena.drift_bury hocc, iff_of_false (by omega) (not_not.mpr hmeets)⟩
  | case6 i left idx slot hempty _ _ _ _ hev hkey ih =>
      have hlive := Slot.lazyEvictIfExpired_eq_false hev
      obtain ⟨k, hk, hdrift, hiff⟩ := ih (by omega)
      rw [meetsLapsed_succ_iff ⟨hempty, fun _ _ => hkey⟩ (Slot.not_lapsed_of_live hlive)] at hiff
      exact ⟨k, hk, hdrift, hiff⟩
  | case7 i left idx slot _ _ hocc hfp _ hev hkey =>
      have hlive := Slot.lazyEvictIfExpired_eq_false hev
      have hstop : ¬ Passed key hash slot :=
        fun h => h.mismatch hocc (not_not.mp hfp) (not_not.mp hkey)
      exact ⟨0, by omega, hzero,
        iff_of_true rfl (not_meetsLapsed_of_stop hstop (Slot.not_lapsed_of_live hlive))⟩
  | case8 i left idx slot hempty _ hocc ih =>
      obtain ⟨k, hk, hdrift, hiff⟩ := ih (by omega)
      rw [meetsLapsed_succ_iff (.of_not_occupied hempty hocc) (Slot.not_lapsed_of_state hocc)] at hiff
      exact ⟨k, hk, hdrift, hiff⟩

/-- An EMPTY slot ahead, so that the loop of `set` ends before it has seen every slot. -/
def EmptyAhead (arena : Arena) (hash : UInt64) (i : Nat) : Prop :=
  ∃ e, i ≤ e ∧ e < slotCount ∧ (arena.probed hash e).state = stateEmpty

theorem EmptyAhead.succ (h : EmptyAhead now hash i)
    (hne : (now.probed hash i).state ≠ stateEmpty) : EmptyAhead now hash (i + 1) := by
  obtain ⟨e, hle, hlt, hempty⟩ := h
  have hmove : e ≠ i := by
    intro heq
    rw [heq] at hempty
    exact hne hempty
  exact ⟨e, by omega, hlt, hempty⟩

theorem EmptyAhead.setSlot (h : EmptyAhead now hash (i + 1)) (slot : Slot) :
    EmptyAhead (now.setSlot (probeIndex hash i) slot) hash (i + 1) := by
  obtain ⟨e, hle, hlt, hempty⟩ := h
  refine ⟨e, hle, hlt, ?_⟩
  rw [probed_setSlot_of_ne now slot (by omega) hlt (by omega)]
  exact hempty

/-- The reuse candidate of `set` is a slot that is free to be claimed. -/
def CandidateFree (arena : Arena) (firstTombstone : Option (Fin slotCount)) : Prop :=
  ∀ target, firstTombstone = some target → (arena.slots target).state ≠ stateOccupied

theorem CandidateFree.record {firstTombstone : Option (Fin slotCount)} {idx : Fin slotCount}
    (h : CandidateFree now firstTombstone) (hfree : (now.slots idx).state ≠ stateOccupied) :
    CandidateFree now (firstTombstone.or (some idx)) := by
  cases firstTombstone with
  | none =>
      intro target htarget
      rw [Option.none_or] at htarget
      obtain rfl := Option.some.inj htarget
      exact hfree
  | some candidate => exact h

theorem CandidateFree.bury {firstTombstone : Option (Fin slotCount)}
    (h : CandidateFree now firstTombstone) (idx : Fin slotCount) (slot : Slot) :
    CandidateFree (now.setSlot idx slot.buried) firstTombstone := by
  intro target htarget
  rw [Arena.setSlot_slots]
  split
  · simp
  · exact h target htarget

/-- The drift grows by the number of slots that a `set` evicts, and it evicts one if it
meets a lapsed slot. -/
theorem setLoop_drift {left : Nat} {firstTombstone : Option (Fin slotCount)}
    (hsum : i + left = slotCount) (hcandidate : CandidateFree now firstTombstone)
    (hempty : EmptyAhead now hash i) :
    ∃ k, k ≤ left ∧
      (setLoop key value hash expiry clock now firstTombstone i left).2.drift =
        now.drift + UInt64.ofNat k ∧
      (k = 0 ↔ ¬ MeetsLapsed now key hash (fun m => clock (m + 1)) i) := by
  fun_induction setLoop key value hash expiry clock now firstTombstone i left with
  | case1 now i target =>
      obtain ⟨e, hle, hlt, _⟩ := hempty
      omega
  | case2 now i =>
      obtain ⟨e, hle, hlt, _⟩ := hempty
      omega
  | case3 now firstTombstone i left idx slot hstate target =>
      have hfree : (now.slots target).state ≠ stateOccupied := by
        cases firstTombstone with
        | none => exact (by simp [hstate] : slot.state ≠ stateOccupied)
        | some candidate => exact hcandidate candidate rfl
      have hlive : ¬ slot.Lapsed hash (clock (i + 1)) := Slot.not_lapsed_of_state (by simp [hstate])
      refine ⟨0, Nat.zero_le _, ?_,
        iff_of_true rfl (not_meetsLapsed_of_stop (fun h => h.nonempty hstate) hlive)⟩
      exact (Arena.drift_claim hfree rfl).trans (UInt64.add_zero _).symm
  | case4 now firstTombstone i left idx slot hstate htomb ih =>
      have hocc : slot.state ≠ stateOccupied := by simp [htomb]
      obtain ⟨k, hk, hdrift, hiff⟩ := ih (by omega) (hcandidate.record hocc) (hempty.succ hstate)
      rw [meetsLapsed_succ_iff (.of_not_occupied hstate hocc) (Slot.not_lapsed_of_state hocc)] at hiff
      exact ⟨k, by omega, hdrift, hiff⟩
  | case5 now firstTombstone i left idx slot hstate htomb _ hfp ih =>
      obtain ⟨k, hk, hdrift, hiff⟩ := ih (by omega) hcandidate (hempty.succ hstate)
      rw [meetsLapsed_succ_iff (.of_fingerprint hstate hfp)
        (Slot.not_lapsed_of_fingerprint hfp)] at hiff
      exact ⟨k, by omega, hdrift, hiff⟩
  | case6 now firstTombstone i left idx slot hstate _ hocc hfp evicted hev ih =>
      obtain ⟨hexp, rfl⟩ := Slot.lazyEvictIfExpired_eq_true hocc hev
      have hmeets : MeetsLapsed now key hash (fun m => clock (m + 1)) i :=
        meetsLapsed_self (by omega) ⟨hocc, not_not.mp hfp, hexp⟩
      have hburied : ((now.setSlot idx slot.buried).slots idx).state ≠ stateOccupied := by simp
      obtain ⟨k, hk, hdrift, _⟩ := ih (by omega) ((hcandidate.bury idx slot).record hburied)
        ((hempty.succ hstate).setSlot slot.buried)
      refine ⟨k + 1, by omega, ?_, iff_of_false (by omega) (not_not.mpr hmeets)⟩
      rw [hdrift, Arena.drift_bury hocc, UInt64.ofNat_add]
      grind
  | case7 now firstTombstone i left idx slot hstate htomb _ _ _ hev hkey ih =>
      have hlive : ¬ slot.Lapsed hash (clock (i + 1)) :=
        Slot.not_lapsed_of_live (Slot.lazyEvictIfExpired_eq_false hev)
      have hstep : MeetsLapsed now key hash (fun m => clock (m + 1)) (i + 1) ↔
          MeetsLapsed now key hash (fun m => clock (m + 1)) i :=
        meetsLapsed_succ_iff ⟨hstate, fun _ _ => hkey⟩ hlive
      obtain ⟨k, hk, hdrift, hiff⟩ := ih (by omega) hcandidate (hempty.succ hstate)
      rw [hstep] at hiff
      exact ⟨k, by omega, hdrift, hiff⟩
  | case8 now firstTombstone i left idx slot _ _ hocc hfp _ hev hkey =>
      have hlive : ¬ slot.Lapsed hash (clock (i + 1)) :=
        Slot.not_lapsed_of_live (Slot.lazyEvictIfExpired_eq_false hev)
      have hstop : ¬ Passed key hash slot :=
        fun h => h.mismatch hocc (not_not.mp hfp) (not_not.mp hkey)
      have hsame : (now.setSlot idx (updateSlot slot value expiry)).drift = now.drift :=
        Arena.drift_congr (Arena.occupied_replace hocc hocc) rfl
      refine ⟨0, Nat.zero_le _, hsame.trans (UInt64.add_zero _).symm, ?_⟩
      exact iff_of_true rfl (not_meetsLapsed_of_stop hstop hlive)
  | case9 now firstTombstone i left idx slot hstate htomb hocc ih =>
      obtain ⟨k, hk, hdrift, hiff⟩ := ih (by omega) hcandidate (hempty.succ hstate)
      rw [meetsLapsed_succ_iff (.of_not_occupied hstate hocc) (Slot.not_lapsed_of_state hocc)] at hiff
      exact ⟨k, by omega, hdrift, hiff⟩

/-! ## Calls -/

theorem get_countsChange_iff (hashFn : Bytes → UInt64) (arena : Arena) (key : Bytes)
    (clock : Clock) :
    CountsChange arena (get hashFn arena key clock).2 ↔
      ¬ MeetsLapsed arena key (hashFn key) clock 0 := by
  rw [countsChange_iff, get]
  obtain ⟨k, hk, hdrift, hiff⟩ := getLoop_drift (Nat.zero_add slotCount)
  rw [hdrift, ← hiff]
  exact drift_add_iff (hk.trans (by decide))

theorem set_countsChange_iff (hashFn : Bytes → UInt64) {arena : Arena} (key value : Bytes)
    (ttlSecs : UInt64) (clock : Clock) (hempty : ∃ i, (arena.slots i).state = stateEmpty) :
    CountsChange arena (set hashFn arena key value ttlSecs clock).2 ↔
      ¬ MeetsLapsed arena key (hashFn key) (fun m => clock (m + 1)) 0 := by
  have hahead : EmptyAhead arena (hashFn key) 0 := by
    obtain ⟨j, hj⟩ := hempty
    obtain ⟨e, he, rfl⟩ := exists_probeIndex (hashFn key) j
    exact ⟨e, Nat.zero_le e, he, hj⟩
  have hnone : CandidateFree arena none := fun target htarget => by cases htarget
  obtain ⟨k, hk, hdrift, hiff⟩ := setLoop_drift (Nat.zero_add slotCount) hnone hahead
  rw [countsChange_iff, ← hiff, set, hdrift]
  exact drift_add_iff hk

/-- **The counter follows the table across a call if and only if the call's search meets no
expired entry with the fingerprint of its key.**  `set` reads the clock once more, before
its loop. -/
theorem used_count_follows_iff (hashFn : Bytes → UInt64) (arena : Arena) (key value : Bytes)
    (ttlSecs : UInt64) (clock : Clock) (hempty : ∃ i, (arena.slots i).state = stateEmpty) :
    (CountsChange arena (get hashFn arena key clock).2 ↔
      ¬ MeetsLapsed arena key (hashFn key) clock 0) ∧
    (CountsChange arena (existsKey hashFn arena key clock).2 ↔
      ¬ MeetsLapsed arena key (hashFn key) clock 0) ∧
    (CountsChange arena (set hashFn arena key value ttlSecs clock).2 ↔
      ¬ MeetsLapsed arena key (hashFn key) (fun m => clock (m + 1)) 0) :=
  ⟨get_countsChange_iff hashFn arena key clock, get_countsChange_iff hashFn arena key clock,
    set_countsChange_iff hashFn key value ttlSecs clock hempty⟩

/-- One key, stored for a second. -/
def shortLivedCalls : List Call := [⟨.set [1] [1] 1, fun _ => 1000⟩]

theorem shortLived_empty :
    ∃ i, ((arenaAfter siphash zeroedRegion shortLivedCalls).slots i).state = stateEmpty :=
  ⟨probeIndex (siphash [1]) 1, by decide +kernel⟩

/-- The equivalences for the key after 999 milliseconds. -/
theorem used_count_follows_iff_shortLived :
    (CountsChange (arenaAfter siphash zeroedRegion shortLivedCalls)
        (get siphash (arenaAfter siphash zeroedRegion shortLivedCalls) [1] fun _ => 1999).2 ↔
      ¬ MeetsLapsed (arenaAfter siphash zeroedRegion shortLivedCalls) [1] (siphash [1])
        (fun _ => 1999) 0) ∧
    (CountsChange (arenaAfter siphash zeroedRegion shortLivedCalls)
        (existsKey siphash (arenaAfter siphash zeroedRegion shortLivedCalls) [1] fun _ => 1999).2 ↔
      ¬ MeetsLapsed (arenaAfter siphash zeroedRegion shortLivedCalls) [1] (siphash [1])
        (fun _ => 1999) 0) ∧
    (CountsChange (arenaAfter siphash zeroedRegion shortLivedCalls)
        (set siphash (arenaAfter siphash zeroedRegion shortLivedCalls) [1] [2] 0 fun _ => 1999).2 ↔
      ¬ MeetsLapsed (arenaAfter siphash zeroedRegion shortLivedCalls) [1] (siphash [1])
        (fun _ => 1999) 0) :=
  used_count_follows_iff siphash _ [1] [2] 0 (fun _ => 1999) shortLived_empty

/-- After two seconds the search of a `get` meets the key, expired. -/
theorem shortLived_lapsed :
    MeetsLapsed (arenaAfter siphash zeroedRegion shortLivedCalls) [1] (siphash [1])
      (fun _ => 3000) 0 :=
  meetsLapsed_self (by decide) (by decide +kernel)

/-- A `get` that evicts leaves the counter where it was. -/
theorem eviction_not_counted :
    ¬ ∀ (calls : List Call) (key : Bytes) (clock : Clock),
      (∃ i, ((arenaAfter siphash zeroedRegion calls).slots i).state = stateEmpty) →
        CountsChange (arenaAfter siphash zeroedRegion calls)
          (get siphash (arenaAfter siphash zeroedRegion calls) key clock).2 := by
  intro h
  have hcounts := h shortLivedCalls [1] (fun _ => 3000) shortLived_empty
  exact (get_countsChange_iff siphash _ [1] fun _ => 3000).mp hcounts shortLived_lapsed

end MemLane
