import MemLane.ReadHistory
import MemLane.Occupancy

/-!
# When a `set` reports a full arena

The loop of `set` examines every slot of a table without EMPTY slots, and buries
an expired slot only if it carries the fingerprint of the key to be stored: the
fingerprint is compared first.  So the table counts as full for a key as soon as
no slot with that fingerprint has expired, whatever has become of the others.
-/

namespace MemLane

variable {hashFn : Bytes → UInt64} {arena : Arena} {key value k : Bytes} {hash expiry : UInt64}
  {clock : Clock} {firstTombstone : Option (Fin slotCount)} {i left : Nat}

/-! ## One slot -/

/-- A `set` passes this slot and cannot write to it. -/
structure Blocks (key : Bytes) (hash now : UInt64) (slot : Slot) : Prop where
  passed : Passed key hash slot
  unburied : slot.state ≠ stateTombstone
  live : slot.state = stateOccupied → slot.fingerprint = hash → slot.isExpired now = false

/-- Under the invariant such a slot is OCCUPIED. -/
theorem Blocks.occupied {slot : Slot} {now : UInt64} (h : Blocks key hash now slot)
    (hinv : SlotInv hashFn slot) : slot.state = stateOccupied := by
  rcases hinv.known with hempty | hocc | htomb
  · exact (h.passed.nonempty hempty).elim
  · exact hocc
  · exact (h.unburied htomb).elim

/-! ## The loop -/

/-- What holds from step `i` on, at the first step and at the rest. -/
theorem forall_from_iff {P : Nat → Prop} {n : Nat} (hi : i < n) :
    (∀ m, i ≤ m → m < n → P m) ↔ P i ∧ ∀ m, i + 1 ≤ m → m < n → P m := by
  constructor
  · intro h
    exact ⟨h i (Nat.le_refl i) hi, fun m hm => h m (by omega)⟩
  · intro h m hm hlt
    rcases Nat.lt_or_eq_of_le hm with hgt | rfl
    · exact h.2 m hgt hlt
    · exact h.1

/-- The loop reports a full table exactly when it has met no tombstone and all the
slots ahead block it.  The value and the expiry time have no part in it. -/
theorem setLoop_full_iff (hsum : i + left = slotCount) :
    (setLoop key value hash expiry clock arena firstTombstone i left).1 = .full ↔
      firstTombstone = none ∧ ∀ m, i ≤ m → m < slotCount →
        Blocks key hash (clock (m + 1)) (arena.probed hash m) := by
  fun_induction setLoop key value hash expiry clock arena firstTombstone i left with
  | case1 arena i target => simp
  | case2 arena i =>
      refine iff_of_true rfl ⟨rfl, fun m hm hlt => ?_⟩
      omega
  | case3 arena firstTombstone i left idx slot hempty target =>
      refine iff_of_false (by simp) fun h => ?_
      exact (h.2 i (Nat.le_refl i) (by omega)).passed.nonempty hempty
  | case4 arena firstTombstone i left idx slot hempty htomb ih =>
      rw [ih (by omega)]
      refine iff_of_false (by simp) fun h => ?_
      exact (h.2 i (Nat.le_refl i) (by omega)).unburied htomb
  | case5 arena firstTombstone i left idx slot hempty htomb hocc hfp ih =>
      have hblocks : Blocks key hash (clock (i + 1)) (arena.probed hash i) :=
        ⟨.of_fingerprint hempty hfp, htomb, fun _ h => (hfp h).elim⟩
      rw [ih (by omega), forall_from_iff (i := i) (by omega), and_iff_right hblocks]
  | case6 arena firstTombstone i left idx slot hempty htomb hocc hfp evicted hev ih =>
      rw [ih (by omega)]
      refine iff_of_false (by simp) fun h => ?_
      have hlive : slot.isExpired (clock (i + 1)) = false :=
        (h.2 i (Nat.le_refl i) (by omega)).live hocc (not_not.mp hfp)
      rw [(Slot.lazyEvictIfExpired_eq_true hocc hev).1] at hlive
      cases hlive
  | case7 arena firstTombstone i left idx slot hempty htomb hocc hfp _ hev hkey ih =>
      have hblocks : Blocks key hash (clock (i + 1)) (arena.probed hash i) :=
        ⟨⟨hempty, fun _ _ => hkey⟩, htomb, fun _ _ => Slot.lazyEvictIfExpired_eq_false hev⟩
      rw [ih (by omega), forall_from_iff (i := i) (by omega), and_iff_right hblocks]
  | case8 arena firstTombstone i left idx slot hempty htomb hocc hfp _ hev hkey =>
      refine iff_of_false (by simp) fun h => ?_
      have hpassed := (h.2 i (Nat.le_refl i) (by omega)).passed
      exact hpassed.mismatch hocc (not_not.mp hfp) (not_not.mp hkey)
  | case9 arena firstTombstone i left idx slot hempty htomb hocc ih =>
      have hblocks : Blocks key hash (clock (i + 1)) (arena.probed hash i) :=
        ⟨.of_not_occupied hempty hocc, htomb, fun h => (hocc h).elim⟩
      rw [ih (by omega), forall_from_iff (i := i) (by omega), and_iff_right hblocks]

/-! ## The map and the client -/

/-- The table has no room for the key: every slot is OCCUPIED, none of them by the key,
and none with the key's fingerprint is expired at the reading made for it. -/
structure Refuses (hashFn : Bytes → UInt64) (arena : Arena) (key : Bytes) (clock : Clock) :
    Prop where
  occupied : ∀ i, (arena.slots i).state = stateOccupied
  absent : ¬ arena.Contains key
  unexpired : ∀ m, m < slotCount → (arena.probed (hashFn key) m).fingerprint = hashFn key →
    (arena.probed (hashFn key) m).isExpired (clock (m + 1)) = false

theorem set_full_iff (hinv : TableInv hashFn arena) (ttlSecs : UInt64) :
    (set hashFn arena key value ttlSecs clock).1 = .full ↔ Refuses hashFn arena key clock := by
  rw [set, setLoop_full_iff (Nat.zero_add _), eq_self_iff_true, true_and]
  constructor
  · intro h
    have hblocks : ∀ m, m < slotCount →
        Blocks key (hashFn key) (clock (m + 1)) (arena.probed (hashFn key) m) :=
      fun m hm => h m (Nat.zero_le m) hm
    have hocc : ∀ m, m < slotCount → (arena.probed (hashFn key) m).state = stateOccupied :=
      fun m hm => (hblocks m hm).occupied (hinv.slot _)
    refine ⟨fun i => ?_, ?_, fun m hm hfp => (hblocks m hm).live (hocc m hm) hfp⟩
    · obtain ⟨m, hm, rfl⟩ := exists_probeIndex (hashFn key) i
      exact hocc m hm
    · exact hinv.absent_of_full_scan fun m hm => (hblocks m hm).passed
  · intro h m _ hm
    have hocc : (arena.probed (hashFn key) m).state = stateOccupied := h.occupied _
    refine ⟨⟨by simp [hocc], fun _ _ hkey => h.absent ⟨_, hocc, hkey⟩⟩, by simp [hocc], ?_⟩
    exact fun _ hfp => h.unexpired m hm hfp

/-- A `set` that reports a full table has changed nothing. -/
theorem set_full_arena (hinv : TableInv hashFn arena) {ttlSecs : UInt64}
    (h : (set hashFn arena key value ttlSecs clock).1 = .full) :
    (set hashFn arena key value ttlSecs clock).2 = arena := by
  have heff := set_effect hinv key value ttlSecs clock
  generalize set hashFn arena key value ttlSecs clock = res at heff h
  cases heff with
  | inserted | updated => cases h
  | full => rfl

/-- Within the limits, the client's answer is the map's. -/
theorem MemLaneClient.set_eq_arenaFull_iff (hk : key.length ≤ maxKeyLen)
    (hv : value.length ≤ maxValLen) (ttlSecs : UInt64) :
    (MemLaneClient.set hashFn arena key value ttlSecs clock).1 = .error (.arenaFull slotCount) ↔
      (MemLane.set hashFn arena key value ttlSecs clock).1 = .full := by
  simp only [MemLaneClient.set, if_neg (not_lt.mpr hk), if_neg (not_lt.mpr hv)]
  generalize (MemLane.set hashFn arena key value ttlSecs clock).1 = r
  cases r <;> simp

/-- Within the limits, the client leaves the arena the map leaves. -/
theorem MemLaneClient.set_arena (hk : key.length ≤ maxKeyLen) (hv : value.length ≤ maxValLen)
    (ttlSecs : UInt64) :
    (MemLaneClient.set hashFn arena key value ttlSecs clock).2 =
      (MemLane.set hashFn arena key value ttlSecs clock).2 := by
  simp only [MemLaneClient.set, if_neg (not_lt.mpr hk), if_neg (not_lt.mpr hv)]

/-- `ArenaFull` is answered only if the key is not stored and every slot holds an entry that
has not expired at the reading made for it; and then the arena stays as it was. -/
def FullOnlyOfLive (hashFn : Bytes → UInt64) (arena : Arena) (key value : Bytes)
    (ttlSecs : UInt64) (clock : Clock) : Prop :=
  (MemLaneClient.set hashFn arena key value ttlSecs clock).1 = .error (.arenaFull slotCount) →
    (¬ arena.Contains key ∧
      ∀ m, m < slotCount → (arena.probed (hashFn key) m).state = stateOccupied ∧
        (arena.probed (hashFn key) m).isExpired (clock (m + 1)) = false) ∧
    (MemLaneClient.set hashFn arena key value ttlSecs clock).2 = arena

/-- **Full of what?**  The promise of `FullOnlyOfLive` is broken exactly when the table has
no room for the key although some slot, of another fingerprint, has expired. -/
theorem set_full_only_live_iff (region : Arena) (calls : List Call) (ttlSecs : UInt64)
    (clock : Clock) (hk : key.length ≤ maxKeyLen) (hv : value.length ≤ maxValLen) :
    FullOnlyOfLive hashFn (arenaAfter hashFn region calls) key value ttlSecs clock ↔
      ¬ (Refuses hashFn (arenaAfter hashFn region calls) key clock ∧
        ∃ m, m < slotCount ∧ ((arenaAfter hashFn region calls).probed
          (hashFn key) m).isExpired (clock (m + 1)) = true) := by
  have hinv : TableInv hashFn (arenaAfter hashFn region calls) := .arenaAfter hashFn region calls
  generalize arenaAfter hashFn region calls = arena at hinv
  rw [FullOnlyOfLive, MemLaneClient.set_eq_arenaFull_iff hk hv, MemLaneClient.set_arena hk hv]
  constructor
  · intro h hexpired
    obtain ⟨hrefuses, m, hm, hexp⟩ := hexpired
    obtain ⟨⟨_, hlive⟩, _⟩ := h ((set_full_iff hinv ttlSecs).mpr hrefuses)
    rw [(hlive m hm).2] at hexp
    cases hexp
  · intro h hfull
    have hrefuses := (set_full_iff hinv ttlSecs).mp hfull
    refine ⟨⟨hrefuses.absent, fun m hm => ⟨hrefuses.occupied _, ?_⟩⟩, set_full_arena hinv hfull⟩
    by_contra hexp
    exact h ⟨hrefuses, m, hm, Bool.not_eq_false _ ▸ hexp⟩

/-! ## A table that is full of one expired entry too many -/

/-- Fill the table, and give the first key one second to live. -/
def expiringFill : List Call :=
  (List.range slotCount).map fillCall ++ [⟨.set (fillKey 0) [0] 1, fun _ => 0⟩]

/-- Calls that set two-byte keys store two-byte keys. -/
theorem length_of_stores_fill {region : Arena} {calls : List Call} {v : Bytes} {e : UInt64}
    (hcalls : ∀ call ∈ calls, ∃ n v ttlSecs, call.op = .set (fillKey n) v ttlSecs)
    (hs : (arenaAfter hashFn region calls).Stores k v e) : k.length = 2 := by
  have hkept : TableInv hashFn (arenaAfter hashFn region calls) ∧
      ∀ k v e, (arenaAfter hashFn region calls).Stores k v e → k.length = 2 := by
    refine Run.invariant (fun a : Arena => TableInv hashFn a ∧
      ∀ k v e, a.Stores k v e → k.length = 2) ?_ ⟨.createArena region, ?_⟩
      (Run.along_of_forall_mem hcalls)
    · intro a call ha hcall
      obtain ⟨n, v', ttlSecs, hop⟩ := hcall
      refine ⟨ha.1.exec call, fun k v e hstores => ?_⟩
      rcases Call.stores_exec ha.1 call hstores with ⟨_, hset, _⟩ | ⟨_, hbefore⟩
      · cases hop.symm.trans hset
        rfl
      · exact ha.2 k v e hbefore
    · intro k v e hstores
      obtain ⟨i, hocc, _⟩ := hstores
      simp [createArena, Slot.init] at hocc
  exact hkept.2 k v e hs

theorem absent_of_fill {region : Arena} {calls : List Call}
    (hcalls : ∀ call ∈ calls, ∃ n v ttlSecs, call.op = .set (fillKey n) v ttlSecs)
    (hlen : key.length ≠ 2) : ¬ (arenaAfter hashFn region calls).Contains key := by
  intro hcontains
  obtain ⟨i, hocc, hkey⟩ := hcontains
  exact hlen (length_of_stores_fill hcalls ⟨i, hocc, hkey, rfl, rfl⟩)

theorem absent_after_expiringFill (region : Arena) (hlen : key.length ≠ 2) :
    ¬ (arenaAfter hashFn region expiringFill).Contains key := by
  refine absent_of_fill (fun call hmem => ?_) hlen
  rw [expiringFill, List.mem_append, List.mem_map, List.mem_singleton] at hmem
  rcases hmem with ⟨n, _, rfl⟩ | rfl
  · exact ⟨n, _, _, rfl⟩
  · exact ⟨0, _, _, rfl⟩

/-- In a full table without expiry times, give one key a second to live.  From then on the
table refuses the absent keys of other fingerprints, expired slot or not. -/
theorem Refuses.of_expiring (hinv : TableInv hashFn arena) (hperm : arena.Permanent)
    (hfull : ∀ i, (arena.slots i).state = stateOccupied) {first : Bytes}
    (hfirst : arena.Contains first) (hne : hashFn first ≠ hashFn key)
    (habsent : ¬ (set hashFn arena first value 1 fun _ => 0).2.Contains key) :
    Refuses hashFn (set hashFn arena first value 1 fun _ => 0).2 key (fun _ => 5000) ∧
      ∃ m, m < slotCount ∧ ((set hashFn arena first value 1 fun _ => 0).2.probed
        (hashFn key) m).isExpired 5000 = true := by
  have heff := set_effect hinv first value 1 fun _ => 0
  generalize set hashFn arena first value 1 (fun _ => 0) = res at heff habsent ⊢
  cases heff with
  | inserted hevicts hnot =>
      obtain rfl := hperm.eq_of_evicts hevicts
      exact (hnot hfirst).elim
  | full hnot => exact (hnot hfirst).elim
  | @updated now i hevicts hocc hkey =>
      obtain rfl := hperm.eq_of_evicts hevicts
      refine ⟨⟨fun j => ?_, habsent, fun m hm hfp => ?_⟩, ?_⟩
      · rw [Arena.setSlot_slots]
        split
        · exact hocc
        · exact hfull j
      · rw [Arena.probed, Arena.setSlot_slots] at hfp ⊢
        split at hfp
        · exact (hne ((hinv.fingerprint_eq hocc hkey).symm.trans hfp)).elim
        · next hmi =>
            rw [if_neg hmi]
            exact hperm.not_expired (hfull _) _
      · obtain ⟨m, hm, rfl⟩ := exists_probeIndex (hashFn key) i
        refine ⟨m, hm, ?_⟩
        rw [probed_setSlot_self, Slot.isExpired_iff, updateSlot_expiresAtMs]
        decide

/-- The last call of the fill, as an operation of the map. -/
theorem exec_expiring (hashFn : Bytes → UInt64) (arena : Arena) :
    ((⟨.set (fillKey 0) [0] 1, fun _ => 0⟩ : Call).exec hashFn arena).2 =
      (set hashFn arena (fillKey 0) [0] 1 fun _ => 0).2 := by
  have hk : ¬ (fillKey 0).length > maxKeyLen := by decide
  have hv : ¬ ([0] : Bytes).length > maxValLen := by decide
  simp only [Call.exec, MemLaneClient.set, if_neg hk, if_neg hv]

theorem refuses_after_expiringFill (region : Arena) (hlen : key.length ≠ 2)
    (hne : hashFn (fillKey 0) ≠ hashFn key) :
    Refuses hashFn (arenaAfter hashFn region expiringFill) key (fun _ => 5000) ∧
      ∃ m, m < slotCount ∧ ((arenaAfter hashFn region expiringFill).probed
        (hashFn key) m).isExpired 5000 = true := by
  have habsent := @absent_after_expiringFill hashFn key region hlen
  obtain ⟨hinv, hperm, _, hfull, hfirst⟩ := filled hashFn region
  rw [expiringFill, arenaAfter_concat, exec_expiring] at habsent ⊢
  exact Refuses.of_expiring hinv hperm hfull hfirst hne habsent

/-- On the real fingerprint function: five seconds after such a fill, the table counts as
full for a one-byte key, with an expired entry in it. -/
theorem full_with_expired_entry :
    ¬ FullOnlyOfLive siphash (arenaAfter siphash zeroedRegion expiringFill) [1] [1] 0
      (fun _ => 5000) := by
  obtain ⟨hrefuses, m, hm, hexp⟩ := @refuses_after_expiringFill siphash [1] zeroedRegion
    (by decide) (by decide)
  have hinv := TableInv.arenaAfter siphash zeroedRegion expiringFill
  intro h
  obtain ⟨⟨_, hlive⟩, _⟩ := h ((MemLaneClient.set_eq_arenaFull_iff (by decide) (by decide) 0).mpr
    ((set_full_iff hinv 0).mpr hrefuses))
  rw [(hlive m hm).2] at hexp
  cases hexp

/-- A full table without expiry times refuses the absent keys, and nothing in it expires. -/
theorem Refuses.of_permanent (hperm : arena.Permanent)
    (hfull : ∀ i, (arena.slots i).state = stateOccupied) (habsent : ¬ arena.Contains key)
    (clock : Clock) :
    Refuses hashFn arena key clock ∧
      ¬ ∃ m, m < slotCount ∧ (arena.probed (hashFn key) m).isExpired (clock (m + 1)) = true := by
  refine ⟨⟨hfull, habsent, fun m _ _ => hperm.not_expired (hfull _) _⟩, ?_⟩
  rintro ⟨m, _, hexp⟩
  rw [Arena.probed, hperm.not_expired (hfull _)] at hexp
  cases hexp

/-- Fill the table. -/
def fullCalls : List Call := (List.range slotCount).map fillCall

theorem refuses_after_fill (region : Arena) (hlen : key.length ≠ 2) (clock : Clock) :
    Refuses hashFn (arenaAfter hashFn region fullCalls) key clock ∧
      ¬ ∃ m, m < slotCount ∧ ((arenaAfter hashFn region fullCalls).probed
        (hashFn key) m).isExpired (clock (m + 1)) = true := by
  have habsent : ¬ (arenaAfter hashFn region fullCalls).Contains key := by
    refine absent_of_fill (fun call hmem => ?_) hlen
    obtain ⟨n, _, rfl⟩ := List.mem_map.mp hmem
    exact ⟨n, _, _, rfl⟩
  obtain ⟨_, hperm, _, hfull, _⟩ := filled hashFn region
  exact Refuses.of_permanent hperm hfull habsent clock

/-- A table that is full of permanent entries keeps the promise when it refuses a key. -/
theorem set_full_only_live_iff_filled :
    (MemLaneClient.set siphash (arenaAfter siphash zeroedRegion fullCalls) [1] [1] 0
        fun _ => 5000).1 = .error (.arenaFull slotCount) ∧
      FullOnlyOfLive siphash (arenaAfter siphash zeroedRegion fullCalls) [1] [1] 0
        (fun _ => 5000) := by
  obtain ⟨hrefuses, hlive⟩ := @refuses_after_fill siphash [1] zeroedRegion (by decide) fun _ => 5000
  have hiff := @set_full_only_live_iff siphash [1] [1] zeroedRegion fullCalls 0 (fun _ => 5000)
    (by decide) (by decide)
  have hinv := TableInv.arenaAfter siphash zeroedRegion fullCalls
  refine ⟨?_, hiff.mpr fun h => hlive h.2⟩
  exact (MemLaneClient.set_eq_arenaFull_iff (by decide) (by decide) 0).mpr
    ((set_full_iff hinv 0).mpr hrefuses)

end MemLane
