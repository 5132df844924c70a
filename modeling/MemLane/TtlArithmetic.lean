import MemLane.Requests
import MemLane.ReadHistory

/-!
# Expiry times against unbounded arithmetic

The expiry time of an entry is a product and a sum of 64-bit words.  While neither
leaves its range the entry expires when its seconds are over, and not before.  When
one does, the computed time is too small by a multiple of `2 ^ 64`: either it is
the sentinel 0, which never expires, or some reading of the clock between it and the
intended time tells the two apart.
-/

namespace MemLane

variable {tables : CaseTables} {hashFn : Bytes → UInt64} {arena : Arena} {key value : Bytes}
  {ttlSecs now : UInt64}

/-! ## One slot -/

/-- The slot expires `ttlSecs` seconds after `now`, in unbounded arithmetic, and at no other
reading of the clock from `now` on: it is neither born expired nor permanent. -/
structure ExpiresOnTime (slot : Slot) (now ttlSecs : UInt64) : Prop where
  expired_iff : ∀ t, now ≤ t →
    (slot.isExpired t = true ↔ now.toNat + 1000 * ttlSecs.toNat ≤ t.toNat)
  born_live : slot.isExpired now = false
  mortal : slot.expiresAtMs ≠ 0

/-- The computed expiry time, as a number. -/
theorem toNat_ttlToExpiry (hne : ttlSecs ≠ 0) :
    (ttlToExpiry ttlSecs now).toNat = (now.toNat + 1000 * ttlSecs.toNat) % 2 ^ 64 := by
  have hmul : (1000 : UInt64).toNat = 1000 := rfl
  rw [ttlToExpiry, if_neg hne, UInt64.toNat_add, UInt64.toNat_mul, hmul, Nat.add_mod_mod,
    Nat.mul_comm]

/-- **The arithmetic of `ttl_to_expiry`** is exact as long as the sum fits. -/
theorem expiresOnTime_iff {slot : Slot} (hne : ttlSecs ≠ 0)
    (hslot : slot.expiresAtMs = ttlToExpiry ttlSecs now) :
    ExpiresOnTime slot now ttlSecs ↔ now.toNat + 1000 * ttlSecs.toNat < 2 ^ 64 := by
  have hpos : 0 < ttlSecs.toNat := UInt64.lt_iff_toNat_lt.mp (UInt64.pos_iff_ne_zero.mpr hne)
  have hexpiry : (ttlToExpiry ttlSecs now).toNat = _ := toNat_ttlToExpiry hne
  rw [← hslot] at hexpiry
  constructor
  · intro h
    by_contra hlarge
    -- the last reading of all is past the computed time, and before the intended one
    have hlast : slot.isExpired (UInt64.ofNat (2 ^ 64 - 1)) = true := by
      refine Slot.isExpired_iff.mpr ⟨h.mortal, UInt64.le_iff_toNat_le.mpr ?_⟩
      have hlt := slot.expiresAtMs.toNat_lt
      rw [UInt64.toNat_ofNat']
      omega
    have hle : now ≤ UInt64.ofNat (2 ^ 64 - 1) := by
      have hlt := now.toNat_lt
      rw [UInt64.le_iff_toNat_le, UInt64.toNat_ofNat']
      omega
    have hreached := (h.expired_iff _ hle).mp hlast
    rw [UInt64.toNat_ofNat'] at hreached
    omega
  · intro hfits
    rw [Nat.mod_eq_of_lt hfits] at hexpiry
    have hmortal : slot.expiresAtMs ≠ 0 := by
      intro hzero
      rw [hzero, UInt64.toNat_zero] at hexpiry
      omega
    have hexpired : ∀ t, slot.isExpired t = true ↔
        now.toNat + 1000 * ttlSecs.toNat ≤ t.toNat := by
      intro t
      rw [Slot.isExpired_iff, and_iff_right hmortal, UInt64.le_iff_toNat_le, hexpiry]
    refine ⟨fun t _ => hexpired t, ?_, hmortal⟩
    rw [← Bool.not_eq_true, hexpired now]
    omega

/-! ## A stored entry -/

/-- The entry stored for the key expires on time. -/
def StoredOnTime (arena : Arena) (key value : Bytes) (now ttlSecs : UInt64) : Prop :=
  ∃ i, (arena.slots i).state = stateOccupied ∧ (arena.slots i).readKey = key ∧
    (arena.slots i).readValue = value ∧ ExpiresOnTime (arena.slots i) now ttlSecs

/-- What is stored with the computed expiry time is on time as long as the sum fits. -/
theorem storedOnTime_iff (hinv : TableInv hashFn arena) (hne : ttlSecs ≠ 0)
    (hs : arena.Stores key value (ttlToExpiry ttlSecs now)) :
    StoredOnTime arena key value now ttlSecs ↔
      now.toNat + 1000 * ttlSecs.toNat < 2 ^ 64 := by
  obtain ⟨i, hocc, hkey, hvalue, hexpiry⟩ := hs
  rw [← expiresOnTime_iff hne hexpiry]
  constructor
  · intro h
    obtain ⟨j, hocc', hkey', _, hontime⟩ := h
    obtain rfl := hinv.slot_unique hocc hocc' (hkey.trans hkey'.symm)
    exact hontime
  · intro h
    exact ⟨i, hocc, hkey, hvalue, h⟩

/-- A successful `set` stores its entry with the expiry time of its first reading. -/
theorem MemLaneClient.stores_of_set_ok (hinv : TableInv hashFn arena) {clock : Clock}
    (hok : ∃ b, (MemLaneClient.set hashFn arena key value ttlSecs clock).1 = .ok b) :
    TableInv hashFn (MemLaneClient.set hashFn arena key value ttlSecs clock).2 ∧
      (MemLaneClient.set hashFn arena key value ttlSecs clock).2.Stores key value
        (ttlToExpiry ttlSecs (clock 0)) := by
  obtain ⟨b, hok⟩ := hok
  have hwrites : Writes (Call.event hashFn arena ⟨.set key value ttlSecs, clock⟩) key value
      (ttlToExpiry ttlSecs (clock 0)) :=
    ⟨ttlSecs, rfl, ⟨b, congrArg Reply.set hok⟩, rfl⟩
  exact ⟨hinv.exec ⟨.set key value ttlSecs, clock⟩, Call.stores_of_writes hinv hwrites⟩

/-! ## From the wire -/

/-- `SET key value EX n` calls `set` with `n` seconds, whatever `n`. -/
theorem setOptions_seconds (n : UInt64) :
    setOptions tables 0 [asBytes "EX", Decimal.numeral n.toNat] = n := by
  have hex : toUppercase tables (fromUtf8Lossy (asBytes "EX")) = "EX" := by
    rw [fromUtf8Lossy_asBytes]
    exact toUppercase_eq_self (by decide)
  rw [setOptions_ex hex, parseU64_numeral, Option.getD_some]
  rfl

theorem dispatchCommand_setEx (n : UInt64) (clock : Nat → Clock) :
    (dispatchCommand tables hashFn arena (request "SET" [key, value, asBytes "EX",
        Decimal.numeral n.toNat]) clock).2 =
      (MemLaneClient.set hashFn arena key value n (clock 0)).2 := by
  rw [dispatchCommand_set (extractCommand_request _ (by decide)), setOptions_seconds]

/-- **Expiry in unbounded arithmetic.**  On every reachable arena, a `set` with an expiry
time that succeeds stores an entry that expires exactly `ttlSecs` seconds after the reading
`ttl_to_expiry` made, if and only if that moment is below `2 ^ 64` milliseconds.  Every
number of seconds can be asked for on the wire. -/
theorem ttl_exact_iff (tables : CaseTables) (region : Arena) (calls : List Call)
    (key value : Bytes) (ttlSecs : UInt64) (clock : Clock) (hne : ttlSecs ≠ 0)
    (hok : ∃ b, (MemLaneClient.set hashFn (arenaAfter hashFn region calls) key value ttlSecs
      clock).1 = .ok b) :
    (StoredOnTime (MemLaneClient.set hashFn (arenaAfter hashFn region calls) key value ttlSecs
        clock).2 key value (clock 0) ttlSecs ↔
      (clock 0).toNat + 1000 * ttlSecs.toNat < 2 ^ 64) ∧
    (dispatchCommand tables hashFn (arenaAfter hashFn region calls) (request "SET" [key, value,
        asBytes "EX", Decimal.numeral ttlSecs.toNat]) fun _ => clock).2 =
      (MemLaneClient.set hashFn (arenaAfter hashFn region calls) key value ttlSecs clock).2 := by
  have hinv := TableInv.arenaAfter hashFn region calls
  obtain ⟨hafter, hstores⟩ := MemLaneClient.stores_of_set_ok hinv hok
  exact ⟨storedOnTime_iff hafter hne hstores, dispatchCommand_setEx ttlSecs _⟩

/-- The greatest number of seconds, asked for in November 2023: the entry is stored, and has
expired a second before it was. -/
theorem set_born_expired :
    (∃ b, (MemLaneClient.set siphash (createArena zeroedRegion) [1] [1] 18446744073709551615
      fun _ => 1700000000000).1 = .ok b) ∧
    ¬ StoredOnTime (MemLaneClient.set siphash (createArena zeroedRegion) [1] [1]
      18446744073709551615 fun _ => 1700000000000).2 [1] [1] 1700000000000
      18446744073709551615 := by
  have hok : (MemLaneClient.set siphash (createArena zeroedRegion) [1] [1] 18446744073709551615
      fun _ => 1700000000000).1 = .ok true := by decide +kernel
  obtain ⟨hafter, hstores⟩ := MemLaneClient.stores_of_set_ok (.createArena zeroedRegion) ⟨true, hok⟩
  refine ⟨⟨true, hok⟩, ?_⟩
  rw [storedOnTime_iff hafter (by decide) hstores]
  decide

/-- One second from a clock at 1000. -/
theorem ttl_exact_iff_second :
    StoredOnTime (MemLaneClient.set siphash (arenaAfter siphash zeroedRegion []) [1] [1] 1
        fun _ => 1000).2 [1] [1] 1000 1 ∧
    (dispatchCommand asciiTables siphash (arenaAfter siphash zeroedRegion []) (request "SET"
        [[1], [1], asBytes "EX", Decimal.numeral (1 : UInt64).toNat]) fun _ _ => 1000).2 =
      (MemLaneClient.set siphash (arenaAfter siphash zeroedRegion []) [1] [1] 1
        fun _ => 1000).2 :=
  (ttl_exact_iff asciiTables zeroedRegion [] [1] [1] 1 (fun _ => 1000) (by decide)
    ⟨true, by decide +kernel⟩).imp_left fun h => h.mpr (by decide)

end MemLane
