import MemLane.Slot

/-!
# Expiry

Absolute expiry times in Unix milliseconds (`ttl.rs`).  The result of each call
of `now_ms` is an argument here.  Arithmetic is that of the release build:
`u64` addition and multiplication wrap.
-/

namespace MemLane

/-- `ttl_to_expiry`, with `now` the reading of the clock. -/
def ttlToExpiry (ttlSecs now : UInt64) : UInt64 :=
  if ttlSecs = 0 then 0 else now + ttlSecs * 1000

/-- `is_expired`, with `now` the reading of the clock. -/
def Slot.isExpired (slot : Slot) (now : UInt64) : Bool :=
  if slot.expiresAtMs = 0 then false else slot.expiresAtMs ≤ now

/-- `lazy_evict_if_expired`.  The outcome of the exchange is ignored. -/
def Slot.lazyEvictIfExpired (slot : Slot) (now : UInt64) : Bool × Slot :=
  if slot.isExpired now then
    (true, (slot.compareExchange stateOccupied stateTombstone).2)
  else
    (false, slot)

/-- `remaining_ttl_ms`, with `now` the reading of the clock. -/
def Slot.remainingTtlMs (slot : Slot) (now : UInt64) : Option UInt64 :=
  if slot.expiresAtMs = 0 then none
  else if slot.expiresAtMs ≤ now then none
  else some (slot.expiresAtMs - now)

@[simp] theorem ttlToExpiry_zero (now : UInt64) : ttlToExpiry 0 now = 0 := rfl

theorem Slot.isExpired_iff {slot : Slot} {now : UInt64} :
    slot.isExpired now = true ↔ slot.expiresAtMs ≠ 0 ∧ slot.expiresAtMs ≤ now := by
  unfold Slot.isExpired
  split <;> simp [*]

/-- A slot without expiry never expires. -/
theorem Slot.isExpired_of_zero {slot : Slot} (h : slot.expiresAtMs = 0) (now : UInt64) :
    slot.isExpired now = false := by
  simp [Slot.isExpired, h]

theorem Slot.isExpired_eq_false_iff {slot : Slot} {now : UInt64} :
    slot.isExpired now = false ↔ slot.expiresAtMs = 0 ∨ now < slot.expiresAtMs := by
  rw [← Bool.not_eq_true, isExpired_iff, not_and_or, not_not, UInt64.not_le]

/-- The remaining time is positive, and the slot expires when it is over and not before. -/
theorem Slot.isExpired_iff_of_remainingTtlMs {slot : Slot} {now left : UInt64}
    (h : slot.remainingTtlMs now = some left) (later : UInt64) :
    0 < left ∧ (slot.isExpired later = true ↔ now.toNat + left.toNat ≤ later.toNat) := by
  unfold remainingTtlMs at h
  split at h
  · cases h
  · next hmortal =>
      split at h
      · cases h
      · next hlive =>
          obtain rfl := Option.some.inj h
          have hlt := UInt64.lt_iff_toNat_lt.mp (UInt64.not_le.mp hlive)
          have hleft := UInt64.toNat_sub_of_le _ _ (UInt64.le_of_lt (UInt64.not_le.mp hlive))
          rw [isExpired_iff, and_iff_right hmortal, UInt64.le_iff_toNat_le,
            UInt64.lt_iff_toNat_lt, hleft, UInt64.toNat_zero]
          omega

end MemLane
