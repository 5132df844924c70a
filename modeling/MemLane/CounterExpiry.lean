import MemLane.Counters

/-!
# The expiry time of a counter

`incr` and `decr` store the new number with a `set` without expiry.  The other
entries come to no harm: the searches evict nothing that has not expired.  The
entry itself loses its expiry time.
-/

namespace MemLane

variable {hashFn : Bytes → UInt64} {arena : Arena} {key b : Bytes} {e now : UInt64}

/-- The key still has this expiry time, and the entries of the other keys that have not
expired are what they were. -/
def TouchesOnlyValue (arena after : Arena) (key : Bytes) (e now : UInt64) : Prop :=
  (∃ b, after.Stores key b e) ∧
    ∀ k v e', k ≠ key → arena.Stores k v e' → Unexpired e' now → after.Stores k v e'

/-- An eviction keeps what has not expired. -/
theorem Evicts.stores_unexpired {hash : UInt64} {after : Arena} {k v : Bytes} {e' : UInt64}
    (hev : Evicts hash (fun _ => now) arena after)
    (hs : arena.Stores k v e') (hlive : Unexpired e' now) : after.Stores k v e' := by
  rcases hev.stores_or_expired hs with hkept | hexp
  · exact hkept
  · obtain ⟨hne, _, hle⟩ := hexp.expired
    exact (not_unexpired_iff.mpr ⟨hne, hle⟩ hlive).elim

/-- A counter command stores its number for good, and keeps the other entries. -/
theorem CounterOp.run_stores (hinv : TableInv hashFn arena) (op : CounterOp)
    (hs : arena.Stores key b e) (hlive : Unexpired e now) :
    TableInv hashFn (op.run hashFn arena key fun _ _ => now).2 ∧
      (∃ n, (op.run hashFn arena key fun _ _ => now).2.Stores key (Decimal.numeral n) 0) ∧
      ∀ k v e', k ≠ key → arena.Stores k v e' → Unexpired e' now →
        (op.run hashFn arena key fun _ _ => now).2.Stores k v e' := by
  obtain ⟨hinv', hev⟩ := getCounter_spec hinv key fun _ => now
  obtain ⟨stored, hget⟩ := getCounter_ok hashFn arena hs.key_length fun _ => now
  obtain ⟨hinv'', _, hstores, _, hkeeps⟩ := storeCounter_spec hinv' hs.key_length
    (op.next (MemLaneClient.counterValue stored)) fun _ => now
  have hmid := hev.stores_unexpired hs hlive
  have hroom : ¬ Refuses hashFn (MemLaneClient.get hashFn arena key fun _ => now).2 key
      fun _ => now := fun hrefuses => hrefuses.absent hmid.contains
  rw [@CounterOp.run_eq hashFn arena key stored op (fun _ _ => now) hget]
  refine ⟨hinv'', ⟨_, (hstores hroom).2⟩, fun k v e' hne hs' hlive' => ?_⟩
  exact hkeeps k v e' hne (hev.stores_unexpired hs' hlive') fun _ => hlive'

theorem CounterOp.touchesOnlyValue_iff (hinv : TableInv hashFn arena) (op : CounterOp)
    (hs : arena.Stores key b e) (hlive : Unexpired e now) :
    TouchesOnlyValue arena (op.run hashFn arena key fun _ _ => now).2 key e now ↔ e = 0 := by
  obtain ⟨hinv', ⟨n, hzero⟩, hothers⟩ := op.run_stores hinv hs hlive
  constructor
  · intro h
    obtain ⟨⟨b', hs'⟩, _⟩ := h
    exact (hinv'.stores_unique hs' hzero).2
  · intro h
    subst h
    exact ⟨⟨_, hzero⟩, hothers⟩

/-- **The frame of `incr` and `decr`.**  On every reachable arena, for a key whose entry has
not expired, the two calls keep its expiry time and the other unexpired entries if and only
if it has no expiry time. -/
theorem counter_keeps_expiry_iff (region : Arena) (calls : List Call) (key b : Bytes)
    (e now : UInt64) (hs : (arenaAfter hashFn region calls).Stores key b e)
    (hlive : Unexpired e now) :
    let arena := arenaAfter hashFn region calls
    (TouchesOnlyValue arena (MemLaneClient.incr hashFn arena key fun _ _ => now).2 key e now ↔
      e = 0) ∧
    (TouchesOnlyValue arena (MemLaneClient.decr hashFn arena key fun _ _ => now).2 key e now ↔
      e = 0) := by
  intro arena
  have hinv : TableInv hashFn arena := .arenaAfter hashFn region calls
  exact ⟨CounterOp.touchesOnlyValue_iff hinv .incr hs hlive,
    CounterOp.touchesOnlyValue_iff hinv .decr hs hlive⟩

/-- The counter 5, with a hundred seconds to live. -/
def expiringCounter : List Call := [⟨.set [107] [53] 100, fun _ => 1000⟩]

theorem expiringCounter_stores :
    (arenaAfter siphash zeroedRegion expiringCounter).Stores [107] [53] (ttlToExpiry 100 1000) :=
  Call.stores_of_writes (.createArena zeroedRegion) ⟨100, rfl, ⟨true, by decide +kernel⟩, rfl⟩

/-- Counted on at once, it never expires. -/
theorem incr_drops_expiry :
    numeralValue [53] = some 5 ∧
      (arenaAfter siphash zeroedRegion expiringCounter).Stores [107] [53] 101000 ∧
      ¬ TouchesOnlyValue (arenaAfter siphash zeroedRegion expiringCounter)
        (MemLaneClient.incr siphash (arenaAfter siphash zeroedRegion expiringCounter) [107]
          fun _ _ => 1000).2 [107] 101000 1000 := by
  have hinv := TableInv.arenaAfter siphash zeroedRegion expiringCounter
  refine ⟨by decide, expiringCounter_stores, ?_⟩
  have hlive : Unexpired (ttlToExpiry 100 1000) 1000 := .inr (by decide)
  have hiff := CounterOp.touchesOnlyValue_iff hinv .incr expiringCounter_stores hlive
  exact fun h => absurd (hiff.mp h) (by decide)

/-- The equivalence for that counter. -/
theorem counter_keeps_expiry_iff_expiring :
    (TouchesOnlyValue (arenaAfter siphash zeroedRegion expiringCounter)
        (MemLaneClient.incr siphash (arenaAfter siphash zeroedRegion expiringCounter) [107]
          fun _ _ => 1000).2 [107] (ttlToExpiry 100 1000) 1000 ↔ ttlToExpiry 100 1000 = 0) ∧
    (TouchesOnlyValue (arenaAfter siphash zeroedRegion expiringCounter)
        (MemLaneClient.decr siphash (arenaAfter siphash zeroedRegion expiringCounter) [107]
          fun _ _ => 1000).2 [107] (ttlToExpiry 100 1000) 1000 ↔ ttlToExpiry 100 1000 = 0) :=
  counter_keeps_expiry_iff zeroedRegion expiringCounter [107] [53] _ 1000 expiringCounter_stores
    (.inr (by decide))

end MemLane
