import MemLane.TtlArithmetic
import MemLane.FullArena
import MemLane.Visibility

/-!
# Setting several keys

`mset` sets its pairs one after another and stops at the first that fails.  What the
pairs before it have written stays: a failing `set` changes nothing, and nothing is
taken back.  So the call is not atomic, and what it leaves behind is the effect of a
prefix of its pairs.
-/

namespace MemLane

variable {hashFn : Bytes → UInt64} {arena : Arena} {key value k v : Bytes}
  {pairs : List (Bytes × Bytes)} {now ttlSecs : UInt64}

/-- The last value that the pairs give the key. -/
def lastValue : List (Bytes × Bytes) → Bytes → Option Bytes
  | [], _ => none
  | (key, value) :: rest, k => (lastValue rest k).or (if key = k then some value else none)

/-- The error of setting this pair, while the clock stands at `now`. -/
def SetFails (hashFn : Bytes → UInt64) (arena : Arena) (key value : Bytes) (now : UInt64)
    (e : MemLaneError) : Prop :=
  (maxKeyLen < key.length ∧ e = .keyTooLong key.length) ∨
  (key.length ≤ maxKeyLen ∧ maxValLen < value.length ∧ e = .valueTooLong value.length) ∨
  (key.length ≤ maxKeyLen ∧ value.length ≤ maxValLen ∧
    (Refuses hashFn arena key fun _ => now) ∧ e = .arenaFull slotCount)

/-! ## One pair -/

/-- A time that fits has not come. -/
theorem unexpired_of_fits (hfits : now.toNat + 1000 * ttlSecs.toNat < 2 ^ 64) :
    Unexpired (ttlToExpiry ttlSecs now) now := by
  by_cases hzero : ttlSecs = 0
  · subst hzero
    exact .inl rfl
  · refine .inr (UInt64.lt_iff_toNat_lt.mpr ?_)
    have hpos : 0 < ttlSecs.toNat := UInt64.lt_iff_toNat_lt.mp (UInt64.pos_iff_ne_zero.mpr hzero)
    rw [toNat_ttlToExpiry hzero, Nat.mod_eq_of_lt hfits]
    omega

/-- A pair that fails changes nothing. -/
theorem MemLaneClient.set_fails (hinv : TableInv hashFn arena) {e : MemLaneError}
    (h : (MemLaneClient.set hashFn arena key value ttlSecs fun _ => now).1 = .error e) :
    (MemLaneClient.set hashFn arena key value ttlSecs fun _ => now).2 = arena ∧
      SetFails hashFn arena key value now e := by
  unfold MemLaneClient.set at h ⊢
  split at h
  · next hk =>
      cases h
      rw [if_pos hk]
      exact ⟨rfl, .inl ⟨hk, rfl⟩⟩
  · next hk =>
      rw [if_neg hk]
      split at h
      · next hv =>
          cases h
          rw [if_pos hv]
          exact ⟨rfl, .inr (.inl ⟨not_lt.mp hk, hv, rfl⟩)⟩
      · next hv =>
          rw [if_neg hv]
          have hfull := @set_full_iff hashFn arena key value (fun _ => now) hinv ttlSecs
          have harena := @set_full_arena hashFn arena key value (fun _ => now) hinv ttlSecs
          generalize MemLane.set hashFn arena key value ttlSecs (fun _ => now) = res
            at h hfull harena
          obtain ⟨result, after⟩ := res
          cases result with
          | inserted | updated => cases h
          | full =>
              cases h
              exact ⟨harena rfl, .inr (.inr ⟨not_lt.mp hk, not_lt.mp hv, hfull.mp rfl, rfl⟩)⟩

/-- A pair that is set can be read, and the other keys read as before. -/
theorem MemLaneClient.set_succeeds (hinv : TableInv hashFn arena)
    (hfits : now.toNat + 1000 * ttlSecs.toNat < 2 ^ 64) {b : Bool}
    (h : (MemLaneClient.set hashFn arena key value ttlSecs fun _ => now).1 = .ok b) :
    TableInv hashFn (MemLaneClient.set hashFn arena key value ttlSecs fun _ => now).2 ∧
      Visible hashFn (MemLaneClient.set hashFn arena key value ttlSecs fun _ => now).2 key value
        now ∧
      ∀ k, k ≠ key → ¬ Shadowed hashFn arena k (fun _ => now) →
        ¬ Shadowed hashFn (MemLaneClient.set hashFn arena key value ttlSecs fun _ => now).2 k
          (fun _ => now) ∧
        ∀ v, Visible hashFn (MemLaneClient.set hashFn arena key value ttlSecs fun _ => now).2 k v
          now ↔ Visible hashFn arena k v now := by
  have hlive := unexpired_of_fits hfits
  unfold MemLaneClient.set at h ⊢
  split at h
  · cases h
  · next hk =>
      split at h
      · cases h
      · next hv =>
          rw [if_neg hk, if_neg hv]
          have hinv' := hinv.set (not_lt.mp hk) value ttlSecs fun _ => now
          have heff := set_effect hinv key value ttlSecs fun _ => now
          have hself := set_visible_self hinv (not_lt.mp hk) (not_lt.mp hv) hlive
          generalize MemLane.set hashFn arena key value ttlSecs (fun _ => now) = res
            at h hinv' heff hself
          obtain ⟨result, after⟩ := res
          have hres : result ≠ .full := by
            intro hfull
            subst hfull
            cases h
          refine ⟨hinv', hself hres, fun k hne hnot => ⟨?_, fun v => ?_⟩⟩
          · exact mt (heff.shadowed hinv' (not_lt.mp hk) (not_lt.mp hv) hres hlive hne) hnot
          · exact heff.visible_of_ne hinv' (not_lt.mp hk) (not_lt.mp hv) hres hlive hne hnot

/-! ## All pairs -/

/-- `after` is what setting these pairs makes of `arena`, as far as it can be read. -/
structure SetsAll (hashFn : Bytes → UInt64) (arena : Arena) (pairs : List (Bytes × Bytes))
    (now : UInt64) (after : Arena) : Prop where
  written : ∀ k v, lastValue pairs k = some v → Visible hashFn after k v now
  kept : ∀ k, lastValue pairs k = none → ¬ Shadowed hashFn arena k (fun _ => now) →
    ∀ v, Visible hashFn after k v now ↔ Visible hashFn arena k v now

theorem SetsAll.nil (arena : Arena) : SetsAll hashFn arena [] now arena where
  written := fun k v h => by cases h
  kept := fun k _ _ v => Iff.rfl

/-- Setting one pair, and then others. -/
theorem SetsAll.cons {mid after : Arena} (hself : Visible hashFn mid key value now)
    (hother : ∀ k, k ≠ key → ¬ Shadowed hashFn arena k (fun _ => now) →
      ¬ Shadowed hashFn mid k (fun _ => now) ∧
        ∀ v, Visible hashFn mid k v now ↔ Visible hashFn arena k v now)
    (h : SetsAll hashFn mid pairs now after) :
    SetsAll hashFn arena ((key, value) :: pairs) now after where
  written := fun k v hlast => by
    rw [lastValue, Option.or_eq_some_iff] at hlast
    rcases hlast with hrest | ⟨hnone, hfirst⟩
    · exact h.written k v hrest
    · split at hfirst
      · next hkey =>
          subst hkey
          cases hfirst
          exact (h.kept key hnone hself.not_shadowed value).mpr hself
      · cases hfirst
  kept := fun k hlast hnot v => by
    rw [lastValue, Option.or_eq_none_iff] at hlast
    obtain ⟨hrest, hfirst⟩ := hlast
    have hne : k ≠ key := by
      rintro rfl
      simp at hfirst
    obtain ⟨hnot', hsame⟩ := hother k hne hnot
    exact (h.kept k hrest hnot' v).trans (hsame v)

/-- The loop sets a prefix of the pairs: all of them, or those before one that fails. -/
theorem msetLoop_sets (hinv : TableInv hashFn arena)
    (hfits : now.toNat + 1000 * ttlSecs.toNat < 2 ^ 64) (count : Nat)
    (pairs : List (Bytes × Bytes)) :
    let result := MemLaneClient.msetLoop hashFn ttlSecs arena count pairs fun _ _ => now
    TableInv hashFn result.2 ∧ ∃ done rest, pairs = done ++ rest ∧
      SetsAll hashFn arena done now result.2 ∧
      (rest = [] ∧ result.1 = .ok (count + pairs.length) ∨
        ∃ key value more e, rest = (key, value) :: more ∧ result.1 = .error e ∧
          SetFails hashFn result.2 key value now e) := by
  induction pairs generalizing arena count with
  | nil => exact ⟨hinv, [], [], rfl, .nil arena, .inl ⟨rfl, rfl⟩⟩
  | cons pair pairs ih =>
      obtain ⟨key, value⟩ := pair
      simp only [MemLaneClient.msetLoop]
      split
      · next e he =>
          obtain ⟨harena, hfails⟩ := MemLaneClient.set_fails hinv he
          simp only [harena]
          exact ⟨hinv, [], _, rfl, .nil arena, .inr ⟨key, value, pairs, e, rfl, rfl, hfails⟩⟩
      · next b hb =>
          obtain ⟨hinv', hself, hother⟩ := MemLaneClient.set_succeeds hinv hfits hb
          obtain ⟨hinv'', done, rest, hpairs, hsets, hresult⟩ := ih hinv' (count + 1)
          refine ⟨hinv'', (key, value) :: done, rest, by rw [hpairs, List.cons_append],
            .cons hself hother hsets, ?_⟩
          refine hresult.imp_left fun h => ⟨h.1, ?_⟩
          rw [h.2, List.length_cons, Nat.add_right_comm, Nat.add_assoc]

/-- **What `mset` does.**  On every reachable arena, with a time to live whose end fits, the
call sets a prefix of its pairs.  If it succeeds, that is all of them, and their number is
returned; otherwise the error is that of the next pair.  Each key of the prefix reads back
as the last value paired with it there, and every other key that was not hidden behind an
expired entry reads as before. -/
theorem mset_sets_prefix (region : Arena) (calls : List Call) (pairs : List (Bytes × Bytes))
    (ttlSecs now : UInt64) (hfits : now.toNat + 1000 * ttlSecs.toNat < 2 ^ 64) :
    let arena := arenaAfter hashFn region calls
    let result := MemLaneClient.mset hashFn arena pairs ttlSecs fun _ _ => now
    ∃ done rest, pairs = done ++ rest ∧
      (rest = [] ∧ result.1 = .ok pairs.length ∨
        ∃ key value more e, rest = (key, value) :: more ∧ result.1 = .error e ∧
          SetFails hashFn result.2 key value now e) ∧
      (∀ k v, lastValue done k = some v →
        (MemLaneClient.get hashFn result.2 k fun _ => now).1 = .ok (some v)) ∧
      ∀ k, lastValue done k = none → ¬ Shadowed hashFn arena k (fun _ => now) →
        (MemLaneClient.get hashFn result.2 k fun _ => now).1 =
          (MemLaneClient.get hashFn arena k fun _ => now).1 := by
  intro arena result
  have hinv : TableInv hashFn arena := .arenaAfter hashFn region calls
  obtain ⟨hinv', done, rest, hpairs, hsets, hresult⟩ := msetLoop_sets hinv hfits 0 pairs
  rw [Nat.zero_add] at hresult
  refine ⟨done, rest, hpairs, hresult, fun k v hlast => ?_, fun k hlast hnot => ?_⟩
  · exact (MemLaneClient.get_eq_some_iff_visible hinv').mpr (hsets.written k v hlast)
  · exact MemLaneClient.get_congr hinv hinv' (hsets.kept k hlast hnot)

/-! ## It is not all or nothing -/

/-- Either all keys of the pairs read back as set, or every key reads as before. -/
def AllOrNothing (hashFn : Bytes → UInt64) (arena : Arena) (pairs : List (Bytes × Bytes))
    (ttlSecs now : UInt64) : Prop :=
  let result := MemLaneClient.mset hashFn arena pairs ttlSecs fun _ _ => now
  (∀ n, result.1 = .ok n → n = pairs.length ∧ ∀ k v, lastValue pairs k = some v →
    (MemLaneClient.get hashFn result.2 k fun _ => now).1 = .ok (some v)) ∧
  ∀ e, result.1 = .error e → ∀ k, (MemLaneClient.get hashFn result.2 k fun _ => now).1 =
    (MemLaneClient.get hashFn arena k fun _ => now).1

/-- An admissible pair, and one whose key is a byte too long. -/
def halfGoodPairs : List (Bytes × Bytes) := [([1], [1]), (List.replicate 129 0, [1])]

/-- The first pair stays when the second fails. -/
theorem mset_keeps_first_pair :
    ¬ AllOrNothing siphash (createArena zeroedRegion) halfGoodPairs 0 0 := by
  intro h
  have herror : (MemLaneClient.mset siphash (createArena zeroedRegion) halfGoodPairs 0
      fun _ _ => 0).1 = .error (.keyTooLong 129) := by decide +kernel
  have hsame := h.2 _ herror [1]
  have hafter : (MemLaneClient.get siphash (MemLaneClient.mset siphash (createArena zeroedRegion)
      halfGoodPairs 0 fun _ _ => 0).2 [1] fun _ => 0).1 = .ok (some [1]) := by decide +kernel
  have hbefore : (MemLaneClient.get siphash (createArena zeroedRegion) [1] fun _ => 0).1 =
      .ok none := by decide +kernel
  cases hafter.symm.trans (hsame.trans hbefore)

/-- The two pairs on a fresh arena. -/
theorem mset_sets_prefix_halfGood :
    ∃ done rest, halfGoodPairs = done ++ rest ∧
      (rest = [] ∧ (MemLaneClient.mset siphash (arenaAfter siphash zeroedRegion []) halfGoodPairs
          0 fun _ _ => 0).1 = .ok halfGoodPairs.length ∨
        ∃ key value more e, rest = (key, value) :: more ∧
          (MemLaneClient.mset siphash (arenaAfter siphash zeroedRegion []) halfGoodPairs 0
            fun _ _ => 0).1 = .error e ∧
          SetFails siphash (MemLaneClient.mset siphash (arenaAfter siphash zeroedRegion [])
            halfGoodPairs 0 fun _ _ => 0).2 key value 0 e) ∧
      (∀ k v, lastValue done k = some v →
        (MemLaneClient.get siphash (MemLaneClient.mset siphash (arenaAfter siphash zeroedRegion [])
          halfGoodPairs 0 fun _ _ => 0).2 k fun _ => 0).1 = .ok (some v)) ∧
      ∀ k, lastValue done k = none →
        ¬ Shadowed siphash (arenaAfter siphash zeroedRegion []) k (fun _ => 0) →
        (MemLaneClient.get siphash (MemLaneClient.mset siphash (arenaAfter siphash zeroedRegion [])
          halfGoodPairs 0 fun _ _ => 0).2 k fun _ => 0).1 =
          (MemLaneClient.get siphash (arenaAfter siphash zeroedRegion []) k fun _ => 0).1 :=
  mset_sets_prefix zeroedRegion [] halfGoodPairs 0 0 (by decide)

end MemLane
