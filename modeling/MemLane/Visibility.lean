import MemLane.ReadHistory

/-!
# What can be read at one moment

With the clock standing still, `get` finds an entry exactly when it is stored, has
not expired and is not shadowed.  A `set` that succeeds with an expiry time not yet
reached makes its own key readable, having buried every expired slot it could be
shadowed by, and it leaves the readable keys as they are.
-/

namespace MemLane

variable {hashFn : Bytes → UInt64} {arena after : Arena} {key value k v : Bytes}
  {hash expiry e now : UInt64} {i left m : Nat} {firstTombstone : Option (Fin slotCount)}

/-- An entry with this expiry time has not expired. -/
def Unexpired (expiry now : UInt64) : Prop := expiry = 0 ∨ now < expiry

theorem Slot.isExpired_eq_false_iff_unexpired {slot : Slot} :
    slot.isExpired now = false ↔ Unexpired slot.expiresAtMs now := Slot.isExpired_eq_false_iff

theorem not_unexpired_iff : ¬ Unexpired e now ↔ e ≠ 0 ∧ e ≤ now := by
  rw [Unexpired, not_or, UInt64.not_lt]

/-- `get` finds this value at the reading `now`. -/
def Visible (hashFn : Bytes → UInt64) (arena : Arena) (key value : Bytes) (now : UInt64) : Prop :=
  ∃ e, arena.Stores key value e ∧ Unexpired e now ∧ ¬ Shadowed hashFn arena key fun _ => now

theorem Visible.not_shadowed (h : Visible hashFn arena key value now) :
    ¬ Shadowed hashFn arena key fun _ => now := by
  obtain ⟨_, _, _, hnot⟩ := h
  exact hnot

theorem get_found_iff_visible (hinv : TableInv hashFn arena) :
    (get hashFn arena key fun _ => now).1 = .found value ↔ Visible hashFn arena key value now := by
  constructor
  · intro hfound
    obtain ⟨m, _, hocc, hkey, hvalue, hlive⟩ := get_found hfound
    have hunexpired := Slot.isExpired_eq_false_iff_unexpired.mp hlive
    have hs : arena.Stores key value (arena.probed (hashFn key) m).expiresAtMs :=
      ⟨_, hocc, hkey, hvalue, rfl⟩
    exact ⟨_, hs, hunexpired,
      (hinv.get_found_iff hs (hunexpired.imp_right fun h _ => h)).mp hfound⟩
  · intro h
    obtain ⟨e, hs, hunexpired, hnot⟩ := h
    exact (hinv.get_found_iff hs (hunexpired.imp_right fun h _ => h)).mpr hnot

/-! ## The client's answers -/

theorem MemLaneClient.get_eq_some_iff_visible (hinv : TableInv hashFn arena) :
    (MemLaneClient.get hashFn arena key fun _ => now).1 = .ok (some value) ↔
      Visible hashFn arena key value now := by
  rw [MemLaneClient.get_eq_some_iff, get_found_iff_visible hinv]
  refine and_iff_right_of_imp fun h => ?_
  obtain ⟨e, hs, _⟩ := h
  exact hs.key_length

/-- A key of admissible length is answered with nothing exactly when it is not visible. -/
theorem MemLaneClient.get_eq_none_iff (hinv : TableInv hashFn arena)
    (hk : key.length ≤ maxKeyLen) :
    (MemLaneClient.get hashFn arena key fun _ => now).1 = .ok none ↔
      ∀ value, ¬ Visible hashFn arena key value now := by
  simp only [← get_found_iff_visible hinv, MemLaneClient.get, if_neg (not_lt.mpr hk)]
  generalize (MemLane.get hashFn arena key fun _ => now).1 = r
  cases r <;> simp

/-- Two arenas in which the same is visible answer a `get` alike. -/
theorem MemLaneClient.get_congr (hinv : TableInv hashFn arena) (hinv' : TableInv hashFn after)
    (h : ∀ value, Visible hashFn after key value now ↔ Visible hashFn arena key value now) :
    (MemLaneClient.get hashFn after key fun _ => now).1 =
      (MemLaneClient.get hashFn arena key fun _ => now).1 := by
  by_cases hk : key.length > maxKeyLen
  · simp only [MemLaneClient.get, if_pos hk]
  · by_cases hvisible : ∃ value, Visible hashFn arena key value now
    · obtain ⟨value, hv⟩ := hvisible
      rw [(get_eq_some_iff_visible hinv).mpr hv, (get_eq_some_iff_visible hinv').mpr ((h value).mpr hv)]
    · have hnone := not_exists.mp hvisible
      rw [(get_eq_none_iff hinv (not_lt.mp hk)).mpr hnone,
        (get_eq_none_iff hinv' (not_lt.mp hk)).mpr fun value => mt (h value).mp (hnone value)]

/-! ## The slots a `set` passes -/

/-- Passing a slot that is not expired, with the clock standing still. -/
theorem notExpired_pass (h : ∀ m, m < i → ¬ ExpiredAt arena hash (fun _ => now) m)
    (hi : (arena.probed hash i).state = stateOccupied → (arena.probed hash i).fingerprint = hash →
      (arena.probed hash i).isExpired now = false) :
    ∀ m, m < i + 1 → ¬ ExpiredAt arena hash (fun _ => now) m := by
  refine forall_lt_succ h fun hexpired => ?_
  obtain ⟨hocc, hfp, hexp⟩ := hexpired
  rw [hi hocc hfp] at hexp
  cases hexp

/-- Rewriting a slot at or behind step `i` leaves the expired slots before `i` alone. -/
theorem expiredAt_setSlot_of_lt {slot : Slot} {d : Nat} (hd : d < slotCount) (hm : m < d) :
    ExpiredAt (arena.setSlot (probeIndex hash d) slot) hash (fun _ => now) m ↔
      ExpiredAt arena hash (fun _ => now) m := by
  have hsame : (arena.setSlot (probeIndex hash d) slot).probed hash m = arena.probed hash m :=
    probed_setSlot_of_ne arena slot hd (by omega) (by omega)
  simp only [ExpiredAt, hsame]

/-- A `set` that succeeds has its key stored at some step of the probe path, with nothing
expired before it that carries the same fingerprint. -/
theorem setLoop_cleared (hk : key.length ≤ maxKeyLen) (hsum : i + left = slotCount)
    (hclear : ∀ m, m < i → ¬ ExpiredAt arena hash (fun _ => now) m)
    (hfirst : IsFirstTombstone arena hash i firstTombstone) :
    (setLoop key value hash expiry (fun _ => now) arena firstTombstone i left).1 ≠ .full →
      ∃ d, d < slotCount ∧
        ((setLoop key value hash expiry (fun _ => now) arena firstTombstone i left).2.probed
          hash d).cell = .full key ∧
        ∀ m, m < d → ¬ ExpiredAt (setLoop key value hash expiry (fun _ => now) arena
          firstTombstone i left).2 hash (fun _ => now) m := by
  fun_induction setLoop key value hash expiry (fun _ => now) arena firstTombstone i left with
  | case1 arena i target =>
      intro _
      obtain ⟨d, hd, rfl, _⟩ := hfirst
      refine ⟨d, by omega, by rw [probed_setSlot_self]; exact claimSlot_cell hk, ?_⟩
      intro m hm
      rw [expiredAt_setSlot_of_lt (by omega) hm]
      exact hclear m (by omega)
  | case2 arena i => exact fun h => (h rfl).elim
  | case3 arena firstTombstone i left idx slot hempty target =>
      intro _
      have htarget : ∃ d, d ≤ i ∧ target = probeIndex hash d := by
        cases firstTombstone with
        | none => exact ⟨i, Nat.le_refl i, rfl⟩
        | some t =>
            obtain ⟨d, hd, rfl, _⟩ := hfirst
            exact ⟨d, by omega, rfl⟩
      obtain ⟨d, hd, hidx⟩ := htarget
      rw [hidx]
      refine ⟨d, by omega, ?_, ?_⟩
      · rw [Arena.probed, Arena.fetchAddUsed_slots, ← Arena.probed, probed_setSlot_self]
        exact claimSlot_cell hk
      · intro m hm
        exact (expiredAt_setSlot_of_lt (by omega) hm).not.mpr (hclear m (by omega))
  | case4 arena firstTombstone i left idx slot hempty htomb ih =>
      have hocc : slot.state ≠ stateOccupied := by simp [htomb]
      exact ih (by omega) (notExpired_pass hclear fun h => (hocc h).elim) (hfirst.record htomb)
  | case5 arena firstTombstone i left idx slot hempty htomb hocc hfp ih =>
      exact ih (by omega) (notExpired_pass hclear fun _ h => (hfp h).elim) (hfirst.pass htomb)
  | case6 arena firstTombstone i left idx slot hempty htomb hocc hfp evicted hev ih =>
      obtain ⟨_, rfl⟩ := Slot.lazyEvictIfExpired_eq_true hocc hev
      have hi : i < slotCount := by omega
      refine ih (by omega) (notExpired_pass (fun m hm => ?_) fun h => ?_) ?_
      · rw [expiredAt_setSlot_of_lt hi hm]
        exact hclear m hm
      · rw [probed_setSlot_self] at h
        simp at h
      · refine (hfirst.congr fun m hm => ?_).record (by rw [probed_setSlot_self]; rfl)
        exact probed_setSlot_of_ne arena _ hi (by omega) (by omega)
  | case7 arena firstTombstone i left idx slot hempty htomb hocc hfp _ hev hkey ih =>
      have hlive := Slot.lazyEvictIfExpired_eq_false hev
      exact ih (by omega) (notExpired_pass hclear fun _ _ => hlive) (hfirst.pass htomb)
  | case8 arena firstTombstone i left idx slot hempty htomb hocc hfp _ hev hkey =>
      intro _
      have hi : i < slotCount := by omega
      refine ⟨i, hi, ?_, fun m hm => ?_⟩
      · rw [probed_setSlot_self, updateSlot_cell]
        exact Slot.cell_eq_full.mpr ⟨hocc, not_not.mp hkey⟩
      · rw [expiredAt_setSlot_of_lt hi hm]
        exact hclear m hm
  | case9 arena firstTombstone i left idx slot hempty htomb hocc ih =>
      exact ih (by omega) (notExpired_pass hclear fun h => (hocc h).elim) (hfirst.pass htomb)

/-! ## What a `set` does to what can be read -/

/-- A slot that evictions have left OCCUPIED is as it was. -/
theorem Evicts.slot_of_occupied {clock : Clock} (h : Evicts hash clock arena after)
    {j : Fin slotCount} (hocc : (after.slots j).state = stateOccupied) :
    after.slots j = arena.slots j := by
  rcases h.slot j with heq | ⟨_, _, _, heq⟩
  · exact heq
  · simp [heq] at hocc

section SetEffect

variable {clock : Clock} {res : SetResult}

/-- An OCCUPIED slot of another key is as it was before a `set`. -/
theorem SetEffect.slot_of_ne (hk : key.length ≤ maxKeyLen)
    (h : SetEffect key value hash expiry clock arena (res, after)) {j : Fin slotCount}
    (hocc : (after.slots j).state = stateOccupied) (hkey : (after.slots j).readKey ≠ key) :
    after.slots j = arena.slots j := by
  cases h with
  | @inserted now' _ d hevicts habsent hd hfree hchain hslots hcount =>
      rw [hslots] at hocc hkey ⊢
      rw [Arena.setSlot_slots] at hocc hkey ⊢
      split at hkey
      · exact (hkey (claimSlot_readKey hk)).elim
      · next hj =>
          rw [if_neg hj] at hocc ⊢
          exact hevicts.slot_of_occupied hocc
  | @updated now' i hevicts hocc' hkey' =>
      rw [Arena.setSlot_slots] at hocc hkey ⊢
      split at hkey
      · exact (hkey hkey').elim
      · next hj =>
          rw [if_neg hj] at hocc ⊢
          exact hevicts.slot_of_occupied hocc
  | full => rfl

/-- The OCCUPIED slots of the key itself have the new expiry time, after a success. -/
theorem SetEffect.expiresAtMs_self (hinv' : TableInv hashFn after) (hk : key.length ≤ maxKeyLen)
    (hv : value.length ≤ maxValLen)
    (h : SetEffect key value hash expiry clock arena (res, after)) (hres : res ≠ .full)
    {j : Fin slotCount} (hocc : (after.slots j).state = stateOccupied)
    (hkey : (after.slots j).readKey = key) : (after.slots j).expiresAtMs = expiry :=
  (hinv'.stores_unique ⟨j, hocc, hkey, rfl, rfl⟩ (h.stores_self hk hv hres)).2

end SetEffect

section FixedClock

variable {res : SetResult} (hinv' : TableInv hashFn after)
  (hk : key.length ≤ maxKeyLen) (hv : value.length ≤ maxValLen)
  (h : SetEffect key value (hashFn key) expiry (fun _ => now) arena (res, after))
  (hres : res ≠ .full) (hlive : Unexpired expiry now)

include hinv' hk hv h hres hlive

/-- A slot that is expired after a `set` was so before, the written one having not expired. -/
theorem SetEffect.expiredAt (hexp : ExpiredAt after hash (fun _ => now) m) :
    ExpiredAt arena hash (fun _ => now) m := by
  have hocc := hexp.1
  have hslot : after.probed hash m = arena.probed hash m := by
    refine h.slot_of_ne hk hocc fun hkey => ?_
    obtain ⟨_, _, hexpired⟩ := hexp
    have hexpiry : (after.probed hash m).expiresAtMs = expiry :=
      h.expiresAtMs_self hinv' hk hv hres hocc hkey
    rw [Slot.isExpired_eq_false_iff_unexpired.mpr (hexpiry ▸ hlive)] at hexpired
    cases hexpired
  rwa [ExpiredAt, hslot] at hexp

/-- The other keys are shadowed after a `set` only if they were before. -/
theorem SetEffect.shadowed (hne : k ≠ key) (hshadowed : Shadowed hashFn after k fun _ => now) :
    Shadowed hashFn arena k fun _ => now := by
  obtain ⟨m, d, hmd, hd, hocc, hkey, hexp⟩ := hshadowed
  have hslot : after.probed (hashFn k) d = arena.probed (hashFn k) d :=
    h.slot_of_ne hk hocc (hkey.symm ▸ hne)
  rw [hslot] at hocc hkey
  exact ⟨m, d, hmd, hd, hocc, hkey, h.expiredAt hinv' hk hv hres hlive hexp⟩

/-- A key that is not shadowed reads after the `set` of another as it did before. -/
theorem SetEffect.visible_of_ne (hne : k ≠ key) (hnot : ¬ Shadowed hashFn arena k fun _ => now) :
    Visible hashFn after k v now ↔ Visible hashFn arena k v now := by
  constructor
  · intro hvisible
    obtain ⟨e, hs, hunexpired, _⟩ := hvisible
    exact ⟨e, h.stores_of_ne hk hne hs, hunexpired, hnot⟩
  · intro hvisible
    obtain ⟨e, hs, hunexpired, _⟩ := hvisible
    refine ⟨e, ?_, hunexpired, mt (h.shadowed hinv' hk hv hres hlive hne) hnot⟩
    rcases h.keeps hne hs with hkept | hexp
    · exact hkept
    · obtain ⟨hne0, _, hle⟩ := hexp.expired
      exact (not_unexpired_iff.mpr ⟨hne0, hle⟩ hunexpired).elim

end FixedClock

/-- The written key reads back at once. -/
theorem set_visible_self (hinv : TableInv hashFn arena) (hk : key.length ≤ maxKeyLen)
    (hv : value.length ≤ maxValLen) {ttlSecs : UInt64}
    (hlive : Unexpired (ttlToExpiry ttlSecs now) now)
    (hok : (set hashFn arena key value ttlSecs fun _ => now).1 ≠ .full) :
    Visible hashFn (set hashFn arena key value ttlSecs fun _ => now).2 key value now := by
  have hinv' := hinv.set hk value ttlSecs fun _ => now
  have heff := set_effect hinv key value ttlSecs fun _ => now
  have hcleared : ∃ d, d < slotCount ∧
      ((set hashFn arena key value ttlSecs fun _ => now).2.probed (hashFn key) d).cell = .full key ∧
      ∀ m, m < d → ¬ ExpiredAt (set hashFn arena key value ttlSecs fun _ => now).2 (hashFn key)
        (fun _ => now) m := by
    refine setLoop_cleared hk (Nat.zero_add _) ?_ ?_ hok
    · exact fun m hm => (Nat.not_lt_zero m hm).elim
    · exact fun m hm => (Nat.not_lt_zero m hm).elim
  obtain ⟨d, hd, hcell, hclear⟩ := hcleared
  refine ⟨_, heff.stores_self hk hv hok, hlive, fun hshadowed => ?_⟩
  obtain ⟨m, d', hmd, hd', hocc, hkey, hexp⟩ := hshadowed
  obtain ⟨hocc', hkey'⟩ := Slot.cell_eq_full.mp hcell
  have hslot : probeIndex (hashFn key) d' = probeIndex (hashFn key) d :=
    hinv'.slot_unique hocc hocc' (hkey.trans hkey'.symm)
  obtain rfl := probeIndex_injective hd' hd hslot
  exact hclear m hmd hexp

end MemLane
