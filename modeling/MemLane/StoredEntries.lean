import MemLane.TableInvariant

/-!
# What each operation does to the stored entries

The arena is observed through `Stores`: which keys are stored, with which value
and expiry time.  Evictions remove entries that a reading of the clock found
expired and add nothing; `set` writes its own key; `del` removes its own key;
and the entry of every other key is left alone.
-/

namespace MemLane

variable {hashFn : Bytes → UInt64} {hash : UInt64} {clock : Clock} {arena : Arena}
  {key k : Bytes} {value v : Bytes} {expiry e : UInt64}

/-- Stored keys are of admissible length. -/
theorem Arena.Stores.key_length (h : arena.Stores k v e) : k.length ≤ maxKeyLen := by
  obtain ⟨i, _, hkey, _⟩ := h
  rw [← hkey, Slot.readKey, Buffer.slice, List.length_ofFn]
  exact Nat.min_le_right _ _

/-! ## Evictions -/

theorem Evicts.stores {a b : Arena} (h : Evicts hash clock a b) (hb : b.Stores k v e) :
    a.Stores k v e := by
  obtain ⟨j, hocc, hrest⟩ := hb
  rcases h.slot j with heq | ⟨_, _, _, heq⟩
  · exact ⟨j, heq ▸ hocc, heq ▸ hrest⟩
  · rw [heq] at hocc
    simp at hocc

/-- The slot at step `m` would end a search for a key with this fingerprint as
expired, whatever key it holds. -/
def ExpiredAt (arena : Arena) (hash : UInt64) (clock : Clock) (m : Nat) : Prop :=
  (arena.probed hash m).state = stateOccupied ∧ (arena.probed hash m).fingerprint = hash ∧
    (arena.probed hash m).isExpired (clock m) = true

/-- The entry of `k` is in the slot of a step at which a search with this fingerprint reads
the clock and finds it expired. -/
def Arena.Lapses (arena : Arena) (hash : UInt64) (clock : Clock) (k : Bytes) (e : UInt64) : Prop :=
  ∃ m, m < slotCount ∧ ExpiredAt arena hash clock m ∧ (arena.probed hash m).readKey = k ∧
    (arena.probed hash m).expiresAtMs = e

theorem Arena.Lapses.expired (h : arena.Lapses hash clock k e) : e ≠ 0 ∧ ∃ m, e ≤ clock m := by
  obtain ⟨m, _, hexp, _, rfl⟩ := h
  obtain ⟨hne, hle⟩ := Slot.isExpired_iff.mp hexp.2.2
  exact ⟨hne, m, hle⟩

theorem Arena.Lapses.fingerprint (hinv : TableInv hashFn arena)
    (h : arena.Lapses hash clock k e) : hashFn k = hash := by
  obtain ⟨m, _, ⟨hocc, hfp, _⟩, rfl, _⟩ := h
  exact ((hinv.slot _).fingerprint hocc).symm.trans hfp

/-- An entry that an eviction removed was found expired, by a call for a key with
the same fingerprint. -/
theorem Evicts.stores_or_expired {a b : Arena} (h : Evicts hash clock a b)
    (ha : a.Stores k v e) : b.Stores k v e ∨ a.Lapses hash clock k e := by
  obtain ⟨j, hocc, hkey, hvalue, hexpiry⟩ := ha
  rcases h.slot j with heq | ⟨_, hfp, ⟨m, hm, rfl, hexp⟩, _⟩
  · exact .inl ⟨j, by rw [heq]; exact ⟨hocc, hkey, hvalue, hexpiry⟩⟩
  · exact .inr ⟨m, hm, ⟨hocc, hfp, hexp⟩, hkey, hexpiry⟩

/-- Burying one expired slot is an eviction. -/
theorem Evicts.of_bury {i : Nat} (hi : i < slotCount)
    (hocc : (arena.probed hash i).state = stateOccupied)
    (hfp : (arena.probed hash i).fingerprint = hash)
    (hexp : (arena.probed hash i).isExpired (clock i) = true) :
    Evicts hash clock arena
      (arena.setSlot (probeIndex hash i) (arena.probed hash i).buried) where
  header := rfl
  slot := fun j => by
    rw [Arena.setSlot_slots]
    split
    · next hj =>
        subst hj
        exact .inr ⟨hocc, hfp, ⟨i, hi, rfl, hexp⟩, rfl⟩
    · exact .inl rfl

/-! ## Arenas without expiry times -/

/-- No OCCUPIED slot has an expiry time. -/
def Arena.Permanent (arena : Arena) : Prop :=
  ∀ i, (arena.slots i).state = stateOccupied → (arena.slots i).expiresAtMs = 0

theorem Arena.Permanent.stores (h : arena.Permanent) (hs : arena.Stores k v e) : e = 0 := by
  obtain ⟨i, hocc, _, _, rfl⟩ := hs
  exact h i hocc

theorem Arena.Permanent.not_expired (h : arena.Permanent) {i : Fin slotCount}
    (hocc : (arena.slots i).state = stateOccupied) (now : UInt64) :
    (arena.slots i).isExpired now = false :=
  Slot.isExpired_of_zero (h i hocc) now

/-- Nothing is ever evicted. -/
theorem Arena.Permanent.eq_of_evicts (h : arena.Permanent) {now : Arena}
    (hev : Evicts hash clock arena now) : now = arena := by
  refine Arena.ext' hev.header fun i => ?_
  rcases hev.slot i with heq | ⟨hocc, _, ⟨j, _, _, hexp⟩, _⟩
  · exact heq
  · exact (Bool.false_ne_true ((h.not_expired hocc _).symm.trans hexp)).elim

theorem Arena.Permanent.of_no_occupied (h : ∀ i, (arena.slots i).state ≠ stateOccupied) :
    arena.Permanent := fun i hocc => (h i hocc).elim

/-- Rewriting one slot keeps permanence if the new slot does not expire. -/
theorem Arena.Permanent.setSlot (h : arena.Permanent) (i : Fin slotCount) {slot : Slot}
    (hslot : slot.state = stateOccupied → slot.expiresAtMs = 0) :
    (arena.setSlot i slot).Permanent := by
  intro j hocc
  rw [Arena.setSlot_slots] at hocc ⊢
  split at hocc
  · next hj => rw [if_pos hj]; exact hslot hocc
  · next hj => rw [if_neg hj]; exact h j hocc

theorem Arena.Permanent.congr {b : Arena} (h : arena.Permanent) (hslots : b.slots = arena.slots) :
    b.Permanent := fun i hocc => by
  rw [hslots] at hocc ⊢
  exact h i hocc

/-! ## `get` -/

/-- A `get` changes the arena at most by evictions. -/
theorem get_evicts (hashFn : Bytes → UInt64) (arena : Arena) (key : Bytes) (clock : Clock) :
    Evicts (hashFn key) clock arena (get hashFn arena key clock).2 := by
  have hout := get_outcome hashFn arena key clock
  generalize get hashFn arena key clock = res at hout
  cases hout with
  | absent | exhausted | found => exact .refl _ _ _
  | expired he hocc hfp hexp hpassed => exact .of_bury he hocc hfp hexp

/-- A found value is that of an OCCUPIED slot with this key, which was not expired
at the reading made for it. -/
theorem get_found (hfound : (get hashFn arena key clock).1 = .found value) :
    ∃ m, m < slotCount ∧ (arena.probed (hashFn key) m).state = stateOccupied ∧
      (arena.probed (hashFn key) m).readKey = key ∧
      (arena.probed (hashFn key) m).readValue = value ∧
      (arena.probed (hashFn key) m).isExpired (clock m) = false := by
  have hout := get_outcome hashFn arena key clock
  generalize get hashFn arena key clock = res at hout hfound
  cases hout with
  | absent | exhausted | expired => cases hfound
  | @found m he hocc hfp hlive hkey hpassed =>
      cases hfound
      exact ⟨m, he, hocc, hkey, rfl, hlive⟩

/-- A `get` for an absent key does not find anything. -/
theorem get_absent (habsent : ¬ arena.Contains key) (value : Bytes) :
    (get hashFn arena key clock).1 ≠ .found value := by
  intro hfound
  obtain ⟨m, _, hocc, hkey, _⟩ := get_found hfound
  exact habsent ⟨_, hocc, hkey⟩

/-- **What `get` answers for a stored key.**  It finds the value exactly when no
slot up to and including the key's own is expired with the same fingerprint. -/
theorem get_of_stored (hinv : TableInv hashFn arena) {d : Nat} (hd : d < slotCount)
    (hocc : (arena.probed (hashFn key) d).state = stateOccupied)
    (hkey : (arena.probed (hashFn key) d).readKey = key) :
    (get hashFn arena key clock).1 = .found (arena.probed (hashFn key) d).readValue ↔
      ∀ m, m ≤ d → ¬ ExpiredAt arena (hashFn key) clock m := by
  have hfp : (arena.probed (hashFn key) d).fingerprint = hashFn key :=
    hinv.fingerprint_eq hocc hkey
  have hne : ∀ m, m < d → (arena.probed (hashFn key) m).state ≠ stateEmpty :=
    fun m hm => hinv.nonempty_of_chain hd hocc hkey hm
  have hout := get_outcome hashFn arena key clock
  generalize get hashFn arena key clock = res at hout ⊢
  cases hout with
  | @absent i he hempty hpassed =>
      rcases Nat.lt_trichotomy i d with hlt | rfl | hgt
      · exact (hne i hlt hempty).elim
      · simp [hempty] at hocc
      · exact ((hpassed d hgt).1.mismatch hocc hfp hkey).elim
  | exhausted hpassed => exact ((hpassed d hd).1.mismatch hocc hfp hkey).elim
  | @expired i he hocc' hfp' hexp hpassed =>
      have hle : i ≤ d := by
        by_contra hgt
        exact (hpassed d (by omega)).1.mismatch hocc hfp hkey
      refine ⟨fun h => (by cases h), fun h => (h i hle ⟨hocc', hfp', hexp⟩).elim⟩
  | @found i he hocc' hfp' hlive hkey' hpassed =>
      obtain rfl : i = d := by
        have hslot : probeIndex (hashFn key) i = probeIndex (hashFn key) d :=
          hinv.slot_unique hocc' hocc (hkey'.trans hkey.symm)
        exact probeIndex_injective he hd hslot
      refine ⟨fun _ m hm => ?_, fun _ => rfl⟩
      intro hexpired
      obtain ⟨hocc'', hfp'', hexp⟩ := hexpired
      rcases Nat.lt_or_eq_of_le hm with hlt | rfl
      · rw [(hpassed m hlt).2 hocc'' hfp''] at hexp
        cases hexp
      · rw [hlive] at hexp
        cases hexp

/-! ## `del` -/

/-- A `del` removes its key and nothing else, and says whether it was there. -/
inductive DelEffect (key : Bytes) (before : Arena) : DelResult × Arena → Prop
  | notFound (habsent : ¬ before.Contains key) : DelEffect key before (.notFound, before)
  | deleted {i : Fin slotCount} (hocc : (before.slots i).state = stateOccupied)
      (hkey : (before.slots i).readKey = key) :
      DelEffect key before (.deleted, (before.setSlot i (before.slots i).buried).fetchSubUsed)

theorem del_effect (hinv : TableInv hashFn arena) (key : Bytes) :
    DelEffect key arena (del hashFn arena key) := by
  have hout := del_outcome hashFn arena key
  generalize del hashFn arena key = res at hout
  cases hout with
  | absent he hempty hpassed => exact .notFound (hinv.absent_of_empty he hempty hpassed)
  | exhausted hpassed => exact .notFound (hinv.absent_of_full_scan hpassed)
  | deleted he hocc hfp hkey hpassed => exact .deleted hocc hkey

/-- After a `del`, the entries of the other keys are what they were, and the key
itself is gone. -/
theorem DelEffect.stores_iff (hinv : TableInv hashFn arena) {res : DelResult} {after : Arena}
    (h : DelEffect key arena (res, after)) :
    after.Stores k v e ↔ k ≠ key ∧ arena.Stores k v e := by
  cases h with
  | notFound habsent =>
      refine ⟨fun hs => ⟨?_, hs⟩, fun hs => hs.2⟩
      intro heq
      subst heq
      exact habsent hs.contains
  | @deleted i hocc hkey =>
      constructor
      · intro hmem
        obtain ⟨j, hj, hjk, hjrest⟩ := hmem
        by_cases hji : j = i
        · subst hji
          simp at hj
        · simp only [Arena.fetchSubUsed_slots, Arena.setSlot_slots, if_neg hji] at hj hjk hjrest
          refine ⟨?_, j, hj, hjk, hjrest⟩
          intro heq
          subst heq
          exact hji (hinv.slot_unique hj hocc (hjk.trans hkey.symm))
      · intro hmem
        obtain ⟨hne, j, hj, hjk, hjrest⟩ := hmem
        have hji : j ≠ i := by
          intro heq
          subst heq
          exact hne (hjk.symm.trans hkey)
        exact ⟨j, by simpa [hji] using ⟨hj, hjk, hjrest⟩⟩

/-! ## `set` -/

section SetEffect

variable {res : SetResult} {after : Arena}

/-- A successful `set` stores its entry. -/
theorem SetEffect.stores_self (hk : key.length ≤ maxKeyLen) (hv : value.length ≤ maxValLen)
    (h : SetEffect key value hash expiry clock arena (res, after)) (hres : res ≠ .full) :
    after.Stores key value expiry := by
  cases h with
  | @inserted now _ d hevicts habsent hd hfree hchain hslots hcount =>
      refine ⟨probeIndex hash d, ?_⟩
      rw [hslots]
      simp [claimSlot_readKey hk, claimSlot_readValue hv]
  | @updated now i hevicts hocc hkey =>
      exact ⟨i, by simp [hocc, hkey, updateSlot_readValue hv]⟩
  | full => exact (hres rfl).elim

/-- A `set` gives the other keys no new entries. -/
theorem SetEffect.stores_of_ne (hk : key.length ≤ maxKeyLen)
    (h : SetEffect key value hash expiry clock arena (res, after)) (hne : k ≠ key)
    (hs : after.Stores k v e) : arena.Stores k v e := by
  cases h with
  | @inserted now _ d hevicts habsent hd hfree hchain hslots hcount =>
      obtain ⟨j, hj, hjk, hjrest⟩ := hs
      rw [hslots] at hj hjk hjrest
      by_cases hjd : j = probeIndex hash d
      · subst hjd
        simp only [Arena.setSlot_slots, if_true, claimSlot_readKey hk] at hjk
        exact (hne hjk.symm).elim
      · simp only [Arena.setSlot_slots, if_neg hjd] at hj hjk hjrest
        exact hevicts.stores ⟨j, hj, hjk, hjrest⟩
  | @updated now i hevicts hocc hkey =>
      obtain ⟨j, hj, hjk, hjrest⟩ := hs
      by_cases hji : j = i
      · subst hji
        simp only [Arena.setSlot_slots, if_true, updateSlot_readKey] at hjk
        exact (hne (hjk.symm.trans hkey)).elim
      · simp only [Arena.setSlot_slots, if_neg hji] at hj hjk hjrest
        exact hevicts.stores ⟨j, hj, hjk, hjrest⟩
  | full => exact hs

/-- A `set` keeps the entries of the other keys, unless it found them expired. -/
theorem SetEffect.keeps (h : SetEffect key value hash expiry clock arena (res, after))
    (hne : k ≠ key) (hs : arena.Stores k v e) :
    after.Stores k v e ∨ arena.Lapses hash (fun m => clock (m + 1)) k e := by
  cases h with
  | @inserted now _ d hevicts habsent hd hfree hchain hslots hcount =>
      rcases hevicts.stores_or_expired hs with ⟨j, hj, hjrest⟩ | hexp
      · have hjd : j ≠ probeIndex hash d := by
          intro heq
          subst heq
          exact hfree hj
        exact .inl ⟨j, by rw [hslots]; simpa [hjd] using ⟨hj, hjrest⟩⟩
      · exact .inr hexp
  | @updated now i hevicts hocc hkey =>
      rcases hevicts.stores_or_expired hs with ⟨j, hj, hjk, hjrest⟩ | hexp
      · have hji : j ≠ i := by
          intro heq
          subst heq
          exact hne (hjk.symm.trans hkey)
        exact .inl ⟨j, by simpa [hji] using ⟨hj, hjk, hjrest⟩⟩
      · exact .inr hexp
  | full => exact .inl hs

/-- A `set` without expiry keeps an arena permanent. -/
theorem SetEffect.permanent (hperm : arena.Permanent)
    (h : SetEffect key value hash 0 clock arena (res, after)) : after.Permanent := by
  cases h with
  | @inserted now _ d hevicts habsent hd hfree hchain hslots hcount =>
      obtain rfl := hperm.eq_of_evicts hevicts
      exact (hperm.setSlot _ fun _ => rfl).congr hslots
  | @updated now i hevicts hocc hkey =>
      obtain rfl := hperm.eq_of_evicts hevicts
      exact hperm.setSlot _ fun _ => rfl
  | full => exact hperm

end SetEffect

/-! ## Calls without expiry times -/

/-- A `set` among the calls asks for no expiry. -/
def Call.NoTtl (call : Call) : Prop :=
  ∀ key value ttlSecs, call.op = .set key value ttlSecs → ttlSecs = 0

theorem Arena.Permanent.createArena (region : Arena) : (createArena region).Permanent :=
  .of_no_occupied fun i => by simp [MemLane.createArena, Slot.init]

theorem Arena.Permanent.flushAll (arena : Arena) : (flushAll arena).Permanent :=
  .of_no_occupied fun i => by simp [MemLane.flushAll, flushSlot]

theorem Arena.Permanent.exec (hinv : TableInv hashFn arena) (h : arena.Permanent) {call : Call}
    (hnoTtl : call.NoTtl) : (call.exec hashFn arena).2.Permanent := by
  obtain ⟨op, clock⟩ := call
  cases op with
  | get key | existsKey key =>
      simp only [Call.exec, MemLaneClient.get, MemLaneClient.existsKey]
      split
      · exact h
      · exact h.congr (congrArg Arena.slots
          (h.eq_of_evicts (get_evicts hashFn arena key clock)))
  | del key =>
      simp only [Call.exec, MemLaneClient.del]
      split
      · exact h
      · have heff := del_effect hinv key
        generalize MemLane.del hashFn arena key = res at heff ⊢
        cases heff with
        | notFound => exact h
        | deleted hocc hkey => exact (h.setSlot _ (by simp)).congr rfl
  | flush => exact .flushAll arena
  | set key value ttlSecs =>
      obtain rfl := hnoTtl key value ttlSecs rfl
      simp only [Call.exec, MemLaneClient.set]
      split
      · exact h
      · split
        · exact h
        · have heff := set_effect hinv key value 0 clock
          rw [ttlToExpiry_zero] at heff
          exact heff.permanent h

end MemLane
