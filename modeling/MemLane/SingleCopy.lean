import MemLane.SetRace
import MemLane.SlotAccess

/-!
# One copy of a key

Any number of clients of one arena, in interleaved steps.  Two `set`s of the same absent key
can choose different slots: when a deletion turns a slot on their chain into a tombstone, the
one that has passed it goes on to the EMPTY slot behind, and the other reuses the tombstone.
Then the key has two copies, and a `del` leaves one of them.

If no claim goes to a slot that another running `set` of the key has overlooked, then in
every state every key has one copy at most, and a deleted key is not found until it is set
again.
-/

namespace MemLane

/-! ## The condition -/

/-- The key of a running `set`. -/
def Thread.setKey : Thread → Option Bytes
  | .set key .. => some key
  | _ => none

/-- The first `i` steps of the scan have passed the slot, and it is not the candidate. -/
def Missed (hashFn : Bytes → UInt64) (key : Bytes) (ft : Option (Fin slotCount)) (i : Nat)
    (t : Fin slotCount) : Prop :=
  (∃ m, m < i ∧ probeIndex (hashFn key) m = t) ∧ ft ≠ some t

/-- A running `set` that comes to claim a slot will claim another than `t`, unless it is
changed before. -/
def Overlooks (hashFn : Bytes → UInt64) (key : Bytes) (ft : Option (Fin slotCount)) (i : Nat)
    (t : Fin slotCount) : Phase → Prop
  | .load => Missed hashFn key ft i t
  | .act state =>
      if state = stateEmpty then ft.getD (probeIndex (hashFn key) i) ≠ t
      else if state = stateTombstone then
        Missed hashFn key (ft.or (some (probeIndex (hashFn key) i))) (i + 1) t
      else Missed hashFn key ft i t

def Thread.Overlooks (hashFn : Bytes → UInt64) (t : Fin slotCount) : Thread → Prop
  | .set key _ _ ft i phase => MemLane.Overlooks hashFn key ft i t phase
  | _ => False

section Condition

variable {ι : Type*} (hashFn : Bytes → UInt64)

/-- If the next step claims a slot, no other running `set` of the same key overlooks it. -/
def ClaimSeen (s : Shared ι) (input : ι × Move) : Prop :=
  match input.2 with
  | .enter .. => True
  | .step _ => ∀ t ∈ (s.thread input.1).claimTarget hashFn, ∀ d, d ≠ input.1 →
      (s.thread d).setKey = (s.thread input.1).setKey → ¬ (s.thread d).Overlooks hashFn t

instance (key : Bytes) (ft : Option (Fin slotCount)) (i : Nat) (t : Fin slotCount) :
    Decidable (Missed hashFn key ft i t) := instDecidableAnd

instance (key : Bytes) (ft : Option (Fin slotCount)) (i : Nat) (t : Fin slotCount)
    (phase : Phase) : Decidable (Overlooks hashFn key ft i t phase) :=
  match phase with
  | .load => inferInstanceAs (Decidable (Missed hashFn key ft i t))
  | .act state => inferInstanceAs (Decidable (if state = stateEmpty then _ else _))

instance (t : Fin slotCount) (thread : Thread) : Decidable (thread.Overlooks hashFn t) :=
  match thread with
  | .set key _ _ ft i phase => inferInstanceAs (Decidable (Overlooks hashFn key ft i t phase))
  | .idle | .get .. | .del .. | .done _ => .isFalse id

instance [Fintype ι] [DecidableEq ι] (s : Shared ι) (input : ι × Move) :
    Decidable (ClaimSeen hashFn s input) :=
  match input with
  | (_, .enter ..) => .isTrue trivial
  | (c, .step _) => Option.decidableForallMem ((s.thread c).claimTarget hashFn)
      (p := fun t => ∀ d, d ≠ c → (s.thread d).setKey = (s.thread c).setKey →
        ¬ (s.thread d).Overlooks hashFn t)

end Condition

/-! ## What one step of `get` and of `del` can do -/

inductive GetMove (hashFn : Bytes → UInt64) (arena : Arena) (key : Bytes) :
    Nat → Phase → Arena × Thread → Prop
  | loaded {i} (hi : i < slotCount) :
      GetMove hashFn arena key i .load
        (arena, .get key i (.act (arena.probed (hashFn key) i).state))
  | notFound {i phase} : GetMove hashFn arena key i phase (arena, .done (.get .notFound))
  | passed {i state} : GetMove hashFn arena key i (.act state) (arena, .get key (i + 1) .load)
  | evicted {i state} :
      GetMove hashFn arena key i (.act state)
        (arena.setSlot (probeIndex (hashFn key) i)
          ((arena.probed (hashFn key) i).compareExchange stateOccupied stateTombstone).2,
          .done (.get .expired))
  | found {i state} (hstate : state = stateOccupied)
      (hkey : (arena.probed (hashFn key) i).readKey = key) :
      GetMove hashFn arena key i (.act state)
        (arena, .done (.get (.found (arena.probed (hashFn key) i).readValue)))

inductive DelMove (hashFn : Bytes → UInt64) (arena : Arena) (key : Bytes) :
    Nat → Phase → Arena × Thread → Prop
  | loaded {i} (hi : i < slotCount) :
      DelMove hashFn arena key i .load
        (arena, .del key i (.act (arena.probed (hashFn key) i).state))
  | notFound {i phase} : DelMove hashFn arena key i phase (arena, .done (.del .notFound))
  | passed {i state} : DelMove hashFn arena key i (.act state) (arena, .del key (i + 1) .load)
  | deleted {i state} (hocc : (arena.probed (hashFn key) i).state = stateOccupied)
      (hkey : (arena.probed (hashFn key) i).readKey = key) :
      DelMove hashFn arena key i (.act state)
        ((arena.setSlot (probeIndex (hashFn key) i)
          (arena.probed (hashFn key) i).buried).fetchSubUsed, .done (.del .deleted))

theorem getStep_move (hashFn : Bytes → UInt64) (arena : Arena) (now : UInt64) (key : Bytes)
    (i : Nat) (phase : Phase) :
    GetMove hashFn arena key i phase (getStep hashFn arena now key i phase) := by
  cases phase with
  | load =>
      rw [getStep]
      split
      · next hi => exact .loaded hi
      · exact .notFound
  | act state =>
      simp only [getStep, Slot.lazyEvictIfExpired]
      split
      · exact .notFound
      split
      · exact .passed
      split
      · next hocc =>
          split
          · exact .passed
          by_cases hexp : (arena.slots (probeIndex (hashFn key) i)).isExpired now = true
          · rw [if_pos hexp]
            exact .evicted
          · rw [if_neg hexp]
            simp only
            split
            · exact .passed
            · next hkey => exact .found hocc (not_not.mp hkey)
      · exact .passed

theorem delStep_move (hashFn : Bytes → UInt64) (arena : Arena) (key : Bytes) (i : Nat)
    (phase : Phase) : DelMove hashFn arena key i phase (delStep hashFn arena key i phase) := by
  cases phase with
  | load =>
      rw [delStep]
      split
      · next hi => exact .loaded hi
      · exact .notFound
  | act state =>
      simp only [delStep, Slot.compareExchange]
      split
      · exact .notFound
      split
      · exact .passed
      split
      · split
        · exact .passed
        split
        · exact .passed
        · next hkey =>
            by_cases hocc : (arena.slots (probeIndex (hashFn key) i)).state = stateOccupied
            · rw [if_pos hocc]
              exact .deleted hocc (not_not.mp hkey)
            · rw [if_neg hocc]
              exact .passed
      · exact .passed

/-! ## How a step changes the arena -/

variable {hashFn : Bytes → UInt64} {arena : Arena} {now : UInt64} {thread : Thread}

/-- What a step that claims nothing makes of the slots: it tries to bury one, or updates one
in place, or leaves them. -/
inductive Unclaimed (arena : Arena) (after : Arena) : Prop
  | same (hslots : after.slots = arena.slots)
  | exchanged (j : Fin slotCount) (hslots : after.slots = (arena.setSlot j
      ((arena.slots j).compareExchange stateOccupied stateTombstone).2).slots)
  | updated (j : Fin slotCount) (value : Bytes) (expiry : UInt64)
      (hslots : after.slots = (arena.setSlot j (updateSlot (arena.slots j) value expiry)).slots)

theorem Thread.step_unclaimed (arena : Arena) (now : UInt64)
    (hclaim : thread.claimTarget hashFn = none) :
    Unclaimed arena (thread.step hashFn arena now).1 := by
  cases thread with
  | idle => exact .same rfl
  | done result => exact .same rfl
  | get key i phase =>
      have hmove := getStep_move hashFn arena now key i phase
      rw [Thread.step]
      generalize getStep hashFn arena now key i phase = out at hmove
      cases hmove with
      | evicted => exact .exchanged _ rfl
      | _ => exact .same rfl
  | set key value expiry ft i phase =>
      have hmove := setStep_move hashFn arena now key value expiry ft i phase
      rw [Thread.step]
      generalize setStep hashFn arena now key value expiry ft i phase = out at hmove
      cases hmove with
      | claimed htarget => cases hclaim.symm.trans htarget
      | evicted => exact .exchanged _ rfl
      | updated => exact .updated _ _ _ rfl
      | _ => exact .same rfl
  | del key i phase =>
      have hmove := delStep_move hashFn arena key i phase
      rw [Thread.step]
      generalize delStep hashFn arena key i phase = out at hmove
      cases hmove with
      | deleted hocc =>
          have hexchange : (arena.slots (probeIndex (hashFn key) i)).compareExchange stateOccupied
              stateTombstone = (true, (arena.probed (hashFn key) i).buried) := if_pos hocc
          apply Unclaimed.exchanged (probeIndex (hashFn key) i)
          rw [hexchange]
          rfl
      | _ => exact .same rfl

section Unclaimed

variable {after : Arena}

/-- It puts no key into a slot. -/
theorem Unclaimed.quiet (h : Unclaimed arena after) : Quiet arena after := by
  cases h with
  | same hslots => exact (Quiet.refl arena).congr hslots
  | exchanged j hslots => exact (Quiet.evict arena j).congr hslots
  | updated j value expiry hslots => exact (Quiet.update arena j value expiry).congr hslots

theorem Unclaimed.table (h : Unclaimed arena after) (hinv : TableInv hashFn arena) :
    TableInv hashFn after := by
  cases h with
  | same hslots => exact hinv.congr hslots
  | exchanged j hslots => exact (hinv.tryBury j).congr hslots
  | updated j value expiry hslots => exact (hinv.update j value expiry).congr hslots

theorem Arena.setSlot_readKey {idx : Fin slotCount} {slot : Slot}
    (h : slot.readKey = (arena.slots idx).readKey) (j : Fin slotCount) :
    ((arena.setSlot idx slot).slots j).readKey = (arena.slots j).readKey := by
  rw [Arena.setSlot_slots]
  split
  · next hj =>
      rw [hj]
      exact h
  · rfl

theorem Slot.compareExchange_readKey (slot : Slot) (expected new : UInt8) :
    (slot.compareExchange expected new).2.readKey = slot.readKey := by
  unfold Slot.compareExchange
  split
  · rfl
  · rfl

/-- It leaves what every slot reads back as, whatever its state. -/
theorem Unclaimed.readKey (h : Unclaimed arena after) (j : Fin slotCount) :
    (after.slots j).readKey = (arena.slots j).readKey := by
  cases h with
  | same hslots => rw [hslots]
  | exchanged idx hslots =>
      rw [hslots]
      exact Arena.setSlot_readKey (Slot.compareExchange_readKey _ _ _) j
  | updated idx value expiry hslots =>
      rw [hslots]
      exact Arena.setSlot_readKey updateSlot_readKey j

end Unclaimed

theorem Thread.claimTarget_act {key value : Bytes} {expiry : UInt64} {ft : Option (Fin slotCount)}
    {i : Nat} {state : UInt8} (hstate : state ≠ stateEmpty) :
    (Thread.set key value expiry ft i (.act state)).claimTarget hashFn = none := if_neg hstate

/-- A claim is that of a `set`, which returns. -/
theorem Thread.step_claims (arena : Arena) (now : UInt64) {target : Fin slotCount}
    (hclaim : thread.claimTarget hashFn = some target) :
    ∃ key value expiry ft i phase, thread = .set key value expiry ft i phase ∧
      Claims (hashFn key) key value expiry target arena (thread.step hashFn arena now).1 ∧
      (thread.step hashFn arena now).2 = .done (.set .inserted) := by
  cases thread with
  | set key value expiry ft i phase =>
      refine ⟨key, value, expiry, ft, i, phase, rfl, ?_⟩
      have hmove := setStep_move hashFn arena now key value expiry ft i phase
      rw [Thread.step]
      generalize setStep hashFn arena now key value expiry ft i phase = out at hmove
      cases hmove with
      | claimed htarget hslots =>
          obtain rfl := Option.some.inj (hclaim.symm.trans htarget)
          exact ⟨⟨hslots⟩, rfl⟩
      | loaded hi => cases hclaim.symm.trans (if_pos hi)
      | full hi => cases hclaim.symm.trans (if_neg hi)
      | passed hstate => cases hclaim.symm.trans (claimTarget_act hstate)
      | noted hstate =>
          subst hstate
          cases hclaim.symm.trans (claimTarget_act stateTombstone_ne_stateEmpty)
      | evicted hstate =>
          subst hstate
          cases hclaim.symm.trans (claimTarget_act stateOccupied_ne_stateEmpty)
      | updated hstate =>
          subst hstate
          cases hclaim.symm.trans (claimTarget_act stateOccupied_ne_stateEmpty)
  | _ => cases hclaim

theorem Thread.eq_set_of_setKey {key : Bytes} (h : thread.setKey = some key) :
    ∃ key value expiry ft i phase, thread = .set key value expiry ft i phase := by
  cases thread with
  | set key value expiry ft i phase => exact ⟨key, value, expiry, ft, i, phase, rfl⟩
  | _ => cases h

/-- A step goes on with the same `set`, or with none. -/
theorem Thread.step_setKey {key : Bytes}
    (h : (thread.step hashFn arena now).2.setKey = some key) : thread.setKey = some key := by
  cases thread with
  | get key' i phase =>
      have hmove := getStep_move hashFn arena now key' i phase
      rw [Thread.step] at h
      generalize getStep hashFn arena now key' i phase = out at hmove h
      cases hmove with
      | _ => cases h
  | set key' value expiry ft i phase =>
      have hmove := setStep_move hashFn arena now key' value expiry ft i phase
      rw [Thread.step] at h
      generalize setStep hashFn arena now key' value expiry ft i phase = out at hmove h
      cases hmove with
      | loaded => exact h
      | passed => exact h
      | noted => exact h
      | evicted => exact h
      | _ => cases h
  | del key' i phase =>
      have hmove := delStep_move hashFn arena key' i phase
      rw [Thread.step] at h
      generalize delStep hashFn arena key' i phase = out at hmove h
      cases hmove with
      | _ => cases h
  | idle => cases h
  | done result => cases h

/-! ## What a running `set` knows -/

section Searching

variable {a b : Arena} {key value : Bytes} {expiry : UInt64} {ft ft' : Option (Fin slotCount)}
  {i : Nat} {phase : Phase} {state : UInt8} {t : Fin slotCount}

/-- The slots that a running `set` has passed are not EMPTY, its candidate is one of them, and
it overlooks no slot that holds its key. -/
structure Searching (hashFn : Bytes → UInt64) (arena : Arena) (key : Bytes)
    (ft : Option (Fin slotCount)) (i : Nat) (phase : Phase) : Prop where
  keyLen : key.length ≤ maxKeyLen
  passed : ∀ m, m < i → (arena.probed (hashFn key) m).state ≠ stateEmpty
  bound : i ≤ slotCount
  candidate : ∀ t, ft = some t → ∃ d, d < i ∧ t = probeIndex (hashFn key) d
  loaded : ∀ state, phase = .act state → i < slotCount ∧
    (state = stateEmpty ∨ state = stateOccupied ∨ state = stateTombstone) ∧
    (state ≠ stateEmpty → (arena.probed (hashFn key) i).state ≠ stateEmpty)
  seen : ∀ t, (arena.slots t).state = stateOccupied → (arena.slots t).readKey = key →
    ¬ Overlooks hashFn key ft i t phase

/-- The knowledge survives a change that makes no slot EMPTY, and that puts the key into no
slot that is overlooked. -/
theorem Searching.mono (h : Searching hashFn a key ft i phase)
    (hne : ∀ j, (a.slots j).state ≠ stateEmpty → (b.slots j).state ≠ stateEmpty)
    (hseen : ∀ t, (b.slots t).state = stateOccupied → (b.slots t).readKey = key →
      ((a.slots t).state = stateOccupied ∧ (a.slots t).readKey = key) ∨
        ¬ Overlooks hashFn key ft i t phase) :
    Searching hashFn b key ft i phase where
  keyLen := h.keyLen
  passed := fun m hm => hne _ (h.passed m hm)
  bound := h.bound
  candidate := h.candidate
  loaded := by
    intro state hstate
    obtain ⟨hi, hknown, hempty⟩ := h.loaded state hstate
    exact ⟨hi, hknown, fun hst => hne _ (hempty hst)⟩
  seen := by
    intro t hocc hkey
    rcases hseen t hocc hkey with ⟨hocc', hkey'⟩ | hnot
    · exact h.seen t hocc' hkey'
    · exact hnot

theorem Searching.quiet (h : Searching hashFn a key ft i phase) (hquiet : Quiet a b) :
    Searching hashFn b key ft i phase := by
  apply h.mono hquiet.nonempty
  intro t hocc hkey
  obtain ⟨hocc', hkey'⟩ := hquiet.occupied t hocc
  exact .inl ⟨hocc', hkey'.symm.trans hkey⟩

/-- The slot that a `set` is about to claim lies on its probe path, behind no EMPTY slot. -/
theorem Searching.target (h : Searching hashFn a key ft i phase)
    (ht : (Thread.set key value expiry ft i phase).claimTarget hashFn = some t) :
    ∃ d, d < slotCount ∧ t = probeIndex (hashFn key) d ∧
      ∀ m, m < d → (a.probed (hashFn key) m).state ≠ stateEmpty := by
  have hbound := h.bound
  have hnoted : ft = some t → ∃ d, d < slotCount ∧ t = probeIndex (hashFn key) d ∧
      ∀ m, m < d → (a.probed (hashFn key) m).state ≠ stateEmpty := by
    intro hft
    obtain ⟨d, hd, heq⟩ := h.candidate t hft
    exact ⟨d, by omega, heq, fun m hm => h.passed m (by omega)⟩
  rcases Thread.claimTarget_set ht with ⟨_, _, hft⟩ | ⟨rfl, hft | ⟨_, rfl⟩⟩
  · exact hnoted hft
  · exact hnoted hft
  · exact ⟨i, (h.loaded stateEmpty rfl).1, rfl, h.passed⟩

/-- No other slot holds the key when a `set` is about to claim one. -/
theorem Searching.only (h : Searching hashFn a key ft i phase)
    (ht : (Thread.set key value expiry ft i phase).claimTarget hashFn = some t)
    (j : Fin slotCount) (hocc : (a.slots j).state = stateOccupied)
    (hkey : (a.slots j).readKey = key) : j = t := by
  have hseen := h.seen j hocc hkey
  by_contra hj
  apply hseen
  rcases Thread.claimTarget_set ht with ⟨rfl, hi, rfl⟩ | ⟨rfl, hft⟩
  · obtain ⟨m, hm, hmj⟩ := exists_probeIndex (hashFn key) j
    exact ⟨⟨m, by omega, hmj⟩, fun heq => hj (Option.some.inj heq).symm⟩
  · rw [Overlooks, if_pos rfl]
    rcases hft with rfl | ⟨rfl, rfl⟩
    · exact fun heq => hj heq.symm
    · exact fun heq => hj heq.symm

/-- The load of a state: an EMPTY slot ends the chain of the key. -/
theorem Searching.load (h : Searching hashFn a key ft i .load) (hinv : TableInv hashFn a)
    (hi : i < slotCount) :
    Searching hashFn a key ft i (.act (a.probed (hashFn key) i).state) where
  keyLen := h.keyLen
  passed := h.passed
  bound := h.bound
  candidate := h.candidate
  loaded := by
    intro state hstate
    cases hstate
    exact ⟨hi, (hinv.slot _).known, id⟩
  seen := by
    intro t hocc hkey
    have hseen := h.seen t hocc hkey
    have hpassed {m : Nat} (hm : m < i) (hmt : probeIndex (hashFn key) m = t) : ft = some t := by
      by_contra hft
      exact hseen ⟨⟨m, hm, hmt⟩, hft⟩
    rw [Overlooks]
    split
    · next hempty =>
        -- the key lies before the EMPTY slot, so it has been passed
        obtain ⟨e, he, rfl⟩ := exists_probeIndex (hashFn key) t
        have hlt : e < i := by
          rcases Nat.lt_trichotomy e i with hlt | rfl | hgt
          · exact hlt
          · exact absurd (hempty.symm.trans hocc) stateEmpty_ne_stateOccupied
          · exact absurd hempty (hinv.nonempty_of_chain he hocc hkey hgt)
        rw [hpassed hlt rfl]
        exact fun hne => hne rfl
    · split
      · next htomb =>
          intro hmissed
          obtain ⟨⟨m, hm, hmt⟩, hft⟩ := hmissed
          rcases Nat.lt_succ_iff_lt_or_eq.mp hm with hlt | rfl
          · rw [hpassed hlt hmt] at hft
            exact hft rfl
          · rw [← hmt] at hocc
            exact stateTombstone_ne_stateOccupied (htomb.symm.trans hocc)
      · exact hseen

/-- The next iteration, when it overlooks no slot with the key. -/
theorem Searching.advance (h : Searching hashFn a key ft i (.act state))
    (hstate : state ≠ stateEmpty)
    (hft : ft' = ft ∨ ft' = ft.or (some (probeIndex (hashFn key) i)))
    (hseen : ∀ t, (a.slots t).state = stateOccupied → (a.slots t).readKey = key →
      ¬ Missed hashFn key ft' (i + 1) t) :
    Searching hashFn a key ft' (i + 1) .load where
  keyLen := h.keyLen
  passed := forall_lt_succ h.passed ((h.loaded state rfl).2.2 hstate)
  bound := (h.loaded state rfl).1
  candidate := by
    intro t ht
    have hold : ft = some t → ∃ d, d < i + 1 ∧ t = probeIndex (hashFn key) d := by
      intro hft
      obtain ⟨d, hd, heq⟩ := h.candidate t hft
      exact ⟨d, by omega, heq⟩
    rcases hft with rfl | rfl
    · exact hold ht
    · cases ft with
      | none =>
          obtain rfl := Option.some.inj ht
          exact ⟨i, by omega, rfl⟩
      | some t' => exact hold ht
  loaded := fun _ hstate => by cases hstate
  seen := hseen

/-- Behind a slot that does not hold the key. -/
theorem not_missed_succ (h : ¬ Missed hashFn key ft i t) (hft : ft = some t → ft' = some t)
    (hne : probeIndex (hashFn key) i ≠ t) : ¬ Missed hashFn key ft' (i + 1) t := by
  intro hmissed
  obtain ⟨⟨m, hm, hmt⟩, hft'⟩ := hmissed
  rcases Nat.lt_succ_iff_lt_or_eq.mp hm with hlt | rfl
  · exact h ⟨⟨m, hlt, hmt⟩, fun heq => hft' (hft heq)⟩
  · exact hne hmt

/-- What makes a `set` go on behind a slot without noting it. -/
theorem setStep_passed
    (h : setStep hashFn arena now key value expiry ft i (.act state) =
      (arena, .set key value expiry ft (i + 1) .load)) :
    (state = stateTombstone → ft.or (some (probeIndex (hashFn key) i)) = ft) ∧
      (state = stateOccupied → (arena.probed (hashFn key) i).state = stateOccupied →
        (arena.probed (hashFn key) i).fingerprint = hashFn key →
        (arena.probed (hashFn key) i).readKey ≠ key) := by
  constructor
  · intro htomb
    subst htomb
    simp only [setStep, if_neg stateTombstone_ne_stateEmpty, if_true] at h
    injection h with _ hthread
    injection hthread
  · intro hstate hocc hfp hkey
    subst hstate
    have hfp' : ¬ (arena.slots (probeIndex (hashFn key) i)).fingerprint ≠ hashFn key :=
      not_not.mpr hfp
    have hkey' : ¬ (arena.slots (probeIndex (hashFn key) i)).readKey ≠ key := not_not.mpr hkey
    simp only [setStep, if_neg stateOccupied_ne_stateEmpty,
      if_neg stateOccupied_ne_stateTombstone, if_true, if_neg hfp', Slot.lazyEvictIfExpired] at h
    by_cases hexp : (arena.slots (probeIndex (hashFn key) i)).isExpired now = true
    · rw [if_pos hexp] at h
      -- the entry would have been evicted
      have hslot := congrArg (fun out : Arena × Thread =>
        (out.1.slots (probeIndex (hashFn key) i)).state) h
      simp only [Arena.setSlot_slots, if_true] at hslot
      exact Slot.compareExchange_bury_state_ne_occupied _ (hslot.trans hocc)
    · rw [if_neg hexp] at h
      simp only [if_neg hkey'] at h
      injection h with _ hthread
      cases hthread

/-- One step of a `set` that does not claim. -/
theorem Searching.step (h : Searching hashFn arena key ft i phase) (hinv : TableInv hashFn arena)
    {key' value' : Bytes} {expiry' : UInt64} {i' : Nat} {phase' : Phase}
    (hstep : (setStep hashFn arena now key value expiry ft i phase).2 =
      .set key' value' expiry' ft' i' phase') :
    Searching hashFn (setStep hashFn arena now key value expiry ft i phase).1 key' ft' i' phase' := by
  have hmove := setStep_move hashFn arena now key value expiry ft i phase
  generalize hout : setStep hashFn arena now key value expiry ft i phase = out at hmove hstep
  cases hmove with
  | loaded hi =>
      cases hstep
      exact h.load hinv hi
  | full => cases hstep
  | claimed => cases hstep
  | @passed _ _ state hstate =>
      cases hstep
      obtain ⟨htomb, hmiss⟩ := setStep_passed hout
      refine h.advance hstate (.inl rfl) fun t hocc hkey => ?_
      have hseen := h.seen t hocc hkey
      rw [Overlooks, if_neg hstate] at hseen
      split at hseen
      · next hst =>
          rw [htomb hst] at hseen
          exact hseen
      · next hst =>
          have hst' : state = stateOccupied :=
            ((h.loaded state rfl).2.1.resolve_left hstate).resolve_right hst
          refine not_missed_succ hseen id ?_
          intro ht
          subst ht
          exact hmiss hst' hocc (hinv.fingerprint_eq hocc hkey) hkey
  | noted hstate =>
      cases hstep
      subst hstate
      refine h.advance stateTombstone_ne_stateEmpty (.inr rfl) fun t hocc hkey => ?_
      have hseen := h.seen t hocc hkey
      rw [Overlooks, if_neg stateTombstone_ne_stateEmpty, if_pos rfl] at hseen
      exact hseen
  | evicted hstate =>
      cases hstep
      subst hstate
      have hevict := h.quiet (Quiet.evict arena (probeIndex (hashFn key) i))
      refine hevict.advance stateOccupied_ne_stateEmpty (.inr rfl) fun t hocc hkey => ?_
      have hseen := hevict.seen t hocc hkey
      rw [Overlooks, if_neg stateOccupied_ne_stateEmpty,
        if_neg stateOccupied_ne_stateTombstone] at hseen
      refine not_missed_succ hseen ?_ ?_
      · intro hft
        rw [hft]
        rfl
      · intro ht
        rw [Arena.setSlot_slots, if_pos ht.symm] at hocc
        exact Slot.compareExchange_bury_state_ne_occupied _ hocc
  | updated => cases hstep

end Searching

/-! ## The invariant of a run -/

/-- What holds in every state of a run whose claims are all seen. -/
structure CopiesInv {ι : Type*} (hashFn : Bytes → UInt64) (s : Shared ι) : Prop where
  table : TableInv hashFn s.arena
  searching : ∀ d key value expiry ft i phase, s.thread d = .set key value expiry ft i phase →
    Searching hashFn s.arena key ft i phase

section Run

variable {ι : Type*} {s : Shared ι} {c : ι}

/-- A claim keeps the table invariant. -/
theorem CopiesInv.claim (h : CopiesInv hashFn s) {t : Fin slotCount} {b : Arena}
    {key value : Bytes} {expiry : UInt64} {ft : Option (Fin slotCount)} {i : Nat} {phase : Phase}
    (hthread : s.thread c = .set key value expiry ft i phase)
    (ht : (s.thread c).claimTarget hashFn = some t)
    (hclaim : Claims (hashFn key) key value expiry t s.arena b) : TableInv hashFn b := by
  have hsearch := h.searching c key value expiry ft i phase hthread
  rw [hthread] at ht
  obtain ⟨d, hd, rfl, hchain⟩ := hsearch.target ht
  refine (h.table.claim hsearch.keyLen hd ?_ hchain _).congr hclaim.slots
  exact hsearch.only ht

/-- A running `set` keeps its knowledge when another's claim goes to a slot that it does not
overlook. -/
theorem Searching.claim {a b : Arena} {key key' value' : Bytes} {expiry' : UInt64}
    {ft : Option (Fin slotCount)} {i : Nat} {phase : Phase} {t : Fin slotCount}
    (h : Searching hashFn a key ft i phase) (hk' : key'.length ≤ maxKeyLen)
    (hclaim : Claims (hashFn key') key' value' expiry' t a b)
    (hseen : key' = key → ¬ Overlooks hashFn key ft i t phase) :
    Searching hashFn b key ft i phase := by
  apply h.mono hclaim.nonempty
  intro j hocc hkey
  by_cases hj : j = t
  · subst hj
    rw [hclaim.slots_target, claimSlot_readKey hk'] at hkey
    exact .inr (hseen hkey)
  · rw [hclaim.slots_other hj] at hocc hkey
    exact .inl ⟨hocc, hkey⟩

variable [DecidableEq ι]

/-- A step of one client keeps the invariant. -/
theorem CopiesInv.step (h : CopiesInv hashFn s) (hcond : ClaimSeen hashFn s (c, .step now)) :
    CopiesInv hashFn (s.next hashFn (c, .step now)) := by
  cases hct : (s.thread c).claimTarget hashFn with
  | none =>
      have hunclaimed := Thread.step_unclaimed s.arena now hct
      refine ⟨hunclaimed.table h.table, fun d key value expiry ft i phase hthread => ?_⟩
      by_cases hd : d = c
      · subst hd
        rw [Shared.next_step_self] at hthread
        obtain ⟨key₀, value₀, expiry₀, ft₀, i₀, phase₀, hthread₀⟩ :=
          Thread.eq_set_of_setKey (Thread.step_setKey (congrArg Thread.setKey hthread))
        have hsearch := h.searching d _ _ _ _ _ _ hthread₀
        rw [Shared.next_step_arena]
        rw [hthread₀] at hthread ⊢
        exact hsearch.step h.table hthread
      · rw [Shared.next_step_other hashFn s c now hd] at hthread
        exact (h.searching d key value expiry ft i phase hthread).quiet hunclaimed.quiet
  | some t =>
      obtain ⟨key', value', expiry', ft', i', phase', hset, hclaim, hdone⟩ :=
        Thread.step_claims s.arena now hct
      refine ⟨h.claim hset hct hclaim, fun d key value expiry ft i phase hthread => ?_⟩
      by_cases hd : d = c
      · subst hd
        rw [Shared.next_step_self, hdone] at hthread
        cases hthread
      · rw [Shared.next_step_other hashFn s c now hd] at hthread
        have hk' := (h.searching c _ _ _ _ _ _ hset).keyLen
        refine (h.searching d key value expiry ft i phase hthread).claim hk' hclaim ?_
        intro hkey
        have hseen := hcond t hct d hd
        rw [hthread, hset, hkey] at hseen
        exact hseen rfl

/-- What entering an operation changes. -/
theorem Shared.next_enter (hashFn : Bytes → UInt64) (s : Shared ι) (c d : ι) (request : Request)
    (now : UInt64) :
    (s.next hashFn (c, .enter request now)).arena = s.arena ∧
      ((s.next hashFn (c, .enter request now)).thread d = s.thread d ∨
        d = c ∧ (s.next hashFn (c, .enter request now)).thread d = request.enter now) := by
  by_cases hrest : (s.thread c).resting = true
  · have hnext : s.next hashFn (c, .enter request now) =
        { s with thread := Function.update s.thread c (request.enter now) } := if_pos hrest
    rw [hnext]
    refine ⟨rfl, ?_⟩
    by_cases hd : d = c
    · subst hd
      exact .inr ⟨rfl, Function.update_self ..⟩
    · exact .inl (Function.update_of_ne hd ..)
  · have hnext : s.next hashFn (c, .enter request now) = s := if_neg hrest
    rw [hnext]
    exact ⟨rfl, .inl rfl⟩

/-- A `set` starts with nothing passed. -/
theorem CopiesInv.enter (h : CopiesInv hashFn s) {request : Request} (hadm : request.Admitted) :
    CopiesInv hashFn (s.next hashFn (c, .enter request now)) := by
  obtain ⟨harena, _⟩ := Shared.next_enter hashFn s c c request now
  refine ⟨harena ▸ h.table, fun d key value expiry ft i phase hthread => ?_⟩
  rw [harena]
  rcases Shared.next_enter hashFn s c d request now with ⟨_, hold | ⟨rfl, hnew⟩⟩
  · exact h.searching d key value expiry ft i phase (hold.symm.trans hthread)
  · rw [hnew] at hthread
    cases request with
    | set key' value' ttlSecs =>
        cases hthread
        exact ⟨hadm.1, fun m hm => absurd hm (Nat.not_lt_zero m), Nat.zero_le _, nofun, nofun,
          fun t _ _ hmissed => absurd hmissed.1.choose_spec.1 (Nat.not_lt_zero _)⟩
    | _ => cases hthread

end Run

/-- The client's checks admit the request. -/
def Move.Admitted : Move → Prop
  | .enter request _ => request.Admitted
  | .step _ => True

instance (move : Move) : Decidable move.Admitted :=
  match move with
  | .enter request _ => inferInstanceAs (Decidable request.Admitted)
  | .step _ => .isTrue trivial

/-- A freshly created arena, and clients that have not entered anything. -/
def Shared.fresh {ι : Type*} (region : Arena) : Shared ι :=
  { arena := createArena region, thread := fun _ => .idle }

/-! ## A key that is gone -/

section Gone

variable {ι : Type*} {s : Shared ι} {key : Bytes}

/-- The key is not stored, and nobody is setting it. -/
structure Gone (key : Bytes) (s : Shared ι) : Prop where
  absent : ¬ s.arena.Contains key
  unset : ∀ d, (s.thread d).setKey ≠ some key

/-- The deletion of the only copy, when nobody is setting the key. -/
theorem CopiesInv.gone [DecidableEq ι] (h : CopiesInv hashFn s) {c : ι} {i : Nat} {phase : Phase}
    (hthread : s.thread c = .del key i phase)
    (hdone : (s.next hashFn (c, .step now)).thread c = .done (.del .deleted))
    (hunset : ∀ d, (s.thread d).setKey ≠ some key) :
    Gone key (s.next hashFn (c, .step now)) := by
  refine ⟨?_, fun d hset => ?_⟩
  · rw [Shared.next_step_self, hthread] at hdone
    rw [Shared.next_step_arena, hthread]
    have hmove := delStep_move hashFn s.arena key i phase
    rw [Thread.step] at hdone ⊢
    generalize delStep hashFn s.arena key i phase = out at hmove hdone
    cases hmove with
    | deleted hocc hkey =>
        intro hcontains
        obtain ⟨j, hocc', hkey'⟩ := hcontains
        rw [Arena.fetchSubUsed_slots, Arena.setSlot_slots] at hocc' hkey'
        split at hocc'
        · exact stateTombstone_ne_stateOccupied hocc'
        · next hj =>
            rw [if_neg hj] at hkey'
            exact hj (h.table.slot_unique hocc' hocc (hkey'.trans hkey.symm))
    | _ => cases hdone
  · by_cases hd : d = c
    · subst hd
      rw [hdone] at hset
      cases hset
    · rw [Shared.next_step_other hashFn s c now hd] at hset
      exact hunset d hset

variable [DecidableEq ι]

/-- A key that is gone stays so, until a `set` of it is entered. -/
theorem Gone.next (h : Gone key s) (hinv : CopiesInv hashFn s) {input : ι × Move}
    (hinput : ∀ value ttlSecs now, input.2 ≠ .enter (.set key value ttlSecs) now) :
    Gone key (s.next hashFn input) := by
  obtain ⟨c, move⟩ := input
  cases move with
  | enter request now =>
      obtain ⟨harena, _⟩ := Shared.next_enter hashFn s c c request now
      refine ⟨harena ▸ h.absent, fun d hset => ?_⟩
      rcases Shared.next_enter hashFn s c d request now with ⟨_, hold | ⟨rfl, hnew⟩⟩
      · exact h.unset d ((congrArg Thread.setKey hold).symm.trans hset)
      · rw [hnew] at hset
        cases request with
        | set key' value ttlSecs =>
            cases hset
            exact hinput value ttlSecs now rfl
        | _ => cases hset
  | step now =>
      refine ⟨?_, fun d hset => ?_⟩
      · rw [Shared.next_step_arena]
        cases hct : (s.thread c).claimTarget hashFn with
        | none =>
            intro hcontains
            exact h.absent ((Thread.step_unclaimed s.arena now hct).quiet.contains hcontains)
        | some t =>
            obtain ⟨key', _, _, _, _, _, hset, hclaim, _⟩ := Thread.step_claims s.arena now hct
            intro hcontains
            have hne : key ≠ key' := by
              intro heq
              apply h.unset c
              rw [hset, heq]
              rfl
            obtain ⟨j, _, hocc, hkey⟩ :=
              hclaim.contains (hinv.searching c _ _ _ _ _ _ hset).keyLen hne hcontains
            exact h.absent ⟨j, hocc, hkey⟩
      · by_cases hd : d = c
        · subst hd
          rw [Shared.next_step_self] at hset
          exact h.unset d (Thread.step_setKey hset)
        · rw [Shared.next_step_other hashFn s c now hd] at hset
          exact h.unset d hset

/-- A `get` of the key that will not find it: if it has loaded OCCUPIED, then the slot does
not read back as the key. -/
def Thread.Misses (hashFn : Bytes → UInt64) (key : Bytes) (arena : Arena) : Thread → Prop
  | .get k i (.act state) =>
      k = key ∧ (state = stateOccupied → (arena.probed (hashFn key) i).readKey ≠ key)
  | .get k _ .load => k = key
  | .done result => ∀ value, result ≠ .get (.found value)
  | _ => False

/-- No step makes a slot read back as a key that is gone. -/
theorem Gone.readKey_ne (h : Gone key s) (hinv : CopiesInv hashFn s) (c : ι) (now : UInt64)
    {j : Fin slotCount} (hne : (s.arena.slots j).readKey ≠ key) :
    ((s.next hashFn (c, .step now)).arena.slots j).readKey ≠ key := by
  rw [Shared.next_step_arena]
  cases hct : (s.thread c).claimTarget hashFn with
  | none =>
      rw [(Thread.step_unclaimed s.arena now hct).readKey]
      exact hne
  | some t =>
      obtain ⟨key', _, _, _, _, _, hset, hclaim, _⟩ := Thread.step_claims s.arena now hct
      by_cases hj : j = t
      · subst hj
        rw [hclaim.slots_target, claimSlot_readKey (hinv.searching c _ _ _ _ _ _ hset).keyLen]
        intro heq
        apply h.unset c
        rw [hset, heq]
        rfl
      · rw [hclaim.slots_other hj]
        exact hne

/-- The next step of the `get` itself. -/
theorem Thread.Misses.step (h : thread.Misses hashFn key arena) (habsent : ¬ arena.Contains key) :
    (thread.step hashFn arena now).2.Misses hashFn key (thread.step hashFn arena now).1 := by
  cases thread with
  | get k i phase =>
      have hk : k = key := by
        cases phase with
        | load => exact h
        | act state => exact h.1
      subst hk
      have hmove := getStep_move hashFn arena now k i phase
      rw [Thread.step]
      generalize getStep hashFn arena now k i phase = out at hmove
      cases hmove with
      | loaded => exact ⟨rfl, fun hocc hkey => habsent ⟨_, hocc, hkey⟩⟩
      | notFound =>
          intro v hv
          cases hv
      | passed => rfl
      | evicted =>
          intro v hv
          cases hv
      | found hstate hkey => exact absurd hkey (h.2 hstate)
  | done result => exact h
  | _ => cases h

/-- The next step of another client. -/
theorem Gone.misses_other (h : Gone key s) (hinv : CopiesInv hashFn s) (c : ι) (now : UInt64)
    (hmiss : thread.Misses hashFn key s.arena) :
    thread.Misses hashFn key (s.next hashFn (c, .step now)).arena := by
  cases thread with
  | get k i phase =>
      cases phase with
      | load => exact hmiss
      | act state => exact ⟨hmiss.1, fun hocc => h.readKey_ne hinv c now (hmiss.2 hocc)⟩
  | done result => exact hmiss
  | _ => cases hmiss

/-- While the key is gone, a `get` of it keeps missing it. -/
theorem Gone.misses_next (h : Gone key s) (hinv : CopiesInv hashFn s) {d : ι}
    {input : ι × Move} (hinput : ∀ request now, input ≠ (d, .enter request now))
    (hmiss : (s.thread d).Misses hashFn key s.arena) :
    ((s.next hashFn input).thread d).Misses hashFn key (s.next hashFn input).arena := by
  obtain ⟨c, move⟩ := input
  cases move with
  | enter request now =>
      rcases Shared.next_enter hashFn s c d request now with ⟨harena, hold | ⟨rfl, _⟩⟩
      · rw [harena, hold]
        exact hmiss
      · exact absurd rfl (hinput request now)
  | step now =>
      by_cases hd : d = c
      · subst hd
        rw [Shared.next_step_self, Shared.next_step_arena]
        exact hmiss.step h.absent
      · rw [Shared.next_step_other hashFn s c now hd]
        exact h.misses_other hinv c now hmiss

end Gone

/-! ## Whole runs -/

section Runs

variable {ι : Type*} [DecidableEq ι] {s : Shared ι} {inputs : List (ι × Move)} {key : Bytes}

theorem CopiesInv.next (h : CopiesInv hashFn s) {input : ι × Move} (hadm : input.2.Admitted)
    (hseen : ClaimSeen hashFn s input) : CopiesInv hashFn (s.next hashFn input) := by
  obtain ⟨c, move⟩ := input
  cases move with
  | enter request now => exact h.enter hadm
  | step now => exact h.step hseen

omit [DecidableEq ι] in
theorem CopiesInv.fresh (region : Arena) : CopiesInv hashFn (Shared.fresh region : Shared ι) :=
  ⟨.createArena region, nofun⟩

/-- The invariant holds in every state of a run whose claims are all seen. -/
theorem CopiesInv.final (h : CopiesInv hashFn s) (hadm : ∀ input ∈ inputs, input.2.Admitted)
    (hcond : Run.Along (Shared.next hashFn) (ClaimSeen hashFn) s inputs) :
    CopiesInv hashFn (Run.final (Shared.next hashFn) s inputs) := by
  induction inputs generalizing s with
  | nil => exact h
  | cons input inputs ih =>
      have hnext := h.next (hadm input List.mem_cons_self) hcond.1
      exact ih hnext (fun later hmem => hadm later (List.mem_cons_of_mem _ hmem)) hcond.2

/-- A key that is gone is gone at the end, if no `set` of it is entered. -/
theorem Gone.final (hgone : Gone key s) (h : CopiesInv hashFn s)
    (hadm : ∀ input ∈ inputs, input.2.Admitted)
    (hcond : Run.Along (Shared.next hashFn) (ClaimSeen hashFn) s inputs)
    (hunset : ∀ input ∈ inputs, ∀ value ttlSecs now,
      input.2 ≠ .enter (.set key value ttlSecs) now) :
    Gone key (Run.final (Shared.next hashFn) s inputs) := by
  induction inputs generalizing s with
  | nil => exact hgone
  | cons input inputs ih =>
      have hnext := h.next (hadm input List.mem_cons_self) hcond.1
      exact ih (hgone.next h (hunset input List.mem_cons_self)) hnext
        (fun later hmem => hadm later (List.mem_cons_of_mem _ hmem)) hcond.2
        (fun later hmem => hunset later (List.mem_cons_of_mem _ hmem))

/-- A `get` of a key that is gone misses it to the end, if no `set` of it is entered. -/
theorem Gone.misses_final (hgone : Gone key s) (h : CopiesInv hashFn s) {d : ι}
    (hmiss : (s.thread d).Misses hashFn key s.arena) (hadm : ∀ input ∈ inputs, input.2.Admitted)
    (hcond : Run.Along (Shared.next hashFn) (ClaimSeen hashFn) s inputs)
    (hunset : ∀ input ∈ inputs, ∀ value ttlSecs now,
      input.2 ≠ .enter (.set key value ttlSecs) now)
    (hbusy : ∀ request now, (d, .enter request now) ∉ inputs) :
    ((Run.final (Shared.next hashFn) s inputs).thread d).Misses hashFn key
      (Run.final (Shared.next hashFn) s inputs).arena := by
  induction inputs generalizing s with
  | nil => exact hmiss
  | cons input inputs ih =>
      have hnext := h.next (hadm input List.mem_cons_self) hcond.1
      have hinput (request : Request) (now : UInt64) : input ≠ (d, .enter request now) := by
        intro heq
        apply hbusy request now
        rw [heq]
        exact List.mem_cons_self
      exact ih (hgone.next h (hunset input List.mem_cons_self)) hnext
        (hgone.misses_next h hinput hmiss)
        (fun later hmem => hadm later (List.mem_cons_of_mem _ hmem)) hcond.2
        (fun later hmem => hunset later (List.mem_cons_of_mem _ hmem))
        (fun request now hmem => hbusy request now (List.mem_cons_of_mem _ hmem))

/-- A `get` that is entered when the key is gone does not find it. -/
theorem Gone.get_misses (hgone : Gone key s) (h : CopiesInv hashFn s) {d : ι} {start : UInt64}
    (hrest : (s.thread d).resting = true)
    (hadm : ∀ input ∈ (d, Move.enter (.get key) start) :: inputs, input.2.Admitted)
    (hcond : Run.Along (Shared.next hashFn) (ClaimSeen hashFn) s
      ((d, .enter (.get key) start) :: inputs))
    (hunset : ∀ input ∈ inputs, ∀ value ttlSecs now,
      input.2 ≠ .enter (.set key value ttlSecs) now)
    (hbusy : ∀ request now, (d, .enter request now) ∉ inputs) (value : Bytes) :
    (Run.final (Shared.next hashFn) s ((d, .enter (.get key) start) :: inputs)).thread d ≠
      .done (.get (.found value)) := by
  have hnext := h.next (hadm _ List.mem_cons_self) hcond.1
  have hgone' : Gone key (s.next hashFn (d, .enter (.get key) start)) := hgone.next h nofun
  have hentered : s.next hashFn (d, .enter (.get key) start) =
      { s with thread := Function.update s.thread d (.get key 0 .load) } := if_pos hrest
  have hthread : (s.next hashFn (d, .enter (.get key) start)).thread d = .get key 0 .load := by
    rw [hentered]
    exact Function.update_self ..
  have hmiss : ((s.next hashFn (d, .enter (.get key) start)).thread d).Misses hashFn key
      (s.next hashFn (d, .enter (.get key) start)).arena := by
    rw [hthread]
    rfl
  have hfinal := hgone'.misses_final hnext hmiss
    (fun input hmem => hadm input (List.mem_cons_of_mem _ hmem)) hcond.2 hunset hbusy
  intro hfound
  rw [Run.final_cons] at hfound
  rw [hfound] at hfinal
  exact hfinal value rfl

end Runs

/-- No two OCCUPIED slots hold the same key. -/
def Arena.SingleCopies (arena : Arena) : Prop :=
  ∀ i j, (arena.slots i).state = stateOccupied → (arena.slots j).state = stateOccupied →
    (arena.slots i).readKey = (arena.slots j).readKey → i = j

/-- **One copy of a key.**  In a run from a fresh arena in which no claim goes to a slot that
another running `set` of the key overlooks, no state has two copies of a key.  And when a
`del` has returned `Deleted` while nobody was setting its key, a `get` that is entered later
does not find the key, until a `set` of it is entered. -/
theorem single_copies {ι : Type*} [DecidableEq ι] (hashFn : Bytes → UInt64) (region : Arena)
    (inputs : List (ι × Move)) (hadm : ∀ input ∈ inputs, input.2.Admitted)
    (hcond : Run.Along (Shared.next hashFn) (ClaimSeen hashFn) (.fresh region) inputs) :
    (∀ before after, inputs = before ++ after →
      (Run.final (Shared.next hashFn) (.fresh region) before).arena.SingleCopies) ∧
    ∀ before c now between d start during key i phase,
      inputs = before ++ (c, .step now) :: between ++ (d, .enter (.get key) start) :: during →
      (Run.final (Shared.next hashFn) (.fresh region) before).thread c = .del key i phase →
      (Run.final (Shared.next hashFn) (.fresh region) (before ++ [(c, .step now)])).thread c =
        .done (.del .deleted) →
      (∀ e, ((Run.final (Shared.next hashFn) (.fresh region) before).thread e).setKey ≠ some key) →
      (∀ input ∈ between ++ during, ∀ value ttlSecs now,
        input.2 ≠ .enter (.set key value ttlSecs) now) →
      ((Run.final (Shared.next hashFn) (.fresh region)
        (before ++ (c, .step now) :: between)).thread d).resting = true →
      (∀ request now, (d, .enter request now) ∉ during) →
      ∀ value, (Run.final (Shared.next hashFn) (.fresh region) inputs).thread d ≠
        .done (.get (.found value)) := by
  have hinv (before after : List (ι × Move)) (heq : inputs = before ++ after) :
      CopiesInv hashFn (Run.final (Shared.next hashFn) (.fresh region) before) := by
    subst heq
    exact (CopiesInv.fresh region).final
      (fun input hmem => hadm input (List.mem_append_left _ hmem)) (Run.along_append.mp hcond).1
  refine ⟨fun before after heq i j hi hj hkey =>
    (hinv before after heq).table.slot_unique hi hj hkey, ?_⟩
  intro before c now between d start during key i phase heq hdel hdone hunset hnoSet hrest hbusy
    value
  have hlist : before ++ (c, .step now) :: between ++ (d, .enter (.get key) start) :: during =
      (before ++ [(c, .step now)]) ++ (between ++ (d, .enter (.get key) start) :: during) := by
    rw [List.append_cons before, List.append_assoc]
  have hdeleted : Run.final (Shared.next hashFn) (.fresh region) (before ++ [(c, .step now)]) =
      (Run.final (Shared.next hashFn) (.fresh region) before).next hashFn (c, .step now) := by
    rw [Run.final_append]
    rfl
  -- the key is gone at the deletion, and when the `get` is entered
  have hgone := (hinv before _ (heq.trans (List.append_assoc _ _ _))).gone hdel
    (hdeleted ▸ hdone) hunset
  rw [← hdeleted] at hgone
  have hafter := hinv (before ++ [(c, .step now)]) _ (heq.trans hlist)
  rw [heq, hlist] at hcond hadm
  obtain ⟨_, hcond'⟩ := Run.along_append.mp hcond
  obtain ⟨hbetween, hduring⟩ := Run.along_append.mp hcond'
  have hadm' : ∀ input ∈ between ++ (d, Move.enter (.get key) start) :: during,
      input.2.Admitted := fun input hmem => hadm input (List.mem_append_right _ hmem)
  rw [List.append_cons before, Run.final_append] at hrest
  rw [heq, hlist, Run.final_append, Run.final_append]
  generalize Run.final (Shared.next hashFn) (.fresh region) (before ++ [(c, .step now)]) = s₁ at *
  have hadm₁ : ∀ input ∈ between, input.2.Admitted :=
    fun input hmem => hadm' input (List.mem_append_left _ hmem)
  have hgone₂ := hgone.final hafter hadm₁ hbetween
    (fun input hmem => hnoSet input (List.mem_append_left _ hmem))
  exact hgone₂.get_misses (hafter.final hadm₁ hbetween) hrest
    (fun input hmem => hadm' input (List.mem_append_right _ hmem)) hduring
    (fun input hmem => hnoSet input (List.mem_append_right _ hmem)) hbusy value

/-! ## Two setters of one key -/

/-- A client's next steps. -/
def steps (c : Fin 3) (count : Nat) : List (Fin 3 × Move) := List.replicate count (c, .step 0)

/-- Two clients set `pu`, both from the same load of an EMPTY slot. -/
def sameSlotRun : List (Fin 3 × Move) :=
  (1, .enter (.set [112, 117] [1] 0) 0) :: steps 1 1 ++
    (2, .enter (.set [112, 117] [2] 0) 0) :: steps 2 1 ++ steps 1 1 ++ steps 2 1 ++
    (0, .enter (.del [112, 117]) 0) :: steps 0 1

/-- The third client deletes `pu`, and looks for it then. -/
def sameSlotRest : List (Fin 3 × Move) :=
  (0, .step 0) :: [] ++ (0, .enter (.get [112, 117]) 0) :: steps 0 4

theorem single_copies_same_slot :
    (Run.final (Shared.next siphash) (.fresh zeroedRegion) sameSlotRun).arena.SingleCopies ∧
      (Run.final (Shared.next siphash) (.fresh zeroedRegion) (sameSlotRun ++ sameSlotRest)).thread 0 =
        .done (.get .notFound) ∧
      ∀ value, (Run.final (Shared.next siphash) (.fresh zeroedRegion)
        (sameSlotRun ++ sameSlotRest)).thread 0 ≠ .done (.get (.found value)) := by
  obtain ⟨hsingle, hgone⟩ := single_copies siphash zeroedRegion (sameSlotRun ++ sameSlotRest)
    (by decide +kernel) (by decide +kernel)
  refine ⟨hsingle sameSlotRun sameSlotRest rfl, by decide +kernel, ?_⟩
  refine hgone sameSlotRun 0 0 [] 0 0 (steps 0 4) [112, 117] 0 (.act stateOccupied) rfl ?_ ?_ ?_ ?_ ?_
    ?_
  · decide +kernel
  · decide +kernel
  · decide +kernel
  · intro input hmem value ttlSecs now heq
    simp [steps] at hmem
    rw [hmem] at heq
    cases heq
  · decide +kernel
  · intro request now hmem
    simp [steps] at hmem

/-- `dr` lies in the home slot of `pu`.  The second client, setting `pu`, passes it and loads
the EMPTY slot behind; `dr` is deleted; the third client, setting `pu`, reuses the tombstone;
the second claims the EMPTY slot. -/
def twoCopiesRun : List (Fin 3 × Move) :=
  (0, .enter (.set [100, 114] [0] 0) 0) :: steps 0 2 ++
    (1, .enter (.set [112, 117] [1] 0) 0) :: steps 1 3 ++
    (0, .enter (.del [100, 114]) 0) :: steps 0 2 ++
    (2, .enter (.set [112, 117] [2] 0) 0) :: steps 2 4 ++ steps 1 1

/-- Two slots hold `pu`; and when nobody is setting it, a `del` of it returns `Deleted` and a
`get` finds it still. -/
theorem two_copies_stored :
    ¬ (Run.final (Shared.next siphash) (.fresh zeroedRegion) twoCopiesRun).arena.SingleCopies ∧
      (∀ d, ((Run.final (Shared.next siphash) (.fresh zeroedRegion) twoCopiesRun).thread d).setKey =
        none) ∧
      (Run.final (Shared.next siphash) (.fresh zeroedRegion)
        (twoCopiesRun ++ (0, .enter (.del [112, 117]) 0) :: steps 0 2)).thread 0 =
          .done (.del .deleted) ∧
      (Run.final (Shared.next siphash) (.fresh zeroedRegion)
        (twoCopiesRun ++ (0, .enter (.del [112, 117]) 0) :: steps 0 2 ++
          (0, .enter (.get [112, 117]) 0) :: steps 0 4)).thread 0 =
            .done (.get (.found [1])) := by
  refine ⟨?_, by decide +kernel, by decide +kernel, by decide +kernel⟩
  intro hsingle
  have hslots := hsingle (probeIndex (siphash [112, 117]) 0) (probeIndex (siphash [112, 117]) 1)
    (by decide +kernel) (by decide +kernel) (by decide +kernel)
  exact absurd hslots (by decide +kernel)

end MemLane
