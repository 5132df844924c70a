import MemLane.InterleavedOps
import MemLane.ReadHistory

/-!
# Two concurrent insertions

Two clients set two distinct absent keys, without expiry, in any interleaving of
their steps.  The claim of a slot is a plain store: nothing makes it fail when
the other client has claimed the slot in the meantime.

Along such a run the table invariant holds in every state, whatever happens.
The two entries survive exactly when every claim finds its slot not OCCUPIED,
which is what the comment on `claim_slot` asks of its callers; a claim that
does not destroys the entry of the other client.
-/

namespace MemLane

/-! ## What one step of `set` can do -/

/-- The slot that the next step of a client claims, if it is a claim. -/
def Thread.claimTarget (hashFn : Bytes → UInt64) : Thread → Option (Fin slotCount)
  | .set _ _ _ firstTombstone i .load => if i < slotCount then none else firstTombstone
  | .set key _ _ firstTombstone i (.act state) =>
      if state = stateEmpty then some (firstTombstone.getD (probeIndex (hashFn key) i)) else none
  | _ => none

/-- The steps of a `set` by their effect. -/
inductive SetMove (hashFn : Bytes → UInt64) (arena : Arena) (now : UInt64)
    (key value : Bytes) (expiry : UInt64) :
    Option (Fin slotCount) → Nat → Phase → Arena × Thread → Prop
  | loaded {ft i} (hi : i < slotCount) :
      SetMove hashFn arena now key value expiry ft i .load
        (arena, .set key value expiry ft i (.act (arena.probed (hashFn key) i).state))
  | full {i} (hi : ¬ i < slotCount) :
      SetMove hashFn arena now key value expiry none i .load (arena, .done (.set .full))
  | claimed {ft i phase target after}
      (htarget : (Thread.set key value expiry ft i phase).claimTarget hashFn = some target)
      (hslots : after.slots = (arena.setSlot target
        (claimSlot (arena.slots target) (hashFn key) key value expiry)).slots) :
      SetMove hashFn arena now key value expiry ft i phase (after, .done (.set .inserted))
  | passed {ft i state} (hstate : state ≠ stateEmpty) :
      SetMove hashFn arena now key value expiry ft i (.act state)
        (arena, .set key value expiry ft (i + 1) .load)
  | noted {ft i state} (hstate : state = stateTombstone) :
      SetMove hashFn arena now key value expiry ft i (.act state)
        (arena, .set key value expiry (ft.or (some (probeIndex (hashFn key) i))) (i + 1) .load)
  | evicted {ft i state} (hstate : state = stateOccupied)
      (hexp : (arena.probed (hashFn key) i).isExpired now = true) :
      SetMove hashFn arena now key value expiry ft i (.act state)
        (arena.setSlot (probeIndex (hashFn key) i)
          ((arena.probed (hashFn key) i).compareExchange stateOccupied stateTombstone).2,
          .set key value expiry (ft.or (some (probeIndex (hashFn key) i))) (i + 1) .load)
  | updated {ft i state} (hstate : state = stateOccupied)
      (hkey : (arena.probed (hashFn key) i).readKey = key) :
      SetMove hashFn arena now key value expiry ft i (.act state)
        (arena.setSlot (probeIndex (hashFn key) i)
          (updateSlot (arena.probed (hashFn key) i) value expiry), .done (.set .updated))

variable {hashFn : Bytes → UInt64} {arena after : Arena} {now : UInt64} {key value : Bytes}
  {expiry : UInt64} {ft : Option (Fin slotCount)} {i : Nat} {phase : Phase}

theorem setStep_move (hashFn : Bytes → UInt64) (arena : Arena) (now : UInt64) (key value : Bytes)
    (expiry : UInt64) (ft : Option (Fin slotCount)) (i : Nat) (phase : Phase) :
    SetMove hashFn arena now key value expiry ft i phase
      (setStep hashFn arena now key value expiry ft i phase) := by
  cases phase with
  | load =>
      by_cases hi : i < slotCount
      · simp only [setStep, if_pos hi]
        exact .loaded hi
      · simp only [setStep, if_neg hi]
        cases ft with
        | none => exact .full hi
        | some target => exact .claimed (by simp [Thread.claimTarget, hi]) rfl
  | act state =>
      by_cases hempty : state = stateEmpty
      · simp only [setStep, if_pos hempty]
        exact .claimed (by simp [Thread.claimTarget, hempty]) rfl
      by_cases htomb : state = stateTombstone
      · simp only [setStep, if_neg hempty, if_pos htomb]
        exact .noted htomb
      by_cases hocc : state = stateOccupied
      · simp only [setStep, if_neg hempty, if_neg htomb, if_pos hocc]
        split
        · exact .passed hempty
        · unfold Slot.lazyEvictIfExpired
          by_cases hexp : (arena.probed (hashFn key) i).isExpired now = true
          · have hexp' : (arena.slots (probeIndex (hashFn key) i)).isExpired now = true := hexp
            rw [if_pos hexp']
            exact .evicted hocc hexp
          · have hexp' : ¬ (arena.slots (probeIndex (hashFn key) i)).isExpired now = true := hexp
            rw [if_neg hexp']
            simp only
            split
            · exact .passed hempty
            · next hkey => exact .updated hocc (not_not.mp hkey)
      · simp only [setStep, if_neg hempty, if_neg htomb, if_neg hocc]
        exact .passed hempty

/-- A `set` claims its candidate or, where it has none, the EMPTY slot that it has reached. -/
theorem Thread.claimTarget_set {t : Fin slotCount}
    (ht : (Thread.set key value expiry ft i phase).claimTarget hashFn = some t) :
    (phase = .load ∧ ¬ i < slotCount ∧ ft = some t) ∨
      (phase = .act stateEmpty ∧
        (ft = some t ∨ (ft = none ∧ t = probeIndex (hashFn key) i))) := by
  cases phase with
  | load =>
      left
      simp only [Thread.claimTarget] at ht
      split at ht
      · cases ht
      · next hi => exact ⟨rfl, hi, ht⟩
  | act state =>
      right
      simp only [Thread.claimTarget] at ht
      split at ht
      · next hempty =>
          rw [hempty]
          cases ft with
          | none => exact ⟨rfl, .inr ⟨rfl, (Option.some.inj ht).symm⟩⟩
          | some t' => exact ⟨rfl, .inl ht⟩
      · cases ht

/-! ## How a step changes the arena -/

/-- No slot becomes EMPTY, and no slot comes to hold a key: every OCCUPIED slot was
OCCUPIED with the same key. -/
structure Quiet (a b : Arena) : Prop where
  nonempty : ∀ j, (a.slots j).state ≠ stateEmpty → (b.slots j).state ≠ stateEmpty
  occupied : ∀ j, (b.slots j).state = stateOccupied →
    (a.slots j).state = stateOccupied ∧ (b.slots j).readKey = (a.slots j).readKey

theorem Quiet.refl (a : Arena) : Quiet a a := ⟨fun _ h => h, fun _ h => ⟨h, rfl⟩⟩

theorem Quiet.congr {a b c : Arena} (h : Quiet a b) (hslots : c.slots = b.slots) : Quiet a c where
  nonempty := hslots ▸ h.nonempty
  occupied := hslots ▸ h.occupied

/-- Rewriting one slot is quiet when the slot itself allows it. -/
theorem Quiet.setSlot {j : Fin slotCount} {slot : Slot}
    (hne : (arena.slots j).state ≠ stateEmpty → slot.state ≠ stateEmpty)
    (hocc : slot.state = stateOccupied →
      (arena.slots j).state = stateOccupied ∧ slot.readKey = (arena.slots j).readKey) :
    Quiet arena (arena.setSlot j slot) where
  nonempty := by
    intro m hm
    rw [Arena.setSlot_slots]
    split
    · next h => exact hne (h ▸ hm)
    · exact hm
  occupied := by
    intro m hm
    rw [Arena.setSlot_slots] at hm ⊢
    split at hm
    · next h =>
        subst h
        rw [if_pos rfl]
        exact hocc hm
    · next h =>
        rw [if_neg h]
        exact ⟨hm, rfl⟩

theorem Slot.compareExchange_bury_state_ne_empty {slot : Slot} (h : slot.state ≠ stateEmpty) :
    (slot.compareExchange stateOccupied stateTombstone).2.state ≠ stateEmpty := by
  unfold Slot.compareExchange
  split
  · exact stateTombstone_ne_stateEmpty
  · exact h

theorem Slot.compareExchange_bury_state_ne_occupied (slot : Slot) :
    (slot.compareExchange stateOccupied stateTombstone).2.state ≠ stateOccupied := by
  unfold Slot.compareExchange
  split
  · exact stateTombstone_ne_stateOccupied
  · assumption

/-- The exchange of an eviction is quiet, whether it succeeds or not. -/
theorem Quiet.evict (arena : Arena) (j : Fin slotCount) :
    Quiet arena (arena.setSlot j
      ((arena.slots j).compareExchange stateOccupied stateTombstone).2) :=
  .setSlot Slot.compareExchange_bury_state_ne_empty
    fun h => (Slot.compareExchange_bury_state_ne_occupied _ h).elim

theorem Quiet.update (arena : Arena) (j : Fin slotCount) (value : Bytes) (expiry : UInt64) :
    Quiet arena (arena.setSlot j (updateSlot (arena.slots j) value expiry)) :=
  .setSlot (fun h => h) fun h => ⟨h, rfl⟩

theorem Quiet.contains {a b : Arena} (h : Quiet a b) {k : Bytes} (hb : b.Contains k) :
    a.Contains k := by
  obtain ⟨j, hocc, hkey⟩ := hb
  obtain ⟨hocc', hkey'⟩ := h.occupied j hocc
  exact ⟨j, hocc', hkey'.symm.trans hkey⟩

/-- An eviction's exchange keeps the table invariant, whether it succeeds or not. -/
theorem TableInv.tryBury (h : TableInv hashFn arena) (j : Fin slotCount) :
    TableInv hashFn (arena.setSlot j
      ((arena.slots j).compareExchange stateOccupied stateTombstone).2) := by
  unfold Slot.compareExchange
  split
  · next hocc => exact h.bury hocc
  · rw [Arena.setSlot_self]
    exact h

/-- Rewriting a slot keeps the entries it does not store. -/
theorem Arena.Stores.setSlot {k v : Bytes} {e : UInt64} (h : arena.Stores k v e)
    {j : Fin slotCount} (hne : (arena.slots j).readKey = k → (arena.slots j).expiresAtMs ≠ e)
    (slot : Slot) : (arena.setSlot j slot).Stores k v e := by
  obtain ⟨m, hocc, hkey, hvalue, hexpiry⟩ := h
  have hmj : m ≠ j := by
    intro heq
    subst heq
    exact hne hkey hexpiry
  refine ⟨m, ?_⟩
  rw [Arena.setSlot_slots, if_neg hmj]
  exact ⟨hocc, hkey, hvalue, hexpiry⟩

/-- A claim makes its slot hold the key, and leaves the other slots alone. -/
structure Claims (hash : UInt64) (key value : Bytes) (expiry : UInt64) (target : Fin slotCount)
    (a b : Arena) : Prop where
  slots : b.slots = (a.setSlot target
    (claimSlot (a.slots target) hash key value expiry)).slots

section Claims

variable {hash : UInt64} {target : Fin slotCount} {a b : Arena} {k v : Bytes}

theorem Claims.slots_target (h : Claims hash key value expiry target a b) :
    b.slots target = claimSlot (a.slots target) hash key value expiry := by
  rw [h.slots, Arena.setSlot_slots, if_pos rfl]

theorem Claims.slots_other (h : Claims hash key value expiry target a b) {j : Fin slotCount}
    (hj : j ≠ target) : b.slots j = a.slots j := by
  rw [h.slots, Arena.setSlot_slots, if_neg hj]

theorem Claims.nonempty (h : Claims hash key value expiry target a b) (j : Fin slotCount)
    (hj : (a.slots j).state ≠ stateEmpty) : (b.slots j).state ≠ stateEmpty := by
  by_cases hjt : j = target
  · subst hjt
    rw [h.slots_target]
    simp
  · rw [h.slots_other hjt]
    exact hj

/-- Only the claimed key is new. -/
theorem Claims.contains (hk : key.length ≤ maxKeyLen)
    (h : Claims hash key value expiry target a b) (hne : k ≠ key) (hb : b.Contains k) :
    ∃ j, j ≠ target ∧ (a.slots j).state = stateOccupied ∧ (a.slots j).readKey = k := by
  obtain ⟨j, hocc, hkey⟩ := hb
  have hjt : j ≠ target := by
    intro heq
    subst heq
    rw [h.slots_target, claimSlot_readKey hk] at hkey
    exact hne hkey.symm
  rw [h.slots_other hjt] at hocc hkey
  exact ⟨j, hjt, hocc, hkey⟩

theorem Claims.stores_self (hk : key.length ≤ maxKeyLen) (hv : value.length ≤ maxValLen)
    (h : Claims hash key value expiry target a b) : b.Stores key value expiry := by
  refine ⟨target, ?_⟩
  rw [h.slots_target]
  exact ⟨rfl, claimSlot_readKey hk, claimSlot_readValue hv, rfl⟩

/-- A claim of a slot that is not OCCUPIED destroys no entry. -/
theorem Claims.stores_of_free (h : Claims hash key value expiry target a b)
    (hfree : (a.slots target).state ≠ stateOccupied) {e : UInt64} (hs : a.Stores k v e) :
    b.Stores k v e := by
  obtain ⟨j, hocc, hrest⟩ := hs
  have hjt : j ≠ target := by
    intro heq
    subst heq
    exact hfree hocc
  refine ⟨j, ?_⟩
  rw [h.slots_other hjt]
  exact ⟨hocc, hrest⟩

end Claims

/-! ## Where a scan stands -/

/-- The slot is not OCCUPIED, unless it holds the key of the other client. -/
def Spare (arena : Arena) (other : Bytes) (j : Fin slotCount) : Prop :=
  (arena.slots j).state = stateOccupied → (arena.slots j).readKey = other

/-- What a running `set` knows: the slots it has passed are not EMPTY, and the slot
it would claim is spare. -/
structure Scanning (hashFn : Bytes → UInt64) (arena : Arena) (other key : Bytes)
    (ft : Option (Fin slotCount)) (i : Nat) (phase : Phase) : Prop where
  passed : ∀ m, m < i → (arena.probed (hashFn key) m).state ≠ stateEmpty
  bound : i ≤ slotCount
  candidate : ∀ t, ft = some t → ∃ d, d < i ∧ t = probeIndex (hashFn key) d ∧ Spare arena other t
  loaded : ∀ state, phase = .act state → i < slotCount ∧
    (state ≠ stateEmpty → (arena.probed (hashFn key) i).state ≠ stateEmpty) ∧
    (state ≠ stateOccupied → Spare arena other (probeIndex (hashFn key) i))

section Scanning

variable {a b : Arena} {other : Bytes}

/-- The knowledge survives every change that makes no slot EMPTY and keeps spare
slots spare. -/
theorem Scanning.mono (h : Scanning hashFn a other key ft i phase)
    (hne : ∀ j, (a.slots j).state ≠ stateEmpty → (b.slots j).state ≠ stateEmpty)
    (hspare : ∀ j, Spare a other j → Spare b other j) :
    Scanning hashFn b other key ft i phase where
  passed := fun m hm => hne _ (h.passed m hm)
  bound := h.bound
  candidate := by
    intro t ht
    obtain ⟨d, hd, heq, hs⟩ := h.candidate t ht
    exact ⟨d, hd, heq, hspare t hs⟩
  loaded := by
    intro state hstate
    obtain ⟨hi, hempty, hocc⟩ := h.loaded state hstate
    exact ⟨hi, fun hst => hne _ (hempty hst), fun hst => hspare _ (hocc hst)⟩

theorem Quiet.spare (h : Quiet a b) (j : Fin slotCount) (hs : Spare a other j) :
    Spare b other j := by
  intro hocc
  obtain ⟨hocc', hkey⟩ := h.occupied j hocc
  rw [hkey]
  exact hs hocc'

/-- The other client's claim makes its slot hold the other key. -/
theorem Claims.spare {hash : UInt64} {target : Fin slotCount} (hk : key.length ≤ maxKeyLen)
    (h : Claims hash key value expiry target a b) (j : Fin slotCount) (hs : Spare a key j) :
    Spare b key j := by
  intro hocc
  by_cases hjt : j = target
  · subst hjt
    rw [h.slots_target, claimSlot_readKey hk]
  · rw [h.slots_other hjt] at hocc ⊢
    exact hs hocc

/-- The next iteration, when no new candidate is noted. -/
theorem Scanning.pass {state : UInt8} (h : Scanning hashFn a other key ft i (.act state))
    (hstate : state ≠ stateEmpty) : Scanning hashFn a other key ft (i + 1) .load where
  passed := forall_lt_succ h.passed ((h.loaded state rfl).2.1 hstate)
  bound := (h.loaded state rfl).1
  candidate := by
    intro t ht
    obtain ⟨d, hd, hrest⟩ := h.candidate t ht
    exact ⟨d, by omega, hrest⟩
  loaded := fun _ hstate => by cases hstate

/-- The next iteration, when the slot is noted unless there is a candidate. -/
theorem Scanning.note {state : UInt8} (h : Scanning hashFn a other key ft i (.act state))
    (hstate : state ≠ stateEmpty) (hs : Spare a other (probeIndex (hashFn key) i)) :
    Scanning hashFn a other key (ft.or (some (probeIndex (hashFn key) i))) (i + 1) .load where
  passed := (h.pass hstate).passed
  bound := (h.pass hstate).bound
  candidate := by
    intro t ht
    cases ft with
    | none =>
        obtain rfl := Option.some.inj ht
        exact ⟨i, by omega, rfl, hs⟩
    | some t' => exact (h.pass hstate).candidate t ht
  loaded := fun _ hstate => by cases hstate

/-- The slot a `set` is about to claim lies on its probe path, behind no EMPTY slot,
and is spare. -/
theorem Scanning.target (h : Scanning hashFn a other key ft i phase) {t : Fin slotCount}
    (ht : (Thread.set key value expiry ft i phase).claimTarget hashFn = some t) :
    ∃ d, d < slotCount ∧ t = probeIndex (hashFn key) d ∧
      (∀ m, m < d → (a.probed (hashFn key) m).state ≠ stateEmpty) ∧ Spare a other t := by
  have hbound := h.bound
  have hnoted : ft = some t → ∃ d, d < slotCount ∧ t = probeIndex (hashFn key) d ∧
      (∀ m, m < d → (a.probed (hashFn key) m).state ≠ stateEmpty) ∧ Spare a other t := by
    intro hft
    obtain ⟨d, hd, heq, hs⟩ := h.candidate t hft
    exact ⟨d, by omega, heq, fun m hm => h.passed m (by omega), hs⟩
  rcases Thread.claimTarget_set ht with ⟨_, _, hft⟩ | ⟨rfl, hft | ⟨_, rfl⟩⟩
  · exact hnoted hft
  · exact hnoted hft
  · obtain ⟨hi, _, hspare⟩ := h.loaded stateEmpty rfl
    exact ⟨i, hi, rfl, h.passed, hspare (by simp)⟩

end Scanning

/-! ## The invariant of the race -/

/-- The next step of the client is no claim, or claims a slot that is not OCCUPIED. -/
def ClaimsFree {ι : Type*} (hashFn : Bytes → UInt64) (s : Shared ι) (c : ι) : Prop :=
  ∀ t, (s.thread c).claimTarget hashFn = some t → (s.arena.slots t).state ≠ stateOccupied

/-- The client has returned `Inserted`. -/
def Inserted {ι : Type*} (s : Shared ι) (c : ι) : Prop := s.thread c = .done (.set .inserted)

instance {ι : Type*} (s : Shared ι) (c : ι) : Decidable (Inserted s c) :=
  inferInstanceAs (Decidable (s.thread c = .done (.set .inserted)))

/-- The invariant of two clients that set `key c` to `value c`.  `clean` says that
every claim so far has found its slot not OCCUPIED. -/
structure RaceInv (hashFn : Bytes → UInt64) (key value : Bool → Bytes) (s : Shared Bool)
    (clean : Prop) : Prop where
  inv : TableInv hashFn s.arena
  thread : ∀ c, (∃ ft i phase, s.thread c = .set (key c) (value c) 0 ft i phase ∧
    Scanning hashFn s.arena (key !c) (key c) ft i phase) ∨ ∃ r, s.thread c = .done (.set r)
  owned : ∀ c, s.arena.Contains (key c) → Inserted s c
  stored : clean → ∀ c, Inserted s c → s.arena.Stores (key c) (value c) 0
  lost : ¬ clean → ∃ c, Inserted s c ∧ ¬ s.arena.Contains (key c)

section Step

variable {key value : Bool → Bytes} {s : Shared Bool} {clean : Prop} {c : Bool} {b : Arena}
  {t : Thread}

/-- A step that claims nothing keeps the invariant. -/
theorem RaceInv.quiet (h : RaceInv hashFn key value s clean)
    (hrunning : ¬ Inserted s c) (hinv : TableInv hashFn b) (hquiet : Quiet s.arena b)
    (hkeep : ∀ k v, k ≠ key c → s.arena.Stores k v 0 → b.Stores k v 0)
    (hne : key (!c) ≠ key c) (hnot : t ≠ .done (.set .inserted))
    (ht : (∃ ft i phase, t = .set (key c) (value c) 0 ft i phase ∧
      Scanning hashFn b (key !c) (key c) ft i phase) ∨ ∃ r, t = .done (.set r)) :
    RaceInv hashFn key value ⟨b, Function.update s.thread c t⟩ clean := by
  have hcases : ∀ d, d = c ∨ d = !c := by
    intro d
    cases c <;> cases d <;> simp
  have hother : (!c) ≠ c := by cases c <;> simp
  have hins : ∀ d, Inserted ⟨b, Function.update s.thread c t⟩ d → d = !c ∧ Inserted s d := by
    intro d hd
    rcases hcases d with rfl | rfl
    · exact (hnot (by simpa [Inserted] using hd)).elim
    · exact ⟨rfl, by simpa [Inserted, Function.update_of_ne hother] using hd⟩
  refine ⟨hinv, fun d => ?_, fun d hd => ?_, fun hclean d hd => ?_, fun hdirty => ?_⟩
  · rcases hcases d with rfl | rfl
    · simpa using ht
    · simp only [Function.update_of_ne hother]
      rcases h.thread (!c) with ⟨ft, i, phase, heq, hscan⟩ | hdone
      · exact .inl ⟨ft, i, phase, heq, hscan.mono hquiet.nonempty hquiet.spare⟩
      · exact .inr hdone
  · have hown := h.owned d (hquiet.contains hd)
    rcases hcases d with rfl | rfl
    · exact (hrunning hown).elim
    · simpa [Inserted, Function.update_of_ne hother] using hown
  · obtain ⟨rfl, hd'⟩ := hins d hd
    exact hkeep _ _ hne (h.stored hclean _ hd')
  · obtain ⟨d, hd, hgone⟩ := h.lost hdirty
    have hdc : d = !c := (hcases d).resolve_left fun heq => hrunning (heq ▸ hd)
    subst hdc
    exact ⟨!c, by simpa [Inserted, Function.update_of_ne hother] using hd,
      fun hc => hgone (hquiet.contains hc)⟩

/-- A claim keeps the invariant, and is clean when its slot was not OCCUPIED. -/
theorem RaceInv.claim (h : RaceInv hashFn key value s clean)
    (hk : ∀ c, (key c).length ≤ maxKeyLen) (hv : ∀ c, (value c).length ≤ maxValLen)
    (hrunning : ¬ Inserted s c) (hne : key (!c) ≠ key c) {target : Fin slotCount}
    (hscan : ∃ d, d < slotCount ∧ target = probeIndex (hashFn (key c)) d ∧
      (∀ m, m < d → (s.arena.probed (hashFn (key c)) m).state ≠ stateEmpty) ∧
      Spare s.arena (key !c) target)
    (hclaim : Claims (hashFn (key c)) (key c) (value c) 0 target s.arena b) :
    RaceInv hashFn key value ⟨b, Function.update s.thread c (.done (.set .inserted))⟩
      (clean ∧ (s.arena.slots target).state ≠ stateOccupied) := by
  have hcases : ∀ d, d = c ∨ d = !c := by
    intro d
    cases c <;> cases d <;> simp
  have hother : (!c) ≠ c := by cases c <;> simp
  have habsent : ¬ s.arena.Contains (key c) := fun hc => hrunning (h.owned c hc)
  have hold : ∀ d, d ≠ c → (Inserted ⟨b, Function.update s.thread c (.done (.set .inserted))⟩ d ↔
      Inserted s d) := by
    intro d hd
    simp [Inserted, Function.update_of_ne hd]
  have hself : Inserted ⟨b, Function.update s.thread c (.done (.set .inserted))⟩ c := by
    simp [Inserted]
  obtain ⟨d, hd, rfl, hchain, hspare⟩ := hscan
  refine ⟨?_, fun d => ?_, fun d hd => ?_, fun hclean d hd => ?_, fun hdirty => ?_⟩
  · exact (h.inv.claim (hk c) hd (Arena.only_of_absent habsent) hchain _).congr hclaim.slots
  · rcases hcases d with rfl | rfl
    · exact .inr ⟨_, Function.update_self ..⟩
    · simp only [Function.update_of_ne hother]
      rcases h.thread (!c) with ⟨ft, i, phase, heq, hscan⟩ | hdone
      · refine .inl ⟨ft, i, phase, heq, hscan.mono hclaim.nonempty ?_⟩
        rw [Bool.not_not]
        exact hclaim.spare (hk c)
      · exact .inr hdone
  · rcases hcases d with rfl | rfl
    · exact hself
    · obtain ⟨j, _, hocc, hkey⟩ := hclaim.contains (hk c) hne hd
      exact (hold _ hother).mpr (h.owned _ ⟨j, hocc, hkey⟩)
  · rcases hcases d with rfl | rfl
    · exact hclaim.stores_self (hk d) (hv d)
    · exact hclaim.stores_of_free hclean.2 (h.stored hclean.1 _ ((hold _ hother).mp hd))
  · -- Either the run was dirty before, or this claim overwrites the other entry.
    by_cases hocc : (s.arena.slots (probeIndex (hashFn (key c)) d)).state = stateOccupied
    · have hkey := hspare hocc
      refine ⟨!c, (hold _ hother).mpr (h.owned _ ⟨_, hocc, hkey⟩), fun hc => ?_⟩
      obtain ⟨j, hj, hocc', hkey'⟩ := hclaim.contains (hk c) hne hc
      exact hj (h.inv.slot_unique hocc' hocc (hkey'.trans hkey.symm))
    · obtain ⟨e, he, hgone⟩ := h.lost fun hclean => hdirty ⟨hclean, hocc⟩
      have hec : e = !c := (hcases e).resolve_left fun heq => hrunning (heq ▸ he)
      subst hec
      refine ⟨!c, (hold _ hother).mpr he, fun hc => ?_⟩
      obtain ⟨j, _, hocc', hkey'⟩ := hclaim.contains (hk c) hne hc
      exact hgone ⟨j, hocc', hkey'⟩

theorem RaceInv.congr {clean' : Prop} (h : RaceInv hashFn key value s clean)
    (hiff : clean ↔ clean') : RaceInv hashFn key value s clean' := by
  rwa [propext hiff] at h

/-- One step of either client keeps the invariant; the run stays clean if the step
does. -/
theorem RaceInv.step (h : RaceInv hashFn key value s clean)
    (hk : ∀ c, (key c).length ≤ maxKeyLen) (hv : ∀ c, (value c).length ≤ maxValLen)
    (hne : ∀ c, key (!c) ≠ key c) (c : Bool) (now : UInt64) :
    RaceInv hashFn key value (s.next hashFn (c, .step now)) (clean ∧ ClaimsFree hashFn s c) := by
  rcases h.thread c with ⟨ft, i, phase, heq, hscan⟩ | ⟨r, heq⟩
  · have hrunning : ¬ Inserted s c := by simp [Inserted, heq]
    have hmove := setStep_move hashFn s.arena now (key c) (value c) 0 ft i phase
    have hnext : s.next hashFn (c, .step now) =
        ⟨(setStep hashFn s.arena now (key c) (value c) 0 ft i phase).1,
          Function.update s.thread c
            (setStep hashFn s.arena now (key c) (value c) 0 ft i phase).2⟩ := by
      simp only [Shared.next, heq, Thread.step]
    rw [hnext]
    generalize setStep hashFn s.arena now (key c) (value c) 0 ft i phase = res at hmove
    have hfree : (s.thread c).claimTarget hashFn = none →
        (clean ↔ clean ∧ ClaimsFree hashFn s c) := by
      intro hnone
      refine (and_iff_left fun t ht => ?_).symm
      rw [hnone] at ht
      cases ht
    cases hmove with
    | loaded hi =>
        refine (h.quiet hrunning h.inv (.refl _) (fun _ _ _ hs => hs) (hne c) (by simp)
          (.inl ⟨_, _, _, rfl, ?_⟩)).congr (hfree (by simp [heq, Thread.claimTarget, hi]))
        refine ⟨hscan.passed, hscan.bound, hscan.candidate, fun state hstate => ?_⟩
        cases hstate
        exact ⟨hi, fun hst => hst, fun hst hocc => (hst hocc).elim⟩
    | full hi =>
        exact (h.quiet hrunning h.inv (.refl _) (fun _ _ _ hs => hs) (hne c) (by simp)
          (.inr ⟨_, rfl⟩)).congr (hfree (by simp [heq, Thread.claimTarget]))
    | passed hstate =>
        exact (h.quiet hrunning h.inv (.refl _) (fun _ _ _ hs => hs) (hne c) (by simp)
          (.inl ⟨_, _, _, rfl, hscan.pass hstate⟩)).congr
            (hfree (by simp [heq, Thread.claimTarget, hstate]))
    | noted hstate =>
        subst hstate
        refine (h.quiet hrunning h.inv (.refl _) (fun _ _ _ hs => hs) (hne c) (by simp)
          (.inl ⟨_, _, _, rfl, ?_⟩)).congr (hfree (by simp [heq, Thread.claimTarget]))
        exact hscan.note (by simp) ((hscan.loaded _ rfl).2.2 (by simp))
    | evicted hstate hexp =>
        subst hstate
        have hquiet := Quiet.evict s.arena (probeIndex (hashFn (key c)) i)
        refine (h.quiet hrunning (h.inv.tryBury _) hquiet (fun k v _ hs => hs.setSlot ?_ _)
          (hne c) (by simp) (.inl ⟨_, _, _, rfl, ?_⟩)).congr
            (hfree (by simp [heq, Thread.claimTarget]))
        · exact fun _ => (Slot.isExpired_iff.mp hexp).1
        · refine (hscan.mono hquiet.nonempty hquiet.spare).note (by simp) fun hocc => ?_
          rw [Arena.setSlot_slots, if_pos rfl] at hocc
          exact (Slot.compareExchange_bury_state_ne_occupied _ hocc).elim
    | updated hstate hkey =>
        subst hstate
        refine (h.quiet hrunning (h.inv.update _ _ _) (.update _ _ _ _)
          (fun k v hk' hs => hs.setSlot ?_ _) (hne c) (by simp)
          (.inr ⟨_, rfl⟩)).congr (hfree (by simp [heq, Thread.claimTarget]))
        exact fun hkey' => (hk' (hkey'.symm.trans hkey)).elim
    | claimed htarget hslots =>
        refine (h.claim hk hv hrunning (hne c) (hscan.target htarget) ⟨hslots⟩).congr ?_
        rw [← heq] at htarget
        exact and_congr_right' ⟨fun hf t ht => by
          rw [htarget] at ht
          exact Option.some.inj ht ▸ hf, fun hf => hf _ htarget⟩
  · have hsame : s.next hashFn (c, .step now) = s := by
      simp only [Shared.next, heq, Thread.step]
      rw [← heq, Function.update_eq_self]
    rw [hsame]
    refine h.congr (and_iff_left fun t ht => ?_).symm
    rw [heq] at ht
    cases ht

end Step

/-! ## Whole runs -/

/-- Two clients that have just entered their `set`s without expiry. -/
def raceStart (arena : Arena) (key value : Bool → Bytes) (now : Bool → UInt64) : Shared Bool :=
  ⟨arena, fun c => (Request.set (key c) (value c) 0).enter (now c)⟩

/-- The system after a schedule: which client steps, at which reading of the clock. -/
def raceAfter (hashFn : Bytes → UInt64) (s : Shared Bool) (schedule : List (Bool × UInt64)) :
    Shared Bool :=
  Run.final (fun s input => s.next hashFn (input.1, .step input.2)) s schedule

/-- Every claim of the run finds its slot not OCCUPIED. -/
def CleanRace (hashFn : Bytes → UInt64) (s : Shared Bool) (schedule : List (Bool × UInt64)) :
    Prop :=
  Run.Along (fun s (input : Bool × UInt64) => s.next hashFn (input.1, .step input.2))
    (fun s input => ClaimsFree hashFn s input.1) s schedule

section Run

variable {key value : Bool → Bytes}

theorem RaceInv.start (hinv : TableInv hashFn arena) (habsent : ∀ c, ¬ arena.Contains (key c))
    (start : Bool → UInt64) : RaceInv hashFn key value (raceStart arena key value start) True where
  inv := hinv
  thread := fun c => .inl ⟨none, 0, .load, rfl, ⟨fun m hm => (Nat.not_lt_zero m hm).elim,
    Nat.zero_le _, fun _ ht => (by cases ht), fun _ hst => (by cases hst)⟩⟩
  owned := fun c hc => (habsent c hc).elim
  stored := fun _ c hc => by cases hc
  lost := fun h => (h trivial).elim

/-- The invariant holds after every schedule. -/
theorem RaceInv.run {s : Shared Bool} (h : RaceInv hashFn key value s True)
    (hk : ∀ c, (key c).length ≤ maxKeyLen) (hv : ∀ c, (value c).length ≤ maxValLen)
    (hne : ∀ c, key (!c) ≠ key c) (schedule : List (Bool × UInt64)) :
    RaceInv hashFn key value (raceAfter hashFn s schedule) (CleanRace hashFn s schedule) := by
  induction schedule using List.reverseRecOn with
  | nil => exact h.congr Iff.rfl
  | append_singleton schedule input ih =>
      have hafter : raceAfter hashFn s (schedule ++ [input]) =
          (raceAfter hashFn s schedule).next hashFn (input.1, .step input.2) :=
        Run.final_append _ _ _ _
      have hclean : CleanRace hashFn s (schedule ++ [input]) ↔ CleanRace hashFn s schedule ∧
          ClaimsFree hashFn (raceAfter hashFn s schedule) input.1 :=
        Run.along_append.trans (and_congr_right' (and_iff_left trivial))
      rw [hafter]
      exact (ih.step hk hv hne input.1 input.2).congr hclean.symm

end Run

/-- **Two concurrent insertions, exactly.**  From any arena with the table invariant,
let two clients set two distinct absent keys without expiry, in any interleaving
and with any readings of the clock, and let both return `Inserted`.  Then both
keys are found with their values if and only if every claim found its slot not
OCCUPIED and neither key is shadowed by an expired entry with its fingerprint. -/
theorem concurrent_sets_found_iff (hashFn : Bytes → UInt64) (arena : Arena)
    (hinv : TableInv hashFn arena) (key value : Bool → Bytes) (hne : key false ≠ key true)
    (habsent : ∀ c, ¬ arena.Contains (key c)) (hk : ∀ c, (key c).length ≤ maxKeyLen)
    (hv : ∀ c, (value c).length ≤ maxValLen) (start : Bool → UInt64)
    (schedule : List (Bool × UInt64)) (clock : Bool → Clock)
    (hdone : ∀ c, Inserted (raceAfter hashFn (raceStart arena key value start) schedule) c) :
    let final := raceAfter hashFn (raceStart arena key value start) schedule
    (∀ c, (get hashFn final.arena (key c) (clock c)).1 = .found (value c)) ↔
      CleanRace hashFn (raceStart arena key value start) schedule ∧
        ∀ c, ¬ Shadowed hashFn final.arena (key c) (clock c) := by
  intro final
  have hne' : ∀ c, key (!c) ≠ key c := by
    intro c
    cases c
    · exact hne.symm
    · exact hne
  have hrace : RaceInv hashFn key value final
      (CleanRace hashFn (raceStart arena key value start) schedule) :=
    (RaceInv.start hinv habsent start).run hk hv hne' schedule
  have hfound : CleanRace hashFn (raceStart arena key value start) schedule → ∀ c,
      ((get hashFn final.arena (key c) (clock c)).1 = .found (value c) ↔
        ¬ Shadowed hashFn final.arena (key c) (clock c)) :=
    fun hclean c => hrace.inv.get_found_iff (hrace.stored hclean c (hdone c)) (.inl rfl)
  constructor
  · intro hget
    by_cases hclean : CleanRace hashFn (raceStart arena key value start) schedule
    · exact ⟨hclean, fun c => (hfound hclean c).mp (hget c)⟩
    · obtain ⟨c, _, hgone⟩ := hrace.lost hclean
      exact (get_absent hgone _ (hget c)).elim
  · intro h c
    exact (hfound h.1 c).mpr (h.2 c)

/-! ## A lost insertion -/

/-- Two keys with the same home slot. -/
def neighbourKey : Bool → Bytes
  | false => [100, 114]
  | true => [112, 117]

def neighbourValue : Bool → Bytes
  | false => [1]
  | true => [2]

theorem neighbour_absent (c : Bool) : ¬ (createArena zeroedRegion).Contains (neighbourKey c) := by
  intro h
  obtain ⟨i, hocc, _⟩ := h
  simp [createArena, Slot.init] at hocc

/-- Both clients load the EMPTY state of the shared home slot, then both claim it:
both return `Inserted`, and the first key is gone. -/
theorem concurrent_sets_lose_one :
    TableInv siphash (createArena zeroedRegion) ∧
      neighbourKey false ≠ neighbourKey true ∧
      (∀ c, ¬ (createArena zeroedRegion).Contains (neighbourKey c)) ∧
      let final := raceAfter siphash
        (raceStart (createArena zeroedRegion) neighbourKey neighbourValue fun _ => 0)
        [(false, 0), (true, 0), (false, 0), (true, 0)]
      (∀ c, Inserted final c) ∧
        (get siphash final.arena (neighbourKey false) fun _ => 0).1 = .notFound := by
  refine ⟨.createArena zeroedRegion, by decide, neighbour_absent, ?_, by decide +kernel⟩
  intro c
  cases c <;> decide +kernel

/-- The equivalence when the second client starts after the first has finished. -/
theorem concurrent_sets_found_iff_serial :
    let final := raceAfter siphash
      (raceStart (createArena zeroedRegion) neighbourKey neighbourValue fun _ => 0)
      [(false, 0), (false, 0), (true, 0), (true, 0), (true, 0), (true, 0)]
    (∀ c, (get siphash final.arena (neighbourKey c) fun _ => 0).1 = .found (neighbourValue c)) ↔
      CleanRace siphash
        (raceStart (createArena zeroedRegion) neighbourKey neighbourValue fun _ => 0)
        [(false, 0), (false, 0), (true, 0), (true, 0), (true, 0), (true, 0)] ∧
        ∀ c, ¬ Shadowed siphash final.arena (neighbourKey c) fun _ => 0 := by
  refine concurrent_sets_found_iff siphash _ (.createArena zeroedRegion) neighbourKey
    neighbourValue (by decide) neighbour_absent ?_ ?_ _ _ (fun _ _ => 0) ?_
  · intro c
    cases c <;> decide
  · intro c
    cases c <;> decide
  · intro c
    cases c <;> decide +kernel

end MemLane
