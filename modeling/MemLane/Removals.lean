import MemLane.ValueProvenance

/-!
# Removals and what they examined

`del` reads the key of a slot and then exchanges its state; `lazy_evict_if_expired` reads the
expiry and then exchanges the state.  The exchange compares the state byte alone.  Between
the two the slot can be buried and claimed again for another key, or an update in place can
extend the expiry, and the exchange succeeds all the same.

If no store puts another key, or an expiry that has not come, into an OCCUPIED slot inside
such a window, then every removal removes what was examined.
-/

namespace MemLane

/-- A `del` between its first read of the key of a slot and its exchange.  `len` is the length
that it has loaded, until the key is compared. -/
structure DeleteWindow where
  key : Bytes
  len : Option UInt64
  idx : Fin slotCount

def Pc.deleteWindow (hashFn : Bytes → UInt64) : Pc → Option DeleteWindow
  | .probe (.del key) i (.keyBuf len) => some ⟨key, some len, probeIndex (hashFn key) i⟩
  | .delCas key i => some ⟨key, none, probeIndex (hashFn key) i⟩
  | _ => none

/-- The slot that a client is about to evict. -/
def Pc.evictWindow (hashFn : Bytes → UInt64) : Pc → Option (Fin slotCount)
  | .probe task i .evict => some (probeIndex (hashFn task.key) i)
  | _ => none

/-- The next store of a claim leaves no other key than `k` in an OCCUPIED slot. -/
def ClaimPoint.KeepsKey (k key : Bytes) (slot : Slot) : ClaimPoint → Prop
  | .keyBuf => slot.state = stateOccupied → key = k
  | .keyLen => slot.state = stateOccupied → (slot.storeKeyLen key).readKey = k
  | .state => slot.state = stateOccupied ∨ slot.readKey = k
  | _ => True

/-- The next store of a claim leaves no expiry that has not come in an OCCUPIED slot. -/
def ClaimPoint.KeepsExpired (expiry now : UInt64) (slot : Slot) : ClaimPoint → Prop
  | .expiry => slot.state = stateOccupied → expiry ≠ 0 ∧ expiry ≤ now
  | .state => slot.state = stateOccupied ∨ slot.isExpired now = true
  | _ => True

/-- The next store of an update leaves no expiry that has not come in an OCCUPIED slot. -/
def UpdatePoint.KeepsExpired (expiry now : UInt64) (slot : Slot) : UpdatePoint → Prop
  | .expiry => slot.state = stateOccupied → expiry ≠ 0 ∧ expiry ≤ now
  | _ => True

instance (k key : Bytes) (slot : Slot) (point : ClaimPoint) :
    Decidable (point.KeepsKey k key slot) :=
  match point with
  | .keyBuf | .keyLen => inferInstanceAs (Decidable (_ → _))
  | .state => inferInstanceAs (Decidable (_ ∨ _))
  | .valBuf | .valLen | .fingerprint | .expiry => .isTrue trivial

instance (expiry now : UInt64) (slot : Slot) (point : ClaimPoint) :
    Decidable (point.KeepsExpired expiry now slot) :=
  match point with
  | .expiry => inferInstanceAs (Decidable (_ → _))
  | .state => inferInstanceAs (Decidable (_ ∨ _))
  | .keyBuf | .keyLen | .valBuf | .valLen | .fingerprint => .isTrue trivial

instance (expiry now : UInt64) (slot : Slot) (point : UpdatePoint) :
    Decidable (point.KeepsExpired expiry now slot) :=
  match point with
  | .expiry => inferInstanceAs (Decidable (_ → _))
  | .valBuf | .valLen => .isTrue trivial

/-- The reading of the clock at a step. -/
def Event.now : Event → UInt64
  | .start _ now | .access now => now

section Condition

variable {ι : Type*} (hashFn : Bytes → UInt64)

/-- The next store of a client puts no other key into an OCCUPIED slot inside the window of a
`del`, and no expiry that has not come into one that a client is about to evict. -/
def Pc.Unrefilled (pcs : ι → Pc) (arena : Arena) (now : UInt64) : Pc → Prop
  | .claim key _ expiry target _ point =>
      (∀ d, ∀ window ∈ (pcs d).deleteWindow hashFn, window.idx = target →
        point.KeepsKey window.key key (arena.slots target)) ∧
      (∀ d, (pcs d).evictWindow hashFn = some target →
        point.KeepsExpired expiry now (arena.slots target))
  | .update _ _ expiry idx point =>
      ∀ d, (pcs d).evictWindow hashFn = some idx →
        point.KeepsExpired expiry now (arena.slots idx)
  | _ => True

def Unrefilled (s : System ι) (input : ι × Event) : Prop :=
  match input.2 with
  | .start .. => True
  | .access now => (s.pc input.1).Unrefilled hashFn s.pc s.arena now

instance [Fintype ι] (pcs : ι → Pc) (arena : Arena) (now : UInt64) (pc : Pc) :
    Decidable (pc.Unrefilled hashFn pcs arena now) :=
  match pc with
  | .claim key _ _ target _ point =>
      have (d : ι) := Option.decidableForallMem ((pcs d).deleteWindow hashFn)
        (p := fun window => window.idx = target →
          point.KeepsKey window.key key (arena.slots target))
      instDecidableAnd
  | .update .. => inferInstanceAs (Decidable (∀ _, _))
  | .idle | .probe .. | .valLen .. | .valBuf .. | .countInsert .. | .delCas .. | .countDelete ..
  | .done .. => .isTrue trivial

instance [Fintype ι] (s : System ι) (input : ι × Event) : Decidable (Unrefilled hashFn s input) :=
  match input with
  | (_, .start ..) => .isTrue trivial
  | (c, .access now) => inferInstanceAs (Decidable ((s.pc c).Unrefilled hashFn s.pc s.arena now))

/-- If the next access is a removal that succeeds, then the slot holds the key that is
deleted, or an expiry that has come. -/
def Pc.RemovesExamined (arena : Arena) (now : UInt64) : Pc → Prop
  | .delCas key i =>
      (arena.probed (hashFn key) i).state = stateOccupied →
        (arena.probed (hashFn key) i).readKey = key
  | .probe task i .evict =>
      (arena.probed (hashFn task.key) i).state = stateOccupied →
        (arena.probed (hashFn task.key) i).expiresAtMs ≠ 0 ∧
          (arena.probed (hashFn task.key) i).expiresAtMs ≤ now
  | _ => True

def RemovesExamined (s : System ι) (input : ι × Event) : Prop :=
  match input.2 with
  | .start .. => True
  | .access now => (s.pc input.1).RemovesExamined hashFn s.arena now

instance (arena : Arena) (now : UInt64) (pc : Pc) :
    Decidable (pc.RemovesExamined hashFn arena now) :=
  match pc with
  | .delCas .. | .probe _ _ .evict => inferInstanceAs (Decidable (_ → _))
  | .idle | .valLen .. | .valBuf .. | .update .. | .claim .. | .countInsert .. | .countDelete ..
  | .done .. | .probe _ _ .state | .probe _ _ .fingerprint | .probe _ _ .expiry
  | .probe _ _ .keyLen | .probe _ _ (.keyBuf _) => .isTrue trivial

instance (s : System ι) (input : ι × Event) : Decidable (RemovesExamined hashFn s input) :=
  match input with
  | (_, .start ..) => .isTrue trivial
  | (c, .access now) => inferInstanceAs (Decidable ((s.pc c).RemovesExamined hashFn s.arena now))

end Condition

/-! ## What the moves on a slot leave -/

section Moves

variable {hashFn : Bytes → UInt64} {mover : Pc} {idx : Fin slotCount} {slot after : Slot}
  {now : UInt64}

/-- Storing a key over itself leaves it. -/
theorem Slot.readKey_copyKey {key : Bytes} (h : slot.readKey = key) :
    (slot.copyKey key).readKey = key := by
  have hlen := congrArg List.length h
  rw [Slot.readKey, Buffer.slice, List.length_ofFn] at hlen
  have hle : key.length ≤ maxKeyLen := by
    rw [← hlen]
    exact Nat.min_le_right _ _
  have hcopy : slot.copyKey key = { slot with keyBuf := slot.keyBuf.copyFromSlice key } := by
    rw [Slot.copyKey, Nat.min_eq_left hle, List.take_length]
  rw [hcopy]
  apply List.ext_getElem
  · rw [Slot.readKey, Buffer.slice, List.length_ofFn]
    exact hlen
  · intro i _ hi
    simp [Slot.readKey, Buffer.slice, Buffer.copyFromSlice, hi]

/-- What a `del` has seen of the key stays, if no other key is put into the slot. -/
theorem SlotMove.keepsKey {window : DeleteWindow} (h : SlotMove hashFn mover idx slot after)
    (hclaim : ∀ key value expiry counted point, mover = .claim key value expiry idx counted point →
      point.KeepsKey window.key key slot)
    (hocc : after.state = stateOccupied)
    (hslot : slot.state = stateOccupied →
      window.len = some slot.keyLen ∨ slot.readKey = window.key) :
    window.len = some after.keyLen ∨ after.readKey = window.key := by
  cases h with
  | same => exact hslot hocc
  | buried => exact absurd hocc stateTombstone_ne_stateOccupied
  | @update key value expiry point hpc =>
      cases point with
      | _ => exact hslot hocc
  | @claim key value expiry counted point hpc =>
      have hkeeps := hclaim key value expiry counted point hpc
      cases point with
      | keyBuf =>
          obtain rfl : key = window.key := hkeeps hocc
          exact (hslot hocc).imp id Slot.readKey_copyKey
      | keyLen => exact .inr (hkeeps hocc)
      | state =>
          rcases hkeeps with hocc' | hkey
          · exact hslot hocc'
          · exact .inr hkey
      | _ => exact hslot hocc

/-- An entry that has expired by a reading of the clock so far stays one, if no expiry that
has not come is put into the slot. -/
theorem SlotMove.keepsExpired {past : UInt64 → Prop} (h : SlotMove hashFn mover idx slot after)
    (hclaim : ∀ key value expiry counted point, mover = .claim key value expiry idx counted point →
      point.KeepsExpired expiry now slot)
    (hupdate : ∀ key value expiry point, mover = .update key value expiry idx point →
      point.KeepsExpired expiry now slot)
    (hocc : after.state = stateOccupied)
    (hslot : slot.state = stateOccupied → ∃ t, past t ∧ slot.isExpired t = true) :
    ∃ t, (past t ∨ t = now) ∧ after.isExpired t = true := by
  have hold : slot.state = stateOccupied → ∃ t, (past t ∨ t = now) ∧ slot.isExpired t = true := by
    intro hocc'
    obtain ⟨t, hpast, hexp⟩ := hslot hocc'
    exact ⟨t, .inl hpast, hexp⟩
  cases h with
  | same => exact hold hocc
  | buried => exact absurd hocc stateTombstone_ne_stateOccupied
  | @update key value expiry point hpc =>
      have hkeeps := hupdate key value expiry point hpc
      cases point with
      | expiry => exact ⟨now, .inr rfl, Slot.isExpired_iff.mpr (hkeeps hocc)⟩
      | _ => exact hold hocc
  | @claim key value expiry counted point hpc =>
      have hkeeps := hclaim key value expiry counted point hpc
      cases point with
      | expiry => exact ⟨now, .inr rfl, Slot.isExpired_iff.mpr (hkeeps hocc)⟩
      | state =>
          rcases hkeeps with hocc' | hexp
          · exact hold hocc'
          · exact ⟨now, .inr rfl, hexp⟩
      | _ => exact hold hocc

end Moves

/-! ## What a client has examined -/

section Examined

variable {hashFn : Bytes → UInt64} {past : UInt64 → Prop} {arena : Arena} {now : UInt64} {pc : Pc}

/-- What a client has examined is still so, unless its exchange will fail.  `past` are the
readings of the clock so far. -/
structure Pc.Examined (hashFn : Bytes → UInt64) (past : UInt64 → Prop) (arena : Arena) (pc : Pc) :
    Prop where
  key : ∀ window ∈ pc.deleteWindow hashFn, (arena.slots window.idx).state = stateOccupied →
    window.len = some (arena.slots window.idx).keyLen ∨
      (arena.slots window.idx).readKey = window.key
  expiry : ∀ idx ∈ pc.evictWindow hashFn, (arena.slots idx).state = stateOccupied →
    ∃ t, past t ∧ (arena.slots idx).isExpired t = true

/-- A client outside the windows has examined nothing. -/
theorem Pc.Examined.outside (hdel : pc.deleteWindow hashFn = none)
    (hevict : pc.evictWindow hashFn = none) : pc.Examined hashFn past arena where
  key window hwindow := by cases hdel.symm.trans hwindow
  expiry idx hidx := by cases hevict.symm.trans hidx

theorem Task.continue_examined (task : Task) (i : Nat) :
    (task.continue i).Examined hashFn past arena := by
  cases task with
  | _ => exact .outside rfl rfl

theorem Task.exhausted_examined (task : Task) : task.exhausted.Examined hashFn past arena := by
  cases task with
  | set key value expiry firstTombstone =>
      cases firstTombstone with
      | _ => exact .outside rfl rfl
  | _ => exact .outside rfl rfl

theorem Task.atEmpty_examined (task : Task) (idx : Fin slotCount) :
    (task.atEmpty idx).Examined hashFn past arena := by
  cases task with
  | _ => exact .outside rfl rfl

theorem Task.afterEvict_examined (task : Task) (idx : Fin slotCount) (i : Nat) :
    (task.afterEvict idx i).Examined hashFn past arena := by
  cases task with
  | _ => exact .outside rfl rfl

/-- The comparison of the key completes what was seen of it. -/
theorem Task.atKey_examined {task : Task} {i : Nat} {len : UInt64}
    (h : (Pc.probe task i (.keyBuf len)).Examined hashFn past arena)
    (hkey : (arena.probed (hashFn task.key) i).keyBuf.slice len.toNat = task.key) :
    (task.atKey (probeIndex (hashFn task.key) i) i).Examined hashFn past arena := by
  cases task with
  | del key =>
      refine ⟨fun window hwindow hocc => ?_, nofun⟩
      cases hwindow
      right
      rcases h.key _ rfl hocc with hlen | hread
      · have hsame : len = (arena.probed (hashFn key) i).keyLen := Option.some.inj hlen
        rw [hsame] at hkey
        exact hkey
      · exact hread
  | _ => exact .outside rfl rfl

/-- A client comes to its windows by examining a slot. -/
theorem Pc.Examined.access (now : UInt64) (h : pc.Examined hashFn past arena) :
    (pc.access hashFn arena now).2.Examined hashFn (fun t => past t ∨ t = now)
      (pc.access hashFn arena now).1 := by
  cases pc with
  | probe task i point =>
      rw [Pc.access]
      have hmove := probeAccess_move hashFn arena now task i point
      generalize probeAccess hashFn arena now task i point = out at hmove
      cases hmove with
      | exhausted => exact task.exhausted_examined
      | empty => exact task.atEmpty_examined _
      | tombstone => exact Task.continue_examined _ _
      | passed => exact Task.continue_examined _ _
      | evicted => exact task.afterEvict_examined _ _
      | occupied =>
          cases task with
          | _ => exact .outside rfl rfl
      | matched =>
          cases task with
          | _ => exact .outside rfl rfl
      | kept =>
          cases task with
          | _ => exact .outside rfl rfl
      | expired hexp =>
          refine ⟨fun window hwindow => ?_, fun idx hidx _ => ?_⟩
          · cases task with
            | _ => cases hwindow
          · cases hidx
            exact ⟨now, .inr rfl, hexp⟩
      | keyLen =>
          cases task with
          | del key =>
              refine ⟨fun window hwindow _ => ?_, fun idx hidx => ?_⟩
              · cases hwindow
                exact .inl rfl
              · cases hidx
          | _ => exact .outside rfl rfl
      | keyBuf hkey =>
          refine Task.atKey_examined ?_ hkey
          exact ⟨h.key, fun idx hidx => by cases task <;> cases hidx⟩
  | update key value expiry idx point =>
      cases point with
      | _ => exact .outside rfl rfl
  | claim key value expiry target counted point =>
      cases point with
      | state =>
          cases counted with
          | _ => exact .outside rfl rfl
      | _ => exact .outside rfl rfl
  | delCas key i =>
      rcases access_delCas hashFn arena now key i with ⟨_, heq⟩ | ⟨_, heq⟩
      · rw [heq]
        exact .outside rfl rfl
      · rw [heq]
        exact Task.continue_examined _ _
  | _ => exact .outside rfl rfl

/-- A request has examined nothing when it starts. -/
theorem Request.start_examined (request : Request) (now : UInt64) :
    (request.start now).Examined hashFn past arena := by
  unfold Request.start
  split
  · cases request with
    | _ => exact .outside rfl rfl
  · exact .outside rfl rfl

theorem Pc.Examined.mono {past' : UInt64 → Prop} (h : pc.Examined hashFn past arena)
    (hpast : ∀ t, past t → past' t) : pc.Examined hashFn past' arena where
  key := h.key
  expiry idx hidx hocc := by
    obtain ⟨t, ht, hexp⟩ := h.expiry idx hidx hocc
    exact ⟨t, hpast t ht, hexp⟩

variable {ι : Type*} {s : System ι}

/-- What a client has examined stays so under the accesses of another. -/
theorem Pc.Examined.frame {c d : ι} (h : (s.pc d).Examined hashFn past s.arena)
    (hcond : (s.pc c).Unrefilled hashFn s.pc s.arena now) :
    (s.pc d).Examined hashFn (fun t => past t ∨ t = now)
      ((s.pc c).access hashFn s.arena now).1 where
  key window hwindow hocc := by
    refine ((s.pc c).access_slot hashFn s.arena now window.idx).keepsKey ?_ hocc
      (h.key window hwindow)
    intro key value expiry counted point hclaim
    rw [hclaim] at hcond
    exact hcond.1 d window hwindow rfl
  expiry idx hidx hocc := by
    refine ((s.pc c).access_slot hashFn s.arena now idx).keepsExpired ?_ ?_ hocc
      (h.expiry idx hidx)
    · intro key value expiry counted point hclaim
      rw [hclaim] at hcond
      exact hcond.2 d hidx
    · intro key value expiry point hupdate
      rw [hupdate] at hcond
      exact hcond d hidx

variable [DecidableEq ι]

/-- One step keeps what every client has examined. -/
theorem Unrefilled.examined_next {input : ι × Event}
    (hcond : Unrefilled hashFn s input) (h : ∀ d, (s.pc d).Examined hashFn past s.arena) (d : ι) :
    ((s.next hashFn input).pc d).Examined hashFn (fun t => past t ∨ t = input.2.now)
      (s.next hashFn input).arena := by
  obtain ⟨c, event⟩ := input
  cases event with
  | start request now =>
      rw [System.next_start_arena]
      by_cases hrest : (s.pc c).resting = true
      · by_cases hd : d = c
        · subst hd
          rw [System.next_start_self hashFn s request now hrest]
          exact request.start_examined now
        · rw [System.next_start_other hashFn s request now hd]
          exact (h d).mono fun t => .inl
      · rw [System.next_start_busy hashFn s request now hrest]
        exact (h d).mono fun t => .inl
  | access now =>
      by_cases hd : d = c
      · subst hd
        rw [System.next_access_self]
        exact (h d).access now
      · rw [System.next_access_other hashFn s now hd]
        exact (h d).frame hcond

end Examined

/-- In a run in which no slot is refilled inside a window, every client knows what it has
examined, of the slots by readings of the clock that were made. -/
theorem examined_of_run {ι : Type*} [DecidableEq ι] {hashFn : Bytes → UInt64} {region : Arena}
    {inputs : List (ι × Event)}
    (hcond : Run.Along (System.next hashFn) (Unrefilled hashFn) (.fresh region) inputs) (d : ι) :
    ((Run.final (System.next hashFn) (.fresh region) inputs).pc d).Examined hashFn
      (fun t => ∃ input ∈ inputs, input.2.now = t)
      (Run.final (System.next hashFn) (.fresh region) inputs).arena := by
  refine Run.invariant_history
    (fun inputs s => ∀ d, (s.pc d).Examined hashFn (fun t => ∃ input ∈ inputs, input.2.now = t)
      s.arena) (fun d => .outside rfl rfl) ?_ hcond d
  intro inputs input hinv hstep d
  refine (hstep.examined_next hinv d).mono fun t ht => ?_
  rcases ht with ⟨earlier, hmem, hnow⟩ | rfl
  · exact ⟨earlier, List.mem_append_left _ hmem, hnow⟩
  · exact ⟨input, List.mem_append_right _ List.mem_cons_self, rfl⟩

/-- **Removals remove what was examined**: with a clock that does not go back, in every run
in which no slot is refilled inside a window, every `del` removes its key and every eviction
an entry whose expiry has come. -/
theorem removals_remove_examined {ι : Type*} [DecidableEq ι] (hashFn : Bytes → UInt64)
    (region : Arena) (inputs : List (ι × Event))
    (hclock : inputs.Pairwise fun earlier later => earlier.2.now ≤ later.2.now)
    (hcond : Run.Along (System.next hashFn) (Unrefilled hashFn) (.fresh region) inputs) :
    Run.Along (System.next hashFn) (RemovesExamined hashFn) (.fresh region) inputs := by
  refine Run.along_iff.mpr fun before input after heq => ?_
  subst heq
  have hexam := (examined_of_run (Run.along_append.mp hcond).1) input.1
  have hlater := (List.pairwise_append.mp hclock).2.2
  obtain ⟨c, event⟩ := input
  cases event with
  | start request now => trivial
  | access now =>
      unfold RemovesExamined
      generalize Run.final (System.next hashFn) (.fresh region) before = s at hexam
      simp only at hexam ⊢
      generalize s.pc c = pc at hexam
      cases pc with
      | delCas key i =>
          intro hocc
          exact (hexam.key _ rfl hocc).resolve_left nofun
      | probe task i point =>
          cases point with
          | evict =>
              intro hocc
              obtain ⟨t, ⟨earlier, hmem, rfl⟩, hexp⟩ := hexam.expiry _ rfl hocc
              obtain ⟨hne, hle⟩ := Slot.isExpired_iff.mp hexp
              exact ⟨hne, UInt64.le_trans hle (hlater earlier hmem _ List.mem_cons_self)⟩
          | _ => cases task <;> trivial
      | _ => trivial

/-! ## Three clients -/

section Clients

/-- Numerals name the clients. -/
local instance removalClients : NeZero 3 := inferInstance

/-- A client's next accesses, at one reading of the clock. -/
def accessesAt (c : Fin 3) (now : UInt64) (count : Nat) : List (Fin 3 × Event) :=
  List.replicate count (c, .access now)

/-- The second client evicts `k` while the third is inside its `del`; when the first has set
`k` again, the third deletes it. -/
def buriedRun : List (Fin 3 × Event) :=
  (0, .start (.set [107] [1] 1) 0) :: accessesAt 0 0 9 ++
    (2, .start (.del [107]) 5) :: accessesAt 2 5 4 ++
    (1, .start (.get [107]) 1000) :: accessesAt 1 1000 4 ++ accessesAt 2 1000 2 ++
    (0, .start (.set [107] [2] 0) 2000) :: accessesAt 0 2000 10 ++
    (2, .start (.del [107]) 3000) :: accessesAt 2 3000 6

theorem removals_remove_examined_buried :
    Run.Along (System.next siphash) (RemovesExamined siphash) (.fresh zeroedRegion) buriedRun ∧
      (Run.final (System.next siphash) (.fresh zeroedRegion) buriedRun).pc 1 =
        .done [107] (.get .expired) ∧
      (Run.final (System.next siphash) (.fresh zeroedRegion) buriedRun).pc 2 =
        .done [107] (.del .deleted) := by
  have hclock : buriedRun.Pairwise fun earlier later => earlier.2.now ≤ later.2.now := by
    decide +kernel
  have hcond : Run.Along (System.next siphash) (Unrefilled siphash) (.fresh zeroedRegion)
      buriedRun := by
    decide +kernel
  refine ⟨removals_remove_examined siphash zeroedRegion buriedRun hclock hcond, ?_, ?_⟩
  · decide +kernel
  · decide +kernel

/-- Two clients delete `dr`, and the first sets `pu` into the tombstone before the second
makes its exchange. -/
def refillRun : List (Fin 3 × Event) :=
  (0, .start (.set [100, 114] [1] 0) 0) :: accessesAt 0 0 9 ++
    (1, .start (.del [100, 114]) 0) :: accessesAt 1 0 4 ++
    (2, .start (.del [100, 114]) 0) :: accessesAt 2 0 6 ++
    (0, .start (.set [112, 117] [2] 0) 0) :: accessesAt 0 0 9 ++ accessesAt 1 0 1

/-- The second client finds `k` expired and the third, which found it alive before, updates it
so that it never expires. -/
def refreshRun : List (Fin 3 × Event) :=
  (0, .start (.set [107] [1] 1) 0) :: accessesAt 0 0 9 ++
    (2, .start (.set [107] [2] 0) 500) :: accessesAt 2 500 5 ++
    (1, .start (.get [107]) 1000) :: accessesAt 1 1000 3 ++ accessesAt 2 1000 3 ++
    accessesAt 1 1000 1

/-- A `del` of `dr` removes `pu`, and an eviction an entry that never expires. -/
theorem refilled_entry_removed :
    (refillRun.Pairwise (fun earlier later => earlier.2.now ≤ later.2.now) ∧
      ¬ Run.Along (System.next siphash) (RemovesExamined siphash) (.fresh zeroedRegion) refillRun ∧
      (Run.final (System.next siphash) (.fresh zeroedRegion) refillRun).pc 1 =
        .countDelete [100, 114] ∧
      ((Run.final (System.next siphash) (.fresh zeroedRegion) refillRun).arena.probed
        (siphash [100, 114]) 0).readKey = [112, 117]) ∧
    refreshRun.Pairwise (fun earlier later => earlier.2.now ≤ later.2.now) ∧
      ¬ Run.Along (System.next siphash) (RemovesExamined siphash) (.fresh zeroedRegion) refreshRun ∧
      (Run.final (System.next siphash) (.fresh zeroedRegion) refreshRun).pc 1 =
        .done [107] (.get .expired) ∧
      ((Run.final (System.next siphash) (.fresh zeroedRegion) refreshRun).arena.probed
        (siphash [107]) 0).expiresAtMs = 0 := by
  refine ⟨⟨?_, ?_, ?_, ?_⟩, ?_, ?_, ?_, ?_⟩ <;> decide +kernel

end Clients

end MemLane
