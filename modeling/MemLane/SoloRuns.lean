import MemLane.SlotAccess

/-!
# Operations that run alone

The functions of `hashmap.rs` as they are translated carry out an operation as a whole; a
client of the access machine carries it out one access at a time.  Here the two are compared
in the direction that the machine needs: however the clock is read in between, a client that
runs alone and comes to rest has made of the arena what the function makes of it, and has
its result, for the readings at which the probe loop has looked at the clock.
-/

namespace MemLane

/-- A client runs alone, with these readings of the clock. -/
def alone (hashFn : Bytes → UInt64) (start : Arena × Pc) (readings : List UInt64) : Arena × Pc :=
  Run.final (fun (s : Arena × Pc) now => s.2.access hashFn s.1 now) start readings

/-- Wherever the client comes to rest when it runs alone, `S` holds. -/
def Yields (hashFn : Bytes → UInt64) (arena : Arena) (pc : Pc) (S : Arena × Pc → Prop) : Prop :=
  ∀ readings, (alone hashFn (arena, pc) readings).2.resting = true →
    S (alone hashFn (arena, pc) readings)

section Rules

variable {hashFn : Bytes → UInt64} {arena : Arena} {pc : Pc} {S T : Arena × Pc → Prop}

/-- A client at rest makes no access. -/
theorem Pc.access_resting (h : pc.resting = true) (now : UInt64) :
    pc.access hashFn arena now = (arena, pc) := by
  cases pc with
  | idle | done => rfl
  | _ => cases h

theorem Yields.rest (h : pc.resting = true) (hS : S (arena, pc)) : Yields hashFn arena pc S := by
  intro readings
  induction readings with
  | nil => exact fun _ => hS
  | cons now readings ih =>
      rw [alone, Run.final_cons, Pc.access_resting h]
      exact ih

theorem Yields.access (h : pc.resting = false)
    (hnext : ∀ now, Yields hashFn (pc.access hashFn arena now).1 (pc.access hashFn arena now).2 S) :
    Yields hashFn arena pc S := by
  intro readings hrest
  cases readings with
  | nil => exact absurd hrest (ne_true_of_eq_false h)
  | cons now readings => exact hnext now readings hrest

/-- The next access is known, whatever the clock says. -/
theorem Yields.step {arena' : Arena} {pc' : Pc} (h : pc.resting = false)
    (haccess : ∀ now, pc.access hashFn arena now = (arena', pc'))
    (hnext : Yields hashFn arena' pc' S) : Yields hashFn arena pc S := by
  refine Yields.access h ?_
  intro now
  rw [haccess now]
  exact hnext

theorem Yields.mono (h : Yields hashFn arena pc S) (hST : ∀ out, S out → T out) :
    Yields hashFn arena pc T := fun readings hrest => hST _ (h readings hrest)

/-! ## One iteration of a search -/

variable {task : Task} {i : Nat}

/-- The loads of the state and of the fingerprint. -/
theorem yields_state (key : Bytes) (htask : task.key = key) (hi : i < slotCount)
    (hempty : (arena.probed (hashFn key) i).state = stateEmpty →
      Yields hashFn arena (task.atEmpty (probeIndex (hashFn key) i)) S)
    (htomb : (arena.probed (hashFn key) i).state = stateTombstone →
      Yields hashFn arena ((task.note (probeIndex (hashFn key) i)).continue i) S)
    (hunknown : (arena.probed (hashFn key) i).state ≠ stateEmpty →
      (arena.probed (hashFn key) i).state ≠ stateTombstone →
      (arena.probed (hashFn key) i).state ≠ stateOccupied →
        Yields hashFn arena (task.continue i) S)
    (hother : (arena.probed (hashFn key) i).state = stateOccupied →
      (arena.probed (hashFn key) i).fingerprint ≠ hashFn key →
        Yields hashFn arena (task.continue i) S)
    (hmatch : (arena.probed (hashFn key) i).state = stateOccupied →
      (arena.probed (hashFn key) i).fingerprint = hashFn key →
        Yields hashFn arena (.probe task i task.afterFingerprint) S) :
    Yields hashFn arena (.probe task i .state) S := by
  subst htask
  by_cases hstate : (arena.probed (hashFn task.key) i).state = stateEmpty
  · exact .step rfl (fun now => access_empty now hi hstate) (hempty hstate)
  · by_cases hstate' : (arena.probed (hashFn task.key) i).state = stateTombstone
    · exact .step rfl (fun now => access_tombstone now hi hstate') (htomb hstate')
    · by_cases hocc : (arena.probed (hashFn task.key) i).state = stateOccupied
      · refine Yields.step rfl (fun now => access_occupied now hi hocc) ?_
        by_cases hfp : (arena.probed (hashFn task.key) i).fingerprint = hashFn task.key
        · exact .step rfl (fun now => access_fingerprint_eq now hfp) (hmatch hocc hfp)
        · exact .step rfl (fun now => access_fingerprint_ne now hfp) (hother hocc hfp)
      · exact .step rfl (fun now => access_unknown now hi hstate hstate' hocc)
          (hunknown hstate hstate' hocc)

/-- `lazy_evict_if_expired`, at some reading of the clock. -/
theorem yields_expiry (key : Bytes) (htask : task.key = key)
    (hexpired : ∀ now evicted,
      (arena.probed (hashFn key) i).lazyEvictIfExpired now = (true, evicted) →
        Yields hashFn (arena.setSlot (probeIndex (hashFn key) i) evicted)
          (task.afterEvict (probeIndex (hashFn key) i) i) S)
    (hlive : ∀ now kept,
      (arena.probed (hashFn key) i).lazyEvictIfExpired now = (false, kept) →
        Yields hashFn arena (.probe task i .keyLen) S) :
    Yields hashFn arena (.probe task i .expiry) S := by
  subst htask
  refine Yields.access rfl ?_
  intro now
  by_cases hexp : (arena.probed (hashFn task.key) i).isExpired now = true
  · rw [access_expired now hexp]
    refine Yields.step rfl (fun _ => rfl) ?_
    exact hexpired now _ (if_pos hexp)
  · rw [access_not_expired now hexp]
    exact hlive now _ (if_neg hexp)

/-- `read_key` and the comparison. -/
theorem yields_key (key : Bytes) (htask : task.key = key)
    (hne : (arena.probed (hashFn key) i).readKey ≠ key →
      Yields hashFn arena (task.continue i) S)
    (heq : (arena.probed (hashFn key) i).readKey = key →
      Yields hashFn arena (task.atKey (probeIndex (hashFn key) i) i) S) :
    Yields hashFn arena (.probe task i .keyLen) S := by
  subst htask
  refine Yields.step rfl (fun _ => rfl) ?_
  by_cases hkey : (arena.probed (hashFn task.key) i).readKey = task.key
  · exact .step rfl (fun _ => if_neg (not_not.mpr hkey)) (heq hkey)
  · exact .step rfl (fun _ => if_pos hkey) (hne hkey)

/-! ## The stores -/

variable {key value : Bytes} {expiry : UInt64} {target idx : Fin slotCount} {counted : Bool}

/-- The seven stores of `claim_slot`. -/
theorem yields_claim
    (h : Yields hashFn
      (arena.setSlot target (claimSlot (arena.slots target) (hashFn key) key value expiry))
      (if counted then .countInsert key else .done key (.set .inserted)) S) :
    Yields hashFn arena (.claim key value expiry target counted .keyBuf) S := by
  rw [← Arena.setSlot_self arena target]
  refine Yields.step rfl (fun _ => access_claim rfl) ?_
  refine Yields.step rfl (fun _ => access_claim rfl) ?_
  refine Yields.step rfl (fun _ => access_claim rfl) ?_
  refine Yields.step rfl (fun _ => access_claim rfl) ?_
  refine Yields.step rfl (fun _ => access_claim rfl) ?_
  refine Yields.step rfl (fun _ => access_claim rfl) ?_
  refine Yields.access rfl fun now => ?_
  rw [Pc.access, claimAccess, Arena.setSlot_setSlot, Arena.setSlot_slots, if_pos rfl]
  exact h

/-- The three stores of an update in place. -/
theorem yields_update
    (h : Yields hashFn (arena.setSlot idx (updateSlot (arena.slots idx) value expiry))
      (.done key (.set .updated)) S) :
    Yields hashFn arena (.update key value expiry idx .valBuf) S := by
  have hstore : ∀ slot {point next : UpdatePoint}, point.next = some next →
      (Pc.update key value expiry idx point).access hashFn (arena.setSlot idx slot) 0 =
        (arena.setSlot idx (point.write value expiry slot), .update key value expiry idx next) :=
    fun _ _ _ hnext => access_update hnext
  rw [← Arena.setSlot_self arena idx]
  refine Yields.step rfl (fun _ => hstore _ rfl) ?_
  refine Yields.step rfl (fun _ => hstore _ rfl) ?_
  refine Yields.access rfl fun now => ?_
  rw [Pc.access, updateAccess, Arena.setSlot_setSlot, Arena.setSlot_slots, if_pos rfl]
  exact h

end Rules

/-! ## The loops -/

section Loops

variable {hashFn : Bytes → UInt64} {arena : Arena} {key value : Bytes} {hash expiry : UInt64}
  {clock clock' : Clock} {firstTombstone : Option (Fin slotCount)} {i left : Nat}

/-- The loop looks at the clock in its own iterations only. -/
theorem getLoop_congr (h : ∀ m, i ≤ m → clock m = clock' m) :
    getLoop arena key hash clock i left = getLoop arena key hash clock' i left := by
  induction left generalizing i with
  | zero => rfl
  | succ left ih => rw [getLoop, getLoop, h i (Nat.le_refl i), ih fun m hm => h m (by omega)]

theorem setLoop_congr (h : ∀ m, i < m → clock m = clock' m) :
    setLoop key value hash expiry clock arena firstTombstone i left =
      setLoop key value hash expiry clock' arena firstTombstone i left := by
  induction left generalizing arena firstTombstone i with
  | zero => rfl
  | succ left ih =>
      have hrest : ∀ m, i + 1 < m → clock m = clock' m := fun m hm => h m (by omega)
      simp only [setLoop, h (i + 1) (Nat.lt_succ_self i), ih hrest]

/-- The branch of an OCCUPIED slot. -/
theorem ite_occupied {α : Type} {state : UInt8} (h : state = stateOccupied) (a b c d : α) :
    (if state = stateEmpty then a
      else if state = stateTombstone then b
      else if state = stateOccupied then c
      else d) = c :=
  (if_neg (ne_of_eq_of_ne h stateOccupied_ne_stateEmpty)).trans
    ((if_neg (ne_of_eq_of_ne h stateOccupied_ne_stateTombstone)).trans (if_pos h))

/-- At an entry with the fingerprint. -/
theorem getLoop_matched (hocc : (arena.probed hash i).state = stateOccupied)
    (hfp : (arena.probed hash i).fingerprint = hash) :
    getLoop arena key hash clock i (left + 1) =
      match (arena.probed hash i).lazyEvictIfExpired (clock i) with
      | (true, evicted) => (.expired, arena.setSlot (probeIndex hash i) evicted)
      | (false, _) =>
          if (arena.probed hash i).readKey ≠ key then getLoop arena key hash clock (i + 1) left
          else (.found (arena.probed hash i).readValue, arena) :=
  (ite_occupied hocc ..).trans (if_neg (not_not.mpr hfp))

/-- What the loop of `get` returns from here on, for some readings of the clock. -/
def GetReturns (hashFn : Bytes → UInt64) (arena : Arena) (key : Bytes) (i left : Nat)
    (out : Arena × Pc) : Prop :=
  ∃ clock, out = ((getLoop arena key (hashFn key) clock i left).2,
    .done key (.get (getLoop arena key (hashFn key) clock i left).1))

/-- An iteration that passes on, at a reading of the clock. -/
theorem GetReturns.pass (now : UInt64)
    (hloop : ∀ clock : Clock, clock i = now → getLoop arena key (hashFn key) clock i (left + 1) =
      getLoop arena key (hashFn key) clock (i + 1) left) {out : Arena × Pc}
    (h : GetReturns hashFn arena key (i + 1) left out) :
    GetReturns hashFn arena key i (left + 1) out := by
  obtain ⟨clock, rfl⟩ := h
  have hsame : getLoop arena key (hashFn key) clock (i + 1) left =
      getLoop arena key (hashFn key) (Function.update clock i now) (i + 1) left :=
    getLoop_congr fun m hm => (Function.update_of_ne (by omega) ..).symm
  refine ⟨Function.update clock i now, ?_⟩
  rw [hloop _ (Function.update_self ..), hsame]

/-- Alone, `get` returns what its loop returns. -/
theorem yields_get (arena : Arena) (key : Bytes) {i left : Nat} (hsum : i + left = slotCount) :
    Yields hashFn arena (.probe (.get key) i .state) (GetReturns hashFn arena key i left) := by
  induction left generalizing i with
  | zero =>
      refine .step rfl (fun now => access_exhausted now (by omega)) ?_
      exact .rest rfl ⟨fun _ => 0, rfl⟩
  | succ left ih =>
      have hnext := ih (i := i + 1) (by omega)
      refine yields_state key rfl (by omega) ?_ ?_ ?_ ?_ ?_
      · intro hempty
        have hloop : getLoop arena key (hashFn key) (fun _ => 0) i (left + 1) =
          (.notFound, arena) := if_pos hempty
        refine .rest rfl ⟨fun _ => 0, ?_⟩
        rw [hloop]
        rfl
      · intro htomb
        refine hnext.mono fun out h => h.pass 0 fun clock _ => ?_
        exact (if_neg (ne_of_eq_of_ne htomb stateTombstone_ne_stateEmpty)).trans (if_pos htomb)
      · intro hempty htomb hocc
        refine hnext.mono fun out h => h.pass 0 fun clock _ => ?_
        exact (if_neg hempty).trans ((if_neg htomb).trans (if_neg hocc))
      · intro hocc hfp
        refine hnext.mono fun out h => h.pass 0 fun clock _ => ?_
        exact (ite_occupied hocc ..).trans (if_pos hfp)
      · intro hocc hfp
        refine yields_expiry key rfl ?_ ?_
        · intro now evicted hev
          refine .rest rfl ⟨fun _ => now, ?_⟩
          rw [getLoop_matched hocc hfp, hev]
          rfl
        · intro now kept hev
          refine yields_key key rfl ?_ ?_
          · intro hkey
            refine hnext.mono fun out h => h.pass now fun clock hclock => ?_
            rw [getLoop_matched hocc hfp, hclock, hev]
            exact if_pos hkey
          · intro hkey
            refine .step rfl (fun _ => rfl) ?_
            refine .step rfl (fun _ => rfl) ?_
            refine .rest rfl ⟨fun _ => now, ?_⟩
            rw [getLoop_matched hocc hfp, hev]
            simp only [hkey, ne_eq, not_true_eq_false, if_false]
            rfl

theorem setLoop_matched (hocc : (arena.probed hash i).state = stateOccupied)
    (hfp : (arena.probed hash i).fingerprint = hash) :
    setLoop key value hash expiry clock arena firstTombstone i (left + 1) =
      match (arena.probed hash i).lazyEvictIfExpired (clock (i + 1)) with
      | (true, evicted) =>
          setLoop key value hash expiry clock (arena.setSlot (probeIndex hash i) evicted)
            (firstTombstone.or (some (probeIndex hash i))) (i + 1) left
      | (false, _) =>
          if (arena.probed hash i).readKey ≠ key then
            setLoop key value hash expiry clock arena firstTombstone (i + 1) left
          else
            (.updated, arena.setSlot (probeIndex hash i)
              (updateSlot (arena.probed hash i) value expiry)) :=
  (ite_occupied hocc ..).trans (if_neg (not_not.mpr hfp))

/-- What the loop of `set` returns from here on, for some readings of the clock. -/
def SetReturns (hashFn : Bytes → UInt64) (arena : Arena) (key value : Bytes) (expiry : UInt64)
    (firstTombstone : Option (Fin slotCount)) (i left : Nat) (out : Arena × Pc) : Prop :=
  ∃ clock,
    out = ((setLoop key value (hashFn key) expiry clock arena firstTombstone i left).2,
      .done key (.set
        (setLoop key value (hashFn key) expiry clock arena firstTombstone i left).1))

theorem SetReturns.pass (now : UInt64) {arena' : Arena}
    {firstTombstone' : Option (Fin slotCount)}
    (hloop : ∀ clock : Clock, clock (i + 1) = now →
      setLoop key value (hashFn key) expiry clock arena firstTombstone i (left + 1) =
        setLoop key value (hashFn key) expiry clock arena' firstTombstone' (i + 1) left)
    {out : Arena × Pc}
    (h : SetReturns hashFn arena' key value expiry firstTombstone' (i + 1) left out) :
    SetReturns hashFn arena key value expiry firstTombstone i (left + 1) out := by
  obtain ⟨clock, rfl⟩ := h
  have hsame : setLoop key value (hashFn key) expiry clock arena' firstTombstone' (i + 1) left =
      setLoop key value (hashFn key) expiry (Function.update clock (i + 1) now) arena'
        firstTombstone' (i + 1) left :=
    setLoop_congr fun m hm => (Function.update_of_ne (by omega) ..).symm
  refine ⟨Function.update clock (i + 1) now, ?_⟩
  rw [hloop _ (Function.update_self ..), hsame]

/-- Alone, `set` returns what its loop returns. -/
theorem yields_set (arena : Arena) (key value : Bytes) (expiry : UInt64)
    (firstTombstone : Option (Fin slotCount)) {i left : Nat} (hsum : i + left = slotCount) :
    Yields hashFn arena (.probe (.set key value expiry firstTombstone) i .state)
      (SetReturns hashFn arena key value expiry firstTombstone i left) := by
  induction left generalizing arena firstTombstone i with
  | zero =>
      refine .step rfl (fun now => access_exhausted now (by omega)) ?_
      cases firstTombstone with
      | none => exact .rest rfl ⟨fun _ => 0, rfl⟩
      | some target => exact yields_claim (.rest rfl ⟨fun _ => 0, rfl⟩)
  | succ left ih =>
      have hnext := fun arena firstTombstone => ih arena firstTombstone (i := i + 1) (by omega)
      refine yields_state key rfl (by omega) ?_ ?_ ?_ ?_ ?_
      · intro hempty
        refine yields_claim (.step rfl (fun _ => rfl) (.rest rfl ⟨fun _ => 0, ?_⟩))
        have hloop : setLoop key value (hashFn key) expiry (fun _ => 0) arena firstTombstone i
          (left + 1) = _ := if_pos hempty
        rw [hloop]
      · intro htomb
        refine (hnext arena _).mono fun out h => h.pass 0 fun clock _ => ?_
        exact (if_neg (ne_of_eq_of_ne htomb stateTombstone_ne_stateEmpty)).trans (if_pos htomb)
      · intro hempty htomb hocc
        refine (hnext arena _).mono fun out h => h.pass 0 fun clock _ => ?_
        exact (if_neg hempty).trans ((if_neg htomb).trans (if_neg hocc))
      · intro hocc hfp
        refine (hnext arena _).mono fun out h => h.pass 0 fun clock _ => ?_
        exact (ite_occupied hocc ..).trans (if_pos hfp)
      · intro hocc hfp
        refine yields_expiry key rfl ?_ ?_
        · intro now evicted hev
          refine (hnext _ _).mono fun out h => h.pass now fun clock hclock => ?_
          rw [setLoop_matched hocc hfp, hclock, hev]
        · intro now kept hev
          refine yields_key key rfl ?_ ?_
          · intro hkey
            refine (hnext arena _).mono fun out h => h.pass now fun clock hclock => ?_
            rw [setLoop_matched hocc hfp, hclock, hev]
            exact if_pos hkey
          · intro hkey
            refine yields_update (.rest rfl ⟨fun _ => now, ?_⟩)
            rw [setLoop_matched hocc hfp, hev]
            simp only [hkey, ne_eq, not_true_eq_false, if_false]
            rfl

/-- Alone, `del` returns what its loop returns. -/
theorem yields_del (arena : Arena) (key : Bytes) {i left : Nat} (hsum : i + left = slotCount) :
    Yields hashFn arena (.probe (.del key) i .state) fun out =>
      out = ((delLoop arena key (hashFn key) i left).2,
        .done key (.del (delLoop arena key (hashFn key) i left).1)) := by
  induction left generalizing i with
  | zero =>
      refine .step rfl (fun now => access_exhausted now (by omega)) ?_
      exact .rest rfl rfl
  | succ left ih =>
      have hpass : delLoop arena key (hashFn key) i (left + 1) =
            delLoop arena key (hashFn key) (i + 1) left →
          Yields hashFn arena (.probe (.del key) (i + 1) .state) fun out =>
            out = ((delLoop arena key (hashFn key) i (left + 1)).2,
              .done key (.del (delLoop arena key (hashFn key) i (left + 1)).1)) := by
        intro hloop
        rw [hloop]
        exact ih (by omega)
      refine yields_state key rfl (by omega) ?_ ?_ ?_ ?_ ?_
      · intro hempty
        have hloop : delLoop arena key (hashFn key) i (left + 1) = (.notFound, arena) :=
          if_pos hempty
        rw [hloop]
        exact .rest rfl rfl
      · intro htomb
        exact hpass
          ((if_neg (ne_of_eq_of_ne htomb stateTombstone_ne_stateEmpty)).trans (if_pos htomb))
      · intro hempty htomb hocc
        exact hpass ((if_neg hempty).trans ((if_neg htomb).trans (if_neg hocc)))
      · intro hocc hfp
        exact hpass ((ite_occupied hocc ..).trans (if_pos hfp))
      · intro hocc hfp
        have hcas : (arena.probed (hashFn key) i).compareExchange stateOccupied stateTombstone =
          (true, { arena.probed (hashFn key) i with state := stateTombstone }) := if_pos hocc
        have hloop : delLoop arena key (hashFn key) i (left + 1) =
            if (arena.probed (hashFn key) i).readKey ≠ key then
              delLoop arena key (hashFn key) (i + 1) left
            else
              match (arena.probed (hashFn key) i).compareExchange stateOccupied
                stateTombstone with
              | (true, deleted) =>
                  (.deleted, (arena.setSlot (probeIndex (hashFn key) i) deleted).fetchSubUsed)
              | (false, _) => delLoop arena key (hashFn key) (i + 1) left :=
          (ite_occupied hocc ..).trans (if_neg (not_not.mpr hfp))
        refine yields_key key rfl ?_ ?_
        · intro hkey
          exact hpass (hloop.trans (if_pos hkey))
        · intro hkey
          refine .step rfl (fun now => access_delCas_success now hcas) ?_
          refine .step rfl (fun _ => rfl) ?_
          refine .rest rfl ?_
          rw [hloop, if_neg (not_not.mpr hkey), hcas]

end Loops

/-! ## Whole operations -/

/-- The operation carried out as a whole. -/
def Request.perform (hashFn : Bytes → UInt64) (arena : Arena) (clock : Clock) :
    Request → OpResult × Arena
  | .get key =>
      let result := MemLane.get hashFn arena key clock
      (.get result.1, result.2)
  | .set key value ttlSecs =>
      let result := MemLane.set hashFn arena key value ttlSecs clock
      (.set result.1, result.2)
  | .del key =>
      let result := MemLane.del hashFn arena key
      (.del result.1, result.2)

/-- Alone, a client that starts an operation ends as the operation does. -/
theorem yields_request (hashFn : Bytes → UInt64) (arena : Arena) {request : Request}
    (hadmitted : request.Admitted) (now : UInt64) :
    Yields hashFn arena (request.start now) fun out => ∃ clock,
      out = ((request.perform hashFn arena clock).2,
        .done request.key (request.perform hashFn arena clock).1) := by
  have hstart : request.start now = _ := if_pos hadmitted
  rw [hstart]
  cases request with
  | get key => exact yields_get arena key (Nat.zero_add _)
  | del key => exact (yields_del arena key (Nat.zero_add _)).mono fun out h => ⟨fun _ => 0, h⟩
  | set key value ttlSecs =>
      refine (yields_set arena key value (ttlToExpiry ttlSecs now) none (Nat.zero_add _)).mono ?_
      intro out h
      obtain ⟨clock, rfl⟩ := h
      -- the reading at the start is the one of `ttl_to_expiry`
      refine ⟨Function.update clock 0 now, ?_⟩
      have hsame : setLoop key value (hashFn key) (ttlToExpiry ttlSecs now) clock arena none 0
          slotCount = setLoop key value (hashFn key) (ttlToExpiry ttlSecs now)
            (Function.update clock 0 now) arena none 0 slotCount :=
        setLoop_congr fun m hm => (Function.update_of_ne (by omega) ..).symm
      rw [hsame]
      simp only [Request.perform, MemLane.set, Function.update_self]
      rfl

end MemLane
