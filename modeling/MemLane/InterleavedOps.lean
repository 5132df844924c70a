import MemLane.HashMap
import MemLane.Run

/-!
# Map operations in interleaved steps

The operations of `HashMap` cut into atomic steps, for clients that share one
arena under sequential consistency.  An iteration of a probe loop takes two
steps: the load of the slot's state, and the action taken on the state loaded.
By then the slot may have changed.

`solo_get`, `solo_set` and `solo_del` connect the steps to the loops: a client that
runs without interference ends with the arena and the result of the loop.
-/

namespace MemLane

/-- Where an iteration of a probe loop stands: before its load, or with the state
it has loaded. -/
inductive Phase
  | load
  | act (state : UInt8)
  deriving DecidableEq

/-- The result of a finished operation. -/
inductive OpResult
  | get (result : GetResult)
  | set (result : SetResult)
  | del (result : DelResult)
  deriving DecidableEq

/-- The local state of a client: the operation it executes, the step `i` of its
probe loop, and for `set` the reuse candidate. -/
inductive Thread
  | idle
  | get (key : Bytes) (i : Nat) (phase : Phase)
  | set (key value : Bytes) (expiry : UInt64) (firstTombstone : Option (Fin slotCount)) (i : Nat)
      (phase : Phase)
  | del (key : Bytes) (i : Nat) (phase : Phase)
  | done (result : OpResult)
  deriving DecidableEq

/-- The arguments of an operation. -/
inductive Request
  | get (key : Bytes)
  | set (key value : Bytes) (ttlSecs : UInt64)
  | del (key : Bytes)

/-- A client enters an operation; `set` computes its expiry first. -/
def Request.enter (now : UInt64) : Request → Thread
  | .get key => .get key 0 .load
  | .set key value ttlSecs => .set key value (ttlToExpiry ttlSecs now) none 0 .load
  | .del key => .del key 0 .load

section Steps

variable (hashFn : Bytes → UInt64) (arena : Arena) (now : UInt64)

def getStep (key : Bytes) (i : Nat) : Phase → Arena × Thread
  | .load =>
      if i < slotCount then (arena, .get key i (.act (arena.probed (hashFn key) i).state))
      else (arena, .done (.get .notFound))
  | .act state =>
      let idx := probeIndex (hashFn key) i
      let slot := arena.slots idx
      if state = stateEmpty then (arena, .done (.get .notFound))
      else if state = stateTombstone then (arena, .get key (i + 1) .load)
      else if state = stateOccupied then
        if slot.fingerprint ≠ hashFn key then (arena, .get key (i + 1) .load)
        else
          match slot.lazyEvictIfExpired now with
          | (true, evicted) => (arena.setSlot idx evicted, .done (.get .expired))
          | (false, _) =>
              if slot.readKey ≠ key then (arena, .get key (i + 1) .load)
              else (arena, .done (.get (.found slot.readValue)))
      else (arena, .get key (i + 1) .load)

/-- The action on an EMPTY state claims a slot and counts it; the action after the
last iteration claims the reuse candidate, if there is one. -/
def setStep (key value : Bytes) (expiry : UInt64) (firstTombstone : Option (Fin slotCount))
    (i : Nat) : Phase → Arena × Thread
  | .load =>
      if i < slotCount then
        (arena, .set key value expiry firstTombstone i (.act (arena.probed (hashFn key) i).state))
      else
        match firstTombstone with
        | some target =>
            (arena.setSlot target (claimSlot (arena.slots target) (hashFn key) key value expiry),
              .done (.set .inserted))
        | none => (arena, .done (.set .full))
  | .act state =>
      let idx := probeIndex (hashFn key) i
      let slot := arena.slots idx
      if state = stateEmpty then
        let target := firstTombstone.getD idx
        ((arena.setSlot target
            (claimSlot (arena.slots target) (hashFn key) key value expiry)).fetchAddUsed,
          .done (.set .inserted))
      else if state = stateTombstone then
        (arena, .set key value expiry (firstTombstone.or (some idx)) (i + 1) .load)
      else if state = stateOccupied then
        if slot.fingerprint ≠ hashFn key then
          (arena, .set key value expiry firstTombstone (i + 1) .load)
        else
          match slot.lazyEvictIfExpired now with
          | (true, evicted) =>
              (arena.setSlot idx evicted,
                .set key value expiry (firstTombstone.or (some idx)) (i + 1) .load)
          | (false, _) =>
              if slot.readKey ≠ key then
                (arena, .set key value expiry firstTombstone (i + 1) .load)
              else (arena.setSlot idx (updateSlot slot value expiry), .done (.set .updated))
      else (arena, .set key value expiry firstTombstone (i + 1) .load)

def delStep (key : Bytes) (i : Nat) : Phase → Arena × Thread
  | .load =>
      if i < slotCount then (arena, .del key i (.act (arena.probed (hashFn key) i).state))
      else (arena, .done (.del .notFound))
  | .act state =>
      let idx := probeIndex (hashFn key) i
      let slot := arena.slots idx
      if state = stateEmpty then (arena, .done (.del .notFound))
      else if state = stateTombstone then (arena, .del key (i + 1) .load)
      else if state = stateOccupied then
        if slot.fingerprint ≠ hashFn key then (arena, .del key (i + 1) .load)
        else if slot.readKey ≠ key then (arena, .del key (i + 1) .load)
        else
          match slot.compareExchange stateOccupied stateTombstone with
          | (true, deleted) => ((arena.setSlot idx deleted).fetchSubUsed, .done (.del .deleted))
          | (false, _) => (arena, .del key (i + 1) .load)
      else (arena, .del key (i + 1) .load)

/-- One atomic step of a client, at a reading of the clock. -/
def Thread.step : Thread → Arena × Thread
  | .idle => (arena, .idle)
  | .get key i phase => getStep hashFn arena now key i phase
  | .set key value expiry firstTombstone i phase =>
      setStep hashFn arena now key value expiry firstTombstone i phase
  | .del key i phase => delStep hashFn arena key i phase
  | .done result => (arena, .done result)

end Steps

/-- The arena and the clients that share it. -/
structure Shared (ι : Type*) where
  arena : Arena
  thread : ι → Thread

/-- What a client does next: enter an operation, which it can when it executes
none, or take a step. -/
inductive Move
  | enter (request : Request) (now : UInt64)
  | step (now : UInt64)

/-- A client that executes no operation. -/
def Thread.resting : Thread → Bool
  | .idle | .done _ => true
  | .get .. | .set .. | .del .. => false

section Machine

variable {ι : Type*} [DecidableEq ι] (hashFn : Bytes → UInt64)

/-- One step of the whole system: which client moves, and how. -/
def Shared.next (s : Shared ι) (input : ι × Move) : Shared ι :=
  match input.2 with
  | .enter request now =>
      if (s.thread input.1).resting then
        { s with thread := Function.update s.thread input.1 (request.enter now) }
      else s
  | .step now =>
      let result := (s.thread input.1).step hashFn s.arena now
      { arena := result.1, thread := Function.update s.thread input.1 result.2 }

variable (s : Shared ι) (c : ι) (now : UInt64)

@[simp] theorem Shared.next_step_arena :
    (s.next hashFn (c, .step now)).arena = ((s.thread c).step hashFn s.arena now).1 := rfl

@[simp] theorem Shared.next_step_self :
    (s.next hashFn (c, .step now)).thread c = ((s.thread c).step hashFn s.arena now).2 :=
  Function.update_self ..

@[simp] theorem Shared.next_step_other {b : ι} (h : b ≠ c) :
    (s.next hashFn (c, .step now)).thread b = s.thread b :=
  Function.update_of_ne h ..

end Machine

/-! ## A client on its own -/

section Solo

variable (hashFn : Bytes → UInt64)

/-- A client runs alone, at the given readings of the clock. -/
def solo (arena : Arena) (thread : Thread) (readings : List UInt64) : Arena × Thread :=
  Run.final (fun (s : Arena × Thread) now => s.2.step hashFn s.1 now) (arena, thread) readings

variable {hashFn} {arena : Arena} {thread : Thread} {out : Arena × Thread}

/-- A client's run from its state after one step gives its run from before. -/
theorem solo_cons (now : UInt64)
    (h : ∃ readings, solo hashFn (thread.step hashFn arena now).1
      (thread.step hashFn arena now).2 readings = out) :
    ∃ readings, solo hashFn arena thread readings = out := by
  obtain ⟨readings, hrun⟩ := h
  exact ⟨now :: readings, hrun⟩

/-- An iteration loads a state and acts on it. -/
theorem solo_iterate {loaded : Thread} (now : UInt64)
    (hload : thread.step hashFn arena 0 = (arena, loaded))
    (h : ∃ readings, solo hashFn (loaded.step hashFn arena now).1
      (loaded.step hashFn arena now).2 readings = out) :
    ∃ readings, solo hashFn arena thread readings = out := by
  refine solo_cons 0 ?_
  rw [hload]
  exact solo_cons now h

/-- Alone, `get` ends as its loop does. -/
theorem solo_get (arena : Arena) (key : Bytes) (clock : Clock) {i left : Nat}
    (hsum : i + left = slotCount) :
    ∃ readings, solo hashFn arena (.get key i .load) readings =
      ((getLoop arena key (hashFn key) clock i left).2,
        .done (.get (getLoop arena key (hashFn key) clock i left).1)) := by
  have hload : ∀ {j l : Nat}, j + (l + 1) = slotCount →
      (Thread.get key j .load).step hashFn arena 0 =
        (arena, .get key j (.act (arena.slots (probeIndex (hashFn key) j)).state)) :=
    fun h => if_pos (by omega)
  fun_induction getLoop arena key (hashFn key) clock i left with
  | case1 i =>
      obtain rfl : i = slotCount := hsum
      exact solo_cons 0 ⟨[], by simp [solo, Thread.step, getStep]⟩
  | case2 i left idx slot hempty =>
      refine solo_iterate 0 (hload hsum) ⟨[], ?_⟩
      simp only [Thread.step, getStep]
      rw [if_pos hempty]
      rfl
  | case3 i left idx slot hempty htomb ih =>
      refine solo_iterate 0 (hload hsum) ?_
      simp only [Thread.step, getStep]
      rw [if_neg hempty, if_pos htomb]
      exact ih (by omega)
  | case4 i left idx slot hempty htomb hocc hfp ih =>
      refine solo_iterate 0 (hload hsum) ?_
      simp only [Thread.step, getStep]
      rw [if_neg hempty, if_neg htomb, if_pos hocc, if_pos hfp]
      exact ih (by omega)
  | case5 i left idx slot hempty htomb hocc hfp evicted hev =>
      refine solo_iterate (clock i) (hload hsum) ⟨[], ?_⟩
      simp only [Thread.step, getStep]
      rw [if_neg hempty, if_neg htomb, if_pos hocc, if_neg hfp, hev]
      rfl
  | case6 i left idx slot hempty htomb hocc hfp _ hev hkey ih =>
      refine solo_iterate (clock i) (hload hsum) ?_
      simp only [Thread.step, getStep]
      rw [if_neg hempty, if_neg htomb, if_pos hocc, if_neg hfp, hev]
      simp only
      rw [if_pos hkey]
      exact ih (by omega)
  | case7 i left idx slot hempty htomb hocc hfp _ hev hkey =>
      refine solo_iterate (clock i) (hload hsum) ⟨[], ?_⟩
      simp only [Thread.step, getStep]
      rw [if_neg hempty, if_neg htomb, if_pos hocc, if_neg hfp, hev]
      simp only
      rw [if_neg hkey]
      rfl
  | case8 i left idx slot hempty htomb hocc ih =>
      refine solo_iterate 0 (hload hsum) ?_
      simp only [Thread.step, getStep]
      rw [if_neg hempty, if_neg htomb, if_neg hocc]
      exact ih (by omega)

/-- Alone, `set` ends as its loop does. -/
theorem solo_set (arena : Arena) (key value : Bytes) (expiry : UInt64) (clock : Clock)
    (firstTombstone : Option (Fin slotCount)) {i left : Nat} (hsum : i + left = slotCount) :
    ∃ readings, solo hashFn arena (.set key value expiry firstTombstone i .load) readings =
      ((setLoop key value (hashFn key) expiry clock arena firstTombstone i left).2,
        .done (.set (setLoop key value (hashFn key) expiry clock arena firstTombstone i left).1)) := by
  have hload : ∀ {a : Arena} {ft : Option (Fin slotCount)} {j l : Nat}, j + (l + 1) = slotCount →
      (Thread.set key value expiry ft j .load).step hashFn a 0 =
        (a, .set key value expiry ft j (.act (a.slots (probeIndex (hashFn key) j)).state)) :=
    fun h => if_pos (by omega)
  fun_induction setLoop key value (hashFn key) expiry clock arena firstTombstone i left with
  | case1 arena i target =>
      obtain rfl : i = slotCount := hsum
      exact solo_cons 0 ⟨[], by simp [solo, Thread.step, setStep]⟩
  | case2 arena i =>
      obtain rfl : i = slotCount := hsum
      exact solo_cons 0 ⟨[], by simp [solo, Thread.step, setStep]⟩
  | case3 arena firstTombstone i left idx slot hempty target =>
      refine solo_iterate 0 (hload hsum) ⟨[], ?_⟩
      simp only [Thread.step, setStep]
      rw [if_pos hempty]
      rfl
  | case4 arena firstTombstone i left idx slot hempty htomb ih =>
      refine solo_iterate 0 (hload hsum) ?_
      simp only [Thread.step, setStep]
      rw [if_neg hempty, if_pos htomb]
      exact ih (by omega)
  | case5 arena firstTombstone i left idx slot hempty htomb hocc hfp ih =>
      refine solo_iterate 0 (hload hsum) ?_
      simp only [Thread.step, setStep]
      rw [if_neg hempty, if_neg htomb, if_pos hocc, if_pos hfp]
      exact ih (by omega)
  | case6 arena firstTombstone i left idx slot hempty htomb hocc hfp evicted hev ih =>
      refine solo_iterate (clock (i + 1)) (hload hsum) ?_
      simp only [Thread.step, setStep]
      rw [if_neg hempty, if_neg htomb, if_pos hocc, if_neg hfp, hev]
      exact ih (by omega)
  | case7 arena firstTombstone i left idx slot hempty htomb hocc hfp _ hev hkey ih =>
      refine solo_iterate (clock (i + 1)) (hload hsum) ?_
      simp only [Thread.step, setStep]
      rw [if_neg hempty, if_neg htomb, if_pos hocc, if_neg hfp, hev]
      simp only
      rw [if_pos hkey]
      exact ih (by omega)
  | case8 arena firstTombstone i left idx slot hempty htomb hocc hfp _ hev hkey =>
      refine solo_iterate (clock (i + 1)) (hload hsum) ⟨[], ?_⟩
      simp only [Thread.step, setStep]
      rw [if_neg hempty, if_neg htomb, if_pos hocc, if_neg hfp, hev]
      simp only
      rw [if_neg hkey]
      rfl
  | case9 arena firstTombstone i left idx slot hempty htomb hocc ih =>
      refine solo_iterate 0 (hload hsum) ?_
      simp only [Thread.step, setStep]
      rw [if_neg hempty, if_neg htomb, if_neg hocc]
      exact ih (by omega)

/-- Alone, `del` ends as its loop does. -/
theorem solo_del (arena : Arena) (key : Bytes) {i left : Nat} (hsum : i + left = slotCount) :
    ∃ readings, solo hashFn arena (.del key i .load) readings =
      ((delLoop arena key (hashFn key) i left).2,
        .done (.del (delLoop arena key (hashFn key) i left).1)) := by
  have hload : ∀ {j l : Nat}, j + (l + 1) = slotCount →
      (Thread.del key j .load).step hashFn arena 0 =
        (arena, .del key j (.act (arena.slots (probeIndex (hashFn key) j)).state)) :=
    fun h => if_pos (by omega)
  fun_induction delLoop arena key (hashFn key) i left with
  | case1 i =>
      obtain rfl : i = slotCount := hsum
      exact solo_cons 0 ⟨[], by simp [solo, Thread.step, delStep]⟩
  | case2 i left idx slot hempty =>
      refine solo_iterate 0 (hload hsum) ⟨[], ?_⟩
      simp only [Thread.step, delStep]
      rw [if_pos hempty]
      rfl
  | case3 i left idx slot hempty htomb ih =>
      refine solo_iterate 0 (hload hsum) ?_
      simp only [Thread.step, delStep]
      rw [if_neg hempty, if_pos htomb]
      exact ih (by omega)
  | case4 i left idx slot hempty htomb hocc hfp ih =>
      refine solo_iterate 0 (hload hsum) ?_
      simp only [Thread.step, delStep]
      rw [if_neg hempty, if_neg htomb, if_pos hocc, if_pos hfp]
      exact ih (by omega)
  | case5 i left idx slot hempty htomb hocc hfp hkey ih =>
      refine solo_iterate 0 (hload hsum) ?_
      simp only [Thread.step, delStep]
      rw [if_neg hempty, if_neg htomb, if_pos hocc, if_neg hfp, if_pos hkey]
      exact ih (by omega)
  | case6 i left idx slot hempty htomb hocc hfp hkey deleted hcas =>
      refine solo_iterate 0 (hload hsum) ⟨[], ?_⟩
      simp only [Thread.step, delStep]
      rw [if_neg hempty, if_neg htomb, if_pos hocc, if_neg hfp, if_neg hkey, hcas]
      rfl
  | case7 i left idx slot hempty htomb hocc hfp hkey _ hcas ih =>
      refine solo_iterate 0 (hload hsum) ?_
      simp only [Thread.step, delStep]
      rw [if_neg hempty, if_neg htomb, if_pos hocc, if_neg hfp, if_neg hkey, hcas]
      exact ih (by omega)
  | case8 i left idx slot hempty htomb hocc ih =>
      refine solo_iterate 0 (hload hsum) ?_
      simp only [Thread.step, delStep]
      rw [if_neg hempty, if_neg htomb, if_neg hocc]
      exact ih (by omega)

end Solo

end MemLane
