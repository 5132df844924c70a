import MemLane.SipHash
import MemLane.SoloRuns
import Mathlib.Data.Set.Basic

/-!
# Operations that do not conflict

An access of a client touches one slot of the table, or the counter.  Clients of which none
changes a slot that another one touches cannot tell in which order they move: any two orders
of the same accesses end in the same state.  In particular an operation that nobody
interferes with in this sense takes effect at one moment, as the functions of `hashmap.rs`
say, although other clients have made accesses all the while.
-/

namespace MemLane

/-! ## What an access depends on -/

/-- The slot that the next access reads or writes. -/
def Pc.touched (hashFn : Bytes → UInt64) : Pc → Option (Fin slotCount)
  | .probe task i .state => if i < slotCount then some (probeIndex (hashFn task.key) i) else none
  | .probe task i _ => some (probeIndex (hashFn task.key) i)
  | .valLen _ idx | .valBuf _ idx _ => some idx
  | .update _ _ _ idx _ => some idx
  | .claim _ _ _ target _ _ => some target
  | .delCas key i => some (probeIndex (hashFn key) i)
  | .idle | .countInsert _ | .countDelete _ | .done _ _ => none

/-- What the next access adds to the counter. -/
def Pc.counts : Pc → UInt64
  | .countInsert _ => 1
  | .countDelete _ => -1
  | _ => 0

section Footprint

variable {hashFn : Bytes → UInt64} {arena arena' : Arena} {pc : Pc} {idx : Fin slotCount}

/-- An access of a slot is the same in all arenas with the same slot. -/
theorem Pc.access_of_touched (now : UInt64) (h : pc.touched hashFn = some idx)
    (hslot : arena'.slots idx = arena.slots idx) :
    pc.access hashFn arena' now =
      (arena'.setSlot idx ((pc.access hashFn arena now).1.slots idx),
        (pc.access hashFn arena now).2) := by
  have hself : arena'.setSlot idx (arena.slots idx) = arena' := by
    rw [← hslot, Arena.setSlot_self]
  cases pc with
  | idle | countInsert | countDelete | done => cases h
  | valLen key j | valBuf key j len =>
      obtain rfl : j = idx := Option.some.inj h
      simp only [Pc.access, hself, hslot]
  | update key value expiry j point =>
      obtain rfl : j = idx := Option.some.inj h
      simp only [Pc.access, updateAccess, hslot, Arena.setSlot_slots, if_true]
  | claim key value expiry j counted point =>
      obtain rfl : j = idx := Option.some.inj h
      simp only [Pc.access, claimAccess, hslot, Arena.setSlot_slots, if_true]
  | delCas key i =>
      obtain rfl : probeIndex (hashFn key) i = idx := Option.some.inj h
      simp only [Pc.access, hslot]
      split
      · simp only [Arena.setSlot_slots, if_true]
      · simp only [hself]
  | probe task i point =>
      simp only [Pc.access]
      cases point with
      | state =>
          by_cases hi : i < slotCount
          · obtain rfl : probeIndex (hashFn task.key) i = idx :=
              Option.some.inj ((if_pos hi).symm.trans h)
            simp only [probeAccess, if_pos hi, hslot]
            split
            · simp only [hself]
            · split
              · simp only [hself]
              · split <;> simp only [hself]
          · cases (if_neg hi).symm.trans h
      | fingerprint =>
          obtain rfl : probeIndex (hashFn task.key) i = idx := Option.some.inj h
          simp only [probeAccess, hslot]
          split <;> simp only [hself]
      | expiry =>
          obtain rfl : probeIndex (hashFn task.key) i = idx := Option.some.inj h
          simp only [probeAccess, hslot]
          split <;> simp only [hself]
      | evict =>
          obtain rfl : probeIndex (hashFn task.key) i = idx := Option.some.inj h
          simp only [probeAccess, hslot, Arena.setSlot_slots, if_true]
      | keyLen =>
          obtain rfl : probeIndex (hashFn task.key) i = idx := Option.some.inj h
          simp only [probeAccess, hslot, hself]
      | keyBuf len =>
          obtain rfl : probeIndex (hashFn task.key) i = idx := Option.some.inj h
          simp only [probeAccess, hslot]
          split <;> simp only [hself]

/-- An access of no slot leaves the slots alone, and does not depend on them. -/
theorem Pc.access_of_untouched (now : UInt64) (h : pc.touched hashFn = none)
    (arena arena' : Arena) :
    (pc.access hashFn arena now).1.slots = arena.slots ∧
      (pc.access hashFn arena' now).2 = (pc.access hashFn arena now).2 := by
  cases pc with
  | idle | countInsert | countDelete | done => exact ⟨rfl, rfl⟩
  | valLen | valBuf | update | claim | delCas => cases h
  | probe task i point =>
      cases point with
      | state =>
          by_cases hi : i < slotCount
          · cases (if_pos hi).symm.trans h
          · rw [access_exhausted now hi, access_exhausted now hi]
            exact ⟨rfl, rfl⟩
      | _ => cases h

/-- An access reads and writes the touched slot only. -/
theorem Pc.access_frame (now : UInt64)
    (hslot : ∀ idx ∈ pc.touched hashFn, arena'.slots idx = arena.slots idx) :
    (pc.access hashFn arena' now).2 = (pc.access hashFn arena now).2 ∧
      ∀ j, (j ∈ pc.touched hashFn → (pc.access hashFn arena' now).1.slots j =
          (pc.access hashFn arena now).1.slots j) ∧
        (j ∉ pc.touched hashFn → (pc.access hashFn arena' now).1.slots j = arena'.slots j) := by
  cases htouched : pc.touched hashFn with
  | none =>
      refine ⟨(Pc.access_of_untouched now htouched arena arena').2, ?_⟩
      intro j
      refine ⟨fun hj => (Option.not_mem_none j hj).elim, fun _ => ?_⟩
      rw [(Pc.access_of_untouched now htouched arena' arena').1]
  | some idx =>
      rw [htouched] at hslot
      rw [Pc.access_of_touched now htouched (hslot idx rfl)]
      refine ⟨rfl, ?_⟩
      intro j
      rw [Arena.setSlot_slots]
      refine ⟨fun hj => ?_, fun hj => if_neg fun heq => hj (congrArg some heq.symm)⟩
      obtain rfl : idx = j := Option.some.inj hj
      exact if_pos rfl

theorem Pc.access_untouched (now : UInt64) {j : Fin slotCount} (h : j ∉ pc.touched hashFn) :
    (pc.access hashFn arena now).1.slots j = arena.slots j :=
  ((Pc.access_frame now fun _ _ => rfl).2 j).2 h

/-- Of the header, an access changes the counter only. -/
theorem Pc.access_header (hashFn : Bytes → UInt64) (arena : Arena) (now : UInt64) (pc : Pc) :
    (pc.access hashFn arena now).1.header =
      { arena.header with usedCount := arena.header.usedCount + pc.counts } := by
  have hsame : arena.header =
      { arena.header with usedCount := arena.header.usedCount + 0 } :=
    congrArg (fun n => { arena.header with usedCount := n }) (UInt64.add_zero _).symm
  cases pc with
  | countInsert => rfl
  | countDelete key =>
      exact congrArg (fun n => { arena.header with usedCount := n }) (UInt64.sub_eq_add_neg _ 1)
  | probe task i point =>
      have hmove := probeAccess_move hashFn arena now task i point
      refine Eq.trans ?_ hsame
      rw [Pc.access]
      generalize probeAccess hashFn arena now task i point = out at hmove
      cases hmove <;> rfl
  | delCas key i =>
      refine Eq.trans ?_ hsame
      rcases access_delCas hashFn arena now key i with ⟨_, heq⟩ | ⟨_, heq⟩
      · rw [heq]
        rfl
      · rw [heq]
  | idle | valLen | valBuf | update | claim | done => exact hsame

end Footprint

/-! ## Two groups of clients -/

section Groups

variable {ι : Type} {hashFn : Bytes → UInt64}

/-- The step touches only slots in `mine`, and changes none that is in `theirs`. -/
def System.KeepsTo (hashFn : Bytes → UInt64) (mine theirs : Set (Fin slotCount)) (s : System ι)
    (input : ι × Event) : Prop :=
  match input.2 with
  | .start _ _ => True
  | .access now => ∀ idx ∈ (s.pc input.1).touched hashFn, idx ∈ mine ∧
      (idx ∈ theirs → ((s.pc input.1).access hashFn s.arena now).1.slots idx = s.arena.slots idx)

/-- Two groups on the two sides of a partition do not conflict. -/
theorem System.KeepsTo.of_side {side : Fin slotCount → Bool}
    {b : Bool} {s : System ι} {input : ι × Event}
    (h : ((s.pc input.1).touched hashFn).all (fun idx => side idx == b) = true) :
    s.KeepsTo hashFn {idx | side idx = b} {idx | side idx = !b} input := by
  obtain ⟨c, event⟩ := input
  cases event with
  | start request now => trivial
  | access now =>
      intro idx hidx
      have hside : side idx = b := by
        rw [Option.mem_def.mp hidx] at h
        exact beq_iff_eq.mp h
      refine ⟨hside, fun hother => ?_⟩
      exact absurd (hside.symm.trans hother) (by cases b <;> exact Bool.noConfusion)

/-- The clients in `A` have taken the system from `start` to `a` by themselves, the others to
`b`, and together they have taken it to `s`. -/
structure Interleaved (A : ι → Bool) (mine theirs : Set (Fin slotCount)) (start a b s : System ι) :
    Prop where
  pcs : ∀ c, s.pc c = bif A c then a.pc c else b.pc c
  own : ∀ idx ∈ mine, s.arena.slots idx = a.arena.slots idx
  others : ∀ idx ∈ theirs, s.arena.slots idx = b.arena.slots idx
  rest : ∀ idx, idx ∉ mine → idx ∉ theirs → s.arena.slots idx = start.arena.slots idx
  header : s.arena.header = { start.arena.header with
    usedCount := a.arena.header.usedCount + b.arena.header.usedCount -
      start.arena.header.usedCount }

variable {A : ι → Bool} {mine theirs : Set (Fin slotCount)} {start a b s s' : System ι}

theorem Interleaved.refl (A : ι → Bool) (mine theirs : Set (Fin slotCount)) (s : System ι) :
    Interleaved A mine theirs s s s s where
  pcs c := by cases A c <;> rfl
  own _ _ := rfl
  others _ _ := rfl
  rest _ _ _ := rfl
  header := by rw [UInt64.add_sub_cancel]

theorem Interleaved.symm (h : Interleaved A mine theirs start a b s) :
    Interleaved (fun c => !A c) theirs mine start b a s where
  pcs c := by
    rw [h.pcs]
    cases A c <;> rfl
  own := h.others
  others := h.own
  rest idx hmine htheirs := h.rest idx htheirs hmine
  header := by rw [h.header, UInt64.add_comm]

/-- The parts determine the whole. -/
theorem Interleaved.unique (h : Interleaved A mine theirs start a b s)
    (h' : Interleaved A mine theirs start a b s') : s = s' := by
  have hpc : s.pc = s'.pc := funext fun c => (h.pcs c).trans (h'.pcs c).symm
  have harena : s.arena = s'.arena := by
    refine Arena.ext' (h.header.trans h'.header.symm) fun idx => ?_
    by_cases hmine : idx ∈ mine
    · exact (h.own idx hmine).trans (h'.own idx hmine).symm
    · by_cases htheirs : idx ∈ theirs
      · exact (h.others idx htheirs).trans (h'.others idx htheirs).symm
      · exact (h.rest idx hmine htheirs).trans (h'.rest idx hmine htheirs).symm
  obtain ⟨arena, pc⟩ := s
  obtain ⟨arena', pc'⟩ := s'
  obtain rfl : arena = arena' := harena
  obtain rfl : pc = pc' := hpc
  rfl

variable [DecidableEq ι]

/-- An access of a client in `A`. -/
theorem Interleaved.access (h : Interleaved A mine theirs start a b s) {c : ι} (now : UInt64)
    (hA : A c = true) (hkeeps : a.KeepsTo hashFn mine theirs (c, .access now)) :
    Interleaved A mine theirs start (a.next hashFn (c, .access now)) b
      (s.next hashFn (c, .access now)) := by
  have hpc : s.pc c = a.pc c := by
    rw [h.pcs, hA]
    rfl
  have hsame : ∀ idx ∈ (a.pc c).touched hashFn, s.arena.slots idx = a.arena.slots idx :=
    fun idx hidx => h.own idx (hkeeps idx hidx).1
  obtain ⟨hnext, hslots⟩ := Pc.access_frame now hsame
  have hheader := Pc.access_header hashFn a.arena now (a.pc c)
  have hheader' := Pc.access_header hashFn s.arena now (a.pc c)
  rw [System.next_access, System.next_access, hpc]
  refine ⟨?_, ?_, ?_, ?_, ?_⟩
  · intro d
    by_cases hd : d = c
    · subst hd
      simp only [Function.update_self, hA, cond_true, hnext]
    · simp only [Function.update_of_ne hd]
      exact h.pcs d
  · intro j hj
    by_cases ht : j ∈ (a.pc c).touched hashFn
    · exact (hslots j).1 ht
    · exact ((hslots j).2 ht).trans ((h.own j hj).trans (Pc.access_untouched now ht).symm)
  · intro j hj
    by_cases ht : j ∈ (a.pc c).touched hashFn
    · -- a slot of both groups stays as it is
      obtain ⟨hmine, hkept⟩ := hkeeps j ht
      exact ((hslots j).1 ht).trans
        ((hkept hj).trans ((h.own j hmine).symm.trans (h.others j hj)))
    · exact ((hslots j).2 ht).trans (h.others j hj)
  · intro j hmine htheirs
    have ht : j ∉ (a.pc c).touched hashFn := fun ht => hmine (hkeeps j ht).1
    exact ((hslots j).2 ht).trans (h.rest j hmine htheirs)
  · rw [hheader', hheader, h.header]
    refine congrArg (fun n => { start.arena.header with usedCount := n }) ?_
    simp only
    grind

/-- A step of the clients in `A`. -/
theorem Interleaved.step (h : Interleaved A mine theirs start a b s) {input : ι × Event}
    (hA : A input.1 = true) (hkeeps : a.KeepsTo hashFn mine theirs input) :
    Interleaved A mine theirs start (a.next hashFn input) b (s.next hashFn input) := by
  obtain ⟨c, event⟩ := input
  have hpc : s.pc c = a.pc c := by
    rw [h.pcs, hA]
    rfl
  cases event with
  | access now => exact h.access now hA hkeeps
  | start request now =>
      by_cases hrest : (a.pc c).resting = true
      · rw [System.next_start hashFn a request now hrest,
          System.next_start hashFn s request now (hpc ▸ hrest)]
        refine ⟨?_, h.own, h.others, h.rest, h.header⟩
        intro d
        by_cases hd : d = c
        · subst hd
          simp only [Function.update_self, hA, cond_true]
        · simp only [Function.update_of_ne hd]
          exact h.pcs d
      · rw [System.next_start_busy hashFn a request now hrest,
          System.next_start_busy hashFn s request now (hpc ▸ hrest)]
        exact h

/-- A run of both groups, each of which keeps to its slots. -/
theorem Interleaved.run (A : ι → Bool) {s : System ι} {inputs : List (ι × Event)}
    (hmine : Run.Along (System.next hashFn) (System.KeepsTo hashFn mine theirs) s
      (inputs.filter fun input => A input.1))
    (htheirs : Run.Along (System.next hashFn) (System.KeepsTo hashFn theirs mine) s
      (inputs.filter fun input => !A input.1)) :
    Interleaved A mine theirs s
      (Run.final (System.next hashFn) s (inputs.filter fun input => A input.1))
      (Run.final (System.next hashFn) s (inputs.filter fun input => !A input.1))
      (Run.final (System.next hashFn) s inputs) := by
  refine Run.final_interleaved (R := Interleaved A mine theirs s)
    (fun input : ι × Event => A input.1) ?_ ?_
    (.refl A mine theirs s) hmine htheirs
  · intro a b s' input h hA hkeeps
    exact h.step hA hkeeps
  · intro a b s' input h hA hkeeps
    have hstep := (h.symm.step (by rw [hA]; rfl) hkeeps).symm
    simpa only [Bool.not_not] using hstep

/-- The group in `A` can make all its steps first. -/
theorem System.serial (A : ι → Bool) {s : System ι} {inputs : List (ι × Event)}
    (hmine : Run.Along (System.next hashFn) (System.KeepsTo hashFn mine theirs) s
      (inputs.filter fun input => A input.1))
    (htheirs : Run.Along (System.next hashFn) (System.KeepsTo hashFn theirs mine) s
      (inputs.filter fun input => !A input.1)) :
    Run.final (System.next hashFn) s inputs =
      Run.final (System.next hashFn)
        (Run.final (System.next hashFn) s (inputs.filter fun input => A input.1))
        (inputs.filter fun input => !A input.1) := by
  have h := Interleaved.run A hmine htheirs
  have hown : ((inputs.filter fun input => A input.1) ++
      inputs.filter fun input => !A input.1).filter (fun input => A input.1) =
        inputs.filter fun input => A input.1 := by
    simp [List.filter_filter]
  have hothers : ((inputs.filter fun input => A input.1) ++
      inputs.filter fun input => !A input.1).filter (fun input => !A input.1) =
        inputs.filter fun input => !A input.1 := by
    simp [List.filter_filter]
  rw [← hown] at hmine
  rw [← hothers] at htheirs
  have h' := Interleaved.run A hmine htheirs
  rw [hown, hothers, Run.final_append] at h'
  exact h.unique h'

/-- **The order of unconflicting steps does not matter.**  Split the clients into two groups, and
let each group by itself touch only slots of its own set and change none of the other set.  Then
all orders in which the steps of the two groups can be mixed lead to the same state: the same
arena, counter included, and the same clients. -/
theorem unconflicting_orders_agree {ι : Type} [DecidableEq ι] (hashFn : Bytes → UInt64)
    (s : System ι) (A : ι → Bool) (mine theirs : Set (Fin slotCount))
    (inputs inputs' : List (ι × Event))
    (hmine : Run.Along (System.next hashFn) (System.KeepsTo hashFn mine theirs) s
      (inputs.filter fun input => A input.1))
    (htheirs : Run.Along (System.next hashFn) (System.KeepsTo hashFn theirs mine) s
      (inputs.filter fun input => !A input.1))
    (hsame : (inputs'.filter fun input => A input.1) = inputs.filter fun input => A input.1)
    (hsame' : (inputs'.filter fun input => !A input.1) = inputs.filter fun input => !A input.1) :
    Run.final (System.next hashFn) s inputs' = Run.final (System.next hashFn) s inputs := by
  have h := System.serial A hmine htheirs
  rw [← hsame] at hmine
  rw [← hsame'] at htheirs
  rw [System.serial A hmine htheirs, hsame, hsame', ← h]

/-- Two clients that insert keys with different home slots, access by access. -/
def mixedInsertions : List (Bool × Event) :=
  (false, .start (.set [2] [8] 0) 0) ::
    (List.replicate 9 [(true, Event.access 0), (false, .access 0)]).flatten

theorem unconflicting_orders_agree_mixed :
    Run.final (System.next siphash)
        ((System.fresh zeroedRegion).next siphash (true, .start (.set [1] [7] 0) 0))
        ((mixedInsertions.filter fun input => !input.1) ++
          mixedInsertions.filter fun input => input.1) =
      Run.final (System.next siphash)
        ((System.fresh zeroedRegion).next siphash (true, .start (.set [1] [7] 0) 0))
        mixedInsertions := by
  refine unconflicting_orders_agree siphash _ (fun c => c)
    {idx | decide (idx = probeIndex (siphash [1]) 0) = true}
    {idx | decide (idx = probeIndex (siphash [1]) 0) = !true} mixedInsertions _ ?_ ?_ rfl rfl
  · apply Run.Along.mono fun s input h => System.KeepsTo.of_side h
    decide +kernel
  · apply Run.Along.mono fun s input h => System.KeepsTo.of_side h
    decide +kernel

/-! ## One operation -/

/-- A client that starts nothing only makes accesses. -/
theorem filter_eq_accesses {c : ι} {inputs : List (ι × Event)}
    (h : ∀ request now, (c, Event.start request now) ∉ inputs) :
    ∃ readings : List UInt64, (inputs.filter fun input => decide (input.1 = c)) =
      readings.map fun now => (c, .access now) := by
  induction inputs with
  | nil => exact ⟨[], rfl⟩
  | cons input inputs ih =>
      obtain ⟨readings, heq⟩ := ih fun request now hmem => h request now (.tail _ hmem)
      obtain ⟨d, event⟩ := input
      by_cases hd : d = c
      · subst hd
        cases event with
        | start request now => exact (h request now List.mem_cons_self).elim
        | access now => exact ⟨now :: readings, by simp [heq]⟩
      · exact ⟨readings, by simp [hd, heq]⟩

/-- **An operation without conflicts is atomic.**  A client starts an operation, and in the run
that follows the others make any accesses in between, except that nobody changes a slot that the
other side touches.  If the client has its answer in the end, it is the answer of the function
of `hashmap.rs` on the arena at the start, for some readings of the clock, and the end is the
same as if the whole operation had been carried out at once, before the others went on. -/
theorem unconflicting_operation_atomic {ι : Type} [DecidableEq ι] (hashFn : Bytes → UInt64)
    (s : System ι) (c : ι) (hresting : (s.pc c).resting = true) (request : Request)
    (hrequest : request.Admitted) (now : UInt64) (mine theirs : Set (Fin slotCount))
    (inputs : List (ι × Event)) (honce : ∀ request now, (c, Event.start request now) ∉ inputs)
    (hmine : Run.Along (System.next hashFn) (System.KeepsTo hashFn mine theirs)
      (s.next hashFn (c, .start request now)) (inputs.filter fun input => decide (input.1 = c)))
    (htheirs : Run.Along (System.next hashFn) (System.KeepsTo hashFn theirs mine)
      (s.next hashFn (c, .start request now)) (inputs.filter fun input => !decide (input.1 = c)))
    (hanswered : ((Run.final (System.next hashFn) (s.next hashFn (c, .start request now))
      inputs).pc c).resting = true) :
    ∃ clock,
      Run.final (System.next hashFn) (s.next hashFn (c, .start request now)) inputs =
        Run.final (System.next hashFn)
          { arena := (request.perform hashFn s.arena clock).2
            pc := Function.update s.pc c
              (.done request.key (request.perform hashFn s.arena clock).1) }
          (inputs.filter fun input => !decide (input.1 = c)) := by
  have hrun := Interleaved.run (fun d => decide (d = c)) hmine htheirs
  obtain ⟨readings, hreadings⟩ := filter_eq_accesses honce
  -- by itself the client reaches the end of its operation
  have hown := System.final_accesses hashFn (s.next hashFn (c, .start request now)) c readings
  rw [System.next_start hashFn s request now hresting] at hown
  simp only [Function.update_self, Function.update_idem] at hown
  rw [← hreadings, ← System.next_start hashFn s request now hresting] at hown
  have hpc := hrun.pcs c
  rw [decide_eq_true rfl, cond_true, hown] at hpc
  simp only [Function.update_self] at hpc
  rw [hpc] at hanswered
  obtain ⟨clock, hperform⟩ := yields_request hashFn s.arena hrequest now readings hanswered
  refine ⟨clock, ?_⟩
  -- and it can do so before the others move
  rw [System.serial (fun d => decide (d = c)) hmine htheirs, hown]
  rw [alone] at hperform
  rw [hperform]

end Groups

theorem unconflicting_operation_atomic_mixed :
    ∃ clock,
      Run.final (System.next siphash)
          ((System.fresh zeroedRegion).next siphash (true, .start (.set [1] [7] 0) 0))
          mixedInsertions =
        Run.final (System.next siphash)
          { arena := ((Request.set [1] [7] 0).perform siphash (createArena zeroedRegion) clock).2
            pc := Function.update (fun _ => .idle) true (.done [1]
              ((Request.set [1] [7] 0).perform siphash (createArena zeroedRegion) clock).1) }
          (mixedInsertions.filter fun input => !decide (input.1 = true)) := by
  refine unconflicting_operation_atomic siphash (System.fresh zeroedRegion) true rfl
    (.set [1] [7] 0) (by decide) 0 {idx | decide (idx = probeIndex (siphash [1]) 0) = true}
    {idx | decide (idx = probeIndex (siphash [1]) 0) = !true} mixedInsertions ?_ ?_ ?_ ?_
  · intro request now hmem
    simp [mixedInsertions] at hmem
  · apply Run.Along.mono fun s input h => System.KeepsTo.of_side h
    decide +kernel
  · apply Run.Along.mono fun s input h => System.KeepsTo.of_side h
    decide +kernel
  · decide +kernel

/-! ## Readers -/

section Readers

variable {ι : Type} [DecidableEq ι] {hashFn : Bytes → UInt64} {A : ι → Bool} {s t : System ι}

/-- A `get` that has not met an expired entry, or nothing. -/
def Pc.OnlyReads : Pc → Prop
  | .probe task _ point => (∃ key, task = .get key) ∧ point ≠ .evict
  | .update .. | .claim .. | .countInsert _ | .delCas .. | .countDelete _ => False
  | _ => True

/-- A step of a reader starts a `get`, or finds no entry expired. -/
def ReadsLive (hashFn : Bytes → UInt64) (s : System ι) (c : ι) : Event → Prop
  | .start request _ => ∃ key, request = .get key
  | .access now => ∀ task i, s.pc c = .probe task i .expiry →
      (s.arena.probed (hashFn task.key) i).isExpired now = false

/-- An access of a reader changes nothing. -/
theorem Pc.OnlyReads.access {pc : Pc} (h : pc.OnlyReads) (arena : Arena) (now : UInt64)
    (hlive : ∀ task i, pc = .probe task i .expiry →
      (arena.probed (hashFn task.key) i).isExpired now = false) :
    (pc.access hashFn arena now).1 = arena ∧ (pc.access hashFn arena now).2.OnlyReads := by
  cases pc with
  | update | claim | countInsert | delCas | countDelete => exact h.elim
  | idle | valLen | valBuf | done => exact ⟨rfl, trivial⟩
  | probe task i point =>
      obtain ⟨⟨key, rfl⟩, hpoint⟩ := h
      have hmove := probeAccess_move hashFn arena now (.get key) i point
      rw [Pc.access]
      generalize probeAccess hashFn arena now (.get key) i point = out at hmove
      cases hmove with
      | exhausted | empty | keyBuf => exact ⟨rfl, trivial⟩
      | tombstone | occupied | passed | matched | kept | keyLen =>
          exact ⟨rfl, ⟨key, rfl⟩, Point.noConfusion⟩
      | expired hexp =>
          rw [hlive (.get key) i rfl] at hexp
          cases hexp
      | evicted => exact absurd rfl hpoint

/-- The same system, but for the readers. -/
structure AgreeBut (A : ι → Bool) (s t : System ι) : Prop where
  arena : s.arena = t.arena
  pcs : ∀ c, A c = false → s.pc c = t.pc c
  readers : ∀ c, A c = true → (s.pc c).OnlyReads

theorem Request.start_onlyReads (key : Bytes) (now : UInt64) :
    ((Request.get key).start now).OnlyReads := by
  unfold Request.start
  split
  · exact ⟨⟨key, rfl⟩, Point.noConfusion⟩
  · trivial

/-- A reader that moves, while the arena stays as it is. -/
theorem AgreeBut.update (h : AgreeBut A s t) {c : ι} (hA : A c = true) {pc : Pc}
    (hpc : pc.OnlyReads) :
    AgreeBut A { arena := s.arena, pc := Function.update s.pc c pc } t where
  arena := h.arena
  pcs d hd := by
    have hne : d ≠ c := by
      rintro rfl
      rw [hA] at hd
      cases hd
    exact (Function.update_of_ne hne ..).trans (h.pcs d hd)
  readers d hd := by
    by_cases hne : d = c
    · subst hne
      simpa only [Function.update_self] using hpc
    · simpa only [Function.update_of_ne hne] using h.readers d hd

/-- A step of a reader. -/
theorem AgreeBut.omit (h : AgreeBut A s t) {input : ι × Event} (hA : A input.1 = true)
    (hlive : ReadsLive hashFn s input.1 input.2) : AgreeBut A (s.next hashFn input) t := by
  obtain ⟨c, event⟩ := input
  cases event with
  | start request now =>
      obtain ⟨key, rfl⟩ := hlive
      by_cases hrest : (s.pc c).resting = true
      · rw [System.next_start hashFn s _ now hrest]
        exact h.update hA (Request.start_onlyReads key now)
      · rw [System.next_start_busy hashFn s _ now hrest]
        exact h
  | access now =>
      obtain ⟨harena, hpc⟩ := (h.readers c hA).access s.arena now hlive
      rw [System.next_access, harena]
      exact h.update hA hpc

/-- A step of another client. -/
theorem AgreeBut.keep (h : AgreeBut A s t) {input : ι × Event} (hA : A input.1 = false) :
    AgreeBut A (s.next hashFn input) (t.next hashFn input) := by
  obtain ⟨c, event⟩ := input
  have hne : ∀ {d}, A d = true → d ≠ c := by
    rintro d hd rfl
    rw [hA] at hd
    cases hd
  cases event with
  | start request now =>
      have hpc := h.pcs c hA
      by_cases hrest : (s.pc c).resting = true
      · rw [System.next_start hashFn s request now hrest,
          System.next_start hashFn t request now (hpc ▸ hrest)]
        refine ⟨h.arena, fun d hd => ?_, fun d hd => ?_⟩
        · simp only [Function.update_apply, h.pcs d hd]
        · simp only [Function.update_of_ne (hne hd)]
          exact h.readers d hd
      · rw [System.next_start_busy hashFn s request now hrest,
          System.next_start_busy hashFn t request now (hpc ▸ hrest)]
        exact h
  | access now =>
      rw [System.next_access, System.next_access, h.arena, h.pcs c hA]
      refine ⟨rfl, fun d hd => ?_, fun d hd => ?_⟩
      · simp only [Function.update_apply, h.pcs d hd]
      · simp only [Function.update_of_ne (hne hd)]
        exact h.readers d hd

/-- **Readers are invisible.**  Clients that only start `get`s and find no entry expired can be
left out of any run: the arena and the other clients are the same without them, whatever these
have been doing in between. -/
theorem readers_invisible {ι : Type} [DecidableEq ι] (hashFn : Bytes → UInt64) (s : System ι)
    (A : ι → Bool) (hresting : ∀ c, A c = true → (s.pc c).resting = true)
    (inputs : List (ι × Event))
    (hlive : Run.Along (System.next hashFn) (fun s input => A input.1 = true →
      ReadsLive hashFn s input.1 input.2) s inputs) :
    let t := Run.final (System.next hashFn) s inputs
    let t' := Run.final (System.next hashFn) s (inputs.filter fun input => !A input.1)
    t.arena = t'.arena ∧ ∀ c, A c = false → t.pc c = t'.pc c := by
  have hstart : AgreeBut A s s := by
    refine ⟨rfl, fun _ _ => rfl, fun c hc => ?_⟩
    have hrest := hresting c hc
    cases hpc : s.pc c with
    | idle | done => trivial
    | _ =>
        rw [hpc] at hrest
        cases hrest
  have hagree : AgreeBut A (Run.final (System.next hashFn) s inputs)
      (Run.final (System.next hashFn) s (inputs.filter fun input => !A input.1)) := by
    refine Run.final_filter (fun input : ι × Event => !A input.1) ?_ ?_ hstart hlive
    · intro s t input h hkept hlive
      have hA : A input.1 = true := by simpa using hkept
      exact h.omit hA (hlive hA)
    · intro s t input h hkept _
      exact h.keep (by simpa using hkept)
  exact ⟨hagree.arena, hagree.pcs⟩

end Readers

/-- A client reads the key that another one inserts. -/
def watchedInsertion : List (Bool × Event) :=
  (false, .start (.get [1]) 0) :: (true, .start (.set [1] [7] 0) 0) ::
    (List.replicate 9 [(true, Event.access 0), (false, .access 0)]).flatten

theorem readers_invisible_watched :
    let t := Run.final (System.next siphash) (System.fresh zeroedRegion) watchedInsertion
    let t' := Run.final (System.next siphash) (System.fresh zeroedRegion)
      (watchedInsertion.filter fun input => !!input.1)
    t.arena = t'.arena ∧ ∀ c, (!c) = false → t.pc c = t'.pc c := by
  refine readers_invisible siphash (System.fresh zeroedRegion) (fun c => !c) (fun _ _ => rfl)
    watchedInsertion ?_
  have hinputs : ∀ input ∈ watchedInsertion, input.1 = false →
      (∃ key, input.2 = .start (.get key) 0) ∨ input.2 = .access 0 := by
    intro input hinput hreader
    simp only [watchedInsertion, List.mem_cons, List.mem_flatten, List.mem_replicate] at hinput
    obtain rfl | rfl | ⟨_, ⟨_, rfl⟩, hinput⟩ := hinput
    · exact .inl ⟨[1], rfl⟩
    · cases hreader
    · simp only [List.mem_cons, List.not_mem_nil, or_false] at hinput
      obtain rfl | rfl := hinput
      all_goals exact .inr rfl
  refine (Run.along_of_forall_mem hinputs).mono fun s input h hA => ?_
  obtain ⟨c, event⟩ := input
  obtain ⟨key, rfl⟩ | rfl := h (by simpa using hA)
  · exact ⟨key, rfl⟩
  · intro task i _
    -- nothing has expired at the beginning of time
    rw [Slot.isExpired_eq_false_iff, or_iff_not_imp_left]
    exact fun hmortal => UInt64.pos_iff_ne_zero.mpr hmortal

end MemLane
