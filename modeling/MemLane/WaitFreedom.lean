import MemLane.SipHash
import MemLane.SlotAccess

/-!
# Every operation ends

The table has no locks.  An operation of a client ends within a fixed number of its own
accesses, whatever the region holds and whatever the other clients do in between, also if
they stop half-way through an operation: the probe loop visits every slot once, and an
exchange that fails is not tried again.
-/

namespace MemLane

/-- The accesses of one iteration of a probe loop, at most. -/
def iterationBound : Nat := 5

/-- The accesses behind the last iteration, at most: a claim, and the exhausted loop. -/
def epilogueBound : Nat := 9

/-- The accesses of an operation, at most. -/
def operationBound : Nat := iterationBound * slotCount + epilogueBound

/-- What is left of an iteration at a point of it.  `del` has no expiry to look at, but an
exchange to make. -/
def Task.left (task : Task) : Point → Nat
  | .state => iterationBound
  | .fingerprint => 4
  | .expiry => match task with
      | .del _ => 4
      | .get _ | .set .. => 3
  | .evict => 1
  | .keyLen => match task with
      | .del _ => 3
      | .get _ | .set .. => 2
  | .keyBuf _ => match task with
      | .del _ => 2
      | .get _ | .set .. => 1

def UpdatePoint.left : UpdatePoint → Nat
  | .valBuf => 3
  | .valLen => 2
  | .expiry => 1

def ClaimPoint.left : ClaimPoint → Nat
  | .keyBuf => 8
  | .keyLen => 7
  | .valBuf => 6
  | .valLen => 5
  | .fingerprint => 4
  | .expiry => 3
  | .state => 2

/-- What is left of a probe loop before iteration `i`, and behind it. -/
def loopLeft (i : Nat) : Nat := iterationBound * (slotCount - i) + epilogueBound

/-- The accesses that are left of an operation, at most. -/
def Pc.left : Pc → Nat
  | .idle | .done .. => 0
  | .probe task i point => match point with
      | .state => loopLeft i
      | _ => task.left point + loopLeft (i + 1)
  | .valLen .. => 2
  | .valBuf .. => 1
  | .update _ _ _ _ point => point.left
  | .claim _ _ _ _ _ point => point.left
  | .countInsert _ | .countDelete _ => 1
  | .delCas _ i => 1 + loopLeft (i + 1)

/-- The key of the operation that a client executes, or has executed last. -/
def Pc.key? : Pc → Option Bytes
  | .idle => none
  | .probe task _ _ => some task.key
  | .valLen key _ | .valBuf key _ _ | .update key _ _ _ _ | .claim key _ _ _ _ _
  | .countInsert key | .delCas key _ | .countDelete key | .done key _ => some key

section Measure

variable {hashFn : Bytes → UInt64} {arena : Arena} {now : UInt64} {task : Task} {i : Nat}

theorem loopLeft_succ (hi : i < slotCount) : loopLeft i = iterationBound + loopLeft (i + 1) := by
  unfold loopLeft iterationBound
  omega

theorem le_loopLeft (i : Nat) : 9 ≤ loopLeft i := Nat.le_add_left _ _

theorem Task.atEmpty_left (task : Task) (idx : Fin slotCount) : (task.atEmpty idx).left ≤ 8 := by
  cases task with
  | get | del => exact Nat.zero_le _
  | set => exact Nat.le_refl _

theorem Task.exhausted_left (task : Task) : task.exhausted.left ≤ 8 := by
  cases task with
  | get | del => exact Nat.zero_le _
  | set key value expiry firstTombstone =>
      cases firstTombstone with
      | none => exact Nat.zero_le _
      | some target => exact Nat.le_refl _

theorem Task.afterEvict_left (task : Task) (idx : Fin slotCount) (i : Nat) :
    (task.afterEvict idx i).left ≤ loopLeft (i + 1) := by
  cases task with
  | get => exact Nat.zero_le _
  | set | del => exact Nat.le_refl _

theorem Task.atKey_left (task : Task) (idx : Fin slotCount) (i : Nat) (len : UInt64) :
    (task.atKey idx i).left < task.left (.keyBuf len) + loopLeft (i + 1) := by
  have hloop := le_loopLeft (i + 1)
  cases task with
  | get | set =>
      simp only [Task.atKey, Pc.left, UpdatePoint.left, Task.left]
      omega
  | del =>
      simp only [Task.atKey, Pc.left, Task.left]
      omega

theorem probeAccess_left (task : Task) (i : Nat) (point : Point) :
    (probeAccess hashFn arena now task i point).2.left < (Pc.probe task i point).left := by
  have hloop := le_loopLeft i
  have hcontinue : (task.continue i).left = loopLeft (i + 1) := rfl
  cases point with
  | state =>
      have hprobe : (Pc.probe task i .state).left = loopLeft i := rfl
      rw [probeAccess, hprobe]
      split
      · next hi =>
          have hsucc := loopLeft_succ hi
          unfold iterationBound at hsucc
          simp only
          split
          · exact (task.atEmpty_left _).trans_lt (by omega)
          · split
            · simp only [Task.continue, Pc.left]
              omega
            · split
              · simp only [Pc.left, Task.left]
                omega
              · rw [hcontinue]
                omega
      · exact task.exhausted_left.trans_lt (by omega)
  | fingerprint =>
      rw [probeAccess]
      split
      · rw [hcontinue]
        simp only [Pc.left, Task.left]
        omega
      · cases task <;> simp only [Task.afterFingerprint, Pc.left, Task.left] <;> omega
  | expiry =>
      rw [probeAccess]
      split
      · cases task <;> simp only [Pc.left, Task.left] <;> omega
      · cases task <;> simp only [Pc.left, Task.left] <;> omega
  | evict =>
      have hprobe : (Pc.probe task i .evict).left = 1 + loopLeft (i + 1) := rfl
      rw [probeAccess, hprobe]
      exact (task.afterEvict_left _ i).trans_lt (by omega)
  | keyLen =>
      rw [probeAccess]
      cases task <;> simp only [Pc.left, Task.left] <;> omega
  | keyBuf len =>
      rw [probeAccess]
      split
      · rw [hcontinue]
        cases task <;> simp only [Pc.left, Task.left] <;> omega
      · exact task.atKey_left _ i len

/-- Step lemma: every access of an operation leaves fewer of them. -/
theorem Pc.access_left {pc : Pc} (hbusy : pc.resting = false) :
    (pc.access hashFn arena now).2.left < pc.left := by
  cases pc with
  | idle | done => cases hbusy
  | probe task i point => exact probeAccess_left task i point
  | valLen | valBuf | countInsert | countDelete => exact Nat.lt_succ_self _
  | update key value expiry idx point => cases point <;> exact Nat.lt_succ_self _
  | claim key value expiry target counted point =>
      cases point with
      | state =>
          cases counted with
          | false => exact Nat.zero_lt_succ _
          | true => exact Nat.lt_succ_self _
      | _ => exact Nat.lt_succ_self _
  | delCas key i =>
      have hloop := le_loopLeft (i + 1)
      have hleft : (Pc.delCas key i).left = 1 + loopLeft (i + 1) := rfl
      rw [hleft]
      rcases access_delCas hashFn arena now key i with ⟨_, heq⟩ | ⟨_, heq⟩
      · rw [heq]
        simp only [Pc.left]
        omega
      · rw [heq]
        simp only [Task.continue, Pc.left]
        omega

/-- An operation stays with its key. -/
theorem Pc.access_key (pc : Pc) : (pc.access hashFn arena now).2.key? = pc.key? := by
  cases pc with
  | probe task i point =>
      have hmove := probeAccess_move hashFn arena now task i point
      rw [Pc.access]
      generalize probeAccess hashFn arena now task i point = out at hmove
      cases hmove with
      | exhausted =>
          cases task with
          | get | del => rfl
          | set key value expiry firstTombstone => cases firstTombstone <;> rfl
      | empty => cases task <;> rfl
      | tombstone => exact congrArg some (task.note_key _)
      | evicted => cases task <;> rfl
      | keyBuf => cases task <;> rfl
      | occupied | passed | matched | expired | kept | keyLen => rfl
  | update key value expiry idx point => cases point <;> rfl
  | claim key value expiry target counted point =>
      cases point with
      | state => cases counted <;> rfl
      | _ => rfl
  | delCas key i =>
      rcases access_delCas hashFn arena now key i with ⟨_, heq⟩ | ⟨_, heq⟩
      · rw [heq]
        rfl
      · rw [heq]
        rfl
  | _ => rfl

theorem Pc.left_le (pc : Pc) : pc.left ≤ operationBound := by
  have hloop : ∀ i, loopLeft (i + 1) + iterationBound ≤ operationBound := by
    intro i
    unfold loopLeft operationBound iterationBound slotCount
    omega
  have hsmall : 8 ≤ operationBound := by decide
  cases pc with
  | idle | done => exact Nat.zero_le _
  | probe task i point =>
      have hnext := hloop i
      unfold iterationBound at hnext
      cases point with
      | state =>
          unfold Pc.left loopLeft operationBound iterationBound
          simp only
          omega
      | fingerprint | expiry | evict | keyLen | keyBuf =>
          cases task <;> simp only [Pc.left, Task.left] <;> omega
  | valLen => exact Nat.le_trans (show 2 ≤ 8 by decide) hsmall
  | valBuf | countInsert | countDelete => exact Nat.le_trans (show 1 ≤ 8 by decide) hsmall
  | update key value expiry idx point =>
      have hpoint : point.left ≤ 8 := by cases point <;> decide
      exact hpoint.trans hsmall
  | claim key value expiry target counted point =>
      have hpoint : point.left ≤ 8 := by cases point <;> decide
      exact hpoint.trans hsmall
  | delCas key i =>
      have hnext := hloop i
      unfold iterationBound at hnext
      simp only [Pc.left]
      omega

end Measure

/-! ## Whole runs -/

section Progress

variable {ι : Type} {hashFn : Bytes → UInt64} {s : System ι} {c : ι} {key : Bytes}

/-- The operation has an answer. -/
def System.Answered (c : ι) (key : Bytes) (s : System ι) : Prop :=
  ∃ result, s.pc c = .done key result

theorem System.busy_of_unanswered (hkey : (s.pc c).key? = some key) (h : ¬ s.Answered c key) :
    (s.pc c).resting = false := by
  cases hpc : s.pc c with
  | idle =>
      rw [hpc] at hkey
      cases hkey
  | done k result =>
      rw [hpc] at hkey
      obtain rfl : k = key := Option.some.inj hkey
      exact absurd ⟨result, hpc⟩ h
  | _ => rfl

variable [DecidableEq ι]

/-- The input is an access of this client. -/
def accessOf (c : ι) (input : ι × Event) : Bool :=
  match input.2 with
  | .access _ => input.1 = c
  | .start _ _ => false

/-- An input of a run lets the client be, or is an access of it. -/
theorem System.next_pc (hbusy : (s.pc c).resting = false) (input : ι × Event) :
    (accessOf c input = false ∧ (s.next hashFn input).pc c = s.pc c) ∨
      ∃ now, (s.next hashFn input).pc c = ((s.pc c).access hashFn s.arena now).2 := by
  obtain ⟨d, event⟩ := input
  cases event with
  | start request now =>
      refine .inl ⟨rfl, ?_⟩
      by_cases hd : c = d
      · subst hd
        rw [System.next_start_busy hashFn s request now (by rw [hbusy]; exact Bool.false_ne_true)]
      · exact System.next_start_other hashFn s request now hd
  | access now =>
      by_cases hd : c = d
      · subst hd
        exact .inr ⟨now, System.next_access_self hashFn s now⟩
      · refine .inl ⟨decide_eq_false (Ne.symm hd), System.next_access_other hashFn s now hd⟩

/-- **Operations are wait-free.**  From any state of the region and of the other clients, and in
every run from there: once a client has started an operation, it has the answer after at most
`operationBound` accesses of its own, whatever the others do, or leave undone, in between. -/
theorem operations_wait_free {ι : Type} [DecidableEq ι] (hashFn : Bytes → UInt64) (s : System ι)
    (c : ι) (hresting : (s.pc c).resting = true) (request : Request) (hrequest : request.Admitted)
    (now : UInt64) (inputs : List (ι × Event)) :
    let started := s.next hashFn (c, .start request now)
    inputs.countP (accessOf c) < operationBound ∨ ∃ before after, inputs = before ++ after ∧
      (Run.final (System.next hashFn) started before).Answered c request.key := by
  intro started
  have hkey : (started.pc c).key? = some request.key := by
    rw [System.next_start_self hashFn s request now hresting]
    unfold Request.start
    rw [if_pos hrequest]
    cases request <;> rfl
  refine (Run.rests_or_countP_lt (fun s : System ι => (s.pc c).key? = some request.key)
    (fun s => s.Answered c request.key) (fun s => (s.pc c).left) (accessOf c) ?_ ?_ ?_ ?_ hkey
    inputs).imp_left fun hcount => hcount.trans_le (Pc.left_le _)
  · intro s hkey hzero
    by_contra hunanswered
    have hlower := @Pc.access_left hashFn s.arena 0 _ (System.busy_of_unanswered hkey hunanswered)
    rw [hzero] at hlower
    exact Nat.not_lt_zero _ hlower
  · intro s input hkey hunanswered
    rcases System.next_pc (System.busy_of_unanswered hkey hunanswered) input with
      ⟨_, hpc⟩ | ⟨now, hpc⟩
    · rw [hpc]
      exact hkey
    · rw [hpc, Pc.access_key]
      exact hkey
  · intro s input hkey hunanswered
    have hbusy := System.busy_of_unanswered hkey hunanswered
    rcases System.next_pc hbusy input with ⟨_, hpc⟩ | ⟨now, hpc⟩
    · rw [hpc]
    · rw [hpc]
      exact (Pc.access_left hbusy).le
  · intro s input hkey hunanswered hown
    have hbusy := System.busy_of_unanswered hkey hunanswered
    rcases System.next_pc hbusy input with ⟨hother, _⟩ | ⟨now, hpc⟩
    · rw [hother] at hown
      cases hown
    · rw [hpc]
      exact Pc.access_left hbusy

/-- A `get` beside a client that stops inside its `set`. -/
theorem operations_wait_free_get :
    ∃ before after, List.replicate operationBound ((true, .access 0) : Bool × Event) =
      before ++ after ∧
        (Run.final (System.next siphash)
          ((Run.final (System.next siphash) (System.fresh zeroedRegion)
            [(false, .start (.set [1] [7] 0) 0), (false, .access 0), (false, .access 0)]).next
              siphash (true, .start (.get [1]) 0)) before).Answered true [1] := by
  have hcount := operations_wait_free siphash (Run.final (System.next siphash)
    (System.fresh zeroedRegion) [(false, .start (.set [1] [7] 0) 0), (false, .access 0),
      (false, .access 0)]) true rfl (.get [1]) (by decide) 0
    (List.replicate operationBound (true, .access 0))
  refine hcount.resolve_left ?_
  have hown : accessOf true ((true, .access 0) : Bool × Event) = true := rfl
  rw [List.countP_replicate, if_pos hown]
  exact Nat.lt_irrefl _

end Progress

end MemLane
