import MemLane.ValueProvenance

/-!
# Histories of concurrent runs

What the clients of a run see of it: the calls they make and what these return, in the
order of the run.  A request that the client's length checks refuse never reaches the
table and is not recorded.
-/

namespace MemLane

deriving instance DecidableEq for Request

/-- What a client does to be seen by others: call an operation, or return from it. -/
inductive Recorded (ι : Type*)
  | call (c : ι) (request : Request)
  | ret (c : ι) (key : Bytes) (result : OpResult)
  deriving DecidableEq

section History

variable {ι : Type*}

/-- The return of a client that has just come here. -/
def Pc.ret? (c : ι) : Pc → Option (Recorded ι)
  | .done key result => some (.ret c key result)
  | _ => none

theorem Pc.eq_done_of_ret? {pc : Pc} {c d : ι} {key : Bytes} {result : OpResult}
    (h : pc.ret? c = some (.ret d key result)) : pc = .done key result := by
  cases pc with
  | done key' result' =>
      cases h
      rfl
  | _ => cases h

variable [DecidableEq ι] (hashFn : Bytes → UInt64)

/-- What a step adds to the history. -/
def System.record (s : System ι) (input : ι × Event) : Option (Recorded ι) :=
  match input.2 with
  | .start request _ =>
      if (s.pc input.1).resting ∧ request.Admitted then some (.call input.1 request) else none
  | .access _ =>
      if (s.pc input.1).resting then none else ((s.next hashFn input).pc input.1).ret? input.1

/-- The calls and returns of a run, in order. -/
def System.history (s : System ι) (inputs : List (ι × Event)) : List (Recorded ι) :=
  (Run.trace (fun s input => (s.record hashFn input, s.next hashFn input)) s inputs).filterMap
    Prod.snd

/-- Everything a start can do: a resting client begins its operation, which is recorded,
or its request is refused; a busy client goes on as it was. -/
theorem System.start_cases (s : System ι) (c : ι) (request : Request) (now : UInt64) :
    ((s.pc c).resting = true ∧ request.Admitted ∧
      s.next hashFn (c, .start request now) =
        { s with pc := Function.update s.pc c (request.start now) } ∧
      s.record hashFn (c, .start request now) = some (.call c request)) ∨
    ((s.pc c).resting = true ∧
      s.next hashFn (c, .start request now) = { s with pc := Function.update s.pc c .idle } ∧
      s.record hashFn (c, .start request now) = none) ∨
    (s.next hashFn (c, .start request now) = s ∧
      s.record hashFn (c, .start request now) = none) := by
  by_cases hrest : (s.pc c).resting = true
  · have hnext := System.next_start hashFn s request now hrest
    by_cases hadmitted : request.Admitted
    · exact .inl ⟨hrest, hadmitted, hnext, if_pos ⟨hrest, hadmitted⟩⟩
    · have hstart : request.start now = .idle := if_neg hadmitted
      rw [hstart] at hnext
      exact .inr (.inl ⟨hrest, hnext, if_neg fun hboth => hadmitted hboth.2⟩)
  · exact .inr (.inr ⟨System.next_start_busy hashFn s request now hrest,
      if_neg fun hboth => hrest hboth.1⟩)

variable {hashFn} {s : System ι} {c : ι}

theorem System.history_append (before after : List (ι × Event)) :
    s.history hashFn (before ++ after) =
      s.history hashFn before ++
        (Run.final (System.next hashFn) s before).history hashFn after := by
  rw [System.history, Run.trace_append, List.filterMap_append]
  rfl

theorem System.history_singleton (input : ι × Event) :
    s.history hashFn [input] = (s.record hashFn input).toList := by
  rw [System.history, Run.trace, Run.trace]
  cases s.record hashFn input with
  | none => rfl
  | some entry => rfl

/-- The history grows by what the last step records. -/
theorem System.history_concat (inputs : List (ι × Event)) (input : ι × Event) :
    s.history hashFn (inputs ++ [input]) =
      s.history hashFn inputs ++
        ((Run.final (System.next hashFn) s inputs).record hashFn input).toList := by
  rw [System.history_append, System.history_singleton]

/-- An access of a busy client records the return of its operation. -/
theorem System.record_access {now : UInt64} (hbusy : ¬ (s.pc c).resting = true) :
    s.record hashFn (c, .access now) = ((s.pc c).access hashFn s.arena now).2.ret? c := by
  rw [← System.next_access_self]
  exact if_neg hbusy

/-- The accesses of a client that executes nothing do nothing. -/
theorem System.next_access_resting {now : UInt64} (hrest : (s.pc c).resting = true) :
    s.next hashFn (c, .access now) = s ∧ s.record hashFn (c, .access now) = none := by
  refine ⟨?_, if_pos hrest⟩
  have hstay : (s.pc c).access hashFn s.arena now = (s.arena, s.pc c) := by
    cases hpc : s.pc c with
    | idle => rfl
    | done key result => rfl
    | _ =>
        rw [hpc] at hrest
        cases hrest
  rw [System.next_access, hstay, Function.update_eq_self]

end History

end MemLane
