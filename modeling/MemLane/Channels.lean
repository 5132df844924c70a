import Mathlib.Data.List.Basic
import Mathlib.Data.List.Infix
import Mathlib.Data.List.TakeDrop

/-!
# Channels between tasks

Two kinds of channel, each given by what it promises.  A bounded queue takes a value
while it has room, refuses it otherwise, and hands its values on in order.  A ring keeps
the last values that were sent; its readers move through them at their own pace, and a
reader that has fallen too far behind is told how many values it has lost.

What the two ends of a channel have seen over a whole history is then determined but for
the losses (`Flow`, `Heard`), whatever the tasks at its ends do in between.
-/

namespace Channels

/-- A queue that holds at most `capacity` values. -/
structure BoundedQueue (α : Type) (capacity : Nat) where
  State : Type
  empty : State
  trySend : State → α → Bool × State
  recv : State → Option α × State
  contents : State → List α
  contents_empty : contents empty = []
  trySend_room : ∀ s a, (contents s).length < capacity →
    (trySend s a).1 = true ∧ contents (trySend s a).2 = contents s ++ [a]
  trySend_full : ∀ s a, capacity ≤ (contents s).length →
    (trySend s a).1 = false ∧ contents (trySend s a).2 = contents s
  recv_head : ∀ s, (recv s).1 = (contents s).head?
  recv_tail : ∀ s, contents (recv s).2 = (contents s).tail

/-- What a reader of a ring gets: a value, the number of values it has missed, or nothing
yet. -/
inductive Received (α : Type)
  | value (a : α)
  | lagged (missed : Nat)
  | waiting

/-- The values that a reader gets, and how many it is told it has missed. -/
def Received.values : Received α → List α
  | .value a => [a]
  | .lagged _ | .waiting => []

def Received.missed : Received α → Nat
  | .lagged n => n
  | .value _ | .waiting => 0

/-- A ring that keeps the last `capacity` values of its log. -/
structure Ring (α : Type) (capacity : Nat) where
  State : Type
  Reader : Type
  empty : State
  send : State → α → State
  subscribe : State → Reader
  recv : State → Reader → Received α × Reader
  log : State → List α
  position : Reader → Nat
  log_empty : log empty = []
  log_send : ∀ s a, log (send s a) = log s ++ [a]
  position_subscribe : ∀ s, position (subscribe s) = (log s).length
  recv_waiting : ∀ s r, position r = (log s).length → recv s r = (.waiting, r)
  recv_lagged : ∀ s r, position r + capacity < (log s).length →
    (recv s r).1 = .lagged ((log s).length - capacity - position r) ∧
      position (recv s r).2 = (log s).length - capacity
  recv_value : ∀ s r, (log s).length ≤ position r + capacity → ∀ a,
    (log s)[position r]? = some a →
      (recv s r).1 = .value a ∧ position (recv s r).2 = position r + 1

/-! ## Bounded queues -/

section Queue

variable {α : Type} {capacity : Nat} (queue : BoundedQueue α capacity) {s : queue.State}
  {offered refused received : List α}

/-- Of the values offered, some have been refused; the others have been received, or are in
the queue, in the order in which they were offered. -/
structure BoundedQueue.Flow (s : queue.State) (offered refused received : List α) : Prop where
  bounded : (queue.contents s).length ≤ capacity
  order : (received ++ queue.contents s).Sublist offered
  account : offered.Perm (refused ++ (received ++ queue.contents s))

namespace BoundedQueue.Flow

variable {queue}

theorem empty : queue.Flow queue.empty [] [] [] := by
  refine ⟨?_, ?_, ?_⟩
  all_goals rw [queue.contents_empty]
  · exact Nat.zero_le _
  · exact .slnil
  · exact .nil

/-- A value that is offered goes into the queue, or is refused because the queue is full. -/
theorem trySend (h : queue.Flow s offered refused received) (a : α) :
    queue.Flow (queue.trySend s a).2 (offered ++ [a])
      (if (queue.trySend s a).1 then refused else refused ++ [a]) received := by
  by_cases hroom : (queue.contents s).length < capacity
  · obtain ⟨hsent, hcontents⟩ := queue.trySend_room s a hroom
    rw [if_pos hsent]
    refine ⟨?_, ?_, ?_⟩
    all_goals rw [hcontents]
    · rw [List.length_append]
      exact hroom
    · rw [← List.append_assoc]
      exact h.order.append (.refl _)
    · rw [← List.append_assoc, ← List.append_assoc, List.append_assoc refused]
      exact h.account.append_right [a]
  · obtain ⟨hsent, hcontents⟩ := queue.trySend_full s a (Nat.le_of_not_lt hroom)
    rw [hsent, if_neg Bool.false_ne_true]
    refine ⟨?_, ?_, ?_⟩
    all_goals rw [hcontents]
    · exact h.bounded
    · exact h.order.trans (List.sublist_append_left _ _)
    · rw [List.append_assoc refused]
      refine (h.account.append_right [a]).trans ?_
      rw [List.append_assoc refused]
      exact (List.perm_append_comm).append_left refused

/-- A value that is received has been at the head of the queue. -/
theorem recv (h : queue.Flow s offered refused received) :
    queue.Flow (queue.recv s).2 offered refused (received ++ (queue.recv s).1.toList) := by
  have hsplit : (queue.recv s).1.toList ++ queue.contents (queue.recv s).2 =
      queue.contents s := by
    rw [queue.recv_head, queue.recv_tail]
    cases queue.contents s <;> rfl
  refine ⟨?_, ?_, ?_⟩
  · rw [queue.recv_tail, List.length_tail]
    exact (Nat.sub_le _ _).trans h.bounded
  · rw [List.append_assoc, hsplit]
    exact h.order
  · rw [List.append_assoc, hsplit]
    exact h.account

end BoundedQueue.Flow

end Queue

/-! ## Rings -/

section Ring

variable {α : Type} {log heard : List α} {first position lost : Nat}

/-- A reader that started at `first` and stands at `position` has heard some of the values in
between, in order, and has missed the others. -/
structure Heard (log : List α) (first position : Nat) (heard : List α) (lost : Nat) : Prop where
  inside : position ≤ log.length
  order : heard.Sublist ((log.take position).drop first)
  account : first + (heard.length + lost) = position

namespace Heard

theorem new (log : List α) : Heard log log.length log.length [] 0 where
  inside := Nat.le_refl _
  order := List.nil_sublist _
  account := rfl

/-- What is sent later does not change what has been heard. -/
theorem append (h : Heard log first position heard lost) (more : List α) :
    Heard (log ++ more) first position heard lost where
  inside := h.inside.trans (by simp)
  order := by
    rw [List.take_append_of_le_length h.inside]
    exact h.order
  account := h.account

theorem value (h : Heard log first position heard lost) {a : α} (ha : log[position]? = some a) :
    Heard log first (position + 1) (heard ++ [a]) lost where
  inside := (List.getElem?_eq_some_iff.mp ha).1
  order := by
    have hlength : (log.take position).length = position := List.length_take_of_le h.inside
    have haccount := h.account
    rw [List.take_add_one, ha, Option.toList_some, List.drop_append_of_le_length (by omega)]
    exact h.order.append (.refl _)
  account := by
    have haccount := h.account
    rw [List.length_append, List.length_singleton]
    omega

theorem lagged (h : Heard log first position heard lost) {n : Nat}
    (hinside : position + n ≤ log.length) :
    Heard log first (position + n) heard (lost + n) where
  inside := hinside
  order := by
    refine h.order.trans ?_
    exact ((List.take_prefix_take_left (Nat.le_add_right _ _)).drop first).sublist
  account := by
    rw [← Nat.add_assoc heard.length, ← Nat.add_assoc first, h.account]

end Heard

variable {capacity : Nat} {ring : Ring α capacity} {s : ring.State} {r : ring.Reader}

/-- Whatever a reader receives next, its account is kept, and it is behind by at most the
capacity afterwards. -/
theorem Ring.heard_recv (h : Heard (ring.log s) first (ring.position r) heard lost) :
    Heard (ring.log s) first (ring.position (ring.recv s r).2)
      (heard ++ (ring.recv s r).1.values) (lost + (ring.recv s r).1.missed) ∧
    (ring.log s).length ≤ ring.position (ring.recv s r).2 + capacity := by
  by_cases hlag : ring.position r + capacity < (ring.log s).length
  · obtain ⟨hreceived, hposition⟩ := ring.recv_lagged s r hlag
    have hmove : ring.position r + ((ring.log s).length - capacity - ring.position r) =
        (ring.log s).length - capacity := by omega
    have hnext := h.lagged (hmove.le.trans (Nat.sub_le _ _))
    rw [hmove] at hnext
    rw [hreceived, hposition, Received.values, Received.missed, List.append_nil]
    exact ⟨hnext, by omega⟩
  · rcases Nat.eq_or_lt_of_le h.inside with hend | hmore
    · rw [ring.recv_waiting s r hend, Received.values, Received.missed, List.append_nil]
      exact ⟨h, hend ▸ Nat.le_add_right _ _⟩
    · have ha := List.getElem?_eq_getElem hmore
      obtain ⟨hreceived, hposition⟩ := ring.recv_value s r (Nat.le_of_not_lt hlag) _ ha
      rw [hreceived, hposition, Received.values, Received.missed, Nat.add_zero]
      exact ⟨h.value ha, by omega⟩

end Ring

/-! ## Channels made of lists -/

/-- A bounded queue that is the list of its contents. -/
def listQueue (α : Type) (capacity : Nat) : BoundedQueue α capacity where
  State := List α
  empty := []
  trySend s a := if s.length < capacity then (true, s ++ [a]) else (false, s)
  recv s := (s.head?, s.tail)
  contents s := s
  contents_empty := rfl
  trySend_room s a h := by
    rw [if_pos h]
    exact ⟨rfl, rfl⟩
  trySend_full s a h := by
    rw [if_neg (Nat.not_lt.mpr h)]
    exact ⟨rfl, rfl⟩
  recv_head _ := rfl
  recv_tail _ := rfl

/-- A ring that is the list of its log; a reader is its position. -/
def listRing (α : Type) (capacity : Nat) : Ring α capacity where
  State := List α
  Reader := Nat
  empty := []
  send s a := s ++ [a]
  subscribe s := s.length
  recv s r :=
    if r + capacity < s.length then (.lagged (s.length - capacity - r), s.length - capacity)
    else
      match s[r]? with
      | some a => (.value a, r + 1)
      | none => (.waiting, r)
  log s := s
  position r := r
  log_empty := rfl
  log_send _ _ := rfl
  position_subscribe _ := rfl
  recv_waiting s r h := by
    rw [if_neg (by omega), List.getElem?_eq_none (Nat.le_of_eq h.symm)]
  recv_lagged s r h := by
    rw [if_pos h]
    exact ⟨rfl, rfl⟩
  recv_value s r h a ha := by
    rw [if_neg (Nat.not_lt.mpr h), ha]
    exact ⟨rfl, rfl⟩

end Channels
