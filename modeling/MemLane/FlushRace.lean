import MemLane.Atomicity
import MemLane.Startup

/-!
# Flushing a table in use

`flush_all` asks for exclusive access, but the server runs it for `FLUSHALL` while its other
connections go on.  Its stores are those that `create_arena` makes to the slots, and one to
the counter at the end; the clients move between any two of them.

Whatever they do, no entry of the table outlives the flush: a slot is EMPTY afterwards, unless
a `set` has published it after the flush emptied it.  A `set` that writes
to a slot while the flush is at it may lose what it writes.  Clients that write nothing
cannot be noticed: the slots are then as `flushAll` leaves them.
-/

namespace MemLane

/-! ## The stores of `flush_all` -/

/-- In program order. -/
def flushStores : List CreateStore := (List.finRange slotCount).flatMap slotStores ++ [.usedCount]

/-- All stores together are `flush_all`. -/
theorem final_flushStores (arena : Arena) :
    Run.final CreateStore.write arena flushStores = flushAll arena := by
  rw [flushStores, Run.final_append, final_flatMap_slotStores]
  simp only [List.mem_finRange, if_true]
  rfl

theorem slot_mem_flushStores (i : Fin slotCount) (field : SlotField) :
    CreateStore.slot i field ∈ flushStores := by
  have hfield : field ∈ initFields := by cases field <;> decide
  have hslot : CreateStore.slot i field ∈ slotStores i := List.mem_map_of_mem hfield
  exact List.mem_append_left _ (List.mem_flatMap.mpr ⟨i, List.mem_finRange i, hslot⟩)

theorem usedCount_mem_flushStores : CreateStore.usedCount ∈ flushStores :=
  List.mem_append_right _ List.mem_cons_self

theorem mem_flushStores {store : CreateStore} (h : store ∈ flushStores) :
    store = .usedCount ∨ ∃ i field, store = .slot i field := by
  rcases List.mem_append.mp h with h | h
  · obtain ⟨i, _, hi⟩ := List.mem_flatMap.mp h
    obtain ⟨field, _, rfl⟩ := List.mem_map.mp hi
    exact .inr ⟨i, field, rfl⟩
  · exact .inl (List.mem_singleton.mp h)

/-- The first slot comes first. -/
theorem flushStores_eq : ∃ rest, flushStores = slotStores 0 ++ rest := by
  have hfirst (n : Nat) (stores : Fin (n + 1) → List CreateStore) :
      ∃ rest, (List.finRange (n + 1)).flatMap stores = stores 0 ++ rest := by
    rw [List.finRange_succ]
    exact ⟨_, List.flatMap_cons⟩
  obtain ⟨rest, hrest⟩ := hfirst 65535 slotStores
  refine ⟨rest ++ [.usedCount], ?_⟩
  rw [flushStores, ← List.append_assoc]
  exact congrArg (· ++ [CreateStore.usedCount]) hrest

/-- A store resets a field of the slot, or leaves the slot alone. -/
theorem write_slot (store : CreateStore) (arena : Arena) (i : Fin slotCount) :
    (store.write arena).slots i = arena.slots i ∨
      ∃ field : SlotField, (store.write arena).slots i = field.reset (arena.slots i) := by
  cases store with
  | magic | version | slotCount | usedCount => exact .inl rfl
  | slot j field =>
      rw [CreateStore.write, Arena.setSlot_slots]
      split
      · next hi =>
          subst hi
          exact .inr ⟨field, rfl⟩
      · exact .inl rfl

theorem write_slot_self (arena : Arena) (i : Fin slotCount) (field : SlotField) :
    ((CreateStore.slot i field).write arena).slots i = field.reset (arena.slots i) := by
  rw [CreateStore.write, Arena.setSlot_slots, if_pos rfl]

/-! ## Clients and flushes -/

/-- The clients of an arena, and how many stores each flush has made. -/
structure Flushing (ι φ : Type*) where
  system : System ι
  made : φ → Nat

/-- A client moves, or a flush makes its next store. -/
inductive FlushingEvent (ι φ : Type*)
  | client (input : ι × Event)
  | store (f : φ)

namespace Flushing

variable {ι φ : Type*} [DecidableEq ι] [DecidableEq φ] (hashFn : Bytes → UInt64)

/-- The stores that a flush has still to make. -/
def left (s : Flushing ι φ) (f : φ) : List CreateStore := flushStores.drop (s.made f)

def next (s : Flushing ι φ) : FlushingEvent ι φ → Flushing ι φ
  | .client input => { s with system := s.system.next hashFn input }
  | .store f =>
      match s.left f with
      | [] => s
      | store :: _ =>
          { system := { s.system with arena := store.write s.system.arena }
            made := Function.update s.made f (s.made f + 1) }

variable {hashFn} {s : Flushing ι φ} {f : φ} {store : CreateStore} {rest : List CreateStore}

theorem next_store (h : s.left f = store :: rest) :
    s.next hashFn (.store f) =
      { system := { s.system with arena := store.write s.system.arena }
        made := Function.update s.made f (s.made f + 1) } := by
  rw [next, h]

theorem next_store_done (h : s.left f = []) : s.next hashFn (.store f) = s := by
  rw [next, h]

theorem left_next_self (h : s.left f = store :: rest) :
    (s.next hashFn (.store f)).left f = rest := by
  have hrest : flushStores.drop (s.made f + 1) = rest := by
    rw [← List.tail_drop]
    exact congrArg List.tail h
  rw [next_store h]
  simpa only [left, Function.update_self] using hrest

theorem left_next_other {g : φ} (h : f ≠ g) : (s.next hashFn (.store g)).left f = s.left f := by
  cases hleft : s.left g with
  | nil => rw [next_store_done hleft]
  | cons store rest =>
      rw [next_store hleft]
      simp only [left, Function.update_of_ne h]

/-- A store that is still to be made remains so until it is made. -/
theorem left_next (hashFn : Bytes → UInt64) (h : store ∈ s.left f) (event : FlushingEvent ι φ) :
    store ∈ (s.next hashFn event).left f ∨
      (s.next hashFn event).system.arena = store.write s.system.arena := by
  cases event with
  | client input => exact .inl h
  | store g =>
      by_cases hg : f = g
      · subst hg
        cases hleft : s.left f with
        | nil =>
            rw [hleft] at h
            cases h
        | cons first rest =>
            rw [hleft] at h
            rcases List.mem_cons.mp h with rfl | h
            · refine .inr ?_
              rw [next_store hleft]
            · refine .inl ?_
              rw [left_next_self hleft]
              exact h
      · refine .inl ?_
        rw [left_next_other hg]
        exact h

/-- What a step makes of a slot. -/
theorem next_slot (hashFn : Bytes → UInt64) (s : Flushing ι φ) (event : FlushingEvent ι φ)
    (i : Fin slotCount) :
    let slot := s.system.arena.slots i
    let slot' := (s.next hashFn event).system.arena.slots i
    slot' = slot ∨ (∃ field : SlotField, slot' = field.reset slot) ∨
      ∃ c now, event = .client (c, .access now) ∧ SlotMove hashFn (s.system.pc c) i slot slot' := by
  intro slot slot'
  cases event with
  | client input =>
      obtain ⟨c, event⟩ := input
      cases event with
      | start request now =>
          refine .inl ?_
          have harena := System.next_start_arena hashFn s.system request now (c := c)
          exact congrArg (fun arena : Arena => arena.slots i) harena
      | access now =>
          exact .inr (.inr ⟨c, now, rfl, Pc.access_slot hashFn s.system.arena now _ i⟩)
  | store g =>
      cases hleft : s.left g with
      | nil =>
          refine .inl ?_
          simp only [slot', slot, next_store_done hleft]
      | cons store rest =>
          have hslot : slot' = (store.write s.system.arena).slots i := by
            simp only [slot', next_store hleft]
          rw [hslot]
          rcases write_slot store s.system.arena i with heq | hreset
          · exact .inl heq
          · exact .inr (.inl hreset)

/-! ## What is left of the table -/

variable {i : Fin slotCount} {event : FlushingEvent ι φ}

/-- A client publishes a slot that the flush has emptied. -/
def Publishes (f : φ) (i : Fin slotCount) (s : Flushing ι φ) : FlushingEvent ι φ → Prop
  | .client (c, .access _) => .slot i .state ∉ s.left f ∧
      ∃ key value expiry counted, s.system.pc c = .claim key value expiry i counted .state
  | _ => False

/-- A client has published the slot since the flush emptied it. -/
def Republished (hashFn : Bytes → UInt64) (s : Flushing ι φ) (f : φ)
    (events : List (FlushingEvent ι φ)) (i : Fin slotCount) : Prop :=
  ∃ before event rest, events = before ++ event :: rest ∧
    (Run.final (next hashFn) s before).Publishes f i event

/-- The flush has yet to empty the slot, or the slot is EMPTY. -/
def Emptied (f : φ) (i : Fin slotCount) (s : Flushing ι φ) : Prop :=
  .slot i .state ∈ s.left f ∨ (s.system.arena.slots i).state = stateEmpty

/-- Only a publication fills an EMPTY slot. -/
theorem Emptied.next (h : s.Emptied f i) (hquiet : ¬ s.Publishes f i event) :
    (s.next hashFn event).Emptied f i := by
  by_cases hdue : .slot i .state ∈ s.left f
  · rcases left_next hashFn hdue event with hdue | hmade
    · exact .inl hdue
    · refine .inr ?_
      rw [hmade, write_slot_self]
      rfl
  · have hempty := h.resolve_left hdue
    refine .inr ?_
    rcases next_slot hashFn s event i with
      heq | ⟨field, heq⟩ | ⟨c, now, rfl, hmove⟩
    · rw [heq]
      exact hempty
    · rw [heq]
      cases field with
      | state => rfl
      | fingerprint | expiresAtMs | keyLen | valLen => exact hempty
    · generalize (s.next hashFn (.client (c, .access now))).system.arena.slots i = slot at hmove
      cases hmove with
      | same => exact hempty
      | buried hocc => exact absurd (hempty.symm.trans hocc) stateOccupied_ne_stateEmpty.symm
      | @update _ _ _ point hpc => cases point <;> exact hempty
      | @claim _ _ _ _ point hpc =>
          cases point with
          | state => exact (hquiet ⟨hdue, _, _, _, _, hpc⟩).elim
          | keyBuf | keyLen | valBuf | valLen | fingerprint | expiry => exact hempty

/-- A slot is EMPTY after the flush, or has been published since the flush emptied it. -/
theorem empty_or_published (hashFn : Bytes → UInt64) (i : Fin slotCount) (hstart : s.made f = 0)
    {events : List (FlushingEvent ι φ)}
    (hend : (Run.final (next hashFn) s events).left f = []) :
    ((Run.final (next hashFn) s events).system.arena.slots i).state = stateEmpty ∨
      s.Republished hashFn f events i := by
  by_contra hnone
  obtain ⟨hstate, hnone⟩ := not_or.mp hnone
  have hquiet : Run.Along (next hashFn) (fun s event => ¬ s.Publishes f i event) s events :=
    Run.along_iff.mpr fun before event rest heq hpub =>
      hnone ⟨before, event, rest, heq, hpub⟩
  have hdue : s.Emptied f i := by
    refine .inl ?_
    rw [left, hstart]
    exact slot_mem_flushStores i .state
  have hemptied := Run.invariant (Emptied f i) (fun _ _ h hP => h.next hP) hdue hquiet
  rw [Emptied, hend] at hemptied
  exact hstate (hemptied.resolve_left List.not_mem_nil)

/-! ## The counter -/

/-- What a step adds to the counter, if it does not store it. -/
def counts (s : Flushing ι φ) : FlushingEvent ι φ → UInt64
  | .client (c, .access _) => (s.system.pc c).counts
  | .client (_, .start _ _) | .store _ => 0

/-- What the clients add to the counter in a run. -/
def counted (hashFn : Bytes → UInt64) (s : Flushing ι φ) : List (FlushingEvent ι φ) → UInt64
  | [] => 0
  | event :: events => s.counts event + (s.next hashFn event).counted hashFn events

theorem counted_append (s : Flushing ι φ) (events later : List (FlushingEvent ι φ)) :
    s.counted hashFn (events ++ later) =
      s.counted hashFn events + (Run.final (next hashFn) s events).counted hashFn later := by
  induction events generalizing s with
  | nil => exact (UInt64.zero_add _).symm
  | cons event events ih =>
      rw [List.cons_append, counted, counted, ih, Run.final_cons, UInt64.add_assoc]

/-- A step adds to the counter, or clears it, and leaves the rest of the header alone. -/
theorem next_header (hashFn : Bytes → UInt64) (s : Flushing ι φ) (event : FlushingEvent ι φ) :
    ∃ n, (s.next hashFn event).system.arena.header =
        { s.system.arena.header with usedCount := n } ∧
      (n = s.system.arena.header.usedCount + s.counts event ∨ n = 0) := by
  have hadded : s.system.arena.header.usedCount =
      s.system.arena.header.usedCount + 0 := (UInt64.add_zero _).symm
  cases event with
  | client input =>
      obtain ⟨c, event⟩ := input
      cases event with
      | start request now =>
          have harena := System.next_start_arena hashFn s.system request now (c := c)
          exact ⟨_, congrArg Arena.header harena, .inl hadded⟩
      | access now => exact ⟨_, Pc.access_header hashFn s.system.arena now _, .inl rfl⟩
  | store g =>
      cases hleft : s.left g with
      | nil =>
          rw [next_store_done hleft]
          exact ⟨_, rfl, .inl hadded⟩
      | cons store rest =>
          have hmem : store ∈ s.left g := by
            rw [hleft]
            exact List.mem_cons_self
          rw [next_store hleft]
          rcases mem_flushStores (List.mem_of_mem_drop hmem) with rfl | ⟨i, field, rfl⟩
          · exact ⟨0, rfl, .inr rfl⟩
          · exact ⟨_, rfl, .inl hadded⟩

/-- The clients have added `n` to the counter since a moment after the flush cleared it, at
which it was 0. -/
def CountedSince (hashFn : Bytes → UInt64) (s : Flushing ι φ) (f : φ)
    (events : List (FlushingEvent ι φ)) (n : UInt64) : Prop :=
  ∃ before rest, events = before ++ rest ∧
    .usedCount ∉ (Run.final (next hashFn) s before).left f ∧
    n = (Run.final (next hashFn) s before).counted hashFn rest

/-- The counter has just been cleared. -/
theorem CountedSince.zero {events : List (FlushingEvent ι φ)}
    (h : .usedCount ∉ (Run.final (next hashFn) s events).left f) :
    s.CountedSince hashFn f events 0 :=
  ⟨events, [], (List.append_nil events).symm, h, rfl⟩

theorem CountedSince.add {events : List (FlushingEvent ι φ)} {n : UInt64}
    (h : s.CountedSince hashFn f events n) (event : FlushingEvent ι φ) :
    s.CountedSince hashFn f (events ++ [event])
      (n + (Run.final (next hashFn) s events).counts event) := by
  obtain ⟨before, rest, rfl, hleft, rfl⟩ := h
  refine ⟨before, rest ++ [event], List.append_assoc .., hleft, ?_⟩
  rw [counted_append, ← Run.final_append, counted, counted, UInt64.add_zero]

/-- In every run the flush has yet to clear the counter, or the counter has what has been added
to it since. -/
theorem due_or_counted (hashFn : Bytes → UInt64) (hstart : s.made f = 0)
    (events : List (FlushingEvent ι φ)) :
    .usedCount ∈ (Run.final (next hashFn) s events).left f ∨
      s.CountedSince hashFn f events
        (Run.final (next hashFn) s events).system.arena.header.usedCount := by
  induction events using List.reverseRecOn with
  | nil =>
      refine .inl ?_
      rw [Run.final_nil, left, hstart]
      exact usedCount_mem_flushStores
  | append_singleton events event ih =>
      by_cases hdue : .usedCount ∈ (Run.final (next hashFn) s (events ++ [event])).left f
      · exact .inl hdue
      · have hzero := CountedSince.zero hdue
        refine .inr ?_
        rw [Run.final_append, Run.final_cons, Run.final_nil] at hdue ⊢
        rcases ih with hbefore | hcounted
        · rcases left_next hashFn hbefore event with hafter | hmade
          · exact (hdue hafter).elim
          · rw [hmade]
            exact hzero
        · obtain ⟨n, hheader, hadded | hcleared⟩ :=
            next_header hashFn (Run.final (next hashFn) s events) event
          · rw [hheader, hadded]
            exact hcounted.add event
          · rw [hheader, hcleared]
            exact hzero

/-- After the flush the counter has what the clients have added since. -/
theorem counted_since (hashFn : Bytes → UInt64) (hstart : s.made f = 0)
    {events : List (FlushingEvent ι φ)}
    (hend : (Run.final (next hashFn) s events).left f = []) :
    s.CountedSince hashFn f events
      (Run.final (next hashFn) s events).system.arena.header.usedCount := by
  refine (due_or_counted hashFn hstart events).resolve_left ?_
  rw [hend]
  exact List.not_mem_nil

/-! ## Beside clients that write nothing -/

/-- No client writes to an entry. -/
def Unwritten (s : Flushing ι φ) : FlushingEvent ι φ → Prop
  | .client (c, .access _) =>
      match s.system.pc c with
      | .update .. | .claim .. => False
      | _ => True
  | .client (_, .start _ _) | .store _ => True

instance (s : Flushing ι φ) : (event : FlushingEvent ι φ) → Decidable (s.Unwritten event)
  | .client (c, .access _) =>
      match h : s.system.pc c with
      | .update .. | .claim .. => .isFalse (by simp [Unwritten, h])
      | .idle | .probe .. | .valLen .. | .valBuf .. | .countInsert _ | .delCas .. | .countDelete _
      | .done .. => .isTrue (by simp [Unwritten, h])
  | .client (_, .start _ _) | .store _ => .isTrue trivial

theorem reset_comm (field field' : SlotField) (slot : Slot) :
    field.reset (field'.reset slot) = field'.reset (field.reset slot) := by
  cases field <;> cases field' <;> rfl

theorem reset_reset (field : SlotField) (slot : Slot) :
    field.reset (field.reset slot) = field.reset slot := by
  cases field <;> rfl

/-- A slot with all fields reset. -/
theorem eq_flushSlot {slot slot' : Slot} (hreset : ∀ field : SlotField, field.reset slot' = slot')
    (hkey : slot'.keyBuf = slot.keyBuf) (hval : slot'.valBuf = slot.valBuf) :
    slot' = flushSlot slot := by
  have hstate := congrArg Slot.state (hreset .state)
  have hfp := congrArg Slot.fingerprint (hreset .fingerprint)
  have hexp := congrArg Slot.expiresAtMs (hreset .expiresAtMs)
  have hkeyLen := congrArg Slot.keyLen (hreset .keyLen)
  have hvalLen := congrArg Slot.valLen (hreset .valLen)
  obtain ⟨state, fp, exp, keyLen, valLen, keyBuf, valBuf⟩ := slot'
  simp only [SlotField.reset] at hstate hfp hexp hkeyLen hvalLen
  simp only at hkey hval
  subst hstate hfp hexp hkeyLen hvalLen hkey hval
  rfl

/-- The slot is on its way from `slot` to what `flush_all` leaves. -/
structure Resetting (f : φ) (i : Fin slotCount) (slot : Slot) (s : Flushing ι φ) : Prop where
  keyBuf : (s.system.arena.slots i).keyBuf = slot.keyBuf
  valBuf : (s.system.arena.slots i).valBuf = slot.valBuf
  reset : ∀ field : SlotField, .slot i field ∈ s.left f ∨
    field.reset (s.system.arena.slots i) = s.system.arena.slots i

/-- Clients that write nothing keep the buffers of a slot and the fields that are reset. -/
theorem next_slot_unwritten (hashFn : Bytes → UInt64) (hquiet : s.Unwritten event)
    (i : Fin slotCount) :
    let slot := s.system.arena.slots i
    let slot' := (s.next hashFn event).system.arena.slots i
    slot'.keyBuf = slot.keyBuf ∧ slot'.valBuf = slot.valBuf ∧
      ∀ field : SlotField, field.reset slot = slot → field.reset slot' = slot' := by
  intro slot slot'
  rcases next_slot hashFn s event i with heq | ⟨field', heq⟩ | ⟨c, now, rfl, hmove⟩
  · simp only [slot', heq]
    exact ⟨rfl, rfl, fun _ hreset => hreset⟩
  · simp only [slot', heq]
    refine ⟨by cases field' <;> rfl, by cases field' <;> rfl, fun field hreset => ?_⟩
    rw [reset_comm, hreset]
  · simp only [slot']
    generalize (s.next hashFn (.client (c, .access now))).system.arena.slots i = after at hmove
    cases hmove with
    | same => exact ⟨rfl, rfl, fun _ hreset => hreset⟩
    | buried hocc =>
        refine ⟨rfl, rfl, fun field hreset => ?_⟩
        cases field with
        | state =>
            have hempty : stateEmpty = slot.state := congrArg Slot.state hreset
            exact absurd (hempty.trans hocc) stateOccupied_ne_stateEmpty.symm
        | fingerprint | expiresAtMs | keyLen | valLen =>
            exact congrArg (fun slot : Slot => { slot with state := stateTombstone }) hreset
    | update hpc => simp only [Unwritten, hpc] at hquiet
    | claim hpc => simp only [Unwritten, hpc] at hquiet

theorem Resetting.next {slot : Slot} (h : s.Resetting f i slot) (hquiet : s.Unwritten event) :
    (s.next hashFn event).Resetting f i slot := by
  obtain ⟨hkey, hval, hkept⟩ := next_slot_unwritten hashFn hquiet i
  refine ⟨hkey.trans h.keyBuf, hval.trans h.valBuf, fun field => ?_⟩
  rcases h.reset field with hdue | hreset
  · rcases left_next hashFn hdue event with hdue | hmade
    · exact .inl hdue
    · refine .inr ?_
      rw [hmade, write_slot_self, reset_reset]
  · exact .inr (hkept field hreset)

/-- Beside clients that write nothing, the flush leaves the slots that it leaves when it is
alone. -/
theorem slots_of_unwritten (hstart : s.made f = 0) {events : List (FlushingEvent ι φ)}
    (hend : (Run.final (Flushing.next hashFn) s events).left f = [])
    (hquiet : Run.Along (Flushing.next hashFn) Unwritten s events) :
    (Run.final (Flushing.next hashFn) s events).system.arena.slots =
      (flushAll s.system.arena).slots := by
  funext i
  have hresetting : s.Resetting f i (s.system.arena.slots i) := by
    refine ⟨rfl, rfl, fun field => .inl ?_⟩
    rw [left, hstart]
    exact slot_mem_flushStores i field
  have hreset := Run.invariant (Resetting f i (s.system.arena.slots i))
    (fun _ _ h hP => h.next hP) hresetting hquiet
  refine eq_flushSlot (fun field => ?_) hreset.keyBuf hreset.valBuf
  refine (hreset.reset field).resolve_left ?_
  rw [hend]
  exact List.not_mem_nil

/-- The header but for the counter, and the counter once it has been cleared. -/
structure Clearing (f : φ) (arena : Arena) (s : Flushing ι φ) : Prop where
  header : ∃ n, s.system.arena.header = { arena.header with usedCount := n }
  cleared : .usedCount ∈ s.left f ∨ s.system.arena.header.usedCount = 0

theorem Clearing.next {arena : Arena} (h : s.Clearing f arena) (hcounts : s.counts event = 0) :
    (s.next hashFn event).Clearing f arena := by
  obtain ⟨k, hheader⟩ := h.header
  obtain ⟨n, hnext, hn⟩ := next_header hashFn s event
  rw [hcounts, UInt64.add_zero] at hn
  refine ⟨⟨n, by rw [hnext, hheader]⟩, ?_⟩
  rcases h.cleared with hdue | hzero
  · rcases left_next hashFn hdue event with hdue | hmade
    · exact .inl hdue
    · refine .inr ?_
      rw [hmade]
      rfl
  · refine .inr ?_
    rw [hnext]
    rcases hn with hsame | hcleared
    · exact hsame.trans hzero
    · exact hcleared

/-- If the clients do not count either, the flush leaves the arena that it leaves when it is
alone. -/
theorem arena_of_unwritten (hstart : s.made f = 0) {events : List (FlushingEvent ι φ)}
    (hend : (Run.final (Flushing.next hashFn) s events).left f = [])
    (hquiet : Run.Along (Flushing.next hashFn) Unwritten s events)
    (hcounts : Run.Along (Flushing.next hashFn) (fun s event => s.counts event = 0) s events) :
    (Run.final (Flushing.next hashFn) s events).system.arena = flushAll s.system.arena := by
  have hclearing : s.Clearing f s.system.arena := by
    refine ⟨⟨_, rfl⟩, .inl ?_⟩
    rw [left, hstart]
    exact usedCount_mem_flushStores
  have hcleared := Run.invariant (Clearing f s.system.arena) (fun _ _ h hP => h.next hP)
    hclearing hcounts
  have hzero := hcleared.cleared
  rw [hend] at hzero
  obtain ⟨n, hheader⟩ := hcleared.header
  refine Arena.ext' ?_ (congrFun (slots_of_unwritten hstart hend hquiet))
  have hn : n = 0 := by
    have hused := hzero.resolve_left List.not_mem_nil
    rw [hheader] at hused
    exact hused
  rw [hheader, hn]
  rfl

/-- A flush on its own. -/
theorem final_replicate_store (s : Flushing ι φ) (f : φ) (n : Nat) :
    Run.final (next hashFn) s (List.replicate n (.store f)) =
      { system := { s.system with
          arena := Run.final CreateStore.write s.system.arena ((s.left f).take n) }
        made := Function.update s.made f (s.made f + min n (s.left f).length) } := by
  induction n generalizing s with
  | zero => simp
  | succ n ih =>
      rw [List.replicate_succ, Run.final_cons, ih]
      cases hleft : s.left f with
      | nil =>
          rw [next_store_done hleft, hleft]
          simp
      | cons store rest =>
          rw [left_next_self hleft, next_store hleft]
          simp only [List.take_succ_cons, Run.final_cons, Function.update_self,
            Function.update_idem, List.length_cons]
          congr 2
          omega

/-- All of its stores without a break are `flush_all`. -/
theorem final_flush (hstart : s.made f = 0) :
    Run.final (next hashFn) s (List.replicate flushStores.length (.store f)) =
      { system := { s.system with arena := flushAll s.system.arena }
        made := Function.update s.made f flushStores.length } := by
  have hleft : s.left f = flushStores := by
    rw [left, hstart, List.drop_zero]
  rw [final_replicate_store, hleft, List.take_length, min_self, hstart, Nat.zero_add,
    final_flushStores]

/-- The flush makes the next of its stores. -/
def storesOf (f : φ) : FlushingEvent ι φ → Bool
  | .store g => decide (g = f)
  | .client _ => false

/-- In every run a flush makes its stores one after another. -/
theorem left_final (hashFn : Bytes → UInt64) (s : Flushing ι φ) (f : φ)
    (events : List (FlushingEvent ι φ)) :
    (Run.final (next hashFn) s events).left f = (s.left f).drop (events.countP (storesOf f)) := by
  induction events generalizing s with
  | nil => rfl
  | cons event events ih =>
      rw [Run.final_cons, ih]
      cases event with
      | client input => rw [List.countP_cons_of_neg Bool.false_ne_true, left, left, next]
      | store g =>
          by_cases hg : g = f
          · subst hg
            have hown : storesOf g (.store g : FlushingEvent ι φ) = true := decide_eq_true rfl
            rw [List.countP_cons_of_pos hown]
            cases hleft : s.left g with
            | nil => rw [next_store_done hleft, hleft, List.drop_nil, List.drop_nil]
            | cons store rest => rw [left_next_self hleft, List.drop_succ_cons]
          · rw [left_next_other (Ne.symm hg), List.countP_cons_of_neg (by simp [storesOf, hg])]

/-- A flush is over when it has made as many stores as there are. -/
theorem left_eq_nil (hashFn : Bytes → UInt64) (s : Flushing ι φ) (f : φ)
    {events : List (FlushingEvent ι φ)}
    (hcount : flushStores.length ≤ s.made f + events.countP (storesOf f)) :
    (Run.final (next hashFn) s events).left f = [] := by
  rw [left_final, left, List.drop_drop]
  exact List.drop_eq_nil_of_le hcount

theorem along_stores {P : Flushing ι φ → FlushingEvent ι φ → Prop} {f : φ}
    (hP : ∀ s, P s (.store f)) (s : Flushing ι φ) (n : Nat) :
    Run.Along (next hashFn) P s (List.replicate n (.store f)) := by
  induction n generalizing s with
  | zero => trivial
  | succ n ih => exact ⟨hP s, ih _⟩

end Flushing

section Main

variable {ι φ : Type} [DecidableEq ι] [DecidableEq φ]

/-- **No entry outlives a flush.**  Whatever any number of clients and of other flushes do between
the stores of `flush_all`: when it has made all of them, each slot is EMPTY, or a `set` has
published it after the flush emptied it; and the counter has what the clients have added to it
since it was cleared. -/
theorem flush_leaves_published (hashFn : Bytes → UInt64) (s : Flushing ι φ) (f : φ)
    (events : List (FlushingEvent ι φ)) (hstart : s.made f = 0)
    (hend : (Run.final (Flushing.next hashFn) s events).left f = []) :
    (∀ i, ((Run.final (Flushing.next hashFn) s events).system.arena.slots i).state = stateEmpty ∨
      s.Republished hashFn f events i) ∧
    s.CountedSince hashFn f events
      (Run.final (Flushing.next hashFn) s events).system.arena.header.usedCount :=
  ⟨fun i => Flushing.empty_or_published hashFn i hstart hend,
    Flushing.counted_since hashFn hstart hend⟩

/-- The arena with one entry, for a second, and nobody at work. -/
def lapsingTable : Flushing Unit Unit where
  system :=
    { arena := arenaAfter siphash zeroedRegion [⟨.set [1] [7] 1, fun _ => 1⟩]
      pc := fun _ => .idle }
  made := fun _ => 0

/-- A client makes `n` accesses for a request after the second, when the flush has been through
the first slot.  The last five events find no store left. -/
def besideFlush (stores : Nat) (request : Request) (n : Nat) : List (FlushingEvent Unit Unit) :=
  List.replicate 5 (.store ()) ++
    (.client ((), .start request 5000) :: List.replicate n (.client ((), .access 5000))) ++
    List.replicate stores (.store ())

/-- The flush has been through the first slot. -/
theorem lapsingTable_begun :
    Run.final (Flushing.next siphash) lapsingTable (List.replicate 5 (.store ())) =
      { system := { lapsingTable.system with
          arena := lapsingTable.system.arena.setSlot 0 (lapsingTable.system.arena.slots 0).init }
        made := fun _ => 5 } := by
  obtain ⟨rest, hrest⟩ := flushStores_eq
  have hleft : lapsingTable.left () = slotStores 0 ++ rest := by
    rw [Flushing.left, lapsingTable, List.drop_zero, hrest]
  have hlength : 5 ≤ (slotStores 0 ++ rest).length := by
    rw [List.length_append]
    exact Nat.le_add_right 5 _
  have htake : (slotStores 0 ++ rest).take 5 = slotStores 0 := rfl
  rw [Flushing.final_replicate_store, hleft, Nat.min_eq_left hlength, htake, final_slotStores]
  congr 1

theorem le_countP_besideFlush (stores : Nat) (request : Request) (n : Nat) :
    stores ≤ (besideFlush stores request n).countP (Flushing.storesOf ()) := by
  have hlast : (List.replicate stores (.store () : FlushingEvent Unit Unit)).countP
      (Flushing.storesOf ()) = stores := by
    rw [List.countP_replicate]
    rfl
  rw [besideFlush, List.countP_append, hlast]
  exact Nat.le_add_left _ _

theorem besideFlush_done (s : Flushing Unit Unit) (request : Request) (n : Nat) :
    (Run.final (Flushing.next siphash) s
      (besideFlush flushStores.length request n)).left () = [] :=
  Flushing.left_eq_nil siphash s ()
    ((le_countP_besideFlush flushStores.length request n).trans (Nat.le_add_left _ _))

/-- The client evicts the entry and puts another in its place. -/
theorem flush_leaves_published_set :
    (∀ i, ((Run.final (Flushing.next siphash) lapsingTable
        (besideFlush flushStores.length (.set [1] [8] 0) 13)).system.arena.slots i).state =
          stateEmpty ∨
      lapsingTable.Republished siphash () (besideFlush flushStores.length (.set [1] [8] 0) 13) i) ∧
    lapsingTable.CountedSince siphash () (besideFlush flushStores.length (.set [1] [8] 0) 13)
      (Run.final (Flushing.next siphash) lapsingTable
        (besideFlush flushStores.length (.set [1] [8] 0) 13)).system.arena.header.usedCount :=
  flush_leaves_published siphash lapsingTable () _ rfl (besideFlush_done ..)

/-- **A flush beside clients that write nothing** leaves the slots as it would alone, although
they read and delete between its stores, and the whole arena if they do not count either. -/
theorem flush_beside_readers (hashFn : Bytes → UInt64) (s : Flushing ι φ) (f : φ)
    (events : List (FlushingEvent ι φ)) (hstart : s.made f = 0)
    (hend : (Run.final (Flushing.next hashFn) s events).left f = [])
    (hquiet : Run.Along (Flushing.next hashFn) Flushing.Unwritten s events) :
    (Run.final (Flushing.next hashFn) s events).system.arena.slots =
      (flushAll s.system.arena).slots ∧
    (Run.Along (Flushing.next hashFn) (fun s event => s.counts event = 0) s events →
      (Run.final (Flushing.next hashFn) s events).system.arena = flushAll s.system.arena) :=
  ⟨Flushing.slots_of_unwritten hstart hend hquiet,
    Flushing.arena_of_unwritten hstart hend hquiet⟩

/-- The client evicts the entry. -/
theorem flush_beside_readers_evict :
    (Run.final (Flushing.next siphash) lapsingTable
      (besideFlush flushStores.length (.get [1]) 4)).system.arena =
        flushAll lapsingTable.system.arena := by
  have hquiet (n : Nat) : Run.Along (Flushing.next siphash)
      (fun s event => s.Unwritten event ∧ s.counts event = 0) lapsingTable
      (besideFlush n (.get [1]) 4) := by
    refine Run.along_append.mpr ⟨Run.along_append.mpr ⟨?_, ?_⟩, ?_⟩
    · exact Flushing.along_stores (fun _ => ⟨trivial, rfl⟩) _ 5
    · rw [lapsingTable_begun]
      decide +kernel
    · exact Flushing.along_stores (fun _ => ⟨trivial, rfl⟩) _ n
  exact (flush_beside_readers siphash lapsingTable () _ rfl (besideFlush_done ..)
    ((hquiet _).mono fun _ _ h => h.1)).2 ((hquiet _).mono fun _ _ h => h.2)

end Main

end MemLane
