import MemLane.FlushRace

/-!
# Reads after a flush

`flush_all` empties the slots, but it clears no buffer, and it does not wait for what is under
way.  A client that begins to read after the flush finds something only in a slot that has been
published since the flush emptied it.  What it finds there can still be older than the flush: a
`set` that was under way stores its length over bytes that the flush has left behind.

If no `set` was under way when the flush began, all bytes that are found are those of values
that have been set since.
-/

namespace MemLane

/-! ## The bytes of a buffer -/

/-- Every byte of the value, at its place, is one of `fresh`. -/
def MadeOf (fresh : Nat → UInt8 → Prop) (value : Bytes) : Prop :=
  ∀ j b, value[j]? = some b → fresh j b

/-- The first `n` bytes of the value buffer are of `fresh`. -/
def Slot.FreshUpTo (fresh : Nat → UInt8 → Prop) (slot : Slot) (n : Nat) : Prop :=
  ∀ j : Fin maxValLen, j < n → fresh j (slot.valBuf j)

section Buffers

variable {fresh : Nat → UInt8 → Prop} {slot : Slot} {value : Bytes} {n : Nat}

theorem Slot.FreshUpTo.mono {m : Nat} (h : slot.FreshUpTo fresh n) (hm : m ≤ n) :
    slot.FreshUpTo fresh m :=
  fun j hj => h j (Nat.lt_of_lt_of_le hj hm)

theorem Slot.FreshUpTo.slice (h : slot.FreshUpTo fresh n) : MadeOf fresh (slot.valBuf.slice n) := by
  intro j b hb
  rw [Buffer.slice, List.getElem?_ofFn] at hb
  split at hb
  · next hj =>
      cases hb
      exact h ⟨j, by omega⟩ (by simp only; omega)
  · cases hb

/-- Behind the bytes of the value that is copied, the old ones stay. -/
theorem Slot.copyValue_byte (slot : Slot) (value : Bytes) (j : Fin maxValLen) :
    (slot.copyValue value).valBuf j = (value[j.val]?).getD (slot.valBuf j) := by
  simp only [Slot.copyValue, Buffer.copyFromSlice, List.getD_eq_getElem?_getD]
  by_cases hj : j.val < value.length
  · rw [List.getElem?_take_of_lt (by omega)]
  · have hnone : value[j.val]? = none := List.getElem?_eq_none (not_lt.mp hj)
    have htake : (value.take (min value.length maxValLen)).length ≤ j.val :=
      (List.length_take_le _ _).trans (by omega)
    rw [hnone, List.getElem?_eq_none htake]

theorem Slot.FreshUpTo.copyValue (h : slot.FreshUpTo fresh n) (hvalue : MadeOf fresh value) :
    (slot.copyValue value).FreshUpTo fresh n := by
  intro j hj
  rw [Slot.copyValue_byte]
  cases hb : value[j.val]? with
  | none => exact h j hj
  | some b => exact hvalue j b hb

theorem Slot.freshUpTo_copyValue (hvalue : MadeOf fresh value) :
    (slot.copyValue value).FreshUpTo fresh value.length := by
  intro j hj
  have hb : value[j.val]? = some value[j.val] := List.getElem?_eq_getElem hj
  rw [Slot.copyValue_byte, hb]
  exact hvalue j _ hb

theorem Slot.FreshUpTo.storeValLen (h : slot.FreshUpTo fresh value.length) :
    (slot.storeValLen value).FreshUpTo fresh (slot.storeValLen value).valLen.toNat := by
  have hlt : min value.length maxValLen < 2 ^ 64 := by
    unfold maxValLen
    omega
  have hkept : (slot.storeValLen value).FreshUpTo fresh value.length := h
  refine hkept.mono ?_
  rw [Slot.storeValLen, UInt64.toNat_ofNat_of_lt' hlt]
  exact Nat.min_le_left _ _

end Buffers

/-! ## Clients in a `set` -/

/-- The client has still to store the value of a `set`. -/
def Pc.InSet : Pc → Prop
  | .probe (.set ..) .. | .update .. | .claim .. => True
  | _ => False

/-- The client has a value of fresh bytes to store, and has copied it before it stores its
length. -/
def Pc.SetsFresh (fresh : Nat → UInt8 → Prop) (arena : Arena) : Pc → Prop
  | .probe (.set _ value _ _) _ _ => MadeOf fresh value
  | .update _ value _ idx point => MadeOf fresh value ∧
      (point = .valLen → (arena.slots idx).FreshUpTo fresh value.length)
  | .claim _ value _ target _ point => MadeOf fresh value ∧
      (point = .valLen → (arena.slots target).FreshUpTo fresh value.length)
  | _ => True

section Clients

variable {hashFn : Bytes → UInt64} {fresh : Nat → UInt8 → Prop} {arena arena' : Arena} {pc : Pc}

theorem Pc.setsFresh_of_not_inSet (h : ¬ pc.InSet) : pc.SetsFresh fresh arena := by
  unfold Pc.SetsFresh
  split
  · exact (h trivial).elim
  · exact (h trivial).elim
  · exact (h trivial).elim
  · trivial

theorem Pc.SetsFresh.keep (h : pc.SetsFresh fresh arena)
    (hkeep : ∀ i n, (arena.slots i).FreshUpTo fresh n → (arena'.slots i).FreshUpTo fresh n) :
    pc.SetsFresh fresh arena' := by
  unfold Pc.SetsFresh at h ⊢
  split
  · exact h
  · exact ⟨h.1, fun hpoint => hkeep _ _ (h.2 hpoint)⟩
  · exact ⟨h.1, fun hpoint => hkeep _ _ (h.2 hpoint)⟩
  · trivial

theorem Request.start_setsFresh {request : Request} (now : UInt64)
    (hset : ∀ key value ttlSecs, request = .set key value ttlSecs → MadeOf fresh value) :
    (request.start now).SetsFresh fresh arena := by
  unfold Request.start
  split
  · cases request with
    | set key value ttlSecs => exact hset key value ttlSecs rfl
    | get | del => trivial
  · trivial

theorem Pc.SetsFresh.access (h : pc.SetsFresh fresh arena) (now : UInt64) :
    (pc.access hashFn arena now).2.SetsFresh fresh (pc.access hashFn arena now).1 := by
  cases pc with
  | idle | valLen | valBuf | countInsert | countDelete | done => trivial
  | update key value expiry idx point =>
      cases point with
      | valBuf =>
          refine ⟨h.1, fun _ => ?_⟩
          rw [Pc.access, updateAccess, Arena.setSlot_slots, if_pos rfl]
          exact Slot.freshUpTo_copyValue h.1
      | valLen => exact ⟨h.1, by rintro ⟨⟩⟩
      | expiry => trivial
  | claim key value expiry target counted point =>
      cases point with
      | valBuf =>
          refine ⟨h.1, fun _ => ?_⟩
          rw [Pc.access, claimAccess, Arena.setSlot_slots, if_pos rfl]
          exact Slot.freshUpTo_copyValue h.1
      | keyBuf | keyLen | valLen | fingerprint | expiry => exact ⟨h.1, by rintro ⟨⟩⟩
      | state => cases counted <;> trivial
  | delCas key i =>
      rcases access_delCas hashFn arena now key i with ⟨_, heq⟩ | ⟨_, heq⟩
      · rw [heq]
        trivial
      · rw [heq]
        trivial
  | probe task i point =>
      have hmove := probeAccess_move hashFn arena now task i point
      rw [Pc.access]
      generalize probeAccess hashFn arena now task i point = out at hmove
      cases task with
      | get key => cases hmove <;> trivial
      | del key => cases hmove <;> trivial
      | set key value expiry firstTombstone =>
          cases hmove with
          | exhausted =>
              cases firstTombstone with
              | none => trivial
              | some target => exact ⟨h, by rintro ⟨⟩⟩
          | empty | keyBuf => exact ⟨h, by rintro ⟨⟩⟩
          | tombstone | occupied | passed | matched | expired | kept | evicted | keyLen => exact h

end Clients

/-! ## Clients in a `get` -/

/-- A `get` reads in slots of `pub` only, it has a length of `mid` in hand when it reads the
buffer, and what it has found is in `got`. -/
def Pc.FindsIn (hashFn : Bytes → UInt64) (pub : Fin slotCount → Prop)
    (mid : Fin slotCount → UInt64 → Prop) (got : Bytes → Prop) : Pc → Prop
  | .probe (.get key) i point => point ≠ .state → pub (probeIndex (hashFn key) i)
  | .valLen _ idx => pub idx
  | .valBuf _ idx len => mid idx len
  | .done _ (.get (.found value)) => got value
  | _ => True

section Reads

variable {hashFn : Bytes → UInt64} {pub pub' : Fin slotCount → Prop}
  {mid mid' : Fin slotCount → UInt64 → Prop} {got got' : Bytes → Prop} {pc : Pc} {arena : Arena}

theorem Pc.FindsIn.mono (h : pc.FindsIn hashFn pub mid got) (hpub : ∀ i, pub i → pub' i)
    (hmid : ∀ i len, mid i len → mid' i len) (hgot : ∀ value, got value → got' value) :
    pc.FindsIn hashFn pub' mid' got' := by
  unfold Pc.FindsIn at h ⊢
  split
  · exact fun hpoint => hpub _ (h hpoint)
  · exact hpub _ h
  · exact hmid _ _ h
  · exact hgot _ h
  · trivial

theorem Request.start_findsIn (request : Request) (now : UInt64) :
    (request.start now).FindsIn hashFn pub mid got := by
  unfold Request.start
  split
  · cases request with
    | get key => exact fun hpoint => absurd rfl hpoint
    | set | del => trivial
  · trivial

/-- Every OCCUPIED slot is one of `pub`, the lengths there are in `mid`, and what is read with
such a length is in `got`. -/
theorem Pc.FindsIn.access (h : pc.FindsIn hashFn pub mid got) (now : UInt64)
    (hocc : ∀ i, (arena.slots i).state = stateOccupied → pub i)
    (hlen : ∀ i, pub i → mid i (arena.slots i).valLen)
    (hread : ∀ i len, mid i len → got ((arena.slots i).valBuf.slice len.toNat)) :
    (pc.access hashFn arena now).2.FindsIn hashFn pub mid got := by
  cases pc with
  | idle => trivial
  | valLen key idx => exact hlen idx h
  | valBuf key idx len => exact hread idx len h
  | update key value expiry idx point => cases point <;> trivial
  | claim key value expiry target counted point =>
      cases point with
      | state => cases counted <;> trivial
      | keyBuf | keyLen | valBuf | valLen | fingerprint | expiry => trivial
  | countInsert | countDelete => trivial
  | delCas key i =>
      rcases access_delCas hashFn arena now key i with ⟨_, heq⟩ | ⟨_, heq⟩
      · rw [heq]
        trivial
      · rw [heq]
        trivial
  | done => exact h
  | probe task i point =>
      have hmove := probeAccess_move hashFn arena now task i point
      rw [Pc.access]
      generalize probeAccess hashFn arena now task i point = out at hmove
      cases task with
      | set key value expiry firstTombstone =>
          cases hmove with
          | exhausted => cases firstTombstone <;> trivial
          | _ => trivial
      | del key => cases hmove <;> trivial
      | get key =>
          cases hmove with
          | exhausted | empty | evicted => trivial
          | tombstone | passed => exact fun hpoint => absurd rfl hpoint
          | occupied _ hstate => exact fun _ => hocc _ hstate
          | matched | expired | kept | keyLen => exact fun _ => h Point.noConfusion
          | keyBuf => exact h Point.noConfusion

end Reads

/-! ## Runs -/

namespace Flushing

variable {ι φ : Type*} [DecidableEq ι] [DecidableEq φ] {hashFn : Bytes → UInt64}
  {s : Flushing ι φ} {f : φ} {i : Fin slotCount} {event : FlushingEvent ι φ}
  {fresh : Nat → UInt8 → Prop}

theorem left_next_done (h : s.left f = []) (event : FlushingEvent ι φ) :
    (s.next hashFn event).left f = [] := by
  have hrun := left_final hashFn s f [event]
  rw [h, List.drop_nil] at hrun
  exact hrun

/-- A client starts an operation, makes an access, or stays where it is. -/
theorem next_pc (hashFn : Bytes → UInt64) (s : Flushing ι φ) (event : FlushingEvent ι φ) (c : ι) :
    (s.next hashFn event).system.pc c = s.system.pc c ∨
      (∃ (request : Request) (now : UInt64), event = .client (c, .start request now) ∧
        (s.system.pc c).resting = true ∧
        (s.next hashFn event).system.pc c = request.start now) ∨
      ∃ now, event = .client (c, .access now) ∧ (s.next hashFn event).system.pc c =
        ((s.system.pc c).access hashFn s.system.arena now).2 := by
  cases event with
  | store g =>
      refine .inl ?_
      cases hleft : s.left g with
      | nil => rw [next_store_done hleft]
      | cons store rest => rw [next_store hleft]
  | client input =>
      obtain ⟨d, event⟩ := input
      by_cases hd : c = d
      · subst hd
        cases event with
        | start request now =>
            by_cases hrest : (s.system.pc c).resting = true
            · exact .inr (.inl ⟨request, now, rfl, hrest,
                System.next_start_self hashFn s.system request now hrest⟩)
            · refine .inl ?_
              exact congrArg (fun system : System ι => system.pc c)
                (System.next_start_busy hashFn s.system request now hrest)
        | access now => exact .inr (.inr ⟨now, rfl, System.next_access_self hashFn s.system now⟩)
      · refine .inl ?_
        cases event with
        | start request now => exact System.next_start_other hashFn s.system request now hd
        | access now => exact System.next_access_other hashFn s.system now hd

/-! ## Where a value is read -/

theorem Republished.append {events : List (FlushingEvent ι φ)}
    (h : s.Republished hashFn f events i) (later : List (FlushingEvent ι φ)) :
    s.Republished hashFn f (events ++ later) i := by
  obtain ⟨before, event, rest, rfl, hpub⟩ := h
  exact ⟨before, event, rest ++ later, by simp, hpub⟩

/-- After `events`, the slot has had this value length at a moment of `later` at which it had been
published. -/
def LengthRead (hashFn : Bytes → UInt64) (s : Flushing ι φ) (f : φ)
    (events later : List (FlushingEvent ι φ)) (i : Fin slotCount) (len : UInt64) : Prop :=
  ∃ before rest, later = before ++ rest ∧ s.Republished hashFn f (events ++ before) i ∧
    len = ((Run.final (next hashFn) s (events ++ before)).system.arena.slots i).valLen

/-- After `events`, the value has been copied out of a slot, with a length that had been read there
when the slot had been published. -/
def CopiedOut (hashFn : Bytes → UInt64) (s : Flushing ι φ) (f : φ)
    (events later : List (FlushingEvent ι φ)) (value : Bytes) : Prop :=
  ∃ i before rest len, later = before ++ rest ∧ s.LengthRead hashFn f events before i len ∧
    value = ((Run.final (next hashFn) s (events ++ before)).system.arena.slots i).valBuf.slice
      len.toNat

theorem LengthRead.append {events later : List (FlushingEvent ι φ)} {len : UInt64}
    (h : s.LengthRead hashFn f events later i len) (more : List (FlushingEvent ι φ)) :
    s.LengthRead hashFn f events (later ++ more) i len := by
  obtain ⟨before, rest, rfl, hpub, hlen⟩ := h
  exact ⟨before, rest ++ more, List.append_assoc .., hpub, hlen⟩

theorem CopiedOut.append {events later : List (FlushingEvent ι φ)} {value : Bytes}
    (h : s.CopiedOut hashFn f events later value) (more : List (FlushingEvent ι φ)) :
    s.CopiedOut hashFn f events (later ++ more) value := by
  obtain ⟨i, before, rest, len, rfl, hlen, hvalue⟩ := h
  exact ⟨i, before, rest ++ more, len, List.append_assoc .., hlen, hvalue⟩

/-- From the end of the flush on, a client that has begun since reads only what has been
published since. -/
theorem findsIn_after (hstart : s.made f = 0) {events : List (FlushingEvent ι φ)} {c : ι}
    (hend : (Run.final (next hashFn) s events).left f = [])
    (hfinds : ((Run.final (next hashFn) s events).system.pc c).FindsIn hashFn
      (s.Republished hashFn f events) (s.LengthRead hashFn f events [])
      (s.CopiedOut hashFn f events []))
    (later : List (FlushingEvent ι φ)) :
    (Run.final (next hashFn) s (events ++ later)).left f = [] ∧
      ((Run.final (next hashFn) s (events ++ later)).system.pc c).FindsIn hashFn
        (s.Republished hashFn f (events ++ later)) (s.LengthRead hashFn f events later)
        (s.CopiedOut hashFn f events later) := by
  induction later using List.reverseRecOn with
  | nil =>
      rw [List.append_nil]
      exact ⟨hend, hfinds⟩
  | append_singleton later event ih =>
      obtain ⟨hleft, ih⟩ := ih
      rw [← List.append_assoc, Run.final_append]
      refine ⟨left_next_done hleft event, ?_⟩
      have hmono : ∀ {pc : Pc}, pc.FindsIn hashFn (s.Republished hashFn f (events ++ later))
          (s.LengthRead hashFn f events later) (s.CopiedOut hashFn f events later) →
          pc.FindsIn hashFn (s.Republished hashFn f (events ++ later ++ [event]))
          (s.LengthRead hashFn f events (later ++ [event]))
          (s.CopiedOut hashFn f events (later ++ [event])) :=
        fun h => h.mono (fun _ hpub => hpub.append _) (fun _ _ hlen => hlen.append _)
          (fun _ hcopied => hcopied.append _)
      rcases next_pc hashFn (Run.final (next hashFn) s (events ++ later)) event c with
        heq | ⟨request, now, _, _, heq⟩ | ⟨now, _, heq⟩
      · rw [Run.final_cons, Run.final_nil, heq]
        exact hmono ih
      · rw [Run.final_cons, Run.final_nil, heq]
        exact request.start_findsIn now
      · rw [Run.final_cons, Run.final_nil, heq]
        refine hmono (ih.access now ?_ ?_ ?_)
        · intro i hocc
          refine (empty_or_published hashFn i hstart hleft).resolve_left fun hempty => ?_
          exact stateOccupied_ne_stateEmpty (hocc.symm.trans hempty)
        · exact fun i hpub => ⟨_, [], (List.append_nil _).symm, hpub, rfl⟩
        · exact fun i len hlen => ⟨i, _, [], len, (List.append_nil _).symm, hlen, rfl⟩

/-! ## Which bytes are read -/

/-- The flush has yet to clear the length of a slot, or the bytes under it are fresh; and so is
all that clients are about to store. -/
structure Renewing (fresh : Nat → UInt8 → Prop) (f : φ) (s : Flushing ι φ) : Prop where
  slots : ∀ i, .slot i .valLen ∈ s.left f ∨
    (s.system.arena.slots i).FreshUpTo fresh (s.system.arena.slots i).valLen.toNat
  clients : ∀ c, (s.system.pc c).SetsFresh fresh s.system.arena

/-- If the event starts a `set`, its value is of fresh bytes. -/
def StartsFresh (fresh : Nat → UInt8 → Prop) (s : Flushing ι φ) (event : FlushingEvent ι φ) :
    Prop :=
  ∀ c key value ttlSecs now, event = .client (c, .start (.set key value ttlSecs) now) →
    (s.system.pc c).resting = true → MadeOf fresh value

/-- Fresh bytes stay fresh. -/
theorem next_freshUpTo (hashFn : Bytes → UInt64) (event : FlushingEvent ι φ) {n : Nat}
    (hclients : ∀ c, (s.system.pc c).SetsFresh fresh s.system.arena)
    (h : (s.system.arena.slots i).FreshUpTo fresh n) :
    ((s.next hashFn event).system.arena.slots i).FreshUpTo fresh n := by
  rcases next_slot hashFn s event i with heq | ⟨field, heq⟩ | ⟨c, now, rfl, hmove⟩
  · rw [heq]
    exact h
  · rw [heq]
    cases field <;> exact h
  · have hclient := hclients c
    generalize (s.next hashFn (.client (c, .access now))).system.arena.slots i = slot at hmove ⊢
    cases hmove with
    | same | buried => exact h
    | @update _ _ _ point hpc =>
        rw [hpc] at hclient
        cases point with
        | valBuf => exact h.copyValue hclient.1
        | valLen | expiry => exact h
    | @claim _ _ _ _ point hpc =>
        rw [hpc] at hclient
        cases point with
        | valBuf => exact h.copyValue hclient.1
        | keyBuf | keyLen | valLen | fingerprint | expiry | state => exact h

/-- A stored length covers bytes that have been copied before it. -/
theorem next_valLen (hashFn : Bytes → UInt64) (event : FlushingEvent ι φ)
    (hclients : ∀ c, (s.system.pc c).SetsFresh fresh s.system.arena)
    (h : (s.system.arena.slots i).FreshUpTo fresh (s.system.arena.slots i).valLen.toNat) :
    ((s.next hashFn event).system.arena.slots i).FreshUpTo fresh
      ((s.next hashFn event).system.arena.slots i).valLen.toNat := by
  have hkept := next_freshUpTo hashFn event hclients h
  rcases next_slot hashFn s event i with heq | ⟨field, heq⟩ | ⟨c, now, rfl, hmove⟩
  · rw [heq]
    exact h
  · rw [heq]
    cases field with
    | valLen => exact fun j hj => absurd hj (Nat.not_lt_zero _)
    | state | fingerprint | expiresAtMs | keyLen => exact h
  · have hclient := hclients c
    generalize (s.next hashFn (.client (c, .access now))).system.arena.slots i = slot
      at hmove hkept ⊢
    cases hmove with
    | same | buried => exact h
    | @update _ _ _ point hpc =>
        rw [hpc] at hclient
        cases point with
        | valBuf => exact hkept
        | valLen => exact (hclient.2 rfl).storeValLen
        | expiry => exact h
    | @claim _ _ _ _ point hpc =>
        rw [hpc] at hclient
        cases point with
        | valBuf => exact hkept
        | valLen => exact (hclient.2 rfl).storeValLen
        | keyBuf | keyLen | fingerprint | expiry | state => exact h

theorem Renewing.next (h : s.Renewing fresh f) (hstart : s.StartsFresh fresh event) :
    (s.next hashFn event).Renewing fresh f where
  slots i := by
    rcases h.slots i with hdue | hfresh
    · rcases left_next hashFn hdue event with hdue | hmade
      · exact .inl hdue
      · refine .inr ?_
        rw [hmade, write_slot_self]
        exact fun j hj => absurd hj (Nat.not_lt_zero _)
    · exact .inr (next_valLen hashFn event h.clients hfresh)
  clients c := by
    have hkeep := fun i n => @next_freshUpTo _ _ _ _ s i fresh hashFn event n h.clients
    rcases next_pc hashFn s event c with heq | ⟨request, now, rfl, hrest, heq⟩ | ⟨now, rfl, heq⟩
    · rw [heq]
      exact (h.clients c).keep hkeep
    · rw [heq]
      refine Request.start_setsFresh now ?_
      rintro key value ttlSecs rfl
      exact hstart c key value ttlSecs now rfl hrest
    · rw [heq]
      exact (h.clients c).access now

omit [DecidableEq ι] [DecidableEq φ] in
/-- At the start of the flush everything is still due. -/
theorem Renewing.of_start (hstart : s.made f = 0) (hquiet : ∀ c, ¬ (s.system.pc c).InSet) :
    s.Renewing fresh f where
  slots i := by
    refine .inl ?_
    rw [left, hstart]
    exact slot_mem_flushStores i .valLen
  clients c := Pc.setsFresh_of_not_inSet (hquiet c)

/-- The flush is over, and the client has fresh bytes only. -/
structure ReadsFresh (hashFn : Bytes → UInt64) (fresh : Nat → UInt8 → Prop) (f : φ) (c : ι)
    (s : Flushing ι φ) : Prop where
  ended : s.left f = []
  renewing : s.Renewing fresh f
  client : (s.system.pc c).FindsIn hashFn (fun _ => True)
    (fun i len => (s.system.arena.slots i).FreshUpTo fresh len.toNat) (MadeOf fresh)

theorem ReadsFresh.next {c : ι} (h : s.ReadsFresh hashFn fresh f c)
    (hstart : s.StartsFresh fresh event) : (s.next hashFn event).ReadsFresh hashFn fresh f c where
  ended := left_next_done h.ended event
  renewing := h.renewing.next hstart
  client := by
    have hmono : ∀ {pc : Pc}, pc.FindsIn hashFn (fun _ => True)
        (fun i len => (s.system.arena.slots i).FreshUpTo fresh len.toNat) (MadeOf fresh) →
        pc.FindsIn hashFn (fun _ => True) (fun i len =>
          ((s.next hashFn event).system.arena.slots i).FreshUpTo fresh len.toNat) (MadeOf fresh) :=
      fun h' => h'.mono (fun _ hpub => hpub)
        (fun i len => next_freshUpTo hashFn event h.renewing.clients) (fun _ hgot => hgot)
    rcases next_pc hashFn s event c with heq | ⟨request, now, _, _, heq⟩ | ⟨now, _, heq⟩
    · rw [heq]
      exact hmono h.client
    · rw [heq]
      exact request.start_findsIn now
    · rw [heq]
      refine hmono (h.client.access now (fun _ _ => trivial) ?_ (fun i len hlen => hlen.slice))
      intro i _
      refine (h.renewing.slots i).resolve_left ?_
      rw [h.ended]
      exact List.not_mem_nil

/-- A `set` that has been started in the run has this byte at this place of its value. -/
def SetByte (hashFn : Bytes → UInt64) (s : Flushing ι φ) (run : List (FlushingEvent ι φ))
    (j : Nat) (b : UInt8) : Prop :=
  ∃ before c key value ttlSecs now rest,
    run = before ++ .client (c, .start (.set key value ttlSecs) now) :: rest ∧
    ((Run.final (next hashFn) s before).system.pc c).resting = true ∧ value[j]? = some b

theorem along_startsFresh (hashFn : Bytes → UInt64) (s : Flushing ι φ)
    (run : List (FlushingEvent ι φ)) :
    Run.Along (next hashFn) (StartsFresh (s.SetByte hashFn run)) s run := by
  refine Run.along_iff.mpr ?_
  rintro before _ rest heq c key value ttlSecs now rfl hrest j b hb
  exact ⟨before, c, key, value, ttlSecs, now, rest, heq, hrest, hb⟩

end Flushing

section Main

variable {ι φ : Type} [DecidableEq ι] [DecidableEq φ]

/-- **Reads after a flush.**  What a client finds, in any `get` that it has started after all
stores of the flush were made, it has since then copied out of a slot, with a length that it had
read there when a `set` had published the slot after the flush emptied it.  And if no `set` was
under way when the flush began, every byte of it stands at the same place in the value of a `set`
that has been started since. -/
theorem reads_after_flush (hashFn : Bytes → UInt64) (s : Flushing ι φ) (f : φ)
    (events later : List (FlushingEvent ι φ)) (c : ι) (request : Request) (now : UInt64)
    (hstart : s.made f = 0) (hend : (Run.final (Flushing.next hashFn) s events).left f = [])
    (hrest : ((Run.final (Flushing.next hashFn) s events).system.pc c).resting = true) :
    let begun := events ++ [.client (c, .start request now)]
    ∀ key value, (Run.final (Flushing.next hashFn) s (begun ++ later)).system.pc c =
        .done key (.get (.found value)) →
      s.CopiedOut hashFn f begun later value ∧
      ((∀ d, ¬ (s.system.pc d).InSet) → MadeOf (s.SetByte hashFn (begun ++ later)) value) := by
  intro begun key value hfound
  have hbegun : (Run.final (Flushing.next hashFn) s begun).system.pc c = request.start now := by
    rw [Run.final_append]
    exact System.next_start_self hashFn _ request now hrest
  have hleft : (Run.final (Flushing.next hashFn) s begun).left f = [] := by
    rw [Run.final_append]
    exact Flushing.left_next_done hend (.client (c, .start request now))
  constructor
  · have hfinds := (Flushing.findsIn_after hstart hleft
      (by rw [hbegun]; exact request.start_findsIn now) later).2
    rw [hfound] at hfinds
    exact hfinds
  · intro hquiet
    obtain ⟨hbefore, hafter⟩ := Run.along_append.mp
      (Flushing.along_startsFresh hashFn s (begun ++ later))
    have hrenewing := Run.invariant (Flushing.Renewing (s.SetByte hashFn (begun ++ later)) f)
      (fun _ _ h hP => h.next hP) (.of_start hstart hquiet) hbefore
    have hreads := Run.invariant
      (Flushing.ReadsFresh hashFn (s.SetByte hashFn (begun ++ later)) f c)
      (fun _ _ h hP => h.next hP)
      ⟨hleft, hrenewing, by rw [hbegun]; exact request.start_findsIn now⟩ hafter
    have hclient := hreads.client
    rw [← Run.final_append, hfound] at hclient
    exact hclient

end Main

/-- The arena with one entry, and nobody at work. -/
def writtenTable : Flushing Bool Unit where
  system :=
    { arena := arenaAfter siphash zeroedRegion [⟨.set [1] [9] 0, fun _ => 0⟩]
      pc := fun _ => .idle }
  made := fun _ => 0

def tableAccesses (c : Bool) (n : Nat) : List (FlushingEvent Bool Unit) :=
  List.replicate n (.client (c, .access 0))

/-- The flush, and then the key is set again. -/
def flushThenSet : List (FlushingEvent Bool Unit) :=
  List.replicate flushStores.length (.store ()) ++
    .client (false, .start (.set [1] [7] 0) 0) :: tableAccesses false 9

theorem reads_after_flush_set :
    writtenTable.CopiedOut siphash () (flushThenSet ++ [.client (false, .start (.get [1]) 0)])
        (tableAccesses false 7) [7] ∧
      MadeOf (writtenTable.SetByte siphash
        (flushThenSet ++ [.client (false, .start (.get [1]) 0)] ++ tableAccesses false 7)) [7] := by
  have hflush := @Flushing.final_flush Bool Unit _ _ siphash writtenTable () rfl
  have hdone : (Run.final (Flushing.next siphash) writtenTable flushThenSet).left () = [] := by
    rw [flushThenSet, Run.final_append, Flushing.left_final, hflush]
    simp only [Flushing.left, Function.update_self, List.drop_length, List.drop_nil]
  have hrest : ((Run.final (Flushing.next siphash) writtenTable flushThenSet).system.pc
      false).resting = true := by
    rw [flushThenSet, Run.final_append, hflush]
    decide +kernel
  have hfound : (Run.final (Flushing.next siphash) writtenTable (flushThenSet ++
      [.client (false, .start (.get [1]) 0)] ++ tableAccesses false 7)).system.pc false =
        .done [1] (.get (.found [7])) := by
    rw [flushThenSet, Run.final_append, Run.final_append, Run.final_append, hflush]
    decide +kernel
  have hreads := reads_after_flush siphash writtenTable () flushThenSet (tableAccesses false 7)
    false (.get [1]) 0 rfl hdone hrest [1] [7] hfound
  exact ⟨hreads.1, hreads.2 fun _ hset => hset⟩

/-- Two clients set the key.  One of them has still to store the length of its value. -/
def unfinishedSet : Flushing Bool Unit :=
  Run.final (Flushing.next siphash) writtenTable
    (.client (true, .start (.set [1] [1, 2, 3, 4] 0) 0) :: tableAccesses true 6 ++
      .client (false, .start (.set [1] [5, 6, 7, 8] 0) 0) :: tableAccesses false 8)

/-- Beside a `set` that was under way, bytes that were set before the flush alone are found after
it: the length is stored when the key has been set to the empty value. -/
example :
    (Run.final (Flushing.next siphash) unfinishedSet
      (List.replicate flushStores.length (.store ()) ++
        (.client (false, .start (.set [1] [] 0) 0) :: tableAccesses false 9 ++
          tableAccesses true 1 ++
          .client (false, .start (.get [1]) 0) :: tableAccesses false 7))).system.pc false =
      .done [1] (.get (.found [5, 6, 7, 8])) := by
  have hflush := @Flushing.final_flush Bool Unit _ _ siphash unfinishedSet () rfl
  rw [Run.final_append, hflush]
  decide +kernel

end MemLane
