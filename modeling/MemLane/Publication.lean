import MemLane.SettledSlots

/-!
# A single inserting writer

One client sets keys, each once and without expiry, on a fresh arena; all others read.
`claim_slot` stores the state last, so an entry becomes visible as a whole, and from then on
nobody touches it.  A reader that ends at an EMPTY slot has passed entries with other keys
only, so its key is not published at that moment.
-/

namespace MemLane

variable {hashFn : Bytes → UInt64} {arena : Arena} {key value : Bytes} {expiry hash : UInt64}

/-- What the stores of a claim before this one have made of the slot. -/
def ClaimPoint.stored (hash : UInt64) (key value : Bytes) (expiry : UInt64) (base : Slot) :
    ClaimPoint → Slot
  | .keyBuf => base
  | .keyLen => base.copyKey key
  | .valBuf => base.writeKey key
  | .valLen => (base.writeKey key).copyValue value
  | .fingerprint => (base.writeKey key).writeValue value
  | .expiry => { (base.writeKey key).writeValue value with fingerprint := hash }
  | .state =>
      { (base.writeKey key).writeValue value with fingerprint := hash, expiresAtMs := expiry }

theorem ClaimPoint.stored_state (base : Slot) (point : ClaimPoint) :
    (point.stored hash key value expiry base).state = base.state := by
  cases point <;> rfl

/-- The next store adds itself. -/
theorem ClaimPoint.write_stored {base : Slot} {point next : ClaimPoint}
    (h : point.next = some next) :
    point.write hash key value expiry (point.stored hash key value expiry base) =
      next.stored hash key value expiry base := by
  cases point with
  | state => cases h
  | _ =>
      cases h
      rfl

/-- With the last one the slot is claimed. -/
theorem ClaimPoint.write_stored_last {base : Slot} {point : ClaimPoint} (h : point.next = none) :
    point.write hash key value expiry (point.stored hash key value expiry base) =
      claimSlot base hash key value expiry := by
  cases point with
  | state => rfl
  | _ => cases h

/-! ## Writing to an EMPTY slot -/

section Write

variable {idx : Fin slotCount} {slot : Slot} {k v : Bytes} {e : UInt64}

theorem Kept.write (hempty : (arena.slots idx).state = stateEmpty) (slot : Slot) :
    Kept arena.held arena (arena.setSlot idx slot) where
  nonempty := by
    intro j hne
    have hj : j ≠ idx := fun heq => hne (heq ▸ hempty)
    rw [Arena.setSlot_slots, if_neg hj]
    exact hne
  occupied := by
    intro j hne _
    have hj : j ≠ idx := fun heq => hne (heq ▸ hempty)
    rw [Arena.setSlot_slots, if_neg hj]
  data := by
    intro j hheld
    apply Arena.setSlot_sameData
    intro heq
    have hocc : (arena.slots j).state = stateOccupied := hheld
    rw [← heq, hempty] at hocc
    exact absurd hocc stateEmpty_ne_stateOccupied

theorem held_write (hempty : (arena.slots idx).state = stateEmpty) (slot : Slot)
    (j : Fin slotCount) (hheld : arena.held j) : (arena.setSlot idx slot).held j := by
  have hocc : (arena.slots j).state = stateOccupied := hheld
  have hj : j ≠ idx := by
    intro heq
    rw [heq, hempty] at hocc
    exact absurd hocc stateEmpty_ne_stateOccupied
  rw [Arena.held, Arena.setSlot_slots, if_neg hj]
  exact hocc

/-- Stored entries stay. -/
theorem contains_write (hempty : (arena.slots idx).state = stateEmpty) (slot : Slot)
    (h : arena.Contains k) : (arena.setSlot idx slot).Contains k := by
  obtain ⟨j, hocc, hkey⟩ := h
  have hheld := held_write hempty slot j hocc
  refine ⟨j, hheld, ?_⟩
  rw [((Kept.write hempty slot).data j hocc).readKey]
  exact hkey

/-- The entries behind a write are those before it, and the one written if there is one. -/
theorem stores_write (h : (arena.setSlot idx slot).Stores k v e) :
    arena.Stores k v e ∨
      slot.state = stateOccupied ∧ slot.readKey = k ∧ slot.readValue = v ∧ slot.expiresAtMs = e := by
  obtain ⟨j, hocc, hkey, hvalue, hexpiry⟩ := h
  rw [Arena.setSlot_slots] at hocc hkey hvalue hexpiry
  by_cases hj : j = idx
  · rw [if_pos hj] at hocc hkey hvalue hexpiry
    exact .inr ⟨hocc, hkey, hvalue, hexpiry⟩
  · rw [if_neg hj] at hocc hkey hvalue hexpiry
    exact .inl ⟨j, hocc, hkey, hvalue, hexpiry⟩

/-- Preparing an EMPTY slot leaves the table as it is. -/
theorem TableInv.prepare (h : TableInv hashFn arena) (hempty : (arena.slots idx).state = stateEmpty)
    (hslot : slot.state = stateEmpty) : TableInv hashFn (arena.setSlot idx slot) where
  slot := by
    intro j
    rw [Arena.setSlot_slots]
    split
    · exact .of_empty hslot
    · exact h.slot j
  wellFormed := by
    have hcell : slot.cell = arena.cells idx := by
      rw [Slot.cell_eq_empty.mpr hslot]
      exact (Slot.cell_eq_empty.mpr hempty).symm
    rw [Arena.cells_setSlot, hcell, Function.update_eq_self]
    exact h.wellFormed

end Write

/-! ## The writer and the readers -/

/-- A `get`, or nothing. -/
def Pc.Reads : Pc → Prop
  | .probe task _ _ => ∃ key, task = .get key
  | .update .. | .claim .. | .countInsert _ | .delCas .. | .countDelete _ => False
  | _ => True

/-- A `set` of a new key, or nothing.  Up to the last store of its claim the key is not in the
table, and the claimed slot is EMPTY. -/
def Pc.Inserts (hashFn : Bytes → UInt64) (sets : Bytes → Bytes → Prop) (arena : Arena) : Pc → Prop
  | .idle | .done .. => True
  | .probe task _ _ => ∃ key value, task = .set key value 0 none ∧ sets key value ∧
      ¬ arena.Contains key
  | .claim key value expiry target counted point =>
      expiry = 0 ∧ counted = true ∧ sets key value ∧ ¬ arena.Contains key ∧
        (∃ d, d < slotCount ∧ target = probeIndex (hashFn key) d ∧
          ∀ m, m < d → (arena.probed (hashFn key) m).state ≠ stateEmpty) ∧
        (arena.slots target).state = stateEmpty ∧
        ∃ base, arena.slots target = point.stored (hashFn key) key value 0 base
  | .countInsert key => arena.Contains key
  | _ => False

section Writer

variable {ι : Type*}

/-- A call of the writer, which its length checks have let through. -/
def SetBy (w : ι) (history : List (Recorded ι)) (key value : Bytes) : Prop :=
  .call w (.set key value 0) ∈ history ∧ key.length ≤ maxKeyLen ∧ value.length ≤ maxValLen

/-- The keys of the `set`s that were called. -/
def Recorded.setKey? : Recorded ι → Option Bytes
  | .call _ (.set key _ _) => some key
  | _ => none

def setKeys (history : List (Recorded ι)) : List Bytes := history.filterMap Recorded.setKey?

/-- The invariant of a writer `w` among readers. -/
structure Publishing (hashFn : Bytes → UInt64) (w : ι) (s : System ι)
    (history : List (Recorded ι)) : Prop where
  inv : TableInv hashFn s.arena
  noTombstone : ∀ idx, (s.arena.slots idx).state ≠ stateTombstone
  permanent : s.arena.Permanent
  entries : ∀ k v e, s.arena.Stores k v e → .call w (.set k v 0) ∈ history
  follows : ∀ c, (s.pc c).Follows hashFn s.arena.held s.arena
  writer : (s.pc w).Inserts hashFn (SetBy w history) s.arena
  readers : ∀ c, c ≠ w → (s.pc c).Reads
  inserted : ∀ c k, .ret c k (.set .inserted) ∈ history → s.arena.Contains k
  found : ∀ c k r, .ret c k (.get r) ∈ history →
    r = .notFound ∨ ∃ v, .call w (.set k v 0) ∈ history ∧ r = .found v
  ordered : history.Pairwise fun entry entry' => ∀ c d k,
    entry = .ret c k (.set .inserted) → entry' ≠ .ret d k (.get .notFound)

variable {w c : ι} {s : System ι} {history entries : List (Recorded ι)} {pc : Pc} {k : Bytes}

theorem SetBy.mono {v : Bytes} (h : SetBy w history k v) (entries : List (Recorded ι)) :
    SetBy w (history ++ entries) k v :=
  ⟨List.mem_append_left _ h.1, h.2⟩

theorem Pc.Inserts.mono {sets sets' : Bytes → Bytes → Prop}
    (h : pc.Inserts hashFn sets arena) (hsets : ∀ k v, sets k v → sets' k v) :
    pc.Inserts hashFn sets' arena := by
  cases pc with
  | probe task i point =>
      obtain ⟨key, value, htask, hset, habsent⟩ := h
      exact ⟨key, value, htask, hsets key value hset, habsent⟩
  | claim key value expiry target counted point =>
      obtain ⟨hzero, hcounted, hset, hrest⟩ := h
      exact ⟨hzero, hcounted, hsets key value hset, hrest⟩
  | _ => exact h

/-- What a client sees of the slots depends on nothing else. -/
theorem Pc.Inserts.congr {sets : Bytes → Bytes → Prop} {arena' : Arena}
    (h : pc.Inserts hashFn sets arena) (hslots : arena'.slots = arena.slots) :
    pc.Inserts hashFn sets arena' := by
  obtain ⟨header, slots⟩ := arena
  obtain ⟨header', slots'⟩ := arena'
  obtain rfl : slots' = slots := hslots
  cases pc with
  | _ => exact h

theorem Publishing.settled (h : Publishing hashFn w s history) :
    Settled hashFn s.arena.held s.arena where
  inv := h.inv
  occupied := fun _ hocc => hocc
  nonempty := by
    intro idx hheld hempty
    exact absurd (hempty.symm.trans hheld) stateEmpty_ne_stateOccupied
  permanent := h.permanent

/-- Nothing has happened on a fresh arena. -/
theorem Publishing.fresh (hashFn : Bytes → UInt64) (w : ι) (region : Arena) :
    Publishing hashFn w (System.fresh region) [] where
  inv := .createArena region
  noTombstone := fun _ => stateEmpty_ne_stateTombstone
  permanent := .createArena region
  entries := by
    intro k v e hstores
    obtain ⟨idx, hocc, _⟩ := hstores
    exact absurd hocc stateEmpty_ne_stateOccupied
  follows := fun _ => trivial
  writer := trivial
  readers := fun _ _ => trivial
  inserted := fun _ _ hmem => absurd hmem List.not_mem_nil
  found := fun _ _ _ hmem => absurd hmem List.not_mem_nil
  ordered := .nil

/-- With distinct keys, a key has one value. -/
theorem eq_of_setKeys_nodup {v v' : Bytes} (hkeys : (setKeys history).Nodup)
    (h : .call w (.set k v 0) ∈ history) (h' : .call w (.set k v' 0) ∈ history) : v = v' := by
  induction history with
  | nil => exact absurd h List.not_mem_nil
  | cons entry history ih =>
      have hmem : ∀ u, .call w (.set k u 0) ∈ history → k ∈ setKeys history :=
        fun u hu => List.mem_filterMap.mpr ⟨_, hu, rfl⟩
      have hfresh : entry.setKey? = some k → ∀ u, .call w (.set k u 0) ∉ history := by
        intro hkey u hu
        rw [setKeys, List.filterMap_cons_some hkey] at hkeys
        exact (List.nodup_cons.mp hkeys).1 (hmem u hu)
      rcases List.mem_cons.mp h with heq | hold
      · rcases List.mem_cons.mp h' with heq' | hold'
        · cases heq.trans heq'.symm
          rfl
        · exact absurd hold' (hfresh (heq ▸ rfl) v')
      · rcases List.mem_cons.mp h' with heq' | hold'
        · exact absurd hold (hfresh (heq' ▸ rfl) v)
        · apply ih ?_ hold hold'
          exact hkeys.sublist ((List.sublist_cons_self entry history).filterMap _)

variable [DecidableEq ι]

/-- A client moves on and leaves the slots alone. -/
theorem Publishing.quiet (h : Publishing hashFn w s history) {after : Arena}
    (hslots : after.slots = s.arena.slots) (hfollows : pc.Follows hashFn s.arena.held s.arena)
    (hwriter : c = w → pc.Inserts hashFn (SetBy w (history ++ entries)) s.arena)
    (hreader : c ≠ w → pc.Reads)
    (hinserted : ∀ d k, .ret d k (.set .inserted) ∈ entries → s.arena.Contains k)
    (hfound : ∀ d k r, .ret d k (.get r) ∈ entries →
      r = .notFound ∧ ¬ s.arena.Contains k ∨ ∃ v, .call w (.set k v 0) ∈ history ∧ r = .found v)
    (hone : entries.length ≤ 1) :
    Publishing hashFn w { arena := after, pc := Function.update s.pc c pc }
      (history ++ entries) := by
  have hkept : Kept s.arena.held s.arena after := .of_slots hslots
  have hheld : ∀ idx, s.arena.held idx → after.held idx := by
    intro idx hocc
    rw [Arena.held, hslots]
    exact hocc
  have hcontains : ∀ k, after.Contains k ↔ s.arena.Contains k := by
    intro k
    rw [Arena.Contains, Arena.Contains, hslots]
  refine ⟨h.inv.congr hslots, ?_, h.permanent.congr hslots, ?_, ?_, ?_, ?_, ?_, ?_, ?_⟩
  · intro idx
    rw [hslots]
    exact h.noTombstone idx
  · intro k v e hstores
    have hold : s.arena.Stores k v e := by
      rw [Arena.Stores, ← hslots]
      exact hstores
    exact List.mem_append_left _ (h.entries k v e hold)
  · exact (Function.forall_update_iff s.pc (p := fun _ pc => pc.Follows hashFn after.held after)).mpr
      ⟨hfollows.mono hkept hheld, fun d _ => (h.follows d).mono hkept hheld⟩
  · change (Function.update s.pc c pc w).Inserts hashFn _ after
    by_cases hc : c = w
    · rw [hc, Function.update_self]
      exact (hwriter hc).congr hslots
    · rw [Function.update_of_ne (Ne.symm hc)]
      exact (h.writer.mono fun k v hset => hset.mono entries).congr hslots
  · intro d hd
    change (Function.update s.pc c pc d).Reads
    by_cases hc : d = c
    · rw [hc, Function.update_self]
      exact hreader (hc ▸ hd)
    · rw [Function.update_of_ne hc]
      exact h.readers d hd
  · intro d k hmem
    rw [hcontains]
    rcases List.mem_append.mp hmem with hold | hnew
    · exact h.inserted d k hold
    · exact hinserted d k hnew
  · intro d k r hmem
    rcases List.mem_append.mp hmem with hold | hnew
    · exact (h.found d k r hold).imp_right fun hr =>
        hr.imp fun v hv => ⟨List.mem_append_left _ hv.1, hv.2⟩
    · exact (hfound d k r hnew).imp (fun hr => hr.1) fun hr =>
        hr.imp fun v hv => ⟨List.mem_append_left _ hv.1, hv.2⟩
  · rw [List.pairwise_append]
    refine ⟨h.ordered, ?_, ?_⟩
    · cases entries with
      | nil => exact .nil
      | cons entry rest =>
          cases rest with
          | nil => exact List.pairwise_singleton _ entry
          | cons entry' rest =>
              rw [List.length_cons, List.length_cons] at hone
              omega
    · intro entry hold entry' hnew d d' k heq heq'
      rw [heq] at hold
      rw [heq'] at hnew
      rcases hfound d' k .notFound hnew with ⟨_, habsent⟩ | ⟨v, _, hr⟩
      · exact habsent (h.inserted d k hold)
      · cases hr

/-- The writer stores to the EMPTY slot that it claims. -/
theorem Publishing.write (h : Publishing hashFn w s history) {idx : Fin slotCount} {slot : Slot}
    (hempty : (s.arena.slots idx).state = stateEmpty)
    (hinv : TableInv hashFn (s.arena.setSlot idx slot)) (hstate : slot.state ≠ stateTombstone)
    (hexpiry : slot.expiresAtMs = 0 ∨ slot.state ≠ stateOccupied)
    (hentry : slot.state = stateOccupied →
      .call w (.set slot.readKey slot.readValue 0) ∈ history)
    (hwriter : pc.Inserts hashFn (SetBy w history) (s.arena.setSlot idx slot))
    (hfollows : pc.Follows hashFn (s.arena.setSlot idx slot).held (s.arena.setSlot idx slot)) :
    Publishing hashFn w
      { arena := s.arena.setSlot idx slot, pc := Function.update s.pc w pc } history := by
  have hkept := Kept.write hempty slot
  have hheld := held_write hempty slot
  refine ⟨hinv, ?_, ?_, ?_, ?_, ?_, ?_, ?_, h.found, h.ordered⟩
  · intro j
    rw [Arena.setSlot_slots]
    split
    · exact hstate
    · exact h.noTombstone j
  · exact h.permanent.setSlot idx fun hocc => hexpiry.resolve_right fun hne => hne hocc
  · intro k v e hstores
    rcases stores_write hstores with hold | ⟨hocc, rfl, rfl, _⟩
    · exact h.entries k v e hold
    · exact hentry hocc
  · exact (Function.forall_update_iff s.pc (p := fun _ pc => pc.Follows hashFn
      (s.arena.setSlot idx slot).held (s.arena.setSlot idx slot))).mpr
        ⟨hfollows, fun d _ => (h.follows d).mono hkept hheld⟩
  · change (Function.update s.pc w pc w).Inserts hashFn _ (s.arena.setSlot idx slot)
    rw [Function.update_self]
    exact hwriter
  · intro d hd
    change (Function.update s.pc w pc d).Reads
    rw [Function.update_of_ne hd]
    exact h.readers d hd
  · intro d k hmem
    exact contains_write hempty slot (h.inserted d k hmem)

/-! ## One step -/

/-- The requests of the writer and of the readers. -/
def RequestBy (w c : ι) (request : Request) : Prop :=
  c = w ∧ (∃ key value, request = .set key value 0) ∨ c ≠ w ∧ ∃ key, request = .get key

/-- A client starts its operation, or its request is refused. -/
theorem Publishing.request (h : Publishing hashFn w s history) {request : Request} {now : UInt64}
    (hcalls : ∀ d request', .call d request' ∈ (s.record hashFn (c, .start request now)).toList →
      RequestBy w d request')
    (hkeys : (setKeys (history ++ (s.record hashFn (c, .start request now)).toList)).Nodup) :
    Publishing hashFn w (s.next hashFn (c, .start request now))
      (history ++ (s.record hashFn (c, .start request now)).toList) := by
  rcases System.start_cases hashFn s c request now with
    ⟨-, hadmitted, hnext, hrecord⟩ | ⟨-, hnext, hrecord⟩ | ⟨hnext, hrecord⟩
  · rw [hrecord] at hcalls hkeys
    rw [hnext, hrecord]
    have hret : ∀ d k result,
        Recorded.ret d k result ∉ (some (Recorded.call c request)).toList := by
      intro d k result hmem
      cases List.mem_singleton.mp hmem
    have hmove : ∀ task : Task, request.start now = .probe task 0 .state →
        (c = w → (Pc.probe task 0 .state).Inserts hashFn
          (SetBy w (history ++ [.call c request])) s.arena) →
        (c ≠ w → (Pc.probe task 0 .state).Reads) →
        Publishing hashFn w { s with pc := Function.update s.pc c (request.start now) }
          (history ++ (some (Recorded.call c request)).toList) := by
      intro task htask hwriter hreader
      rw [htask]
      exact h.quiet rfl (Pc.follows_first hashFn _ _ task) hwriter hreader
        (fun d k hmem => absurd hmem (hret d k _)) (fun d k r hmem => absurd hmem (hret d k _))
        (Nat.le_refl 1)
    rcases hcalls c request List.mem_cons_self with ⟨rfl, k, v, rfl⟩ | ⟨hc, k, rfl⟩
    · apply hmove (.set k v 0 none) (if_pos hadmitted) ?_ fun hne => absurd rfl hne
      intro _
      have hset : SetBy c (history ++ [.call c (.set k v 0)]) k v :=
        ⟨List.mem_append_right _ (List.mem_singleton.mpr rfl), hadmitted⟩
      refine ⟨k, v, rfl, hset, ?_⟩
      -- a stored key was set before, and keys are set once
      intro hcontains
      obtain ⟨idx, hocc, hkey⟩ := hcontains
      have hentry := h.entries k _ _ ⟨idx, hocc, hkey, rfl, rfl⟩
      have hold : k ∈ setKeys history := List.mem_filterMap.mpr ⟨_, hentry, rfl⟩
      have happend : setKeys (history ++ [.call c (.set k v 0)]) = setKeys history ++ [k] :=
        List.filterMap_append
      have hkeys' : (setKeys history ++ [k]).Nodup := happend ▸ hkeys
      exact List.disjoint_of_nodup_append hkeys' hold (List.mem_singleton.mpr rfl)
    · exact hmove (.get k) (if_pos hadmitted) (fun heq => absurd heq hc) fun _ => ⟨k, rfl⟩
  · rw [hnext, hrecord]
    exact h.quiet rfl trivial (fun _ => trivial) (fun _ => trivial)
      (fun d k hmem => absurd hmem List.not_mem_nil)
      (fun d k r hmem => absurd hmem List.not_mem_nil) (Nat.zero_le 1)
  · rw [hnext, hrecord]
    exact (List.append_nil history).symm ▸ h

/-- An access that leaves the slots alone. -/
theorem Publishing.read (h : Publishing hashFn w s history) {now : UInt64} {after : Arena}
    (hbusy : ¬ (s.pc c).resting = true)
    (haccess : (s.pc c).access hashFn s.arena now = (after, pc))
    (hslots : after.slots = s.arena.slots) (hfollows : pc.Follows hashFn s.arena.held s.arena)
    (hwriter : c = w → pc.Inserts hashFn (SetBy w history) s.arena) (hreader : c ≠ w → pc.Reads)
    (hinserted : ∀ k, pc = .done k (.set .inserted) → s.arena.Contains k)
    (hfound : ∀ k r, pc = .done k (.get r) →
      r = .notFound ∧ ¬ s.arena.Contains k ∨ ∃ v, .call w (.set k v 0) ∈ history ∧ r = .found v) :
    Publishing hashFn w (s.next hashFn (c, .access now))
      (history ++ (s.record hashFn (c, .access now)).toList) := by
  have hdone : ∀ d k result, Recorded.ret d k result ∈ (pc.ret? c).toList →
      pc = .done k result := by
    intro d k result hmem
    exact Pc.eq_done_of_ret? (Option.mem_toList.mp hmem)
  rw [System.record_access hbusy, System.next_access, haccess]
  apply h.quiet hslots hfollows
  · intro hc
    exact (hwriter hc).mono fun k v hset => hset.mono _
  · exact hreader
  · intro d k hmem
    exact hinserted k (hdone d k _ hmem)
  · intro d k r hmem
    exact hfound k r (hdone d k _ hmem)
  · cases pc.ret? c with
    | none => exact Nat.zero_le 1
    | some entry => exact Nat.le_refl 1

/-- An access of a reader. -/
theorem Publishing.access_reader (h : Publishing hashFn w s history) (hc : c ≠ w)
    (hbusy : ¬ (s.pc c).resting = true) (now : UInt64) :
    Publishing hashFn w (s.next hashFn (c, .access now))
      (history ++ (s.record hashFn (c, .access now)).toList) := by
  have hfollows := h.follows c
  have hreads := h.readers c hc
  have hwriter : ∀ pc : Pc, c = w → pc.Inserts hashFn (SetBy w history) s.arena :=
    fun _ heq => absurd heq hc
  cases hpc : s.pc c with
  | idle | done =>
      rw [hpc] at hbusy
      exact absurd rfl hbusy
  | probe task i point =>
      rw [hpc] at hfollows hreads
      obtain ⟨key, rfl⟩ := hreads
      obtain ⟨harena, hsought⟩ := h.settled.sought hfollows
      rw [← hpc] at harena hsought
      generalize hmoved : (s.pc c).access hashFn s.arena now = moved at harena hsought
      obtain ⟨after, pc⟩ := moved
      obtain rfl : after = s.arena := harena
      have habsent : ¬ s.arena.Contains key → pc = .done key (.get .notFound) →
          Publishing hashFn w (s.next hashFn (c, .access now))
            (history ++ (s.record hashFn (c, .access now)).toList) := by
        intro hgone hdone
        subst hdone
        apply h.read hbusy hmoved rfl trivial (hwriter _) (fun _ => trivial)
        · intro k heq
          cases heq
        · intro k r heq
          cases heq
          exact .inl ⟨rfl, hgone⟩
      cases hsought with
      | onward hnext =>
          apply h.read hbusy hmoved rfl hnext (hwriter _) (fun _ => ⟨key, rfl⟩)
          · intro k heq
            cases heq
          · intro k r heq
            cases heq
      | noted hstate _ => exact absurd hstate (h.noTombstone _)
      | exhausted hgone => exact habsent hgone rfl
      | empty _ _ _ hgone => exact habsent hgone rfl
      | key _ hheld hkey =>
          have hnext : (Pc.valLen key (probeIndex (hashFn key) i)).Follows hashFn s.arena.held
              s.arena := ⟨hheld, hkey⟩
          apply h.read hbusy hmoved rfl hnext (hwriter _) (fun _ => trivial)
          · intro k heq
            cases heq
          · intro k r heq
            cases heq
  | valLen key idx =>
      rw [hpc] at hfollows
      have hmoved : (s.pc c).access hashFn s.arena now =
          (s.arena, .valBuf key idx (s.arena.slots idx).valLen) := by rw [hpc]; rfl
      have hnext : (Pc.valBuf key idx (s.arena.slots idx).valLen).Follows hashFn s.arena.held
          s.arena := ⟨hfollows.1, hfollows.2, rfl⟩
      apply h.read hbusy hmoved rfl hnext (hwriter _) (fun _ => trivial)
      · intro k heq
        cases heq
      · intro k r heq
        cases heq
  | valBuf key idx len =>
      rw [hpc] at hfollows
      obtain ⟨hheld, hkey, rfl⟩ := hfollows
      have hmoved : (s.pc c).access hashFn s.arena now =
          (s.arena, .done key (.get (.found (s.arena.slots idx).readValue))) := by rw [hpc]; rfl
      apply h.read hbusy hmoved rfl trivial (hwriter _) (fun _ => trivial)
      · intro k heq
        cases heq
      · intro k r heq
        cases heq
        exact .inr ⟨_, h.entries key _ _ ⟨idx, hheld, hkey, rfl, rfl⟩, rfl⟩
  | delCas | update | claim | countInsert | countDelete =>
      rw [hpc] at hreads
      exact hreads.elim

/-- The store before the last of a claim, which prepares the slot. -/
theorem Publishing.prepare (h : Publishing hashFn w s history) {target : Fin slotCount}
    {next : ClaimPoint} {base : Slot} (hset : SetBy w history key value)
    (habsent : ¬ s.arena.Contains key)
    (hplace : ∃ d, d < slotCount ∧ target = probeIndex (hashFn key) d ∧
      ∀ m, m < d → (s.arena.probed (hashFn key) m).state ≠ stateEmpty)
    (hempty : (s.arena.slots target).state = stateEmpty) (hbase : base.state = stateEmpty) :
    Publishing hashFn w
      { arena := s.arena.setSlot target (next.stored (hashFn key) key value 0 base)
        pc := Function.update s.pc w (.claim key value 0 target true next) } history := by
  have hstate : (next.stored (hashFn key) key value 0 base).state = stateEmpty := by
    rw [ClaimPoint.stored_state]
    exact hbase
  have hfree : (next.stored (hashFn key) key value 0 base).state ≠ stateOccupied := by
    rw [hstate]
    exact stateEmpty_ne_stateOccupied
  have htomb : (next.stored (hashFn key) key value 0 base).state ≠ stateTombstone := by
    rw [hstate]
    exact stateEmpty_ne_stateTombstone
  refine h.write hempty (h.inv.prepare hempty hstate) htomb (.inr hfree)
    (fun hocc => absurd hocc hfree) ?_ trivial
  refine ⟨rfl, rfl, hset, ?_, ?_, ?_, base, ?_⟩
  · intro hcontains
    obtain ⟨j, hocc, hkey⟩ := hcontains
    rcases stores_write ⟨j, hocc, hkey, rfl, rfl⟩ with hold | ⟨hocc', _⟩
    · exact habsent hold.contains
    · exact hfree hocc'
  · obtain ⟨d, hd, htarget, hchain⟩ := hplace
    exact ⟨d, hd, htarget, fun m hm => (Kept.write hempty _).nonempty _ (hchain m hm)⟩
  · rw [Arena.setSlot_slots, if_pos rfl]
    exact hstate
  · rw [Arena.setSlot_slots, if_pos rfl]

/-- The last store of a claim, which publishes the entry. -/
theorem Publishing.publish (h : Publishing hashFn w s history) {target : Fin slotCount}
    {base : Slot} (hset : SetBy w history key value) (habsent : ¬ s.arena.Contains key)
    (hplace : ∃ d, d < slotCount ∧ target = probeIndex (hashFn key) d ∧
      ∀ m, m < d → (s.arena.probed (hashFn key) m).state ≠ stateEmpty)
    (hempty : (s.arena.slots target).state = stateEmpty) :
    Publishing hashFn w
      { arena := s.arena.setSlot target (claimSlot base (hashFn key) key value 0)
        pc := Function.update s.pc w (.countInsert key) } history := by
  obtain ⟨hcall, hk, hv⟩ := hset
  obtain ⟨d, hd, rfl, hchain⟩ := hplace
  have hkey : (claimSlot base (hashFn key) key value 0).readKey = key := claimSlot_readKey hk
  have hvalue : (claimSlot base (hashFn key) key value 0).readValue = value :=
    claimSlot_readValue hv
  refine h.write hempty (h.inv.claim hk hd (Arena.only_of_absent habsent) hchain base) stateOccupied_ne_stateTombstone
    (.inl rfl) ?_ ?_ trivial
  · intro _
    rw [hkey, hvalue]
    exact hcall
  · refine ⟨probeIndex (hashFn key) d, ?_, ?_⟩
    · rw [Arena.setSlot_slots, if_pos rfl]
      rfl
    · rw [Arena.setSlot_slots, if_pos rfl]
      exact hkey

/-- A store of the writer's claim. -/
theorem Publishing.access_claim (h : Publishing hashFn w s history) {target : Fin slotCount}
    {counted : Bool} {point : ClaimPoint}
    (hpc : s.pc w = .claim key value expiry target counted point) (now : UInt64) :
    Publishing hashFn w (s.next hashFn (w, .access now))
      (history ++ (s.record hashFn (w, .access now)).toList) := by
  have hbusy : ¬ (s.pc w).resting = true := by rw [hpc]; exact Bool.false_ne_true
  have hwriter := h.writer
  rw [hpc] at hwriter
  obtain ⟨rfl, rfl, hset, habsent, hplace, hempty, base, hbase⟩ := hwriter
  have hstate : base.state = stateEmpty := by
    rw [hbase, ClaimPoint.stored_state] at hempty
    exact hempty
  rw [System.record_access hbusy, System.next_access, hpc, Pc.access, claimAccess, hbase]
  cases hpoint : point.next with
  | some next =>
      rw [ClaimPoint.write_stored hpoint]
      exact (List.append_nil history).symm ▸ h.prepare hset habsent hplace hempty hstate
  | none =>
      rw [ClaimPoint.write_stored_last hpoint]
      exact (List.append_nil history).symm ▸ h.publish hset habsent hplace hempty

/-- An access of the writer. -/
theorem Publishing.access_writer (h : Publishing hashFn w s history)
    (hbusy : ¬ (s.pc w).resting = true) (now : UInt64) :
    Publishing hashFn w (s.next hashFn (w, .access now))
      (history ++ (s.record hashFn (w, .access now)).toList) := by
  have hfollows := h.follows w
  have hinserts := h.writer
  have hreader : ∀ pc : Pc, w ≠ w → pc.Reads := fun _ hne => absurd rfl hne
  cases hpc : s.pc w with
  | idle | done =>
      rw [hpc] at hbusy
      exact absurd rfl hbusy
  | probe task i point =>
      rw [hpc] at hfollows hinserts
      obtain ⟨key, value, rfl, hset, habsent⟩ := hinserts
      obtain ⟨harena, hsought⟩ := h.settled.sought hfollows
      rw [← hpc] at harena hsought
      generalize hmoved : (s.pc w).access hashFn s.arena now = moved at harena hsought
      obtain ⟨after, pc⟩ := moved
      obtain rfl : after = s.arena := harena
      cases hsought with
      | onward hnext =>
          apply h.read hbusy hmoved rfl hnext (fun _ => ⟨key, value, rfl, hset, habsent⟩)
            (hreader _)
          · intro k heq
            cases heq
          · intro k r heq
            cases heq
      | noted hstate _ => exact absurd hstate (h.noTombstone _)
      | exhausted =>
          apply h.read hbusy hmoved rfl trivial (fun _ => trivial) (hreader _)
          · intro k heq
            cases heq
          · intro k r heq
            cases heq
      | @empty e he hstate hpassed _ =>
          have hclaim : (Pc.claim key value 0 (probeIndex (hashFn key) e) true .keyBuf).Inserts
              hashFn (SetBy w history) s.arena :=
            ⟨rfl, rfl, hset, habsent, ⟨e, he, rfl, fun m hm => (hpassed m hm).nonempty⟩, hstate,
              _, rfl⟩
          apply h.read hbusy hmoved rfl trivial (fun _ => hclaim) (hreader _)
          · intro k heq
            cases heq
          · intro k r heq
            cases heq
      | key _ hheld hkey => exact absurd ⟨_, hheld, hkey⟩ habsent
  | claim key value expiry target counted point => exact h.access_claim hpc now
  | countInsert key =>
      rw [hpc] at hinserts
      have hmoved : (s.pc w).access hashFn s.arena now =
          (s.arena.fetchAddUsed, .done key (.set .inserted)) := by rw [hpc]; rfl
      apply h.read hbusy hmoved rfl trivial (fun _ => trivial) (hreader _)
      · intro k heq
        cases heq
        exact hinserts
      · intro k r heq
        cases heq
  | valLen | valBuf | update | delCas | countDelete =>
      rw [hpc] at hinserts
      exact hinserts.elim

/-- Step lemma: every access keeps the invariant. -/
theorem Publishing.access (h : Publishing hashFn w s history) (now : UInt64) :
    Publishing hashFn w (s.next hashFn (c, .access now))
      (history ++ (s.record hashFn (c, .access now)).toList) := by
  by_cases hrest : (s.pc c).resting = true
  · obtain ⟨hnext, hrecord⟩ := System.next_access_resting hrest
    rw [hnext, hrecord]
    exact (List.append_nil history).symm ▸ h
  · by_cases hc : c = w
    · rw [hc] at hrest ⊢
      exact h.access_writer hrest now
    · exact h.access_reader hc hrest now

/-- Run lemma: the invariant holds after every run of one writer and any readers. -/
theorem publishing_of_run {region : Arena} {inputs : List (ι × Event)}
    (hcalls : ∀ c request, .call c request ∈ (System.fresh region).history hashFn inputs →
      RequestBy w c request)
    (hkeys : (setKeys ((System.fresh region : System ι).history hashFn inputs)).Nodup) :
    Publishing hashFn w (Run.final (System.next hashFn) (System.fresh region) inputs)
      ((System.fresh region).history hashFn inputs) := by
  induction inputs using List.reverseRecOn with
  | nil => exact .fresh hashFn w region
  | append_singleton inputs input ih =>
      rw [System.history_concat] at hcalls hkeys ⊢
      rw [Run.final_append]
      have hold := hkeys
      rw [setKeys, List.filterMap_append] at hold
      have hbefore := ih (fun c request hmem => hcalls c request (List.mem_append_left _ hmem))
        hold.of_append_left
      obtain ⟨c, event⟩ := input
      cases event with
      | start request now =>
          exact hbefore.request
            (fun d request' hmem => hcalls d request' (List.mem_append_right _ hmem)) hkeys
      | access now => exact hbefore.access now

/-- **Publication is safe.**  One client calls `set` without expiry, with keys that are pairwise
distinct, and all others call `get`.  Every `get` finds nothing or exactly the value that was set
for its key; a `get` that returns after the `set` of its key has returned `Inserted` finds that
value; and a `get` of a key that is never set finds nothing. -/
theorem publication_safe (hashFn : Bytes → UInt64) (region : Arena) (w : ι)
    (inputs : List (ι × Event))
    (hcalls : ∀ c request, .call c request ∈ (System.fresh region).history hashFn inputs →
      RequestBy w c request)
    (hkeys : (setKeys ((System.fresh region : System ι).history hashFn inputs)).Nodup) :
    let history := (System.fresh region : System ι).history hashFn inputs
    (∀ c k r, .ret c k (.get r) ∈ history →
      r = .notFound ∨ ∃ v, .call w (.set k v 0) ∈ history ∧ r = .found v) ∧
    (∀ before after, history = before ++ after → ∀ c k v r,
      .call w (.set k v 0) ∈ history → .ret w k (.set .inserted) ∈ before →
        .ret c k (.get r) ∈ after → r = .found v) ∧
    ∀ c k r, (∀ v, .call w (.set k v 0) ∉ history) → .ret c k (.get r) ∈ history →
      r = .notFound := by
  intro history
  have h := publishing_of_run hcalls hkeys
  refine ⟨h.found, ?_, ?_⟩
  · intro before after heq c k v r hcall hinserted hret
    have hordered : (before ++ after).Pairwise fun entry entry' => ∀ c d k,
      entry = .ret c k (.set .inserted) → entry' ≠ .ret d k (.get .notFound) := heq ▸ h.ordered
    have hmem : .ret c k (.get r) ∈ history := heq ▸ List.mem_append_right _ hret
    rcases h.found c k r hmem with rfl | ⟨v', hcall', rfl⟩
    · have hapart := (List.pairwise_append.mp hordered).2.2 _ hinserted _ hret
      exact absurd rfl (hapart w c k rfl)
    · rw [eq_of_setKeys_nodup hkeys hcall hcall']
  · intro c k r hnever hret
    rcases h.found c k r hret with hr | ⟨v, hcall, _⟩
    · exact hr
    · exact absurd hcall (hnever v)

end Writer

/-! ## A write between two reads -/

section Clients

/-- Numerals name the writer and the reader. -/
local instance publishClients : NeZero 2 := inferInstance

/-- The second client reads while the claim lacks its last two stores, and again afterwards. -/
def publishRun : List (Fin 2 × Event) :=
  (0, .start (.set [107] [1] 0) 0) :: accesses 0 6 ++
    (1, .start (.get [107]) 0) :: accesses 1 1 ++ accesses 0 3 ++
      (1, .start (.get [107]) 0) :: accesses 1 7

end Clients

theorem publishRun_history : (System.fresh zeroedRegion).history siphash publishRun =
    [.call 0 (.set [107] [1] 0), .call 1 (.get [107]), .ret 1 [107] (.get .notFound),
      .ret 0 [107] (.set .inserted), .call 1 (.get [107]), .ret 1 [107] (.get (.found [1]))] := by
  decide +kernel

theorem publication_safe_overlap :
    .ret 1 [107] (.get (.found [1])) ∈
        ((System.fresh zeroedRegion).history siphash publishRun).drop 4 ∧
      ∀ r, .ret 1 [107] (.get r) ∈
          ((System.fresh zeroedRegion).history siphash publishRun).drop 4 → r = .found [1] := by
  have hcalls : ∀ c request,
      .call c request ∈ (System.fresh zeroedRegion).history siphash publishRun →
        RequestBy 0 c request := by
    intro c request hmem
    rw [publishRun_history] at hmem
    simp at hmem
    rcases hmem with ⟨rfl, rfl⟩ | ⟨rfl, rfl⟩
    · exact .inl ⟨rfl, _, _, rfl⟩
    · exact .inr ⟨by decide, _, rfl⟩
  have hkeys : (setKeys ((System.fresh zeroedRegion).history siphash publishRun)).Nodup := by
    rw [publishRun_history]
    exact List.nodup_singleton _
  have hfound : .ret 1 [107] (.get (.found [1])) ∈
      ((System.fresh zeroedRegion).history siphash publishRun).drop 4 := by
    rw [publishRun_history]
    simp
  refine ⟨hfound, ?_⟩
  intro r hmem
  obtain ⟨_, hafter, _⟩ := publication_safe siphash zeroedRegion 0 publishRun hcalls hkeys
  apply hafter _ _ (List.take_append_drop 4 _).symm 1 [107] [1] r ?_ ?_ hmem
  · rw [publishRun_history]
    exact List.mem_cons_self
  · rw [publishRun_history]
    simp

end MemLane
