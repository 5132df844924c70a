import MemLane.SettledSlots
import MemLane.Occupancy
import MemLane.ReadHistory

/-!
# Concurrent deletes

Clients that delete and read share an arena whose entries do not expire, one slot access at
a time.  Slots only change from OCCUPIED to TOMBSTONE, and each change is the successful
exchange of one `del`, which then owns the deletion: it takes one off the counter and
reports it.

`exists` is a `get` whose value is dropped, so its accesses are those of a `get`.
-/

namespace MemLane

/-- The slots are those of `start`, but for OCCUPIED ones that have been buried. -/
def Thinned (start arena : Arena) : Prop :=
  ∀ idx, arena.slots idx = start.slots idx ∨
    (start.slots idx).state = stateOccupied ∧ arena.slots idx = (start.slots idx).buried

variable {hashFn : Bytes → UInt64} {start arena : Arena} {key value k : Bytes}

/-! ## Thinned arenas -/

theorem Slot.buried_sameData (slot : Slot) : slot.SameData slot.buried := ⟨rfl, rfl, rfl, rfl⟩

theorem Thinned.slot_of_occupied (h : Thinned start arena) {idx : Fin slotCount}
    (hocc : (arena.slots idx).state = stateOccupied) : arena.slots idx = start.slots idx := by
  rcases h idx with heq | ⟨_, heq⟩
  · exact heq
  · rw [heq] at hocc
    exact absurd hocc stateTombstone_ne_stateOccupied

theorem Thinned.sameData (h : Thinned start arena) (idx : Fin slotCount) :
    (start.slots idx).SameData (arena.slots idx) := by
  rcases h idx with heq | ⟨_, heq⟩
  · rw [heq]
    exact .refl _
  · rw [heq]
    exact Slot.buried_sameData _

theorem Thinned.settled (h : Thinned start arena) (hinv : TableInv hashFn arena)
    (hperm : start.Permanent) : Settled hashFn start.held arena where
  inv := hinv
  occupied := by
    intro idx hocc
    rw [h.slot_of_occupied hocc] at hocc
    exact hocc
  nonempty := by
    intro idx hheld
    have hstate : (start.slots idx).state = stateOccupied := hheld
    rcases h idx with heq | ⟨_, heq⟩
    · rw [heq, hstate]
      exact stateOccupied_ne_stateEmpty
    · rw [heq]
      exact stateTombstone_ne_stateEmpty
  permanent := by
    intro idx hheld
    rcases h idx with heq | ⟨_, heq⟩
    · rw [heq]
      exact hperm idx hheld
    · rw [heq]
      exact hperm idx hheld

/-- Burying one more slot. -/
theorem Thinned.bury (h : Thinned start arena) {idx : Fin slotCount}
    (hocc : (arena.slots idx).state = stateOccupied) :
    Thinned start (arena.setSlot idx (arena.slots idx).buried) := by
  intro j
  rw [Arena.setSlot_slots]
  split
  · next hj =>
      rw [hj]
      have heq := h.slot_of_occupied hocc
      rw [heq] at hocc ⊢
      exact .inr ⟨hocc, rfl⟩
  · exact h j

theorem Kept.bury (start arena : Arena) (idx : Fin slotCount) :
    Kept start.held arena (arena.setSlot idx (arena.slots idx).buried) where
  nonempty := by
    intro j hne
    rw [Arena.setSlot_slots]
    split
    · exact stateTombstone_ne_stateEmpty
    · exact hne
  occupied := by
    intro j _ hocc
    rw [Arena.setSlot_slots] at hocc ⊢
    split
    · next hj =>
        rw [if_pos hj] at hocc
        exact absurd hocc stateTombstone_ne_stateOccupied
    · rfl
  data := by
    intro j _
    apply Arena.setSlot_sameData
    intro hj
    rw [hj]
    exact Slot.buried_sameData _

/-- Burying the slot of a key removes this key and no other. -/
theorem contains_bury_iff (hinv : TableInv hashFn arena) {idx : Fin slotCount}
    (hocc : (arena.slots idx).state = stateOccupied) (hkey : (arena.slots idx).readKey = key) :
    (arena.setSlot idx (arena.slots idx).buried).Contains k ↔ k ≠ key ∧ arena.Contains k := by
  constructor
  · intro h
    obtain ⟨j, hj, hjk⟩ := h
    rw [Arena.setSlot_slots] at hj hjk
    split at hj
    · exact absurd hj stateTombstone_ne_stateOccupied
    · next hne =>
        rw [if_neg hne] at hjk
        refine ⟨?_, j, hj, hjk⟩
        intro hk
        exact hne (hinv.slot_unique hj hocc (by rw [hjk, hkey, hk]))
  · intro h
    obtain ⟨hne, j, hj, hjk⟩ := h
    have hji : j ≠ idx := by
      intro heq
      rw [heq] at hjk
      exact hne (hjk.symm.trans hkey)
    refine ⟨j, ?_, ?_⟩
    · rw [Arena.setSlot_slots, if_neg hji]
      exact hj
    · rw [Arena.setSlot_slots, if_neg hji]
      exact hjk

theorem Thinned.contains (h : Thinned start arena) (hcontains : arena.Contains k) :
    start.Contains k := by
  obtain ⟨idx, hocc, hkey⟩ := hcontains
  have heq := h.slot_of_occupied hocc
  rw [heq] at hocc hkey
  exact ⟨idx, hocc, hkey⟩

/-! ## Clients that delete and read -/

/-- The client executes no `set`. -/
def Pc.NoSet : Pc → Prop
  | .probe task _ _ => ∃ key, task = .get key ∨ task = .del key
  | .update .. | .claim .. | .countInsert _ => False
  | _ => True

/-- The client is in a `del` of the key and has removed nothing yet. -/
def Pc.Deletes (key : Bytes) (pc : Pc) : Prop :=
  (∃ i point, pc = .probe (.del key) i point) ∨ ∃ i, pc = .delCas key i

/-- The client has removed the key and has not counted it yet. -/
def Pc.Removed (key : Bytes) (pc : Pc) : Prop := pc = .countDelete key

/-- What a result says about the arena at the start and now. -/
def OpResult.Fits (start arena : Arena) (key : Bytes) : OpResult → Prop
  | .get (.found value) => start.Stores key value 0
  | .get .notFound | .del .notFound => ¬ arena.Contains key
  | .del .deleted => True
  | _ => False

/-- A result goes on to fit while keys disappear. -/
theorem OpResult.Fits.mono {after : Arena} {result : OpResult} (h : result.Fits start arena k)
    (hgone : ¬ arena.Contains k → ¬ after.Contains k) : result.Fits start after k := by
  cases result with
  | set r => exact h
  | get r =>
      cases r with
      | notFound => exact hgone h
      | _ => exact h
  | del r =>
      cases r with
      | notFound => exact hgone h
      | deleted => trivial

section Race

variable {ι : Type*}

/-- The key of a deletion that was reported. -/
def Recorded.deleted? : Recorded ι → Option Bytes
  | .ret _ key (.del .deleted) => some key
  | _ => none

/-- The keys of the deletions that were reported, in order. -/
def deletions (history : List (Recorded ι)) : List Bytes := history.filterMap Recorded.deleted?

/-- The invariant of clients that delete and read. -/
structure Deleting (hashFn : Bytes → UInt64) (start : Arena) (s : System ι)
    (history : List (Recorded ι)) : Prop where
  inv : TableInv hashFn s.arena
  thinned : Thinned start s.arena
  noSet : ∀ c, (s.pc c).NoSet
  follows : ∀ c, (s.pc c).Follows hashFn start.held s.arena
  counted : usedCount s.arena + UInt64.ofNat (deletions history).length = usedCount start
  once : (deletions history).Nodup
  owned : ∀ c k, (s.pc c).Removed k →
    k ∉ deletions history ∧ ∀ d, (s.pc d).Removed k → d = c
  removed : ∀ k, start.Contains k ∧ ¬ s.arena.Contains k ↔
    k ∈ deletions history ∨ ∃ c, (s.pc c).Removed k
  called : ∀ c k, .call c (.del k) ∈ history → ¬ s.arena.Contains k ∨ ∃ d, (s.pc d).Deletes k
  returned : ∀ c k result, .ret c k result ∈ history → result.Fits start s.arena k

variable {s : System ι} {history entries : List (Recorded ι)} {c : ι} {pc : Pc}

theorem deletions_append : deletions (history ++ entries) = deletions history ++ deletions entries :=
  List.filterMap_append

theorem deletions_eq_nil (h : ∀ entry ∈ entries, entry.deleted? = none) : deletions entries = [] :=
  List.filterMap_eq_nil_iff.mpr h

/-- Nothing has happened yet. -/
theorem Deleting.init (hinv : TableInv hashFn s.arena) (hrest : ∀ c, (s.pc c).resting = true) :
    Deleting hashFn s.arena s [] := by
  have hshape : ∀ c, (s.pc c).NoSet ∧ (s.pc c).Follows hashFn s.arena.held s.arena ∧
      ∀ k, ¬ (s.pc c).Removed k := by
    intro c
    have hc := hrest c
    cases hpc : s.pc c with
    | idle => exact ⟨trivial, trivial, fun k h => by cases h⟩
    | done key result => exact ⟨trivial, trivial, fun k h => by cases h⟩
    | _ =>
        rw [hpc] at hc
        cases hc
  refine ⟨hinv, fun idx => .inl rfl, fun c => (hshape c).1, fun c => (hshape c).2.1,
    UInt64.add_zero _, List.nodup_nil, ?_, ?_, ?_, ?_⟩
  · intro c k hremoved
    exact ((hshape c).2.2 k hremoved).elim
  · intro k
    constructor
    · intro h
      exact (h.2 h.1).elim
    · intro h
      rcases h with hmem | ⟨c, hremoved⟩
      · exact absurd hmem List.not_mem_nil
      · exact ((hshape c).2.2 k hremoved).elim
  · intro c k hmem
    exact absurd hmem List.not_mem_nil
  · intro c k result hmem
    exact absurd hmem List.not_mem_nil

variable [DecidableEq ι]

/-! ## Who owns a deletion

A deletion belongs to the client that has removed the key, and when it has been reported, to
the history. -/

/-- One client moves on. -/
theorem removed_update_iff {pcs : ι → Pc} {d : ι} :
    (Function.update pcs c pc d).Removed k ↔
      d = c ∧ pc.Removed k ∨ d ≠ c ∧ (pcs d).Removed k := by
  by_cases hd : d = c
  · rw [hd, Function.update_self]
    exact ⟨fun hk => .inl ⟨rfl, hk⟩, fun hk => hk.elim (fun h => h.2) fun h => absurd rfl h.1⟩
  · rw [Function.update_of_ne hd]
    exact ⟨fun hk => .inr ⟨hd, hk⟩, fun hk => hk.elim (fun h => absurd h.1 hd) fun h => h.2⟩

/-- The client that removes a key owns its deletion. -/
theorem owned_remove_iff (hbefore : ∀ k, ¬ (s.pc c).Removed k) :
    (k ∈ deletions history ∨ ∃ d, (Function.update s.pc c (.countDelete key) d).Removed k) ↔
      k = key ∨ k ∈ deletions history ∨ ∃ d, (s.pc d).Removed k := by
  constructor
  · intro hk
    rcases hk with hmem | ⟨d, hd⟩
    · exact .inr (.inl hmem)
    · rcases removed_update_iff.mp hd with ⟨_, hkey⟩ | ⟨_, hd⟩
      · cases hkey
        exact .inl rfl
      · exact .inr (.inr ⟨d, hd⟩)
  · intro hk
    rcases hk with rfl | hmem | ⟨d, hd⟩
    · exact .inr ⟨c, removed_update_iff.mpr (.inl ⟨rfl, rfl⟩)⟩
    · exact .inl hmem
    · refine .inr ⟨d, removed_update_iff.mpr (.inr ⟨?_, hd⟩)⟩
      intro hdc
      exact hbefore k (hdc ▸ hd)

/-- A report hands the deletion over to the history. -/
theorem owned_report_iff (hpc : s.pc c = .countDelete key) (hafter : ∀ k, ¬ pc.Removed k) :
    (k ∈ deletions history ++ [key] ∨ ∃ d, (Function.update s.pc c pc d).Removed k) ↔
      k ∈ deletions history ∨ ∃ d, (s.pc d).Removed k := by
  constructor
  · intro hk
    rcases hk with hmem | ⟨d, hd⟩
    · rcases List.mem_append.mp hmem with hmem | hmem
      · exact .inl hmem
      · rw [List.mem_singleton.mp hmem]
        exact .inr ⟨c, hpc⟩
    · rcases removed_update_iff.mp hd with ⟨_, hk⟩ | ⟨_, hd⟩
      · exact (hafter k hk).elim
      · exact .inr ⟨d, hd⟩
  · intro hk
    rcases hk with hmem | ⟨d, hd⟩
    · exact .inl (List.mem_append_left _ hmem)
    · by_cases hdc : d = c
      · rw [hdc, hpc] at hd
        cases hd
        exact .inl (List.mem_append_right _ (List.mem_singleton.mpr rfl))
      · exact .inr ⟨d, removed_update_iff.mpr (.inr ⟨hdc, hd⟩)⟩

/-! ## Moves that write nothing -/

/-- A client moves on without writing to the arena, and without having removed anything. -/
theorem Deleting.quiet (h : Deleting hashFn start s history) (hnoSet : pc.NoSet)
    (hfollows : pc.Follows hashFn start.held s.arena)
    (hbefore : ∀ k, ¬ (s.pc c).Removed k) (hafter : ∀ k, ¬ pc.Removed k)
    (hdeletes : ∀ k, (s.pc c).Deletes k → pc.Deletes k ∨ ¬ s.arena.Contains k)
    (hnone : ∀ entry ∈ entries, entry.deleted? = none)
    (hcall : ∀ d k, .call d (.del k) ∈ entries → pc.Deletes k)
    (hret : ∀ d k result, .ret d k result ∈ entries → result.Fits start s.arena k) :
    Deleting hashFn start { s with pc := Function.update s.pc c pc } (history ++ entries) := by
  have hdeletions : deletions (history ++ entries) = deletions history := by
    rw [deletions_append, deletions_eq_nil hnone, List.append_nil]
  have hremoved : ∀ d k, (Function.update s.pc c pc d).Removed k ↔ (s.pc d).Removed k := by
    intro d k
    by_cases hd : d = c
    · rw [hd, Function.update_self]
      exact iff_of_false (hafter k) (hbefore k)
    · rw [Function.update_of_ne hd]
  refine ⟨h.inv, h.thinned, ?_, ?_, ?_, ?_, ?_, ?_, ?_, ?_⟩
  · exact (Function.forall_update_iff s.pc (p := fun _ pc => pc.NoSet)).mpr
      ⟨hnoSet, fun d _ => h.noSet d⟩
  · exact (Function.forall_update_iff s.pc
      (p := fun _ pc => pc.Follows hashFn start.held s.arena)).mpr
        ⟨hfollows, fun d _ => h.follows d⟩
  · rw [hdeletions]
    exact h.counted
  · rw [hdeletions]
    exact h.once
  · intro d k hd
    obtain ⟨hmem, hunique⟩ := h.owned d k ((hremoved d k).mp hd)
    rw [hdeletions]
    exact ⟨hmem, fun e he => hunique e ((hremoved e k).mp he)⟩
  · intro k
    rw [hdeletions]
    exact (h.removed k).trans (or_congr_right (exists_congr fun d => (hremoved d k).symm))
  · intro d k hmem
    rw [Function.exists_update_iff s.pc (p := fun _ pc => pc.Deletes k)]
    rcases List.mem_append.mp hmem with hold | hnew
    · rcases h.called d k hold with hgone | ⟨e, he⟩
      · exact .inl hgone
      · by_cases hec : e = c
        · rw [hec] at he
          rcases hdeletes k he with hnow | hgone
          · exact .inr (.inl hnow)
          · exact .inl hgone
        · exact .inr (.inr ⟨e, hec, he⟩)
    · exact .inr (.inl (hcall d k hnew))
  · intro d k result hmem
    rcases List.mem_append.mp hmem with hold | hnew
    · exact h.returned d k result hold
    · exact hret d k result hnew

/-! ## One step -/

theorem Pc.not_removed_of_resting (h : pc.resting = true) : ¬ pc.Removed k := by
  intro hremoved
  rw [hremoved] at h
  cases h

theorem Pc.not_deletes_of_resting (h : pc.resting = true) : ¬ pc.Deletes k := by
  intro hdeletes
  rcases hdeletes with ⟨i, point, rfl⟩ | ⟨i, rfl⟩
  · cases h
  · cases h

theorem Pc.not_deletes_of_read
    (h : (∃ key idx, pc = .valLen key idx) ∨ ∃ key idx len, pc = .valBuf key idx len) :
    ¬ pc.Deletes k := by
  intro hdeletes
  rcases hdeletes with ⟨i, point, rfl⟩ | ⟨i, rfl⟩
  · rcases h with ⟨_, _, h⟩ | ⟨_, _, _, h⟩
    · cases h
    · cases h
  · rcases h with ⟨_, _, h⟩ | ⟨_, _, _, h⟩
    · cases h
    · cases h

/-- A client starts a `get` or a `del`, or its request is refused. -/
theorem Deleting.request (h : Deleting hashFn start s history) {request : Request} {now : UInt64}
    (hrequest : ∀ d request', .call d request' ∈ (s.record hashFn (c, .start request now)).toList →
      ∃ k, request' = .get k ∨ request' = .del k) :
    Deleting hashFn start (s.next hashFn (c, .start request now))
      (history ++ (s.record hashFn (c, .start request now)).toList) := by
  rcases System.start_cases hashFn s c request now with
    ⟨hrest, hadmitted, hnext, hrecord⟩ | ⟨hrest, hnext, hrecord⟩ | ⟨hnext, hrecord⟩
  · rw [hrecord] at hrequest
    rw [hnext, hrecord]
    have hstart : ∀ task : Task, (∃ k, task = .get k ∨ task = .del k) →
        request.start now = .probe task 0 .state →
        (∀ d k, Recorded.call d (.del k) ∈ [Recorded.call c request] → task = .del k) →
        Deleting hashFn start { s with pc := Function.update s.pc c (request.start now) }
          (history ++ (some (Recorded.call c request)).toList) := by
      intro task hshape htask hcall
      have hnoSet : (Pc.probe task 0 .state).NoSet := hshape
      rw [htask]
      apply h.quiet hnoSet (Pc.follows_first hashFn start.held s.arena task)
        (fun k => Pc.not_removed_of_resting hrest) (fun k hk => by cases hk)
        (fun k hk => (Pc.not_deletes_of_resting hrest hk).elim)
      · intro entry hmem
        obtain rfl := List.mem_singleton.mp hmem
        rfl
      · intro d k hmem
        exact .inl ⟨0, .state, by rw [hcall d k hmem]⟩
      · intro d k result hmem
        cases List.mem_singleton.mp hmem
    rcases hrequest c request List.mem_cons_self with ⟨k, rfl | rfl⟩
    · apply hstart (.get k) ⟨k, .inl rfl⟩ (if_pos hadmitted)
      intro d k' hmem
      cases List.mem_singleton.mp hmem
    · apply hstart (.del k) ⟨k, .inr rfl⟩ (if_pos hadmitted)
      intro d k' hmem
      cases List.mem_singleton.mp hmem
      rfl
  · rw [hnext, hrecord]
    exact h.quiet trivial trivial (fun k => Pc.not_removed_of_resting hrest)
      (fun k hk => by cases hk) (fun k hk => (Pc.not_deletes_of_resting hrest hk).elim)
      (fun entry hmem => absurd hmem List.not_mem_nil)
      (fun d k hmem => absurd hmem List.not_mem_nil)
      (fun d k result hmem => absurd hmem List.not_mem_nil)
  · rw [hnext, hrecord]
    exact (List.append_nil history).symm ▸ h

/-- A client that was at `before` moves to `pc`, and does not write. -/
structure ReadsOn (hashFn : Bytes → UInt64) (start arena : Arena) (before pc : Pc) : Prop where
  noSet : pc.NoSet
  follows : pc.Follows hashFn start.held arena
  removed : ∀ k, ¬ pc.Removed k
  deletes : ∀ k, before.Deletes k → pc.Deletes k ∨ ¬ arena.Contains k
  result : ∀ k result, pc = .done k result →
    result ≠ .del .deleted ∧ result.Fits start arena k

/-- An access that does not write. -/
theorem Deleting.read (h : Deleting hashFn start s history) {before : Pc} {now : UInt64}
    (hpc : s.pc c = before) (hbusy : ¬ before.resting = true)
    (haccess : before.access hashFn s.arena now = (s.arena, pc))
    (hbefore : ∀ k, ¬ before.Removed k) (hmove : ReadsOn hashFn start s.arena before pc) :
    Deleting hashFn start (s.next hashFn (c, .access now))
      (history ++ (s.record hashFn (c, .access now)).toList) := by
  subst hpc
  have hdone : ∀ d k result, Recorded.ret d k result ∈ (pc.ret? c).toList →
      pc = .done k result := by
    intro d k result hmem
    exact Pc.eq_done_of_ret? (Option.mem_toList.mp hmem)
  have hcall : ∀ d request, Recorded.call d request ∉ (pc.ret? c).toList := by
    intro d request hmem
    have hret := Option.mem_toList.mp hmem
    cases pc with
    | done key result => cases hret
    | _ => cases hret
  rw [System.record_access hbusy, System.next_access, haccess]
  apply h.quiet hmove.noSet hmove.follows hbefore hmove.removed hmove.deletes
  · intro entry hmem
    cases entry with
    | call d request => rfl
    | ret d k result =>
        obtain ⟨hne, _⟩ := hmove.result k result (hdone d k result hmem)
        cases result with
        | del r =>
            cases r with
            | deleted => exact absurd rfl hne
            | notFound => rfl
        | _ => rfl
  · intro d k hmem
    exact absurd hmem (hcall d _)
  · intro d k result hmem
    exact (hmove.result k result (hdone d k result hmem)).2

theorem ReadsOn.probe {before : Pc} {task : Task} {next : Nat} {point : Point}
    (htask : ∃ key, task = .get key ∨ task = .del key)
    (hfollows : (Pc.probe task next point).Follows hashFn start.held arena)
    (hbefore : ∀ k, before.Deletes k → task = .del k) :
    ReadsOn hashFn start arena before (.probe task next point) where
  noSet := htask
  follows := hfollows
  removed := fun k hk => by cases hk
  deletes := by
    intro k hk
    rw [hbefore k hk]
    exact .inl (.inl ⟨next, point, rfl⟩)
  result := fun k result hdone => by cases hdone

/-- A search that ends without its key. -/
theorem ReadsOn.absent {before : Pc} {result : OpResult}
    (habsent : ¬ arena.Contains key) (hresult : result = .get .notFound ∨ result = .del .notFound)
    (hbefore : ∀ k, before.Deletes k → k = key) :
    ReadsOn hashFn start arena before (.done key result) where
  noSet := trivial
  follows := trivial
  removed := fun k hk => by cases hk
  deletes := by
    intro k hk
    rw [hbefore k hk]
    exact .inr habsent
  result := by
    intro k result' hdone
    cases hdone
    rcases hresult with rfl | rfl
    · exact ⟨by decide, habsent⟩
    · exact ⟨by decide, habsent⟩

theorem Pc.Deletes.probe {task : Task} {i : Nat} {point : Point}
    (h : (Pc.probe task i point).Deletes k) : task = .del k := by
  rcases h with ⟨_, _, heq⟩ | ⟨_, heq⟩
  · cases heq
    rfl
  · cases heq

theorem Pc.Deletes.unique {key' : Bytes} (h : pc.Deletes key) (h' : pc.Deletes key') :
    key = key' := by
  rcases h with ⟨_, _, rfl⟩ | ⟨_, rfl⟩
  · cases h'.probe
    rfl
  · rcases h' with ⟨_, _, heq⟩ | ⟨_, heq⟩
    · cases heq
    · cases heq
      rfl

/-- Where a search of a `get` or `del` goes. -/
theorem Sought.readsOn {task : Task} {i : Nat} {point : Point}
    (h : Sought hashFn start.held arena task i pc)
    (htask : ∃ key, task = .get key ∨ task = .del key) :
    ReadsOn hashFn start arena (.probe task i point) pc := by
  have hsame : ∀ k, (Pc.probe task i point).Deletes k → task = .del k := fun k hk => hk.probe
  have hkey : ∀ k, (Pc.probe task i point).Deletes k → k = task.key := by
    intro k hk
    rw [hk.probe]
    rfl
  have hnote : ∀ idx, task.note idx = task := by
    intro idx
    rcases htask with ⟨key, rfl | rfl⟩
    · rfl
    · rfl
  cases h with
  | onward hfollows => exact .probe htask hfollows hsame
  | noted _ hfollows =>
      rw [hnote] at hfollows ⊢
      exact .probe htask hfollows hsame
  | exhausted hgone =>
      rcases htask with ⟨key, rfl | rfl⟩
      · exact .absent hgone (.inl rfl) hkey
      · exact .absent hgone (.inr rfl) hkey
  | empty _ _ _ hgone =>
      rcases htask with ⟨key, rfl | rfl⟩
      · exact .absent hgone (.inl rfl) hkey
      · exact .absent hgone (.inr rfl) hkey
  | key hpassed hheld hfound =>
      rcases htask with ⟨key, rfl | rfl⟩
      · refine ⟨trivial, ⟨hheld, hfound⟩, ?_, ?_, ?_⟩
        · intro k hk
          cases hk
        · intro k hk
          cases hsame k hk
        · intro k result hdone
          cases hdone
      · refine ⟨trivial, ⟨hpassed, hheld, hfound⟩, ?_, ?_, ?_⟩
        · intro k hk
          cases hk
        · intro k hk
          cases hsame k hk
          exact .inl (.inr ⟨i, rfl⟩)
        · intro k result hdone
          cases hdone

/-- The exchange of a `del` succeeds: the client owns the deletion. -/
theorem Deleting.remove (h : Deleting hashFn start s history) {idx : Fin slotCount}
    (hocc : (s.arena.slots idx).state = stateOccupied)
    (hkey : (s.arena.slots idx).readKey = key) (hpc : (s.pc c).Deletes key) :
    Deleting hashFn start
      { arena := s.arena.setSlot idx (s.arena.slots idx).buried
        pc := Function.update s.pc c (.countDelete key) } history := by
  have hcontains : ∀ k, (s.arena.setSlot idx (s.arena.slots idx).buried).Contains k ↔
      k ≠ key ∧ s.arena.Contains k := fun k => contains_bury_iff h.inv hocc hkey
  have hstored : s.arena.Contains key := ⟨idx, hocc, hkey⟩
  have hunowned : ¬ (key ∈ deletions history ∨ ∃ d, (s.pc d).Removed key) :=
    fun howned => ((h.removed key).mpr howned).2 hstored
  have hbefore : ∀ k, ¬ (s.pc c).Removed k := by
    intro k hk
    rw [hk] at hpc
    rcases hpc with ⟨_, _, hpc⟩ | ⟨_, hpc⟩
    · cases hpc
    · cases hpc
  have hkept := Kept.bury start s.arena idx
  refine ⟨h.inv.bury hocc, h.thinned.bury hocc, ?_, ?_, h.counted, h.once, ?_, ?_, ?_, ?_⟩
  · exact (Function.forall_update_iff s.pc (p := fun _ pc => pc.NoSet)).mpr
      ⟨trivial, fun d _ => h.noSet d⟩
  · exact (Function.forall_update_iff s.pc (p := fun _ pc => pc.Follows hashFn start.held
      (s.arena.setSlot idx (s.arena.slots idx).buried))).mpr
        ⟨trivial, fun d _ => (h.follows d).mono hkept fun _ hheld => hheld⟩
  · intro d k hd
    rcases removed_update_iff.mp hd with ⟨rfl, hk⟩ | ⟨_, hold⟩
    · cases hk
      refine ⟨fun hmem => hunowned (.inl hmem), ?_⟩
      intro e he
      rcases removed_update_iff.mp he with ⟨rfl, _⟩ | ⟨_, he⟩
      · rfl
      · exact (hunowned (.inr ⟨e, he⟩)).elim
    · obtain ⟨hmem, hunique⟩ := h.owned d k hold
      refine ⟨hmem, ?_⟩
      intro e he
      rcases removed_update_iff.mp he with ⟨_, hk⟩ | ⟨_, he⟩
      · cases hk
        exact (hunowned (.inr ⟨d, hold⟩)).elim
      · exact hunique e he
  · intro k
    rw [owned_remove_iff hbefore, ← h.removed k, hcontains]
    by_cases hk : k = key
    · subst hk
      exact iff_of_true ⟨h.thinned.contains hstored, fun hboth => hboth.1 rfl⟩ (.inl rfl)
    · constructor
      · intro hgone
        exact .inr ⟨hgone.1, fun hthere => hgone.2 ⟨hk, hthere⟩⟩
      · intro hgone
        obtain ⟨hstart, hnot⟩ := hgone.resolve_left hk
        exact ⟨hstart, fun hboth => hnot hboth.2⟩
  · intro d k hmem
    rw [Function.exists_update_iff s.pc (p := fun _ pc => pc.Deletes k)]
    by_cases hk : k = key
    · rw [hk]
      exact .inl fun hk' => ((hcontains key).mp hk').1 rfl
    · rcases h.called d k hmem with hgone | ⟨e, he⟩
      · exact .inl fun hk' => hgone ((hcontains k).mp hk').2
      · refine .inr (.inr ⟨e, ?_, he⟩)
        intro hec
        rw [hec] at he
        exact hk (he.unique hpc)
  · intro d k result hmem
    exact (h.returned d k result hmem).mono fun hgone hk => hgone ((hcontains k).mp hk).2

/-- The client takes the deletion off the counter and reports it. -/
theorem Deleting.report (h : Deleting hashFn start s history) (hpc : s.pc c = .countDelete key) :
    Deleting hashFn start
      { arena := s.arena.fetchSubUsed
        pc := Function.update s.pc c (.done key (.del .deleted)) }
      (history ++ [.ret c key (.del .deleted)]) := by
  have hdeletions : deletions (history ++ [Recorded.ret c key (.del .deleted)]) =
      deletions history ++ [key] := deletions_append
  obtain ⟨hfirst, hunique⟩ := h.owned c key hpc
  have hafter : ∀ k, ¬ (Pc.done key (.del .deleted)).Removed k := fun k hk => by cases hk
  have hkept : Kept start.held s.arena s.arena.fetchSubUsed := .of_slots rfl
  refine ⟨h.inv.congr rfl, h.thinned, ?_, ?_, ?_, ?_, ?_, ?_, ?_, ?_⟩
  · exact (Function.forall_update_iff s.pc (p := fun _ pc => pc.NoSet)).mpr
      ⟨trivial, fun d _ => h.noSet d⟩
  · exact (Function.forall_update_iff s.pc (p := fun _ pc => pc.Follows hashFn start.held
      s.arena.fetchSubUsed)).mpr ⟨trivial, fun d _ => (h.follows d).mono hkept fun _ hheld => hheld⟩
  · have hcount := h.counted
    have hused : usedCount s.arena.fetchSubUsed = usedCount s.arena - 1 := rfl
    rw [hdeletions, List.length_append, List.length_singleton, UInt64.ofNat_add, hused]
    grind
  · rw [hdeletions]
    exact h.once.append (List.nodup_singleton key) (List.disjoint_singleton.mpr hfirst)
  · intro d k hd
    obtain ⟨hdc, hd⟩ := (removed_update_iff.mp hd).resolve_left fun hk => hafter k hk.2
    obtain ⟨hmem, hothers⟩ := h.owned d k hd
    have hne : k ≠ key := by
      intro hk
      rw [hk] at hd
      exact hdc (hunique d hd)
    rw [hdeletions]
    constructor
    · intro hk
      rcases List.mem_append.mp hk with hk | hk
      · exact hmem hk
      · exact hne (List.mem_singleton.mp hk)
    · intro e he
      exact hothers e ((removed_update_iff.mp he).resolve_left fun hk => hafter k hk.2).2
  · intro k
    rw [hdeletions]
    exact (h.removed k).trans (owned_report_iff hpc hafter).symm
  · intro d k hmem
    rw [Function.exists_update_iff s.pc (p := fun _ pc => pc.Deletes k)]
    rcases List.mem_append.mp hmem with hold | hnew
    · rcases h.called d k hold with hgone | ⟨e, he⟩
      · exact .inl hgone
      · refine .inr (.inr ⟨e, ?_, he⟩)
        intro hec
        rw [hec, hpc] at he
        rcases he with ⟨_, _, he⟩ | ⟨_, he⟩
        · cases he
        · cases he
    · cases List.mem_singleton.mp hnew
  · intro d k result hmem
    rcases List.mem_append.mp hmem with hold | hnew
    · exact h.returned d k result hold
    · cases List.mem_singleton.mp hnew
      trivial

/-- A value that a client has read is the one stored at the start. -/
theorem Thinned.fits_found (h : Thinned start arena) (hperm : start.Permanent)
    {idx : Fin slotCount} (hheld : start.held idx) (hkey : (arena.slots idx).readKey = key) :
    (OpResult.get (.found (arena.slots idx).readValue)).Fits start arena key := by
  have hdata := h.sameData idx
  exact ⟨idx, hheld, hdata.readKey.symm.trans hkey, hdata.readValue.symm, hperm idx hheld⟩

/-- Step lemma: every access of every client keeps the invariant. -/
theorem Deleting.access (h : Deleting hashFn start s history) (hperm : start.Permanent)
    (now : UInt64) :
    Deleting hashFn start (s.next hashFn (c, .access now))
      (history ++ (s.record hashFn (c, .access now)).toList) := by
  have hsettled := h.thinned.settled h.inv hperm
  have hfollows := h.follows c
  have hnoSet := h.noSet c
  cases hpc : s.pc c with
  | idle | done =>
      have hrest : (s.pc c).resting = true := by rw [hpc]; rfl
      obtain ⟨hnext, hrecord⟩ := System.next_access_resting hrest
      rw [hnext, hrecord]
      exact (List.append_nil history).symm ▸ h
  | probe task i point =>
      rw [hpc] at hfollows hnoSet
      obtain ⟨harena, hsought⟩ := hsettled.sought hfollows
      apply h.read hpc Bool.false_ne_true (Prod.ext harena rfl)
      · intro k hk
        cases hk
      · exact hsought.readsOn hnoSet
  | valLen key idx =>
      rw [hpc] at hfollows
      apply h.read hpc Bool.false_ne_true rfl
      · intro k hk
        cases hk
      · refine ⟨trivial, ⟨hfollows.1, hfollows.2, rfl⟩, ?_, ?_, ?_⟩
        · intro k hk
          cases hk
        · intro k hk
          exact (Pc.not_deletes_of_read (.inl ⟨_, _, rfl⟩) hk).elim
        · intro k result hdone
          cases hdone
  | valBuf key idx len =>
      rw [hpc] at hfollows
      obtain ⟨hheld, hkey, rfl⟩ := hfollows
      apply h.read hpc Bool.false_ne_true rfl
      · intro k hk
        cases hk
      · refine ⟨trivial, trivial, ?_, ?_, ?_⟩
        · intro k hk
          cases hk
        · intro k hk
          exact (Pc.not_deletes_of_read (.inr ⟨_, _, _, rfl⟩) hk).elim
        · intro k result hdone
          cases hdone
          exact ⟨nofun, h.thinned.fits_found hperm hheld hkey⟩
  | delCas key i =>
      rw [hpc] at hfollows
      obtain ⟨hpassed, hheld, hkey⟩ := hfollows
      rcases access_delCas hashFn s.arena now key i with ⟨hocc, haccess⟩ | ⟨hocc, haccess⟩
      · have hbusy : ¬ (s.pc c).resting = true := by rw [hpc]; exact Bool.false_ne_true
        have hdeletes : (s.pc c).Deletes key := by rw [hpc]; exact .inr ⟨i, rfl⟩
        rw [System.record_access hbusy, System.next_access, hpc, haccess]
        exact (List.append_nil history).symm ▸ h.remove hocc hkey hdeletes
      · apply h.read hpc Bool.false_ne_true haccess
        · intro k hk
          cases hk
        · have hnonempty := hsettled.nonempty _ hheld
          refine .probe ⟨key, .inr rfl⟩
            ⟨forall_lt_succ hpassed (.of_not_occupied hnonempty hocc), trivial⟩ ?_
          intro k hk
          rcases hk with ⟨_, _, hk⟩ | ⟨_, hk⟩
          · cases hk
          · cases hk
            rfl
  | countDelete key =>
      have hbusy : ¬ (s.pc c).resting = true := by rw [hpc]; exact Bool.false_ne_true
      have hreport := h.report hpc
      rw [System.record_access hbusy, System.next_access, hpc]
      exact hreport
  | update | claim | countInsert =>
      rw [hpc] at hnoSet
      exact hnoSet.elim

/-- Run lemma: the invariant holds after every run without a `set`. -/
theorem deleting_of_run (hinv : TableInv hashFn s.arena) (hperm : s.arena.Permanent)
    (hrest : ∀ c, (s.pc c).resting = true) {inputs : List (ι × Event)}
    (hcalls : ∀ c request, .call c request ∈ s.history hashFn inputs →
      ∃ k, request = .get k ∨ request = .del k) :
    Deleting hashFn s.arena (Run.final (System.next hashFn) s inputs)
      (s.history hashFn inputs) := by
  induction inputs using List.reverseRecOn with
  | nil => exact .init hinv hrest
  | append_singleton inputs input ih =>
      rw [System.history_concat] at hcalls ⊢
      rw [Run.final_append]
      have hbefore := ih fun c request hmem => hcalls c request (List.mem_append_left _ hmem)
      obtain ⟨c, event⟩ := input
      cases event with
      | start request now =>
          exact hbefore.request fun d request' hmem =>
            hcalls d request' (List.mem_append_right _ hmem)
      | access now => exact hbefore.access hperm now

/-- **Concurrent deletes are exact.**  Clients that only delete and read start on an arena
that satisfies the table invariant and whose entries do not expire.  When all have finished,
each key that one of them deleted was reported as deleted exactly once if it was stored at
the start, and never otherwise; the counter has gone down by the number of these reports; and
every other stored key was found with its value by each `get` of the run, and is found by each
later one. -/
theorem concurrent_deletes_exact (hashFn : Bytes → UInt64) (s : System ι)
    (hinv : TableInv hashFn s.arena) (hperm : s.arena.Permanent)
    (hrest : ∀ c, (s.pc c).resting = true) (inputs : List (ι × Event))
    (hcalls : ∀ c request, .call c request ∈ s.history hashFn inputs →
      ∃ k, request = .get k ∨ request = .del k)
    (hdone : ∀ c, ((Run.final (System.next hashFn) s inputs).pc c).resting = true) :
    let history := s.history hashFn inputs
    let last := (Run.final (System.next hashFn) s inputs).arena
    (∀ k, (∃ c, .call c (.del k) ∈ history) →
      (s.arena.Contains k → (deletions history).count k = 1) ∧
      (¬ s.arena.Contains k → (deletions history).count k = 0)) ∧
    usedCount last = usedCount s.arena - UInt64.ofNat (deletions history).length ∧
    ∀ k value, s.arena.Stores k value 0 → k ∉ deletions history →
      (∀ c result, .ret c k (.get result) ∈ history → result = .found value) ∧
      ∀ clock, (get hashFn last k clock).1 = .found value := by
  intro history last
  have h := deleting_of_run hinv hperm hrest hcalls
  have hnone : ∀ k c, ¬ ((Run.final (System.next hashFn) s inputs).pc c).Removed k :=
    fun k c => Pc.not_removed_of_resting (hdone c)
  have hdeleted : ∀ k, s.arena.Contains k ∧ ¬ last.Contains k ↔ k ∈ deletions history := by
    intro k
    exact (h.removed k).trans (or_iff_left fun hk => hk.elim (hnone k))
  refine ⟨?_, ?_, ?_⟩
  · intro k hcall
    obtain ⟨c, hcall⟩ := hcall
    have hgone : ¬ last.Contains k := by
      rcases h.called c k hcall with hgone | ⟨d, hd⟩
      · exact hgone
      · exact (Pc.not_deletes_of_resting (hdone d) hd).elim
    constructor
    · intro hstored
      exact List.count_eq_one_of_mem h.once ((hdeleted k).mp ⟨hstored, hgone⟩)
    · intro hstored
      exact List.count_eq_zero_of_not_mem fun hmem => hstored ((hdeleted k).mpr hmem).1
  · have hcount := h.counted
    grind
  · intro k value hstores hkept
    have hthere : last.Contains k := by
      by_contra hgone
      exact hkept ((hdeleted k).mp ⟨hstores.contains, hgone⟩)
    constructor
    · intro c result hmem
      have hfits := h.returned c k (.get result) hmem
      cases result with
      | found value' => rw [(hinv.stores_unique hfits hstores).1]
      | notFound => exact (hfits hthere).elim
      | expired => exact hfits.elim
    · intro clock
      obtain ⟨idx, hocc, hkey⟩ := hthere
      have hslot := h.thinned.slot_of_occupied hocc
      have hlast : last.Stores k value 0 := by
        obtain ⟨j, hj, hjk, hjv, hje⟩ := hstores
        have hstart := hslot ▸ hocc
        obtain rfl : idx = j := hinv.slot_unique hstart hj (by rw [← hslot, hkey, hjk])
        exact ⟨idx, hocc, hkey, hslot ▸ hjv, hslot ▸ hje⟩
      apply (h.inv.get_found_iff hlast (.inl rfl)).mpr
      intro hshadowed
      obtain ⟨m, _, _, _, _, _, hlapsed, _, hexp⟩ := hshadowed
      have hsame : last.probed (hashFn k) m = s.arena.probed (hashFn k) m :=
        h.thinned.slot_of_occupied hlapsed
      rw [hsame] at hlapsed hexp
      exact Bool.false_ne_true ((hperm.not_expired hlapsed (clock m)).symm.trans hexp)

end Race

/-! ## Two deletes and a read -/

def deleteStart : System (Fin 3) where
  arena := arenaAfter siphash zeroedRegion
    [⟨.set [107] [1] 0, fun _ => 0⟩, ⟨.set [108] [2] 0, fun _ => 0⟩]
  pc := fun _ => .idle

section Clients

/-- Numerals name the clients. -/
local instance deleteClients : NeZero 3 := inferInstance

/-- Both `del`s come to their exchange before the first of them makes it. -/
def deleteRun : List (Fin 3 × Event) :=
  [(0, .start (.del [107]) 0), (1, .start (.del [107]) 0), (2, .start (.get [108]) 0)] ++
    List.replicate 4 ((0 : Fin 3), Event.access 0) ++
    List.replicate 4 ((1 : Fin 3), Event.access 0) ++
    List.replicate 3 ((2 : Fin 3), Event.access 0) ++
    List.replicate 2 ((0 : Fin 3), Event.access 0) ++
    List.replicate 2 ((1 : Fin 3), Event.access 0) ++
    List.replicate 4 ((2 : Fin 3), Event.access 0)

end Clients

theorem deleteRun_history : deleteStart.history siphash deleteRun =
    [.call 0 (.del [107]), .call 1 (.del [107]), .call 2 (.get [108]),
      .ret 0 [107] (.del .deleted), .ret 1 [107] (.del .notFound),
      .ret 2 [108] (.get (.found [2]))] := by
  decide +kernel

theorem concurrent_deletes_exact_pair :
    (deletions (deleteStart.history siphash deleteRun)).count [107] = 1 ∧
      usedCount (Run.final (System.next siphash) deleteStart deleteRun).arena =
        usedCount deleteStart.arena - 1 := by
  have hperm : deleteStart.arena.Permanent :=
    Arena.Permanent.arenaAfter siphash zeroedRegion (by simp [Call.NoTtl])
  have hcalls : ∀ c request, .call c request ∈ deleteStart.history siphash deleteRun →
      ∃ k, request = .get k ∨ request = .del k := by
    intro c request hmem
    rw [deleteRun_history] at hmem
    simp at hmem
    rcases hmem with ⟨_, rfl⟩ | ⟨_, rfl⟩ | ⟨_, rfl⟩
    · exact ⟨_, .inr rfl⟩
    · exact ⟨_, .inr rfl⟩
    · exact ⟨_, .inl rfl⟩
  obtain ⟨hcount, hused, _⟩ := concurrent_deletes_exact siphash deleteStart
    (.arenaAfter siphash zeroedRegion _) hperm (fun _ => rfl) deleteRun hcalls (by decide +kernel)
  have hcalled : Recorded.call 0 (.del [107]) ∈ deleteStart.history siphash deleteRun := by
    rw [deleteRun_history]
    exact List.mem_cons_self
  have hstored : deleteStart.arena.Contains [107] := ⟨probeIndex (siphash [107]) 0, by decide +kernel⟩
  refine ⟨(hcount [107] ⟨0, hcalled⟩).1 hstored, hused.trans ?_⟩
  rw [deleteRun_history]
  rfl

end MemLane
