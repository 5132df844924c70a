import MemLane.MapRefinement
import MemLane.SipHash

/-!
# The occupancy counter

`used_count` against the number of OCCUPIED slots, over histories without expiry
times.  Three of the four exits of `set` account for themselves.  The fourth,
which reuses a tombstone after a scan that met no EMPTY slot, writes a slot
without counting it; from then on the counter is too low.

So the counter is exact along a history precisely when no call of it takes that
exit, and whether a call does is decided by the arena before it.
-/

namespace MemLane

variable {hashFn : Bytes → UInt64} {arena : Arena} {call : Call}

/-- The counter equals the number of OCCUPIED slots. -/
def Counted (arena : Arena) : Prop := (usedCount arena).toNat = arena.occupied

/-- The call inserts a new key into a table without EMPTY slots, over a tombstone. -/
def ReusesAfterFullScan (arena : Arena) (call : Call) : Prop :=
  ∃ key value ttlSecs, call.op = .set key value ttlSecs ∧ key.length ≤ maxKeyLen ∧
    value.length ≤ maxValLen ∧ ¬ arena.Contains key ∧
    (∀ i, (arena.slots i).state ≠ stateEmpty) ∧ ∃ i, (arena.slots i).state ≠ stateOccupied

/-- The call is a `del` that reports a deletion. -/
def Call.Deletes (hashFn : Bytes → UInt64) (arena : Arena) (call : Call) : Prop :=
  ∃ key, call.op = .del key ∧ (call.exec hashFn arena).1 = .del (.ok true)

/-! ## Counting OCCUPIED slots -/

theorem Arena.occupied_congr {a b : Arena} (h : b.slots = a.slots) : b.occupied = a.occupied := by
  rw [Arena.occupied_eq_load, Arena.occupied_eq_load, Arena.cells_congr h]

theorem Arena.occupied_le (arena : Arena) : arena.occupied ≤ slotCount := by
  rw [Arena.occupied_eq_load]
  exact Probe.load_le _

/-- Occupying a free slot adds one. -/
theorem Arena.occupied_place {i : Fin slotCount} (h : (arena.slots i).state ≠ stateOccupied)
    {slot : Slot} (hslot : slot.state = stateOccupied) :
    (arena.setSlot i slot).occupied = arena.occupied + 1 := by
  have hcell : slot.cell = .full slot.readKey := Slot.cell_eq_full.mpr ⟨hslot, rfl⟩
  have hfree : (arena.cells i).isFull = false := by
    rw [← Bool.not_eq_true]
    exact fun hfull => h (Slot.cell_isFull.mp hfull)
  rw [Arena.occupied_eq_load, Arena.occupied_eq_load, Arena.cells_setSlot, hcell]
  exact Probe.load_place hfree _

/-- Rewriting an OCCUPIED slot that stays OCCUPIED changes nothing. -/
theorem Arena.occupied_replace {i : Fin slotCount} (h : (arena.slots i).state = stateOccupied)
    {slot : Slot} (hslot : slot.state = stateOccupied) :
    (arena.setSlot i slot).occupied = arena.occupied := by
  have hcell : slot.cell = .full slot.readKey := Slot.cell_eq_full.mpr ⟨hslot, rfl⟩
  rw [Arena.occupied_eq_load, Arena.occupied_eq_load, Arena.cells_setSlot, hcell]
  exact Probe.load_replace (Slot.cell_isFull.mpr h) _

/-- Burying an OCCUPIED slot takes one off. -/
theorem Arena.occupied_bury {i : Fin slotCount} (h : (arena.slots i).state = stateOccupied) :
    (arena.setSlot i (arena.slots i).buried).occupied + 1 = arena.occupied := by
  rw [Arena.occupied_eq_load, Arena.occupied_eq_load, Arena.cells_setSlot, Slot.buried_cell]
  exact Probe.load_bury (Slot.cell_isFull.mpr h)

theorem Arena.occupied_eq_zero (h : ∀ i, (arena.slots i).state ≠ stateOccupied) :
    arena.occupied = 0 := by
  rw [Arena.occupied, Finset.card_eq_zero, Finset.filter_eq_empty_iff]
  exact fun i _ => h i

/-- An OCCUPIED slot counts. -/
theorem Arena.occupied_pos {i : Fin slotCount} (h : (arena.slots i).state = stateOccupied) :
    0 < arena.occupied := by
  have hbury := Arena.occupied_bury h
  omega

/-- The counter never reaches the wrap-around. -/
theorem Counted.succ (h : Counted arena) :
    (usedCount arena + 1).toNat = arena.occupied + 1 := by
  have hle : arena.occupied ≤ 2 ^ 16 := arena.occupied_le
  have hcount : (usedCount arena).toNat = arena.occupied := h
  rw [UInt64.toNat_add, hcount, UInt64.toNat_one]
  omega

theorem Counted.pred (h : Counted arena) (hpos : 0 < arena.occupied) :
    (usedCount arena - 1).toNat = arena.occupied - 1 := by
  have hcount : (usedCount arena).toNat = arena.occupied := h
  have hle : (1 : UInt64) ≤ usedCount arena := by
    rw [UInt64.le_iff_toNat_le, hcount, UInt64.toNat_one]
    omega
  rw [UInt64.toNat_sub_of_le _ _ hle, hcount, UInt64.toNat_one]

/-! ## One call -/

theorem Counted.createArena (region : Arena) : Counted (createArena region) := by
  have hzero : (MemLane.createArena region).occupied = 0 :=
    Arena.occupied_eq_zero fun i => by simp [MemLane.createArena, Slot.init]
  rw [Counted, hzero]
  rfl

theorem Counted.flushAll (arena : Arena) : Counted (flushAll arena) := by
  have hzero : (MemLane.flushAll arena).occupied = 0 :=
    Arena.occupied_eq_zero fun i => by simp [MemLane.flushAll, flushSlot]
  rw [Counted, hzero]
  rfl

theorem Counted.congr {a b : Arena} (h : Counted a) (hslots : b.slots = a.slots)
    (hused : usedCount b = usedCount a) : Counted b := by
  rw [Counted, hused, Arena.occupied_congr hslots]
  exact h

theorem Counted.del (hinv : TableInv hashFn arena) (h : Counted arena) (key : Bytes) :
    Counted (del hashFn arena key).2 := by
  have heff := del_effect hinv key
  generalize MemLane.del hashFn arena key = res at heff
  cases heff with
  | notFound habsent => exact h
  | deleted hocc hkey =>
      have hbury := Arena.occupied_bury hocc
      have hpred := h.pred (Arena.occupied_pos hocc)
      calc (usedCount arena - 1).toNat = arena.occupied - 1 := hpred
        _ = _ := by rw [Arena.occupied_congr (Arena.fetchSubUsed_slots _)]; omega

/-- A deletion finds a positive counter. -/
theorem Counted.usedCount_ne_zero (hinv : TableInv hashFn arena) (h : Counted arena)
    (key : Bytes) (hdel : (MemLane.del hashFn arena key).1 = .deleted) : usedCount arena ≠ 0 := by
  intro hzero
  have heff := del_effect hinv key
  generalize MemLane.del hashFn arena key = res at heff hdel
  cases heff with
  | notFound habsent => cases hdel
  | deleted hocc hkey =>
      have hpos := Arena.occupied_pos hocc
      have hcount : (usedCount arena).toNat = arena.occupied := h
      rw [hzero, UInt64.toNat_zero] at hcount
      omega

/-- **The four exits of `set`.**  On an exact counter and without expiry times, the
counter stays exact unless the `set` inserted a key after a full scan. -/
theorem Counted.set_iff (hinv : TableInv hashFn arena) (hperm : arena.Permanent)
    (h : Counted arena) (key value : Bytes) (clock : Clock) :
    Counted (set hashFn arena key value 0 clock).2 ↔
      ¬ (¬ arena.Contains key ∧ (∀ i, (arena.slots i).state ≠ stateEmpty) ∧
        ∃ i, (arena.slots i).state ≠ stateOccupied) := by
  have heff := set_effect hinv key value 0 clock
  rw [ttlToExpiry_zero] at heff
  generalize MemLane.set hashFn arena key value 0 clock = res at heff
  cases heff with
  | @inserted now after d hevicts habsent hd hfree hchain hslots hcount =>
      obtain rfl := hperm.eq_of_evicts hevicts
      have hocc : after.occupied = now.occupied + 1 :=
        (Arena.occupied_congr hslots).trans (Arena.occupied_place hfree rfl)
      rcases hcount with ⟨⟨i, hempty⟩, hused⟩ | ⟨hnonempty, hused⟩
      · refine ⟨fun _ hreuse => hreuse.2.1 i hempty, fun _ => ?_⟩
        calc (usedCount after).toNat = (usedCount now + 1).toNat := congrArg UInt64.toNat hused
          _ = now.occupied + 1 := h.succ
          _ = after.occupied := hocc.symm
      · constructor
        · intro hcounted _
          have hnow : (usedCount now).toNat = now.occupied := h
          have hafter : (usedCount after).toNat = after.occupied := hcounted
          have hsame : usedCount after = usedCount now := hused
          rw [hsame, hnow, hocc] at hafter
          omega
        · exact fun hnot => (hnot ⟨habsent, hnonempty, _, hfree⟩).elim
  | @updated now i hevicts hocc hkey =>
      obtain rfl := hperm.eq_of_evicts hevicts
      refine ⟨fun _ hreuse => hreuse.1 ⟨i, hocc, hkey⟩, fun _ => ?_⟩
      have hsame : (now.setSlot i (updateSlot (now.slots i) value 0)).occupied = now.occupied :=
        Arena.occupied_replace hocc hocc
      rw [Counted, hsame]
      exact h
  | full habsent hfull =>
      refine ⟨fun _ hreuse => ?_, fun _ => h⟩
      obtain ⟨_, _, i, hfree⟩ := hreuse
      exact hfree (hfull i)

/-- One call without expiry keeps an exact counter exact if and only if it does not
reuse a tombstone after a full scan. -/
theorem Counted.exec_iff (hinv : TableInv hashFn arena) (hperm : arena.Permanent)
    (h : Counted arena) (hnoTtl : call.NoTtl) :
    Counted (call.exec hashFn arena).2 ↔ ¬ ReusesAfterFullScan arena call := by
  obtain ⟨op, clock⟩ := call
  cases op with
  | get key | existsKey key =>
      have hsame := hperm.eq_of_evicts (get_evicts hashFn arena key clock)
      refine iff_of_true ?_ (fun hreuse => by obtain ⟨_, _, _, hop, _⟩ := hreuse; cases hop)
      simp only [Call.exec, MemLaneClient.get, MemLaneClient.existsKey]
      split
      · exact h
      · exact h.congr (congrArg Arena.slots hsame) (congrArg usedCount hsame)
  | del key =>
      refine iff_of_true ?_ (fun hreuse => by obtain ⟨_, _, _, hop, _⟩ := hreuse; cases hop)
      simp only [Call.exec, MemLaneClient.del]
      split
      · exact h
      · exact h.del hinv key
  | flush =>
      refine iff_of_true (.flushAll arena) fun hreuse => ?_
      obtain ⟨_, _, _, hop, _⟩ := hreuse
      cases hop
  | set key value ttlSecs =>
      obtain rfl := hnoTtl key value ttlSecs rfl
      have hreuse : ReusesAfterFullScan arena ⟨.set key value 0, clock⟩ ↔
          key.length ≤ maxKeyLen ∧ value.length ≤ maxValLen ∧ ¬ arena.Contains key ∧
            (∀ i, (arena.slots i).state ≠ stateEmpty) ∧
              ∃ i, (arena.slots i).state ≠ stateOccupied := by
        constructor
        · intro hr
          obtain ⟨_, _, _, hop, hrest⟩ := hr
          cases hop
          exact hrest
        · exact fun hrest => ⟨key, value, 0, rfl, hrest⟩
      rw [hreuse]
      simp only [Call.exec, MemLaneClient.set]
      split
      · next hk => exact iff_of_true h (fun hr => not_lt.mpr hr.1 hk)
      · next hk =>
          split
          · next hv => exact iff_of_true h (fun hr => not_lt.mpr hr.2.1 hv)
          · next hv =>
              rw [and_iff_right (not_lt.mp hk), and_iff_right (not_lt.mp hv)]
              exact h.set_iff hinv hperm key value clock

theorem Call.Deletes.usedCount_ne_zero (hinv : TableInv hashFn arena) (h : Counted arena)
    (hdel : call.Deletes hashFn arena) : usedCount arena ≠ 0 := by
  obtain ⟨op, clock⟩ := call
  obtain ⟨key, rfl, hreply⟩ := hdel
  simp only [Call.exec, MemLaneClient.del] at hreply
  split at hreply
  · cases hreply
  · refine h.usedCount_ne_zero hinv key ?_
    generalize (MemLane.del hashFn arena key).1 = r at hreply ⊢
    cases r with
    | deleted => rfl
    | notFound => cases hreply

/-! ## Whole runs -/

/-- What the run must satisfy: the counter is exact in every state reached, hence
within the capacity, and no deletion wraps it below zero. -/
def CountedThroughout (hashFn : Bytes → UInt64) (region : Arena) (calls : List Call) : Prop :=
  ∀ before rest, calls = before ++ rest →
    (usedCount (arenaAfter hashFn region before)).toNat =
      (arenaAfter hashFn region before).occupied ∧
    (usedCount (arenaAfter hashFn region before)).toNat ≤ slotCount ∧
    ∀ call later, rest = call :: later →
      call.Deletes hashFn (arenaAfter hashFn region before) →
        usedCount (arenaAfter hashFn region before) ≠ 0

/-- An exact counter gives the rest of the requirement at once. -/
theorem CountedThroughout.of_counted {region : Arena} {calls : List Call}
    (h : ∀ before rest, calls = before ++ rest → Counted (arenaAfter hashFn region before)) :
    CountedThroughout hashFn region calls := by
  intro before rest heq
  have hcount := h before rest heq
  refine ⟨hcount, ?_, fun call later _ hdel => hdel.usedCount_ne_zero (.arenaAfter _ _ _) hcount⟩
  exact le_of_eq_of_le hcount (Arena.occupied_le _)

theorem Arena.Permanent.arenaAfter (hashFn : Bytes → UInt64) (region : Arena)
    {calls : List Call} (hnoTtl : ∀ call ∈ calls, call.NoTtl) :
    (arenaAfter hashFn region calls).Permanent := by
  have hboth : TableInv hashFn (MemLane.arenaAfter hashFn region calls) ∧
      (MemLane.arenaAfter hashFn region calls).Permanent := by
    refine Run.invariant (fun a : Arena => TableInv hashFn a ∧ a.Permanent) ?_
      ⟨.createArena region, .createArena region⟩ (Run.along_of_forall_mem hnoTtl)
    intro a call ha hcall
    exact ⟨ha.1.exec call, ha.2.exec ha.1 hcall⟩
  exact hboth.2

/-- **The counter is exact along a history without expiry times if and only if no
call of it reuses a tombstone after a scan that met no EMPTY slot.** -/
theorem used_count_exact_iff (hashFn : Bytes → UInt64) (region : Arena) (calls : List Call)
    (hnoTtl : ∀ call ∈ calls, call.NoTtl) :
    CountedThroughout hashFn region calls ↔
      ∀ before call rest, calls = before ++ call :: rest →
        ¬ ReusesAfterFullScan (arenaAfter hashFn region before) call := by
  constructor
  · intro h before call rest heq
    have hbefore : ∀ c ∈ before, c.NoTtl := fun c hc =>
      hnoTtl c (by rw [heq]; exact List.mem_append_left _ hc)
    have hcount : Counted (arenaAfter hashFn region before) := (h before (call :: rest) heq).1
    refine (hcount.exec_iff (.arenaAfter hashFn region before)
      (.arenaAfter hashFn region hbefore) (hnoTtl call (by simp [heq]))).mp ?_
    have hnext := (h (before ++ [call]) rest (by simp [heq])).1
    rw [arenaAfter, Run.after_append] at hnext
    exact hnext
  · intro hclean
    refine .of_counted fun before rest heq => ?_
    have halong : Run.Along (fun a (call : Call) => (call.exec hashFn a).2)
        (fun a call => call.NoTtl ∧ ¬ ReusesAfterFullScan a call) (createArena region) before := by
      refine Run.along_iff.mpr fun earlier call later hsplit => ?_
      have hcalls : calls = earlier ++ call :: (later ++ rest) := by simp [heq, hsplit]
      exact ⟨hnoTtl call (by simp [hcalls]), hclean earlier call _ hcalls⟩
    have hboth : TableInv hashFn (arenaAfter hashFn region before) ∧
        (arenaAfter hashFn region before).Permanent ∧
        Counted (arenaAfter hashFn region before) := by
      refine Run.invariant (fun a : Arena => TableInv hashFn a ∧ a.Permanent ∧ Counted a) ?_
        ⟨.createArena region, .createArena region, .createArena region⟩ halong
      intro a call ha hcall
      exact ⟨ha.1.exec call, ha.2.1.exec ha.1 hcall.1,
        (ha.2.2.exec_iff ha.1 ha.2.1 hcall.1).mpr hcall.2⟩
    exact hboth.2.2

/-- The equivalence on a short history: one insertion, its deletion, and the same
key again over the tombstone. -/
theorem used_count_exact_iff_short :
    CountedThroughout siphash zeroedRegion
        [⟨.set [1] [1] 0, fun _ => 0⟩, ⟨.del [1], fun _ => 0⟩, ⟨.set [1] [2] 0, fun _ => 0⟩] ↔
      ∀ before call rest, [⟨.set [1] [1] 0, fun _ => 0⟩, ⟨.del [1], fun _ => 0⟩,
          ⟨.set [1] [2] 0, fun _ => 0⟩] = before ++ call :: rest →
        ¬ ReusesAfterFullScan (arenaAfter siphash zeroedRegion before) call :=
  used_count_exact_iff siphash zeroedRegion _ (by simp [Call.NoTtl])

/-! ## A history that loses a count -/

/-- The `n`-th two-byte key. -/
def fillKey (n : Nat) : Bytes := [UInt8.ofNat (n / 256), UInt8.ofNat (n % 256)]

def fillCall (n : Nat) : Call := ⟨.set (fillKey n) [0] 0, fun _ => 0⟩

/-- Insert every two-byte key, delete one, and insert it again. -/
def refillCalls : List Call :=
  (List.range slotCount).map fillCall ++ [⟨.del (fillKey 0), fun _ => 0⟩, fillCall 0]

theorem fillKey_injOn {a b : Nat} (ha : a < slotCount) (hb : b < slotCount)
    (h : fillKey a = fillKey b) : a = b := by
  have hslots : slotCount = 65536 := rfl
  have hhigh : UInt8.ofNat (a / 256) = UInt8.ofNat (b / 256) := (List.cons.inj h).1
  have hlow : UInt8.ofNat (a % 256) = UInt8.ofNat (b % 256) :=
    (List.cons.inj (List.cons.inj h).2).1
  have hhigh' := congrArg UInt8.toNat hhigh
  have hlow' := congrArg UInt8.toNat hlow
  simp only [UInt8.toNat_ofNat'] at hhigh' hlow'
  omega

/-- Filling an empty map with the first `n` keys leaves exactly these. -/
theorem keys_fill {n : Nat} (hn : n ≤ slotCount) :
    (Run.after mapExec ∅ ((List.range n).map fillCall)).keys = (Finset.range n).image fillKey := by
  induction n with
  | zero => rfl
  | succ n ih =>
      have ihn := ih (by omega)
      rw [List.range_succ, List.map_append, Run.after_append]
      generalize Run.after mapExec ∅ ((List.range n).map fillCall) = m at ihn ⊢
      have hcard : m.keys.card < slotCount := by
        calc m.keys.card ≤ (Finset.range n).card := by rw [ihn]; exact Finset.card_image_le
          _ < slotCount := by rw [Finset.card_range]; omega
      have hnext : Run.after mapExec m ([n].map fillCall) = m.insert (fillKey n) [0] := by
        simp only [List.map_cons, List.map_nil, Run.after_cons, Run.after_nil, fillCall, mapExec]
        split <;> rfl
      ext k
      rw [hnext, Finmap.mem_keys, Finmap.mem_insert, ← Finmap.mem_keys, ihn,
        Finset.range_add_one, Finset.image_insert, Finset.mem_insert]

/-- While nothing has been buried, no slot is a tombstone. -/
def Arena.NoTombstone (arena : Arena) : Prop :=
  ∀ i, (arena.slots i).state = stateEmpty ∨ (arena.slots i).state = stateOccupied

theorem Arena.NoTombstone.not_reuses (h : arena.NoTombstone) (call : Call) :
    ¬ ReusesAfterFullScan arena call := by
  intro hreuse
  obtain ⟨_, _, _, _, _, _, _, hnonempty, i, hfree⟩ := hreuse
  exact (h i).elim (hnonempty i) hfree

/-- Setting a key without expiry buries nothing. -/
theorem Arena.NoTombstone.fillCall (hinv : TableInv hashFn arena) (hperm : arena.Permanent)
    (h : arena.NoTombstone) (n : Nat) : ((fillCall n).exec hashFn arena).2.NoTombstone := by
  have heff := set_effect hinv (fillKey n) [0] 0 fun _ => 0
  rw [ttlToExpiry_zero] at heff
  simp only [Call.exec, MemLaneClient.set, MemLane.fillCall]
  rw [if_neg (by simp [fillKey, maxKeyLen]), if_neg (by simp [maxValLen])]
  generalize MemLane.set hashFn arena (fillKey n) [0] 0 (fun _ => 0) = res at heff ⊢
  cases heff with
  | @inserted now after d hevicts habsent hd hfree hchain hslots hcount =>
      obtain rfl := hperm.eq_of_evicts hevicts
      intro i
      rw [hslots, Arena.setSlot_slots]
      split
      · exact .inr rfl
      · exact h i
  | @updated now i hevicts hocc hkey =>
      obtain rfl := hperm.eq_of_evicts hevicts
      intro j
      rw [Arena.setSlot_slots]
      split
      · exact .inr hocc
      · exact h j
  | full => exact h

/-- A new key that goes over a tombstone after a full scan is not counted. -/
theorem set_reuse (hinv : TableInv hashFn arena) (hperm : arena.Permanent) {key : Bytes}
    (habsent : ¬ arena.Contains key) (hnonempty : ∀ i, (arena.slots i).state ≠ stateEmpty)
    (hfree : ∃ i, (arena.slots i).state ≠ stateOccupied) (value : Bytes) (clock : Clock) :
    usedCount (MemLane.set hashFn arena key value 0 clock).2 = usedCount arena ∧
      (MemLane.set hashFn arena key value 0 clock).2.occupied = arena.occupied + 1 := by
  have heff := set_effect hinv key value 0 clock
  rw [ttlToExpiry_zero] at heff
  generalize MemLane.set hashFn arena key value 0 clock = res at heff
  cases heff with
  | @inserted now after d hevicts _ hd hfree' hchain hslots hcount =>
      obtain rfl := hperm.eq_of_evicts hevicts
      refine ⟨?_, (Arena.occupied_congr hslots).trans (Arena.occupied_place hfree' rfl)⟩
      rcases hcount with ⟨⟨i, hempty⟩, _⟩ | ⟨_, hused⟩
      · exact (hnonempty i hempty).elim
      · exact hused
  | updated hevicts hocc hkey =>
      obtain rfl := hperm.eq_of_evicts hevicts
      exact (habsent ⟨_, hocc, hkey⟩).elim
  | full _ hfull =>
      obtain ⟨i, hi⟩ := hfree
      exact (hi (hfull i)).elim

/-- On a full table with an exact counter, deleting a key and setting it again leaves
the table full and the counter one short. -/
theorem Counted.refill (hinv : TableInv hashFn arena) (hperm : arena.Permanent)
    (h : Counted arena) (hfull : ∀ i, (arena.slots i).state = stateOccupied) {key : Bytes}
    (hkey : arena.Contains key) (value : Bytes) (clock : Clock) :
    (usedCount (MemLane.set hashFn (MemLane.del hashFn arena key).2 key value 0 clock).2).toNat + 1
      = slotCount ∧
    (MemLane.set hashFn (MemLane.del hashFn arena key).2 key value 0 clock).2.occupied
      = slotCount := by
  have hload : arena.occupied = slotCount := by
    rw [Arena.occupied_eq_load, Probe.load_eq_iff]
    exact fun i => ⟨_, Slot.cell_eq_full.mpr ⟨hfull i, rfl⟩⟩
  have hinv' := hinv.del key
  have hcount' := h.del hinv key
  have hdel := del_effect hinv key
  have hgone : ¬ (MemLane.del hashFn arena key).2.Contains key := by
    intro hc
    obtain ⟨i, hocc, hki⟩ := hc
    exact ((hdel.stores_iff hinv).mp ⟨i, hocc, hki, rfl, rfl⟩).1 rfl
  generalize MemLane.del hashFn arena key = res at hinv' hcount' hdel hgone ⊢
  cases hdel with
  | notFound habsent => exact (habsent hkey).elim
  | @deleted i hocc _ =>
      have hoccupied : ((arena.setSlot i (arena.slots i).buried).fetchSubUsed).occupied + 1 =
          slotCount := hload ▸ Arena.occupied_bury hocc
      have hperm' : ((arena.setSlot i (arena.slots i).buried).fetchSubUsed).Permanent :=
        (hperm.setSlot i (by simp)).congr rfl
      have hnonempty : ∀ j, (((arena.setSlot i (arena.slots i).buried).fetchSubUsed).slots j).state
          ≠ stateEmpty := by
        intro j
        rw [Arena.fetchSubUsed_slots, Arena.setSlot_slots]
        split
        · simp
        · simp [hfull j]
      obtain ⟨hused, hnow⟩ := set_reuse hinv' hperm' hgone hnonempty ⟨i, by simp⟩ value clock
      have hcounted : (usedCount ((arena.setSlot i (arena.slots i).buried).fetchSubUsed)).toNat =
          ((arena.setSlot i (arena.slots i).buried).fetchSubUsed).occupied := hcount'
      rw [hused, hnow, hcounted]
      exact ⟨hoccupied, hoccupied⟩

/-- Setting keys without expiry on a fresh arena keeps the counter exact. -/
theorem fill_counted (hashFn : Bytes → UInt64) (region : Arena) {calls : List Call}
    (hfill : ∀ call ∈ calls, ∃ n, call = fillCall n) :
    TableInv hashFn (arenaAfter hashFn region calls) ∧
      (arenaAfter hashFn region calls).Permanent ∧ Counted (arenaAfter hashFn region calls) ∧
      (arenaAfter hashFn region calls).NoTombstone := by
  refine Run.invariant
    (fun a : Arena => TableInv hashFn a ∧ a.Permanent ∧ Counted a ∧ a.NoTombstone) ?_
    ⟨.createArena region, .createArena region, .createArena region, fun i => .inl rfl⟩
    (Run.along_of_forall_mem hfill)
  intro a call ha hcall
  obtain ⟨n, rfl⟩ := hcall
  obtain ⟨hinv, hperm, hcount, hnone⟩ := ha
  have hnoTtl : (fillCall n).NoTtl := by simp [fillCall, Call.NoTtl]
  exact ⟨hinv.exec _, hperm.exec hinv hnoTtl,
    (hcount.exec_iff hinv hperm hnoTtl).mpr (hnone.not_reuses _), hnone.fillCall hinv hperm n⟩

/-- After the fill the table is full and the counter exact. -/
theorem filled (hashFn : Bytes → UInt64) (region : Arena) :
    let arena := arenaAfter hashFn region ((List.range slotCount).map fillCall)
    TableInv hashFn arena ∧ arena.Permanent ∧ Counted arena ∧
      (∀ i, (arena.slots i).state = stateOccupied) ∧ arena.Contains (fillKey 0) := by
  intro arena
  have hfill : ∀ call ∈ (List.range slotCount).map fillCall, ∃ n, call = fillCall n := by
    intro call hmem
    obtain ⟨n, _, heq⟩ := List.mem_map.mp hmem
    exact ⟨n, heq.symm⟩
  have hkept := fill_counted hashFn region hfill
  have hplain : ∀ call ∈ (List.range slotCount).map fillCall, call.Plain := by
    intro call hmem
    obtain ⟨n, rfl⟩ := hfill call hmem
    simp [fillCall, fillKey, Call.Plain, maxKeyLen, maxValLen]
  have hrefines := (Refines.run hashFn region hplain).2
  have hkeys := keys_fill (le_refl slotCount)
  generalize Run.after mapExec ∅ ((List.range slotCount).map fillCall) = m at hrefines hkeys
  refine ⟨hkept.1, hkept.2.1, hkept.2.2.1, fun i => ?_, ?_⟩
  · have hload : Probe.load arena.cells = slotCount := by
      rw [← hrefines.card_keys, hkeys, Finset.card_image_of_injOn, Finset.card_range]
      intro a ha b hb heq
      exact fillKey_injOn (Finset.mem_range.mp ha) (Finset.mem_range.mp hb) heq
    obtain ⟨k, hk⟩ := Probe.load_eq_iff.mp hload i
    exact (Slot.cell_eq_full.mp hk).1
  · have hmem : fillKey 0 ∈ m.keys := by
      rw [hkeys]
      exact Finset.mem_image_of_mem _ (Finset.mem_range.mpr (by decide))
    exact hrefines.mem_iff.mp (Finmap.mem_keys.mp hmem)

/-- The last two calls of the refill, as operations of the map. -/
theorem after_refill (hashFn : Bytes → UInt64) (arena : Arena) :
    Run.after (Call.exec hashFn) arena [⟨.del (fillKey 0), fun _ => 0⟩, fillCall 0] =
      (MemLane.set hashFn (MemLane.del hashFn arena (fillKey 0)).2 (fillKey 0) [0] 0
        fun _ => 0).2 := by
  have hk : ¬ (fillKey 0).length > maxKeyLen := by decide
  have hv : ¬ ([0] : Bytes).length > maxValLen := by decide
  simp only [Run.after_cons, Run.after_nil, fillCall, Call.exec, MemLaneClient.del,
    MemLaneClient.set, if_neg hk, if_neg hv]

/-- Refilling a full arena leaves one entry uncounted, whatever the fingerprint
function. -/
theorem refill_uncounted (hashFn : Bytes → UInt64) (region : Arena) :
    (usedCount (arenaAfter hashFn region refillCalls)).toNat + 1 = slotCount ∧
      (arenaAfter hashFn region refillCalls).occupied = slotCount := by
  obtain ⟨hinv, hperm, hcount, hfull, hkey⟩ := filled hashFn region
  rw [arenaAfter] at hinv hperm hcount hfull hkey
  rw [refillCalls, arenaAfter, Run.after_append]
  generalize Run.after (Call.exec hashFn) (createArena region)
    ((List.range slotCount).map fillCall) = arena at hinv hperm hcount hfull hkey ⊢
  rw [after_refill]
  exact hcount.refill hinv hperm hfull hkey [0] fun _ => 0

/-- On the real fingerprint function: after filling the table, deleting a key and
setting it again, the counter is not exact. -/
theorem refill_not_counted :
    (∀ call ∈ refillCalls, call.NoTtl) ∧ ¬ CountedThroughout siphash zeroedRegion refillCalls := by
  have hnoTtl : ∀ call ∈ refillCalls, call.NoTtl := by
    intro call hmem
    rcases List.mem_append.mp hmem with hfill | hlast
    · obtain ⟨n, _, rfl⟩ := List.mem_map.mp hfill
      simp [fillCall, Call.NoTtl]
    · simp only [List.mem_cons, List.not_mem_nil, or_false] at hlast
      rcases hlast with rfl | rfl <;> simp [fillCall, Call.NoTtl]
  refine ⟨hnoTtl, fun h => ?_⟩
  obtain ⟨hused, hocc⟩ := refill_uncounted siphash zeroedRegion
  have hcount := (h refillCalls [] (List.append_nil _).symm).1
  omega

end MemLane
