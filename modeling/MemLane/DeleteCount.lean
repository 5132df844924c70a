import MemLane.Requests
import MemLane.Visibility
import Mathlib.Data.Set.Card

/-!
# What `DEL` counts

`DEL` removes whatever is stored under its keys and counts it; `EXISTS` counts what
can be read.  The two agree exactly when every listed key that is stored can be
read: no listed entry has expired, and none is shadowed by an expired one.
-/

namespace MemLane

variable {tables : CaseTables} {hashFn : Bytes → UInt64} {arena after : Arena}
  {key k : Bytes} {keys : List Bytes} {now : UInt64}

/-! ## Deleting a list of keys -/

/-- `after` is `arena` without the entries of the listed keys. -/
structure Deletes (keys : List Bytes) (arena after : Arena) : Prop where
  slot : ∀ i, after.slots i = arena.slots i ∨
    ((arena.slots i).state = stateOccupied ∧ (arena.slots i).readKey ∈ keys ∧
      after.slots i = (arena.slots i).buried)
  stores : ∀ k v e, after.Stores k v e ↔ k ∉ keys ∧ arena.Stores k v e

theorem Deletes.nil (arena : Arena) : Deletes [] arena arena where
  slot := fun _ => .inl rfl
  stores := fun k v e => by simp

theorem Deletes.cons {mid : Arena} (h : Deletes [key] arena mid) (h' : Deletes keys mid after) :
    Deletes (key :: keys) arena after where
  slot := fun i => by
    rcases h.slot i with heq | ⟨hocc, hmem, heq⟩
    · rcases h'.slot i with heq' | ⟨hocc, hmem, heq'⟩
      · exact .inl (heq'.trans heq)
      · rw [heq] at hocc hmem heq'
        exact .inr ⟨hocc, List.mem_cons_of_mem _ hmem, heq'⟩
    · refine .inr ⟨hocc, List.mem_cons.mpr (.inl (List.mem_singleton.mp hmem)), ?_⟩
      rcases h'.slot i with heq' | ⟨hocc', _⟩
      · exact heq'.trans heq
      · simp [heq] at hocc'
  stores := fun k v e => by
    rw [h'.stores, h.stores, List.mem_singleton, List.mem_cons, not_or]
    tauto

theorem Deletes.contains_iff (h : Deletes keys arena after) (k : Bytes) :
    after.Contains k ↔ k ∉ keys ∧ arena.Contains k := by
  constructor
  · intro hcontains
    obtain ⟨i, hocc, hkey⟩ := hcontains
    obtain ⟨hmem, hs⟩ := (h.stores k _ _).mp ⟨i, hocc, hkey, rfl, rfl⟩
    exact ⟨hmem, hs.contains⟩
  · intro hcontains
    obtain ⟨hmem, i, hocc, hkey⟩ := hcontains
    exact ((h.stores k _ _).mpr ⟨hmem, i, hocc, hkey, rfl, rfl⟩).contains

/-- The slots still OCCUPIED are as they were. -/
theorem Deletes.slot_of_occupied (h : Deletes keys arena after) {i : Fin slotCount}
    (hocc : (after.slots i).state = stateOccupied) : after.slots i = arena.slots i := by
  rcases h.slot i with heq | ⟨_, _, heq⟩
  · exact heq
  · simp [heq] at hocc

/-- The slots of other keys are as they were. -/
theorem Deletes.slot_of_notMem (h : Deletes keys arena after) {i : Fin slotCount}
    (hkey : (arena.slots i).readKey ∉ keys) : after.slots i = arena.slots i := by
  rcases h.slot i with heq | ⟨_, hmem, _⟩
  · exact heq
  · exact (hkey hmem).elim

/-- One key. -/
theorem MemLaneClient.del_deletes (hinv : TableInv hashFn arena) (key : Bytes) :
    TableInv hashFn (MemLaneClient.del hashFn arena key).2 ∧
      Deletes [key] arena (MemLaneClient.del hashFn arena key).2 ∧
      ((MemLaneClient.del hashFn arena key).1 = .ok true ↔ arena.Contains key) := by
  unfold MemLaneClient.del
  split
  · next hlong =>
      have habsent : ¬ arena.Contains key := by
        intro hcontains
        obtain ⟨i, hocc, hkey⟩ := hcontains
        have hs : arena.Stores key _ _ := ⟨i, hocc, hkey, rfl, rfl⟩
        exact absurd hs.key_length (not_le.mpr hlong)
      refine ⟨hinv, ⟨fun _ => .inl rfl, fun k v e => ?_⟩, by simpa using habsent⟩
      refine ⟨fun hs => ⟨?_, hs⟩, And.right⟩
      rw [List.mem_singleton]
      rintro rfl
      exact habsent hs.contains
  · have hinv' := hinv.del key
    have heff := del_effect hinv key
    simp only
    generalize MemLane.del hashFn arena key = res at hinv' heff
    obtain ⟨result, after⟩ := res
    have hstores := fun k v e => heff.stores_iff (k := k) (v := v) (e := e) hinv
    refine ⟨hinv', ⟨fun i => ?_, fun k v e => ?_⟩, ?_⟩
    · cases heff with
      | notFound => exact .inl rfl
      | @deleted j hocc hkey =>
          rw [Arena.fetchSubUsed_slots, Arena.setSlot_slots]
          split
          · next hi =>
              subst hi
              exact .inr ⟨hocc, List.mem_singleton.mpr hkey, rfl⟩
          · exact .inl rfl
    · rw [hstores, List.mem_singleton]
    · cases heff with
      | notFound habsent => simpa using habsent
      | deleted hocc hkey => exact iff_of_true rfl ⟨_, hocc, hkey⟩

/-! ## Counting -/

/-- The listed keys that are stored, each counted once. -/
noncomputable def storedAmong (arena : Arena) (keys : List Bytes) : Nat :=
  {k | k ∈ keys ∧ arena.Contains k}.ncard

theorem storedAmong_finite (keys : List Bytes) (P : Bytes → Prop) :
    {k | k ∈ keys ∧ P k}.Finite :=
  keys.finite_toSet.subset fun _ h => h.1

theorem storedAmong_le (arena : Arena) (keys : List Bytes) : storedAmong arena keys ≤ slotCount := by
  have hsub : {k | k ∈ keys ∧ arena.Contains k} ⊆
      (fun i => (arena.slots i).readKey) '' Set.univ := by
    intro k hk
    obtain ⟨_, i, _, hkey⟩ := hk
    exact ⟨i, Set.mem_univ i, hkey⟩
  calc storedAmong arena keys
      ≤ ((fun i => (arena.slots i).readKey) '' Set.univ).ncard := Set.ncard_le_ncard hsub
    _ ≤ (Set.univ : Set (Fin slotCount)).ncard := Set.ncard_image_le
    _ = slotCount := by rw [Set.ncard_univ, Nat.card_fin]

/-- A key counts once, and only if it is stored. -/
theorem storedAmong_cons (h : Deletes [key] arena after) [Decidable (arena.Contains key)] :
    storedAmong arena (key :: keys) =
      storedAmong after keys + if arena.Contains key then 1 else 0 := by
  have hcontains : ∀ k, after.Contains k ↔ k ≠ key ∧ arena.Contains k := by
    intro k
    rw [h.contains_iff, List.mem_singleton]
  have hnot : key ∉ {k | k ∈ keys ∧ after.Contains k} := fun hmem =>
    ((hcontains key).mp hmem.2).1 rfl
  split
  · next hkey =>
      have hset : {k | k ∈ key :: keys ∧ arena.Contains k} =
          insert key {k | k ∈ keys ∧ after.Contains k} := by
        ext k
        by_cases hk : k = key
        · subst hk
          simp [hkey]
        · simp [hcontains, hk]
      rw [storedAmong, hset, Set.ncard_insert_of_notMem hnot (storedAmong_finite _ _), storedAmong]
  · next hkey =>
      have hset : {k | k ∈ key :: keys ∧ arena.Contains k} =
          {k | k ∈ keys ∧ after.Contains k} := by
        ext k
        by_cases hk : k = key
        · subst hk
          simp [hkey, hcontains]
        · simp [hcontains, hk]
      rw [storedAmong, hset, storedAmong, Nat.add_zero]

/-- The loop of `DEL` removes the listed keys and counts those that were stored. -/
theorem delEach_deletes (hinv : TableInv hashFn arena) (keys : List Bytes) (n : Nat) :
    TableInv hashFn (delEach hashFn arena (Int64.ofNat n) keys).2 ∧
      Deletes keys arena (delEach hashFn arena (Int64.ofNat n) keys).2 ∧
      (delEach hashFn arena (Int64.ofNat n) keys).1 =
        Int64.ofNat (n + storedAmong arena keys) := by
  induction keys generalizing arena n with
  | nil =>
      refine ⟨hinv, .nil arena, ?_⟩
      simp [delEach, storedAmong]
  | cons key keys ih =>
      classical
      obtain ⟨hinv', hdel, hok⟩ := MemLaneClient.del_deletes hinv key
      have hstep : delEach hashFn arena (Int64.ofNat n) (key :: keys) =
          delEach hashFn (MemLaneClient.del hashFn arena key).2
            (Int64.ofNat (n + if arena.Contains key then 1 else 0)) keys := by
        rw [delEach]
        split
        · next h => rw [if_pos (hok.mp h), Int64.ofNat_add]; rfl
        · next h => rw [if_neg fun hkey => h (hok.mpr hkey), Nat.add_zero]
      obtain ⟨hinv'', hdel', hcount⟩ := ih hinv' (n + if arena.Contains key then 1 else 0)
      rw [hstep]
      refine ⟨hinv'', hdel.cons hdel', ?_⟩
      rw [hcount, storedAmong_cons hdel]
      congr 1
      omega

/-! ## The replies -/

theorem send_get :
    (send tables hashFn arena "GET" [key] now).1 =
      replyOf bulkOrNil (MemLaneClient.get hashFn arena key fun _ => now).1 := by
  rw [send, dispatchCommand_get (extractCommand_request _ (by decide))]

/-- `EXISTS` of one key counts 1 exactly when the key can be read. -/
theorem send_exists_iff (hinv : TableInv hashFn arena) :
    (send tables hashFn arena "EXISTS" [key] now).1 = .integer 1 ↔
      ∃ v, Visible hashFn arena key v now := by
  have hreply : (MemLaneClient.existsKey hashFn arena key fun _ => now).1 = .ok true ↔
      ∃ v, Visible hashFn arena key v now := by
    have hlong : key.length > maxKeyLen → ¬ ∃ v, Visible hashFn arena key v now := by
      intro hlt hvisible
      obtain ⟨v, e, hs, _⟩ := hvisible
      exact absurd hs.key_length (not_le.mpr hlt)
    unfold MemLaneClient.existsKey
    split
    · next h => simpa using hlong h
    · simp only [← get_found_iff_visible hinv, MemLane.existsKey]
      generalize (MemLane.get hashFn arena key fun _ => now).1 = r
      cases r <;> simp
  rw [send, dispatchCommand_exists (List.cons_ne_nil _ _) (extractCommand_request _ (by decide)),
    ← hreply]
  simp only [existsEach, Resp.integer, RespValue.integer.injEq]
  split
  · next h => exact iff_of_true (by decide) h
  · next h => exact iff_of_false (by decide) h

/-! ## Agreement -/

/-- `DEL` counts the listed keys that `EXISTS` finds, leaves none of them readable, and
changes nothing else that `GET` answers.  Without keys it is no such command. -/
structure DelAgrees (tables : CaseTables) (hashFn : Bytes → UInt64) (arena : Arena)
    (keys : List Bytes) (now : UInt64) : Prop where
  counted : keys ≠ [] → ∃ n, (send tables hashFn arena "DEL" keys now).1 = .integer n ∧
    n.toInt =
      {k | k ∈ keys ∧ (send tables hashFn arena "EXISTS" [k] now).1 = .integer 1}.ncard
  gone : ∀ k ∈ keys, k.length ≤ maxKeyLen →
    (send tables hashFn (send tables hashFn arena "DEL" keys now).2 "GET" [k] now).1 = .nil
  kept : ∀ k, k ∉ keys →
    (send tables hashFn (send tables hashFn arena "DEL" keys now).2 "GET" [k] now).1 =
      (send tables hashFn arena "GET" [k] now).1

/-- Every listed key that is stored can be read. -/
def AllReadable (hashFn : Bytes → UInt64) (arena : Arena) (keys : List Bytes) (now : UInt64) :
    Prop :=
  ∀ k ∈ keys, ∀ v e, arena.Stores k v e →
    Unexpired e now ∧ ¬ Shadowed hashFn arena k fun _ => now

/-- What the command does, whatever the keys. -/
theorem send_del (hinv : TableInv hashFn arena) :
    TableInv hashFn (send tables hashFn arena "DEL" keys now).2 ∧
      Deletes keys arena (send tables hashFn arena "DEL" keys now).2 ∧
      (keys ≠ [] → (send tables hashFn arena "DEL" keys now).1 =
        .integer (Int64.ofNat (storedAmong arena keys))) := by
  have hcmd : extractCommand tables (request "DEL" keys) = .ok ⟨"DEL", keys⟩ :=
    extractCommand_request _ (by decide)
  by_cases hne : keys = []
  · subst hne
    have harena : (send tables hashFn arena "DEL" [] now).2 = arena := by
      simp only [send, dispatchCommand, hcmd]
    rw [harena]
    exact ⟨hinv, .nil arena, fun h => (h rfl).elim⟩
  · obtain ⟨hinv', hdel, hcount⟩ := delEach_deletes hinv keys 0
    rw [send, dispatchCommand_del hne hcmd]
    refine ⟨hinv', hdel, fun _ => ?_⟩
    rw [Nat.zero_add] at hcount
    exact congrArg RespValue.integer hcount

/-- Deleting readable entries changes nothing for the other keys. -/
theorem Deletes.visible_iff (h : Deletes keys arena after)
    (hreadable : AllReadable hashFn arena keys now) (hk : k ∉ keys) (v : Bytes) :
    Visible hashFn after k v now ↔ Visible hashFn arena k v now := by
  have hshadowed : (Shadowed hashFn after k fun _ => now) ↔ Shadowed hashFn arena k fun _ => now := by
    constructor
    · intro hs
      obtain ⟨m, d, hmd, hd, hocc, hkey, hexp⟩ := hs
      have hslot : after.probed (hashFn k) d = arena.probed (hashFn k) d :=
        h.slot_of_occupied hocc
      have hslot' : after.probed (hashFn k) m = arena.probed (hashFn k) m :=
        h.slot_of_occupied hexp.1
      rw [hslot] at hocc hkey
      rw [ExpiredAt, hslot'] at hexp
      exact ⟨m, d, hmd, hd, hocc, hkey, hexp⟩
    · intro hs
      obtain ⟨m, d, hmd, hd, hocc, hkey, hexp⟩ := hs
      have hslot : after.probed (hashFn k) d = arena.probed (hashFn k) d :=
        h.slot_of_notMem (hkey.symm ▸ hk)
      -- a listed entry that has expired would not be readable
      have hslot' : after.probed (hashFn k) m = arena.probed (hashFn k) m := by
        refine h.slot_of_notMem fun hmem => ?_
        obtain ⟨hocc', _, hexpired⟩ := hexp
        have hlive := (hreadable _ hmem _ _ ⟨_, hocc', rfl, rfl, rfl⟩).1
        have hfalse := Slot.isExpired_eq_false_iff_unexpired.mpr hlive
        exact Bool.false_ne_true (hfalse.symm.trans hexpired)
      rw [← hslot] at hocc hkey
      rw [ExpiredAt, ← hslot'] at hexp
      exact ⟨m, d, hmd, hd, hocc, hkey, hexp⟩
  simp only [Visible, h.stores, hshadowed, hk, not_false_eq_true, true_and]

theorem delAgrees_iff (tables : CaseTables) (hinv : TableInv hashFn arena) :
    DelAgrees tables hashFn arena keys now ↔ AllReadable hashFn arena keys now := by
  obtain ⟨hinv', hdel, hreply⟩ := @send_del tables hashFn arena keys now hinv
  have hsub : {k | k ∈ keys ∧ (send tables hashFn arena "EXISTS" [k] now).1 = .integer 1} ⊆
      {k | k ∈ keys ∧ arena.Contains k} := by
    intro k hk
    obtain ⟨v, e, hs, _⟩ := (send_exists_iff hinv).mp hk.2
    exact ⟨hk.1, hs.contains⟩
  have htoInt : (Int64.ofNat (storedAmong arena keys)).toInt = storedAmong arena keys := by
    have hle := storedAmong_le arena keys
    exact Int64.toInt_ofNat_of_lt (lt_of_le_of_lt hle (by decide))
  constructor
  · intro h k hk v e hs
    obtain ⟨n, hn, hcount⟩ := h.counted (List.ne_nil_of_mem hk)
    rw [hreply (List.ne_nil_of_mem hk)] at hn
    cases hn
    rw [htoInt, Nat.cast_inj] at hcount
    have hset := Set.eq_of_subset_of_ncard_le hsub hcount.le (storedAmong_finite keys _)
    have hmem : k ∈ {k | k ∈ keys ∧ arena.Contains k} := ⟨hk, hs.contains⟩
    rw [← hset] at hmem
    obtain ⟨v', e', hs', hlive, hnot⟩ := (send_exists_iff hinv).mp hmem.2
    obtain ⟨rfl, rfl⟩ := hinv.stores_unique hs hs'
    exact ⟨hlive, hnot⟩
  · intro h
    refine ⟨fun hne => ⟨_, hreply hne, ?_⟩, fun k hk hlen => ?_, fun k hk => ?_⟩
    · rw [htoInt, Nat.cast_inj, storedAmong]
      refine congrArg Set.ncard (Set.Subset.antisymm (fun k hk => ⟨hk.1, ?_⟩) hsub)
      obtain ⟨hmem, i, hocc, hkey⟩ := hk
      have hs : arena.Stores k _ _ := ⟨i, hocc, hkey, rfl, rfl⟩
      exact (send_exists_iff hinv).mpr ⟨_, _, hs, h k hmem _ _ hs⟩
    · rw [send_get, (MemLaneClient.get_eq_none_iff hinv' hlen).mpr]
      · rfl
      · intro v hvisible
        obtain ⟨e, hs, _⟩ := hvisible
        exact ((hdel.stores _ _ _).mp hs).1 hk
    · rw [send_get, send_get,
        MemLaneClient.get_congr hinv hinv' (hdel.visible_iff h hk)]

/-- **`DEL` against `EXISTS`.**  On every reachable arena, at every reading of the clock and
for every list of keys, the two commands agree if and only if every listed key that is
stored can be read. -/
theorem del_agrees_iff (tables : CaseTables) (hashFn : Bytes → UInt64) (region : Arena)
    (calls : List Call) (keys : List Bytes) (now : UInt64) :
    DelAgrees tables hashFn (arenaAfter hashFn region calls) keys now ↔
      AllReadable hashFn (arenaAfter hashFn region calls) keys now :=
  delAgrees_iff tables (TableInv.arenaAfter hashFn region calls)

/-- A key stored for one second, three seconds later: `EXISTS` would count nothing, and
`DEL` counts one. -/
theorem del_counts_expired :
    (send asciiTables siphash (arenaAfter siphash zeroedRegion
        [⟨.set [1] [1] 1, fun _ => 1000⟩]) "DEL" [[1]] 4000).1 = .integer 1 ∧
      ¬ DelAgrees asciiTables siphash (arenaAfter siphash zeroedRegion
        [⟨.set [1] [1] 1, fun _ => 1000⟩]) [[1]] 4000 := by
  have hcmd : extractCommand asciiTables (request "DEL" [[1]]) = .ok ⟨"DEL", [[1]]⟩ :=
    extractCommand_request _ (by decide)
  constructor
  · rw [send, dispatchCommand_del (List.cons_ne_nil _ _) hcmd]
    exact congrArg RespValue.integer (by decide +kernel)
  · have hinv := TableInv.arenaAfter siphash zeroedRegion [⟨.set [1] [1] 1, fun _ => 1000⟩]
    have hstores : (arenaAfter siphash zeroedRegion
        [⟨.set [1] [1] 1, fun _ => 1000⟩]).Stores [1] [1] (ttlToExpiry 1 1000) :=
      Call.stores_of_writes (.createArena zeroedRegion) ⟨1, rfl, ⟨true, by decide +kernel⟩, rfl⟩
    rw [delAgrees_iff asciiTables hinv]
    intro h
    obtain ⟨hlive, _⟩ := h [1] (List.mem_singleton.mpr rfl) _ _ hstores
    exact not_unexpired_iff.mpr ⟨by decide, by decide⟩ hlive

end MemLane
