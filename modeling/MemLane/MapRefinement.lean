import MemLane.StoredEntries
import Mathlib.Data.Finmap

/-!
# The arena refines a finite map of bounded size

Without expiry times the arena is a finite map from keys to values that holds at
most `slotCount` keys.  `mapExec` says what each client call does to such a map,
and `client_refines_map` that every sequence of calls gets from the arena the
answers it would get from the map, for any fingerprint function.
-/

namespace MemLane

/-- The abstract contents: a finite map from keys to values. -/
abbrev KeyMap := Finmap fun _ : Bytes => Bytes

/-- A client call on the abstract map.  The map refuses a new key when it already
holds `slotCount` of them. -/
def mapExec (m : KeyMap) (call : Call) : Reply × KeyMap :=
  match call.op with
  | .get key => (.get (.ok (m.lookup key)), m)
  | .existsKey key => (.existsKey (.ok (decide (key ∈ m))), m)
  | .del key => (.del (.ok (decide (key ∈ m))), m.erase key)
  | .set key value _ =>
      if key ∈ m then (.set (.ok false), m.insert key value)
      else if m.keys.card < slotCount then (.set (.ok true), m.insert key value)
      else (.set (.error (.arenaFull slotCount)), m)
  | .flush => (.flush (.ok ()), ∅)

/-- Keys and values are of admissible length and `set` asks for no expiry. -/
def Call.Plain (call : Call) : Prop :=
  match call.op with
  | .get key | .del key | .existsKey key => key.length ≤ maxKeyLen
  | .set key value ttlSecs =>
      key.length ≤ maxKeyLen ∧ value.length ≤ maxValLen ∧ ttlSecs = 0
  | .flush => True

/-- The arena represents the map: its entries are those of the map, and none
expires. -/
structure Refines (hashFn : Bytes → UInt64) (arena : Arena) (m : KeyMap) : Prop where
  inv : TableInv hashFn arena
  permanent : arena.Permanent
  lookup : ∀ k v, m.lookup k = some v ↔ arena.Stores k v 0

variable {hashFn : Bytes → UInt64} {arena after : Arena} {m : KeyMap} {key value k : Bytes}
  {clock : Clock}

theorem Refines.mem_iff (h : Refines hashFn arena m) : k ∈ m ↔ arena.Contains k := by
  rw [← Finmap.lookup_isSome, Option.isSome_iff_exists]
  constructor
  · intro hstored
    obtain ⟨v, hv⟩ := hstored
    exact ((h.lookup k v).mp hv).contains
  · intro hstored
    obtain ⟨i, hocc, hkey⟩ := hstored
    have hstores : arena.Stores k (arena.slots i).readValue (arena.slots i).expiresAtMs :=
      ⟨i, hocc, hkey, rfl, rfl⟩
    rw [h.permanent.stores hstores] at hstores
    exact ⟨_, (h.lookup k _).mpr hstores⟩

/-- The map has as many keys as the arena has OCCUPIED slots. -/
theorem Refines.card_keys (h : Refines hashFn arena m) :
    m.keys.card = Probe.load arena.cells :=
  Probe.card_keys_eq_load h.inv.wellFormed.nodup fun k => by
    rw [Finmap.mem_keys, h.mem_iff, Arena.contains_iff_holds]

/-- Writing one entry and keeping the others is an insertion into the map. -/
theorem Refines.insert (h : Refines hashFn arena m) (hinv : TableInv hashFn after)
    (hperm : after.Permanent) (hself : after.Stores key value 0)
    (hrest : ∀ k v, k ≠ key → (after.Stores k v 0 ↔ arena.Stores k v 0)) :
    Refines hashFn after (m.insert key value) where
  inv := hinv
  permanent := hperm
  lookup := by
    intro k v
    by_cases hk : k = key
    · subst hk
      rw [Finmap.lookup_insert, Option.some_inj]
      constructor
      · intro heq
        subst heq
        exact hself
      · exact fun hs => (hinv.stores_unique hself hs).1
    · rw [Finmap.lookup_insert_of_ne _ hk, hrest k v hk]
      exact h.lookup k v

theorem Refines.del (h : Refines hashFn arena m) (key : Bytes) :
    (MemLane.del hashFn arena key).1 = (if key ∈ m then .deleted else .notFound) ∧
      Refines hashFn (MemLane.del hashFn arena key).2 (m.erase key) := by
  have hinv := h.inv.del key
  have hperm : (MemLane.del hashFn arena key).2.Permanent := by
    have heff := del_effect h.inv key
    generalize MemLane.del hashFn arena key = res at heff ⊢
    cases heff with
    | notFound => exact h.permanent
    | deleted hocc hkey => exact (h.permanent.setSlot _ (by simp)).congr rfl
  have heff := del_effect h.inv key
  generalize MemLane.del hashFn arena key = res at hinv hperm heff
  obtain ⟨result, after⟩ := res
  have hstores : ∀ k v e, after.Stores k v e ↔ k ≠ key ∧ arena.Stores k v e :=
    fun k v e => heff.stores_iff h.inv
  refine ⟨?_, hinv, hperm, fun k v => ?_⟩
  · cases heff with
    | notFound habsent => simp [h.mem_iff, habsent]
    | deleted hocc hkey =>
        have hmem : arena.Contains key := ⟨_, hocc, hkey⟩
        simp [h.mem_iff, hmem]
  · rw [hstores]
    by_cases hk : k = key
    · subst hk
      simp [Finmap.lookup_erase]
    · rw [Finmap.lookup_erase_ne hk, h.lookup]
      simp [hk]

theorem Refines.get (h : Refines hashFn arena m) (key : Bytes) (clock : Clock) :
    (match (MemLane.get hashFn arena key clock).1 with
      | .found value => some value
      | .notFound | .expired => none) = m.lookup key ∧
      Refines hashFn (MemLane.get hashFn arena key clock).2 m := by
  have hsame := h.permanent.eq_of_evicts (get_evicts hashFn arena key clock)
  refine ⟨?_, by rw [hsame]; exact h⟩
  cases hm : m.lookup key with
  | none =>
      have habsent : ¬ arena.Contains key := by
        rw [← h.mem_iff, ← Finmap.lookup_eq_none]
        exact hm
      have hnot : ∀ value, (MemLane.get hashFn arena key clock).1 ≠ .found value :=
        get_absent habsent
      generalize MemLane.get hashFn arena key clock = res at hnot ⊢
      obtain ⟨result, after⟩ := res
      cases result with
      | found value => exact (hnot value rfl).elim
      | notFound | expired => rfl
  | some value =>
      obtain ⟨i, hocc, hkey, hvalue, _⟩ := (h.lookup key value).mp hm
      obtain ⟨d, hd, rfl⟩ := exists_probeIndex (hashFn key) i
      have hlive : ∀ j, j ≤ d → ¬ ExpiredAt arena (hashFn key) clock j := by
        intro j _ hexpired
        obtain ⟨hocc', _, hexp⟩ := hexpired
        exact Bool.false_ne_true ((h.permanent.not_expired hocc' _).symm.trans hexp)
      rw [(get_of_stored h.inv hd hocc hkey).mpr hlive]
      exact congrArg some hvalue

/-- `set` answers and acts as the bounded map does, and a refused `set` leaves the
arena as it was. -/
theorem Refines.set (h : Refines hashFn arena m) (hk : key.length ≤ maxKeyLen)
    (hv : value.length ≤ maxValLen) (clock : Clock) :
    (key ∈ m ∧ (MemLane.set hashFn arena key value 0 clock).1 = .updated ∧
      Refines hashFn (MemLane.set hashFn arena key value 0 clock).2 (m.insert key value)) ∨
    (key ∉ m ∧ m.keys.card < slotCount ∧
      (MemLane.set hashFn arena key value 0 clock).1 = .inserted ∧
      Refines hashFn (MemLane.set hashFn arena key value 0 clock).2 (m.insert key value)) ∨
    (key ∉ m ∧ ¬ m.keys.card < slotCount ∧
      MemLane.set hashFn arena key value 0 clock = (.full, arena)) := by
  have hinv := h.inv.set hk value 0 clock
  have heff := set_effect h.inv key value 0 clock
  rw [ttlToExpiry_zero] at heff
  generalize MemLane.set hashFn arena key value 0 clock = res at hinv heff
  obtain ⟨result, after⟩ := res
  have hinsert : result ≠ .full → Refines hashFn after (m.insert key value) := by
    intro hres
    refine h.insert hinv (heff.permanent h.permanent) (heff.stores_self hk hv hres)
      fun k v hne => ⟨heff.stores_of_ne hk hne, fun hs => ?_⟩
    rcases heff.keeps hne hs with hs' | hexp
    · exact hs'
    · exact (hexp.expired.1 rfl).elim
  cases heff with
  | @inserted now _ d hevicts habsent hd hfree hchain hslots hcount =>
      obtain rfl := h.permanent.eq_of_evicts hevicts
      refine .inr (.inl ⟨by rwa [h.mem_iff], ?_, rfl, hinsert (by simp)⟩)
      rw [h.card_keys]
      refine lt_of_le_of_ne (Probe.load_le _) fun hload => ?_
      obtain ⟨k, hfull⟩ := Probe.load_eq_iff.mp hload (probeIndex (hashFn key) d)
      exact hfree (Slot.cell_eq_full.mp hfull).1
  | @updated now i hevicts hocc hkey =>
      obtain rfl := h.permanent.eq_of_evicts hevicts
      exact .inl ⟨h.mem_iff.mpr ⟨i, hocc, hkey⟩, rfl, hinsert (by simp)⟩
  | full habsent hfull =>
      refine .inr (.inr ⟨by rwa [h.mem_iff], ?_, rfl⟩)
      have hload : Probe.load arena.cells = slotCount :=
        Probe.load_eq_iff.mpr fun i => ⟨_, Slot.cell_eq_full.mpr ⟨hfull i, rfl⟩⟩
      rw [h.card_keys, hload]
      exact lt_irrefl _

theorem Refines.flush (arena : Arena) : Refines hashFn (flushAll arena) ∅ := by
  have hnone : ∀ k v e, ¬ (flushAll arena).Stores k v e := by
    intro k v e hstored
    obtain ⟨i, hocc, _⟩ := hstored
    simp [flushAll, flushSlot] at hocc
  exact ⟨.flushAll arena, .flushAll arena, fun k v => by simp [hnone]⟩

theorem Refines.createArena (region : Arena) : Refines hashFn (createArena region) ∅ := by
  have hnone : ∀ k v e, ¬ (MemLane.createArena region).Stores k v e := by
    intro k v e hstored
    obtain ⟨i, hocc, _⟩ := hstored
    simp [MemLane.createArena, Slot.init] at hocc
  exact ⟨.createArena region, .createArena region, fun k v => by simp [hnone]⟩

/-- One plain call is answered as by the map, keeps the refinement, and changes
nothing when it is refused. -/
theorem Refines.exec (h : Refines hashFn arena m) {call : Call} (hplain : call.Plain) :
    (call.exec hashFn arena).1 = (mapExec m call).1 ∧
      Refines hashFn (call.exec hashFn arena).2 (mapExec m call).2 := by
  obtain ⟨op, clock⟩ := call
  cases op with
  | get key =>
      obtain ⟨hres, hnext⟩ := h.get key clock
      have hk : ¬ key.length > maxKeyLen := not_lt.mpr hplain
      simp only [Call.exec, MemLaneClient.get, mapExec, if_neg hk]
      refine ⟨?_, hnext⟩
      rw [← hres]
      generalize (MemLane.get hashFn arena key clock).1 = r
      cases r <;> rfl
  | existsKey key =>
      obtain ⟨hres, hnext⟩ := h.get key clock
      have hk : ¬ key.length > maxKeyLen := not_lt.mpr hplain
      simp only [Call.exec, MemLaneClient.existsKey, mapExec, if_neg hk]
      refine ⟨?_, hnext⟩
      have hmem : decide (key ∈ m) = (m.lookup key).isSome := by
        rw [Bool.eq_iff_iff, decide_eq_true_iff, Finmap.lookup_isSome]
      rw [hmem, ← hres]
      simp only [MemLane.existsKey]
      generalize (MemLane.get hashFn arena key clock).1 = r
      cases r <;> rfl
  | del key =>
      obtain ⟨hres, hnext⟩ := h.del key
      have hk : ¬ key.length > maxKeyLen := not_lt.mpr hplain
      simp only [Call.exec, MemLaneClient.del, mapExec, if_neg hk]
      refine ⟨?_, hnext⟩
      rw [hres]
      by_cases hmem : key ∈ m <;> simp [hmem]
  | set key value ttlSecs =>
      obtain ⟨hk, hv, rfl⟩ := hplain
      simp only [Call.exec, MemLaneClient.set, mapExec, if_neg (not_lt.mpr hk),
        if_neg (not_lt.mpr hv)]
      rcases h.set hk hv clock with ⟨hmem, hres, hnext⟩ | ⟨hmem, hcard, hres, hnext⟩ |
        ⟨hmem, hcard, hres⟩
      · simp [hmem, hres, hnext]
      · simp [hmem, hcard, hres, hnext]
      · simp [hmem, hcard, hres, h]
  | flush => exact ⟨rfl, .flush arena⟩

/-- A refused plain call leaves the arena exactly as it was. -/
theorem Refines.exec_full (h : Refines hashFn arena m) {call : Call} (hplain : call.Plain)
    (hfull : (call.exec hashFn arena).1 = .set (.error (.arenaFull slotCount))) :
    (call.exec hashFn arena).2 = arena := by
  obtain ⟨op, clock⟩ := call
  cases op with
  | get | existsKey | del | flush => cases hfull
  | set key value ttlSecs =>
      obtain ⟨hk, hv, rfl⟩ := hplain
      simp only [Call.exec, MemLaneClient.set, if_neg (not_lt.mpr hk),
        if_neg (not_lt.mpr hv)] at hfull ⊢
      rcases h.set hk hv clock with ⟨_, hres, _⟩ | ⟨_, _, hres, _⟩ | ⟨_, _, hres⟩
      · simp [hres] at hfull
      · simp [hres] at hfull
      · rw [hres]

/-- Whole runs of plain calls: equal replies, and the refinement at the end. -/
theorem Refines.run (hashFn : Bytes → UInt64) (region : Arena) {calls : List Call}
    (hplain : ∀ call ∈ calls, call.Plain) :
    Run.trace (Call.exec hashFn) (MemLane.createArena region) calls = Run.trace mapExec ∅ calls ∧
      Refines hashFn (arenaAfter hashFn region calls) (Run.after mapExec ∅ calls) :=
  Run.lockstep (fun _ _ _ h hp => h.exec hp) (.createArena region) hplain

/-- **Map refinement.**  For any fingerprint function, a fresh arena answers every
sequence of plain client calls as the bounded finite map does, and a call
refused with `ArenaFull` leaves the arena exactly as it was. -/
theorem client_refines_map (hashFn : Bytes → UInt64) (region : Arena) (calls : List Call)
    (hplain : ∀ call ∈ calls, call.Plain) :
    Run.trace (Call.exec hashFn) (createArena region) calls = Run.trace mapExec ∅ calls ∧
    ∀ before call rest, calls = before ++ call :: rest →
      (call.exec hashFn (arenaAfter hashFn region before)).1 =
        .set (.error (.arenaFull slotCount)) →
      (call.exec hashFn (arenaAfter hashFn region before)).2 =
        arenaAfter hashFn region before := by
  refine ⟨(Refines.run hashFn region hplain).1, ?_⟩
  intro before call rest heq hfull
  have hbefore : ∀ c ∈ before, c.Plain := fun c hc =>
    hplain c (by rw [heq]; exact List.mem_append_left _ hc)
  exact (Refines.run hashFn region hbefore).2.exec_full (hplain call (by simp [heq])) hfull

/-- The refinement on a history with an update, a deletion and a flush. -/
theorem client_refines_map_history :
    let calls : List Call :=
      [⟨.set [1] [10] 0, fun _ => 5⟩, ⟨.set [1] [11] 0, fun _ => 4⟩, ⟨.get [1], fun _ => 9⟩,
        ⟨.del [1], fun _ => 0⟩, ⟨.existsKey [1], fun _ => 2⟩, ⟨.flush, fun _ => 7⟩]
    Run.trace (Call.exec fun _ => 7) (createArena zeroedRegion) calls =
      Run.trace mapExec ∅ calls :=
  (client_refines_map (fun _ => 7) zeroedRegion _ (by simp [Call.Plain, maxKeyLen, maxValLen])).1

end MemLane
