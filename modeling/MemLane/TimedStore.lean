import MemLane.Isolation
import MemLane.Visibility

/-!
# The table as a map with expiry times

A map that keeps each value with its expiry time, and drops an entry when it is next asked
for after that time, is what the arena stands for when expiry times are in use.  The arena
drops every expired entry that it passes with the fingerprint of the key it looks for, so
the keys in use must have fingerprints of their own.

A probe loop reads the clock when it gets to the entry.  The map reads it at once, so it
goes by a reading that the loop has made.
-/

namespace MemLane

instance (expiry now : UInt64) : Decidable (Unexpired expiry now) :=
  inferInstanceAs (Decidable (expiry = 0 ∨ now < expiry))

/-- The abstract contents: values with their expiry times. -/
abbrev TimedMap := Finmap fun _ : Bytes => Bytes × UInt64

namespace TimedMap

variable (m : TimedMap) (key value : Bytes)

/-- The value of a key, unless it has expired. -/
def live (now : UInt64) : Option Bytes :=
  (m.lookup key).bind fun entry => if Unexpired entry.2 now then some entry.1 else none

/-- Look for a key, and drop it if it has expired. -/
def read (now : UInt64) : Except MemLaneError (Option Bytes) × TimedMap :=
  if Admissible key then
    (.ok (m.live key now), if (m.live key now).isSome then m else m.erase key)
  else (.error (.keyTooLong key.length), m)

/-- Write a pair, if it fits.  The expiry time is computed first; the key counts as new if its
entry has expired by then. -/
def write (ttlSecs : UInt64) (clock : Clock) : Except MemLaneError Bool × TimedMap :=
  if ¬ Admissible key then (.error (.keyTooLong key.length), m)
  else if maxValLen < value.length then (.error (.valueTooLong value.length), m)
  else if key ∈ m ∨ m.keys.card < slotCount then
    (.ok (m.live key (clock 1)).isNone, m.insert key (value, ttlToExpiry ttlSecs (clock 0)))
  else (.error (.arenaFull slotCount), m)

end TimedMap

/-- Some of the readings, in the order in which they were made. -/
def Sampled (clock clock' : Clock) : Prop :=
  ∃ moment : Nat → Nat, Monotone moment ∧ ∀ n, clock' n = clock (moment n)

theorem Sampled.refl (clock : Clock) : Sampled clock clock := ⟨id, monotone_id, fun _ => rfl⟩

/-- The first reading, and another one. -/
theorem Sampled.first (clock : Clock) (i : Nat) :
    Sampled clock fun n => if n = 0 then clock 0 else clock i := by
  refine ⟨fun n => if n = 0 then 0 else i, ?_, fun n => (apply_ite clock (n = 0) 0 i).symm⟩
  intro a b hab
  by_cases ha : a = 0
  · simp [ha]
  · have hb : b ≠ 0 := by omega
    simp [ha, hb]

/-! ## The refinement -/

/-- The arena has the entries of the map, under some of the keys. -/
structure TimedRefines (hashFn : Bytes → UInt64) (keys : Set Bytes) (arena : Arena)
    (m : TimedMap) : Prop where
  inv : TableInv hashFn arena
  lookup : ∀ k v e, m.lookup k = some (v, e) ↔ arena.Stores k v e
  within : ∀ k ∈ m, k ∈ keys

namespace TimedRefines

variable {hashFn : Bytes → UInt64} {keys : Set Bytes} {arena after : Arena} {m : TimedMap}
  {key value k : Bytes} {expiry now : UInt64} {clock : Clock} {j : Fin slotCount}

theorem mem_iff (h : TimedRefines hashFn keys arena m) : k ∈ m ↔ arena.Contains k := by
  rw [← Finmap.lookup_isSome, Option.isSome_iff_exists]
  constructor
  · intro hstored
    obtain ⟨⟨v, e⟩, hentry⟩ := hstored
    exact ((h.lookup k v e).mp hentry).contains
  · intro hstored
    obtain ⟨i, hocc, hkey⟩ := hstored
    exact ⟨_, (h.lookup k _ _).mpr ⟨i, hocc, hkey, rfl, rfl⟩⟩

theorem card_keys (h : TimedRefines hashFn keys arena m) :
    m.keys.card = Probe.load arena.cells :=
  Probe.card_keys_eq_load h.inv.wellFormed.nodup fun k => by
    rw [Finmap.mem_keys, h.mem_iff, Arena.contains_iff_holds]

/-- A slot with the fingerprint of a key has this key. -/
theorem readKey_eq (h : TimedRefines hashFn keys arena m) (hdistinct : keys.InjOn hashFn)
    (hkey : key ∈ keys) (hocc : (arena.slots j).state = stateOccupied)
    (hfp : (arena.slots j).fingerprint = hashFn key) : (arena.slots j).readKey = key := by
  have hmem : (arena.slots j).readKey ∈ m := h.mem_iff.mpr ⟨j, hocc, rfl⟩
  exact hdistinct (h.within _ hmem) hkey (((h.inv.slot j).fingerprint hocc).symm.trans hfp)

/-- The entry of a key, seen in its slot. -/
theorem live_eq (h : TimedRefines hashFn keys arena m)
    (hocc : (arena.slots j).state = stateOccupied) (hkey : (arena.slots j).readKey = key) :
    m.live key now =
      if (arena.slots j).isExpired now then none else some (arena.slots j).readValue := by
  have hentry : m.lookup key = some ((arena.slots j).readValue, (arena.slots j).expiresAtMs) :=
    (h.lookup key _ _).mpr ⟨j, hocc, hkey, rfl, rfl⟩
  rw [TimedMap.live, hentry, Option.bind_some]
  cases hexp : (arena.slots j).isExpired now with
  | true =>
      obtain ⟨hmortal, hpast⟩ := Slot.isExpired_iff.mp hexp
      rw [if_neg (not_unexpired_iff.mpr ⟨hmortal, hpast⟩)]
      rfl
  | false =>
      rw [if_pos (Slot.isExpired_eq_false_iff_unexpired.mp hexp)]
      rfl

theorem live_of_absent (h : TimedRefines hashFn keys arena m) (habsent : ¬ arena.Contains key) :
    m.live key now = none := by
  rw [TimedMap.live, Finmap.lookup_eq_none.mpr (mt h.mem_iff.mp habsent)]
  rfl

/-- Removing the entry of one key. -/
theorem erase (h : TimedRefines hashFn keys arena m) (hinv : TableInv hashFn after)
    (hstores : ∀ k v e, after.Stores k v e ↔ k ≠ key ∧ arena.Stores k v e) :
    TimedRefines hashFn keys after (m.erase key) where
  inv := hinv
  lookup k v e := by
    rw [hstores]
    by_cases hk : k = key
    · subst hk
      simp [Finmap.lookup_erase]
    · rw [Finmap.lookup_erase_ne hk, h.lookup]
      exact (and_iff_right hk).symm
  within k hk := h.within k (Finmap.mem_erase.mp hk).2

/-- A key that is not there can be removed. -/
theorem erase_absent (h : TimedRefines hashFn keys arena m) (habsent : ¬ arena.Contains key) :
    TimedRefines hashFn keys arena (m.erase key) := by
  refine h.erase h.inv fun k v e => (and_iff_right_of_imp ?_).symm
  rintro hs rfl
  exact habsent hs.contains

/-- Writing the entry of one key. -/
theorem insert (h : TimedRefines hashFn keys arena m) (hinv : TableInv hashFn after)
    (hkey : key ∈ keys) (hself : after.Stores key value expiry)
    (hrest : ∀ k v e, k ≠ key → (after.Stores k v e ↔ arena.Stores k v e)) :
    TimedRefines hashFn keys after (m.insert key (value, expiry)) where
  inv := hinv
  lookup k v e := by
    by_cases hk : k = key
    · subst hk
      rw [Finmap.lookup_insert, Option.some_inj, Prod.mk.injEq]
      constructor
      · rintro ⟨rfl, rfl⟩
        exact hself
      · exact fun hs => hinv.stores_unique hself hs
    · rw [Finmap.lookup_insert_of_ne _ hk, hrest k v e hk]
      exact h.lookup k v e
  within k hk := by
    rcases Finmap.mem_insert.mp hk with rfl | hk
    · exact hkey
    · exact h.within k hk

/-! ## The operations -/

theorem del (h : TimedRefines hashFn keys arena m) (key : Bytes) :
    (MemLane.del hashFn arena key).1 = (if key ∈ m then .deleted else .notFound) ∧
      TimedRefines hashFn keys (MemLane.del hashFn arena key).2 (m.erase key) := by
  have heff := del_effect h.inv key
  have hinv := h.inv.del key
  generalize MemLane.del hashFn arena key = res at heff hinv
  obtain ⟨result, after⟩ := res
  refine ⟨?_, h.erase hinv fun k v e => heff.stores_iff h.inv⟩
  cases heff with
  | notFound habsent => rw [if_neg (mt h.mem_iff.mp habsent)]
  | deleted hocc hkey => rw [if_pos (h.mem_iff.mpr ⟨_, hocc, hkey⟩)]

/-- What `get` and `exists` answer from the result of the probe loop. -/
def found : GetResult → Option Bytes
  | .found value => some value
  | .notFound | .expired => none

/-- `get` reads the map as it is at a reading that it has made. -/
theorem get (h : TimedRefines hashFn keys arena m) (hdistinct : keys.InjOn hashFn)
    (hkey : key ∈ keys) (clock : Clock) :
    ∃ i, found (MemLane.get hashFn arena key clock).1 = m.live key (clock i) ∧
      TimedRefines hashFn keys (MemLane.get hashFn arena key clock).2
        (if (m.live key (clock i)).isSome then m else m.erase key) := by
  have hinv := h.inv.get key clock
  have hout := get_outcome hashFn arena key clock
  generalize MemLane.get hashFn arena key clock = res at hinv hout
  have habsent : ¬ arena.Contains key → ∃ i, none = m.live key (clock i) ∧
      TimedRefines hashFn keys arena
        (if (m.live key (clock i)).isSome then m else m.erase key) := by
    intro habsent
    refine ⟨0, (h.live_of_absent habsent).symm, ?_⟩
    rw [h.live_of_absent habsent]
    exact h.erase_absent habsent
  cases hout with
  | absent he hempty hpassed =>
      exact habsent (h.inv.absent_of_empty he hempty fun m hm => (hpassed m hm).1)
  | exhausted hpassed =>
      exact habsent (h.inv.absent_of_full_scan fun m hm => (hpassed m hm).1)
  | @expired e he hocc hfp hexp hpassed =>
      have hown := h.readKey_eq hdistinct hkey hocc hfp
      have hlive : m.live key (clock e) = none := (h.live_eq hocc hown).trans (if_pos hexp)
      refine ⟨e, hlive.symm, ?_⟩
      rw [hlive]
      -- the slot is buried as a `del` buries it
      have heff := DelEffect.deleted hocc hown
      exact h.erase hinv fun k v e => heff.stores_iff h.inv
  | @found e he hocc hfp hexp hown hpassed =>
      have hlive : m.live key (clock e) = some (arena.probed (hashFn key) e).readValue :=
        (h.live_eq hocc hown).trans (if_neg (ne_true_of_eq_false hexp))
      refine ⟨e, hlive.symm, ?_⟩
      rw [hlive]
      exact h

/-- The evictions of a `set` spare an entry that it then updates, and remove one that has
expired. -/
theorem live_of_evicted (h : TimedRefines hashFn keys arena m) (hdistinct : keys.InjOn hashFn)
    (hkey : key ∈ keys) (hevicts : Evicts (hashFn key) clock arena after)
    (habsent : ¬ after.Contains key) :
    (key ∉ m ∧ after = arena) ∨ (key ∈ m ∧ ∃ i, m.live key (clock i) = none) := by
  by_cases hmem : key ∈ m
  · obtain ⟨j, hocc, hown⟩ := h.mem_iff.mp hmem
    rcases hevicts.slot j with heq | ⟨_, _, ⟨i, _, _, hexp⟩, _⟩
    · exact (habsent ⟨j, by rw [heq]; exact ⟨hocc, hown⟩⟩).elim
    · exact .inr ⟨hmem, i, (h.live_eq hocc hown).trans (if_pos hexp)⟩
  · refine .inl ⟨hmem, Arena.ext' hevicts.header fun j => ?_⟩
    rcases hevicts.slot j with heq | ⟨hocc, hfp, _⟩
    · exact heq
    · exact (hmem (h.mem_iff.mpr ⟨j, hocc, h.readKey_eq hdistinct hkey hocc hfp⟩)).elim

/-- An update has seen that the entry had not expired. -/
theorem live_of_updated (h : TimedRefines hashFn keys arena m) {hash : UInt64}
    {res : SetResult × Arena} (hout : SetOutcome key value hash expiry clock arena res)
    (hres : res.1 = .updated) :
    key ∈ m ∧ ∃ i v, m.live key (clock i) = some v := by
  cases hout with
  | claimed | reused | full => cases hres
  | @updated now firstTombstone e he hocc hfp hlive hown hscan =>
      have hslot := hscan.evicts.slot_of_occupied hocc
      rw [Arena.probed, hslot] at hocc hlive hown
      have hentry : m.live key (clock (e + 1)) = _ := h.live_eq hocc hown
      rw [if_neg (ne_true_of_eq_false hlive)] at hentry
      exact ⟨h.mem_iff.mpr ⟨_, hocc, hown⟩, e + 1, _, hentry⟩

/-- `set` writes to the map as it is at a reading that it has made. -/
theorem set (h : TimedRefines hashFn keys arena m) (hdistinct : keys.InjOn hashFn)
    (hkey : key ∈ keys) (hk : key.length ≤ maxKeyLen) (hv : value.length ≤ maxValLen)
    (ttlSecs : UInt64) (clock : Clock) :
    (∃ i, (key ∈ m ∨ m.keys.card < slotCount) ∧
      (MemLane.set hashFn arena key value ttlSecs clock).1 =
        (if (m.live key (clock i)).isNone then .inserted else .updated) ∧
      TimedRefines hashFn keys (MemLane.set hashFn arena key value ttlSecs clock).2
        (m.insert key (value, ttlToExpiry ttlSecs (clock 0)))) ∨
    (¬ (key ∈ m ∨ m.keys.card < slotCount) ∧
      MemLane.set hashFn arena key value ttlSecs clock = (.full, arena)) := by
  have hinv := h.inv.set hk value ttlSecs clock
  have heff := set_effect h.inv key value ttlSecs clock
  have hupdated := h.live_of_updated (set_outcome hashFn arena key value ttlSecs clock)
  generalize MemLane.set hashFn arena key value ttlSecs clock = res at hinv heff hupdated
  obtain ⟨result, final⟩ := res
  have hinsert : result ≠ .full → TimedRefines hashFn keys final
      (m.insert key (value, ttlToExpiry ttlSecs (clock 0))) := by
    intro hres
    refine h.insert hinv hkey (heff.stores_self hk hv hres) fun k v e hne => ?_
    refine ⟨heff.stores_of_ne hk hne, fun hs => ?_⟩
    rcases heff.keeps hne hs with hs' | hexp
    · exact hs'
    · have hfp := hexp.fingerprint h.inv
      exact absurd (hdistinct (h.within k (h.mem_iff.mpr hs.contains)) hkey hfp) hne
  cases heff with
  | @inserted now _ d hevicts habsent hd hfree hchain hslots hcount =>
      refine .inl ?_
      rcases h.live_of_evicted hdistinct hkey hevicts habsent with ⟨hmem, rfl⟩ | ⟨hmem, i, hlive⟩
      · refine ⟨0, .inr ?_, ?_, hinsert (by simp)⟩
        · rw [h.card_keys]
          refine lt_of_le_of_ne (Probe.load_le _) fun hload => ?_
          obtain ⟨k, hfull⟩ := Probe.load_eq_iff.mp hload (probeIndex (hashFn key) d)
          exact hfree (Slot.cell_eq_full.mp hfull).1
        · rw [h.live_of_absent (mt h.mem_iff.mpr hmem)]
          rfl
      · refine ⟨i + 1, .inl hmem, ?_, hinsert (by simp)⟩
        rw [hlive]
        rfl
  | @updated now j hevicts hocc hown =>
      obtain ⟨hmem, i, v, hlive⟩ := hupdated rfl
      refine .inl ⟨i, .inl hmem, ?_, hinsert (by simp)⟩
      rw [hlive]
      rfl
  | full habsent hfull =>
      refine .inr ⟨?_, rfl⟩
      have hload : Probe.load arena.cells = slotCount :=
        Probe.load_eq_iff.mpr fun i => ⟨_, Slot.cell_eq_full.mpr ⟨hfull i, rfl⟩⟩
      rw [h.mem_iff, h.card_keys, hload]
      exact not_or.mpr ⟨habsent, lt_irrefl _⟩

theorem flush (arena : Arena) : TimedRefines hashFn keys (flushAll arena) ∅ where
  inv := .flushAll arena
  lookup k v e := by
    refine iff_of_false (by simp) ?_
    rintro ⟨i, hocc, _⟩
    simp [flushAll, flushSlot] at hocc
  within k hk := absurd hk (Finmap.notMem_empty)

theorem createArena (region : Arena) : TimedRefines hashFn keys (createArena region) ∅ where
  inv := .createArena region
  lookup k v e := by
    refine iff_of_false (by simp) ?_
    rintro ⟨i, hocc, _⟩
    exact stateOccupied_ne_stateEmpty hocc.symm
  within k hk := absurd hk (Finmap.notMem_empty)

/-! ## The client -/

/-- `MemLaneClient::get` reads the map. -/
theorem read (h : TimedRefines hashFn keys arena m) (hdistinct : keys.InjOn hashFn)
    (hkey : key ∈ keys) (clock : Clock) :
    ∃ i, (MemLaneClient.get hashFn arena key clock).1 = (m.read key (clock i)).1 ∧
      TimedRefines hashFn keys (MemLaneClient.get hashFn arena key clock).2
        (m.read key (clock i)).2 := by
  simp only [MemLaneClient.get, TimedMap.read]
  by_cases hk : Admissible key
  · obtain ⟨i, hfound, hnext⟩ := h.get hdistinct hkey clock
    refine ⟨i, ?_⟩
    rw [if_pos hk, if_neg (not_lt.mpr hk), ← hfound]
    refine ⟨?_, hfound ▸ hnext⟩
    generalize (MemLane.get hashFn arena key clock).1 = result
    cases result <;> rfl
  · refine ⟨0, ?_⟩
    rw [if_neg hk, if_pos (not_le.mp hk)]
    exact ⟨rfl, h⟩

/-- `MemLaneClient::set` writes to the map. -/
theorem write (h : TimedRefines hashFn keys arena m) (hdistinct : keys.InjOn hashFn)
    (hkey : key ∈ keys) (value : Bytes) (ttlSecs : UInt64) (clock : Clock) :
    ∃ clock', Sampled clock clock' ∧
      (MemLaneClient.set hashFn arena key value ttlSecs clock).1 =
        (m.write key value ttlSecs clock').1 ∧
      TimedRefines hashFn keys (MemLaneClient.set hashFn arena key value ttlSecs clock).2
        (m.write key value ttlSecs clock').2 := by
  simp only [MemLaneClient.set, TimedMap.write]
  by_cases hk : Admissible key
  · by_cases hv : maxValLen < value.length
    · refine ⟨_, .refl clock, ?_⟩
      rw [if_neg (not_lt.mpr hk), if_pos hv, if_neg (not_not.mpr hk), if_pos hv]
      exact ⟨rfl, h⟩
    · rcases h.set hdistinct hkey hk (not_lt.mp hv) ttlSecs clock with
        ⟨i, hfits, hresult, hnext⟩ | ⟨hfull, hresult⟩
      · refine ⟨_, .first clock i, ?_⟩
        rw [if_neg (not_lt.mpr hk), if_neg hv, if_neg (not_not.mpr hk), if_neg hv,
          if_pos hfits, hresult]
        refine ⟨?_, hnext⟩
        simp only [one_ne_zero, if_false]
        cases m.live key (clock i) <;> rfl
      · refine ⟨_, .refl clock, ?_⟩
        rw [if_neg (not_lt.mpr hk), if_neg hv, if_neg (not_not.mpr hk), if_neg hv,
          if_neg hfull, hresult]
        exact ⟨rfl, h⟩
  · refine ⟨_, .refl clock, ?_⟩
    rw [if_pos (not_le.mp hk), if_pos hk]
    exact ⟨rfl, h⟩

end TimedRefines

section Server

variable {tables : CaseTables} {elemSize : Nat}

variable {σ τ ι : Type} [DecidableEq ι] {R : σ → τ → Prop} {P : Query → Prop}
  {store : ClientStore σ} {store' : ClientStore τ} {server : Server σ ι} {server' : Server τ ι}

end Server

end MemLane
