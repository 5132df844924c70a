import MemLane.ServerRuns

/-!
# Connections that keep to keys of their own

All connections share one bounded table.  Take some of them whose requests are about
keys that no request of another connection is about, let no other connection empty the
table, and let there be room for all keys that are written.  Then these connections are
on their own: leave the steps of the others out of the run, and they still read, dispatch
and write the same.

Fingerprints, probe chains and the counter are shared between all keys, so this is not
plain from the table.  It holds because the table stands for a map at every moment.
-/

namespace MemLane

/-- The operation is about one of the keys, stores nothing that expires, and adds only keys
there is room for. -/
def Query.Within (keys : Set Bytes) (room : Finset Bytes) : Query → Prop
  | .get key | .existsKey key | .del key => key ∈ keys
  | .set key _ ttlSecs => key ∈ keys ∧ key ∈ room ∧ ttlSecs = 0
  | .flush => True
  | .usedCount => False

/-- The operation is about other keys, and does not empty the table. -/
def Query.Apart (keys : Set Bytes) (room : Finset Bytes) (q : Query) : Prop :=
  q.Within keysᶜ room ∧ q ≠ .flush

/-- The maps are the same on these keys, and have room. -/
structure AgreeOn (keys : Set Bytes) (room : Finset Bytes) (m m' : KeyMap) : Prop where
  lookup : ∀ key ∈ keys, m.lookup key = m'.lookup key
  left : m.keys ⊆ room
  right : m'.keys ⊆ room

variable {keys : Set Bytes} {room : Finset Bytes} {m m' : KeyMap} {q : Query} {clock : Clock}

theorem Query.Within.plain (h : q.Within keys room) : q.Plain := by
  cases q with
  | set key value ttlSecs => exact h.2.2
  | usedCount => exact h
  | get | del | existsKey | flush => trivial

/-! ## Operations on the map -/

theorem readKey_eq {key : Bytes} (h : m.lookup key = m'.lookup key) :
    readKey m key = readKey m' key := by
  rw [readKey, readKey, h]

theorem writePair_keys_subset {key : Bytes} (hm : m.keys ⊆ room) (hkey : key ∈ room)
    (value : Bytes) : (writePair m key value).2.keys ⊆ room := by
  unfold writePair
  split_ifs
  · exact hm
  · intro k hk
    rcases Finmap.mem_insert.mp (Finmap.mem_keys.mp hk) with rfl | hk
    · exact hkey
    · exact hm (Finmap.mem_keys.mpr hk)
  · exact hm
  · exact hm

/-- A key there is room for is not refused for lack of space. -/
theorem fits_of_room (hroom : room.card ≤ slotCount) (hm : m.keys ⊆ room) {key : Bytes}
    (hkey : key ∈ room) : key ∈ m ∨ m.keys.card < slotCount := by
  by_cases hmem : key ∈ m
  · exact .inl hmem
  · have hnot : key ∉ m.keys := fun h => hmem (Finmap.mem_keys.mp h)
    exact .inr ((Finset.card_lt_card (Finset.ssubset_iff_subset_ne.mpr
      ⟨hm, fun heq => hnot (heq ▸ hkey)⟩)).trans_le hroom)

theorem mapStore_keys_subset (h : q.Within keys room) (hm : m.keys ⊆ room) :
    (mapStore m q clock).2.keys ⊆ room := by
  cases q with
  | get | existsKey | usedCount => exact hm
  | flush => exact Finset.empty_subset _
  | set key value ttlSecs => exact writePair_keys_subset hm h.2.1 value
  | del key =>
      simp only [mapStore]
      split_ifs
      · rw [Finmap.keys_erase]
        exact (Finset.erase_subset _ _).trans hm
      · exact hm

/-- Maps that agree on the key of an operation answer it alike, and agree afterwards. -/
theorem mapStore_agree (hroom : room.card ≤ slotCount) :
    Script.Alike mapStore mapStore (Query.Within keys room) (AgreeOn keys room) := by
  intro m m' q clock h hwithin
  suffices halike : (mapStore m q clock).1 = (mapStore m' q clock).1 ∧
      ∀ k ∈ keys, (mapStore m q clock).2.lookup k = (mapStore m' q clock).2.lookup k from
    ⟨halike.1, halike.2, mapStore_keys_subset hwithin h.left, mapStore_keys_subset hwithin h.right⟩
  have hmem : ∀ key ∈ keys, key ∈ m ↔ key ∈ m' := by
    intro key hkey
    rw [← Finmap.lookup_isSome, ← Finmap.lookup_isSome, h.lookup key hkey]
  cases q with
  | get key => exact ⟨readKey_eq (h.lookup key hwithin), h.lookup⟩
  | existsKey key =>
      exact ⟨congrArg (Except.map Option.isSome) (readKey_eq (h.lookup key hwithin)), h.lookup⟩
  | flush => exact ⟨rfl, fun _ _ => rfl⟩
  | usedCount => exact hwithin.elim
  | set key value ttlSecs =>
      obtain ⟨hkey, hspace, _⟩ := hwithin
      rw [mapStore, mapStore, writePair, writePair, if_pos (fits_of_room hroom h.left hspace),
        if_pos (fits_of_room hroom h.right hspace),
        decide_eq_decide.mpr (not_congr (hmem key hkey))]
      split_ifs
      · exact ⟨rfl, h.lookup⟩
      · refine ⟨rfl, ?_⟩
        intro k hk
        by_cases hk' : k = key
        · rw [hk', Finmap.lookup_insert, Finmap.lookup_insert]
        · rw [Finmap.lookup_insert_of_ne _ hk', Finmap.lookup_insert_of_ne _ hk']
          exact h.lookup k hk
      · exact ⟨rfl, h.lookup⟩
  | del key =>
      simp only [mapStore, hmem key hwithin]
      split_ifs
      · refine ⟨rfl, ?_⟩
        intro k hk
        by_cases hk' : k = key
        · rw [hk', Finmap.lookup_erase, Finmap.lookup_erase]
        · rw [Finmap.lookup_erase_ne hk', Finmap.lookup_erase_ne hk']
          exact h.lookup k hk
      · exact ⟨rfl, h.lookup⟩

/-! ## Operations on the arena -/

/-- The arenas stand for maps that agree on these keys. -/
def SharedKeys (hashFn : Bytes → UInt64) (keys : Set Bytes) (room : Finset Bytes)
    (arena arena' : Arena) : Prop :=
  ∃ m m', Refines hashFn arena m ∧ Refines hashFn arena' m' ∧ AgreeOn keys room m m'

section Arenas

variable {hashFn : Bytes → UInt64} {arena arena' : Arena}

theorem SharedKeys.createArena (region region' : Arena) :
    SharedKeys hashFn keys room (createArena region) (createArena region') := by
  refine ⟨∅, ∅, .createArena region, .createArena region', fun _ _ => rfl, ?_, ?_⟩
  · exact Finset.empty_subset _
  · exact Finset.empty_subset _

theorem SharedKeys.alike (hroom : room.card ≤ slotCount) :
    Script.Alike (arenaStore hashFn) (arenaStore hashFn) (Query.Within keys room)
      (SharedKeys hashFn keys room) := by
  intro arena arena' q clock h hwithin
  obtain ⟨m, m', hm, hm', hagree⟩ := h
  obtain ⟨hanswer, hnext⟩ := arenaStore_alike hashFn arena m q clock hm hwithin.plain
  obtain ⟨hanswer', hnext'⟩ := arenaStore_alike hashFn arena' m' q clock hm' hwithin.plain
  obtain ⟨hsame, hagree⟩ := mapStore_agree hroom m m' q clock hagree hwithin
  exact ⟨hanswer.trans (hsame.trans hanswer'.symm), _, _, hnext, hnext', hagree⟩

end Arenas

/-! ## Connections -/

/-- A server, and the part of it that is left to some connections: these have the same
sessions in both. -/
structure Server.Contains {σ τ ι : Type} (A : ι → Bool) (R : σ → τ → Prop) (server : Server σ ι)
    (part : Server τ ι) : Prop where
  sessions : ∀ i, A i = true → server.sessions i = part.sessions i
  lives : part.aborted = false
  store : R server.store part.store

section Contains

variable {σ τ ι : Type} [DecidableEq ι] {tables : CaseTables} {elemSize : Nat} {A : ι → Bool}
  {R : σ → τ → Prop} {P : Query → Prop} {store : ClientStore σ} {store' : ClientStore τ}
  {server : Server σ ι} {part : Server τ ι} {input : ι × ServerEvent}

theorem Server.lives_before
    (h : (server.next tables elemSize store input).aborted = false) : server.aborted = false := by
  cases haborted : server.aborted with
  | false => rfl
  | true =>
      rw [next_aborted haborted, haborted] at h
      exact h

/-- A step of one of the connections is the same step in both servers. -/
theorem Server.Contains.inside (h : server.Contains A R part) (hA : A input.1 = true)
    (halike : Script.Alike store store' P R)
    (hasks : ((server.sessions input.1).move tables elemSize input.2).Asks P)
    (hlives : (server.next tables elemSize store input).aborted = false) :
    (server.next tables elemSize store input).Contains A R
      (part.next tables elemSize store' input) := by
  have hsessions : ∀ session i, A i = true →
      (server.setSession input.1 session).sessions i =
        (part.setSession input.1 session).sessions i := by
    intro session i hi
    rw [setSession_sessions, setSession_sessions, h.sessions i hi]
  have hrunning := lives_before hlives
  rw [next_of_running hrunning] at hlives ⊢
  rw [next_of_running h.lives, ← h.sessions _ hA]
  generalize (server.sessions input.1).move tables elemSize input.2 = move at hasks hlives
  cases move with
  | stay => exact h
  | become session => exact ⟨hsessions session, h.lives, h.store⟩
  | emit event session => exact ⟨hsessions session, h.lives, h.store⟩
  | abort => exact absurd hlives Bool.true_eq_false.mp
  | query q clock next =>
      obtain ⟨hanswer, hstore⟩ := halike _ _ q clock h.store hasks
      refine ⟨?_, h.lives, hstore⟩
      simp only [apply, hanswer]
      exact hsessions _

/-- A step of another connection is not seen. -/
theorem Server.Contains.outside (h : server.Contains A R part) (hA : A input.1 = false)
    (hkeeps : ∀ s t q clock, R s t → P q → R (store s q clock).2 t)
    (hasks : ((server.sessions input.1).move tables elemSize input.2).Asks P)
    (hlives : (server.next tables elemSize store input).aborted = false) :
    (server.next tables elemSize store input).Contains A R part := by
  rw [next_of_running (lives_before hlives)]
  refine ⟨?_, h.lives, ?_⟩
  · intro i hi
    have hne : i ≠ input.1 := by
      rintro rfl
      rw [hi] at hA
      cases hA
    rw [apply_sessions_of_ne hne]
    exact h.sessions i hi
  · generalize (server.sessions input.1).move tables elemSize input.2 = move at hasks
    cases move with
    | stay | become | emit | abort => exact h.store
    | query q clock next => exact hkeeps _ _ q clock h.store hasks

end Contains

/-- The operations that the requests so far may make: those of the connections in `A` are
about `keys`, those of the others are not. -/
structure Server.KeepApart {σ ι : Type} (tables : CaseTables) (A : ι → Bool) (keys : Set Bytes)
    (room : Finset Bytes) (server : Server σ ι) : Prop where
  inside : ∀ i q, A i = true → (server.sessions i).MayAsk tables q → q.Within keys room
  outside : ∀ i q, A i = false → (server.sessions i).MayAsk tables q → q.Apart keys room

section Isolation

variable {ι : Type} [DecidableEq ι] {tables : CaseTables} {elemSize : Nat} {A : ι → Bool}

theorem Server.KeepApart.before {σ : Type} {store : ClientStore σ} {server : Server σ ι}
    {input : ι × ServerEvent}
    (h : (server.next tables elemSize store input).KeepApart tables A keys room) :
    server.KeepApart tables A keys room where
  inside i q hi hq := h.inside i q hi (hq.mono (next_grows tables elemSize store server input i))
  outside i q hi hq := h.outside i q hi (hq.mono (next_grows tables elemSize store server input i))

end Isolation

/-! ## Commands with arguments of their own -/

theorem mem_of_mem_chunkPairs {args : List Bytes} {key value : Bytes}
    (h : (key, value) ∈ chunkPairs args) : key ∈ args := by
  induction args using chunkPairs.induct with
  | case1 k v rest ih =>
      rw [chunkPairs, List.mem_cons] at h
      rcases h with heq | h
      · rw [(Prod.mk.inj heq).1]
        exact List.mem_cons_self
      · exact List.mem_cons_of_mem _ (List.mem_cons_of_mem _ (ih h))
  | case2 args hshort =>
      rw [chunkPairs] at h
      · cases h
      · exact hshort

/-- A command without options is about its arguments. -/
theorem Query.MadeBy.within {tables : CaseTables} {read : Bytes → Option Bytes → Prop}
    {cmd : Command} (h : q.MadeBy tables read cmd)
    (hset : cmd.name ≠ "SET") (hinfo : cmd.name ≠ "INFO")
    (hargs : ∀ arg ∈ cmd.args, arg ∈ keys ∧ arg ∈ room) : q.Within keys room := by
  cases q with
  | get key | existsKey key => exact (hargs key h).1
  | del key => exact (hargs key h.2).1
  | flush => trivial
  | usedCount => exact hinfo h
  | set key value ttlSecs =>
      cases h with
      | set => exact (hset rfl).elim
      | mset hpair =>
          obtain ⟨hkey, hroom⟩ := hargs key (mem_of_mem_chunkPairs hpair)
          exact ⟨hkey, hroom, rfl⟩
      | incr | decr =>
          obtain ⟨hkey, hroom⟩ := hargs key List.mem_cons_self
          exact ⟨hkey, hroom, rfl⟩

end MemLane
