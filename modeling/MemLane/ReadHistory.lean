import MemLane.StoredEntries
import MemLane.SipHash

/-!
# Reads against the history of writes

A history is the list of calls made so far, each with its reply.  `LastWritten`
says, in terms of the history alone, which value and expiry time the last
successful `set` of a key gave it, provided no deletion or flush came later.

Every stored entry is the last written one of its key, so a `get` never returns
a stale, deleted or foreign value.  Conversely the last written entry is still
stored unless some call has seen the clock at or past its expiry.  That is not
enough for `get` to find it: `get` gives up at the first expired slot with the
fingerprint of the key, before it compares keys, so an expired entry of another
key with the same fingerprint hides the entry behind it.
-/

namespace MemLane

/-- A successful `set` of this key with this value, and the expiry it computed. -/
def Writes (event : Call × Reply) (key value : Bytes) (expiry : UInt64) : Prop :=
  ∃ ttlSecs, event.1.op = .set key value ttlSecs ∧ (∃ b, event.2 = .set (.ok b)) ∧
    expiry = ttlToExpiry ttlSecs (event.1.clock 0)

/-- The event replaces or removes the entry of the key. -/
def Touches (event : Call × Reply) (key : Bytes) : Prop :=
  (∃ v e, Writes event key v e) ∨ event.1.op = .del key ∨ event.1.op = .flush

/-- The most recent successful `set` of the key gave it this value and expiry, and
neither a deletion of the key nor a flush came after it. -/
def LastWritten (history : List (Call × Reply)) (key value : Bytes) (expiry : UInt64) : Prop :=
  ∃ before event rest, history = before ++ event :: rest ∧ Writes event key value expiry ∧
    ∀ x ∈ rest, ¬ Touches x key

variable {hashFn : Bytes → UInt64} {arena : Arena} {key value k v : Bytes}
  {expiry e : UInt64} {clock : Clock} {history : List (Call × Reply)} {last : Call × Reply}

theorem LastWritten.of_writes (h : Writes last key value expiry) :
    LastWritten (history ++ [last]) key value expiry :=
  ⟨history, last, [], rfl, h, by simp⟩

theorem LastWritten.of_not_touches (h : LastWritten history key value expiry)
    (hnot : ¬ Touches last key) : LastWritten (history ++ [last]) key value expiry := by
  obtain ⟨before, x, rest, rfl, hwrites, hrest⟩ := h
  refine ⟨before, x, rest ++ [last], by simp, hwrites, ?_⟩
  intro y hy
  rcases List.mem_append.mp hy with hmem | hmem
  · exact hrest y hmem
  · obtain rfl := List.mem_singleton.mp hmem
    exact hnot

/-- The last event either is the write, or leaves the key alone. -/
theorem LastWritten.cases_last (h : LastWritten (history ++ [last]) key value expiry) :
    Writes last key value expiry ∨
      (¬ Touches last key ∧ LastWritten history key value expiry) := by
  obtain ⟨before, x, rest, heq, hwrites, hrest⟩ := h
  rcases List.eq_nil_or_concat' rest with rfl | ⟨rest', y, rfl⟩
  · obtain ⟨rfl, hx⟩ := List.append_inj' heq rfl
    cases hx
    exact .inl hwrites
  · have heq' : history ++ [last] = (before ++ x :: rest') ++ [y] := by
      rw [heq]
      simp
    obtain ⟨rfl, hy⟩ := List.append_inj' heq' rfl
    cases hy
    exact .inr ⟨hrest last (by simp),
      before, x, rest', rfl, hwrites, fun z hz => hrest z (by simp [hz])⟩

/-! ## One call -/

/-- The reply of a call, paired with it. -/
def Call.event (hashFn : Bytes → UInt64) (arena : Arena) (call : Call) : Call × Reply :=
  (call, (call.exec hashFn arena).1)

/-- An entry stored after a call was written by it, or was stored before and is
not touched. -/
theorem Call.stores_exec (hinv : TableInv hashFn arena) (call : Call)
    (hs : (call.exec hashFn arena).2.Stores k v e) :
    Writes (call.event hashFn arena) k v e ∨
      (¬ Touches (call.event hashFn arena) k ∧ arena.Stores k v e) := by
  have hnext := hinv.exec call
  obtain ⟨op, clock⟩ := call
  cases op with
  | get key =>
      refine .inr ⟨by simp [Touches, Writes, Call.event], ?_⟩
      simp only [Call.exec, MemLaneClient.get] at hs
      split at hs
      · exact hs
      · exact (get_evicts hashFn arena key clock).stores hs
  | existsKey key =>
      refine .inr ⟨by simp [Touches, Writes, Call.event], ?_⟩
      simp only [Call.exec, MemLaneClient.existsKey] at hs
      split at hs
      · exact hs
      · exact (get_evicts hashFn arena key clock).stores hs
  | del key =>
      simp only [Call.exec, MemLaneClient.del] at hs
      split at hs
      · next hlong =>
          refine .inr ⟨?_, hs⟩
          have hne : key ≠ k := by
            intro heq
            subst heq
            obtain ⟨i, _, hkey, _⟩ := hs
            have hlen := congrArg List.length hkey
            simp only [Slot.readKey, Buffer.slice, List.length_ofFn] at hlen
            omega
          simp [Touches, Writes, Call.event, hne]
      · have heff := del_effect hinv key
        generalize MemLane.del hashFn arena key = res at heff hs
        obtain ⟨result, after⟩ := res
        obtain ⟨hne, hbefore⟩ := (heff.stores_iff hinv).mp hs
        refine .inr ⟨?_, hbefore⟩
        simp [Touches, Writes, Call.event, hne.symm]
  | flush =>
      obtain ⟨i, hocc, _⟩ := hs
      simp [Call.exec, MemLaneClient.flush, flushAll, flushSlot] at hocc
  | set key value ttlSecs =>
      by_cases hk : key.length > maxKeyLen
      · refine .inr ⟨?_, by simpa [Call.exec, MemLaneClient.set, hk] using hs⟩
        simp [Touches, Writes, Call.event, Call.exec, MemLaneClient.set, hk]
      by_cases hv : value.length > maxValLen
      · refine .inr ⟨?_, by simpa [Call.exec, MemLaneClient.set, hk, hv] using hs⟩
        simp [Touches, Writes, Call.event, Call.exec, MemLaneClient.set, hk, hv]
      have heff := set_effect hinv key value ttlSecs clock
      simp only [Call.exec, MemLaneClient.set, if_neg hk, if_neg hv, Call.event] at hs hnext ⊢
      generalize MemLane.set hashFn arena key value ttlSecs clock = res at heff hs hnext
      obtain ⟨result, after⟩ := res
      by_cases hne : k = key
      · subst hne
        cases result with
        | full =>
            cases heff with
            | full habsent => exact (habsent hs.contains).elim
        | inserted | updated =>
            obtain ⟨rfl, rfl⟩ := hnext.stores_unique hs
              (heff.stores_self (not_lt.mp hk) (not_lt.mp hv) (by simp))
            exact .inl ⟨ttlSecs, rfl, ⟨_, rfl⟩, rfl⟩
      · refine .inr ⟨?_, heff.stores_of_ne (not_lt.mp hk) hne hs⟩
        simp [Touches, Writes, Ne.symm hne]

/-- A call stores what it writes. -/
theorem Call.stores_of_writes (hinv : TableInv hashFn arena) {call : Call}
    (hw : Writes (call.event hashFn arena) k v e) :
    (call.exec hashFn arena).2.Stores k v e := by
  obtain ⟨op, clock⟩ := call
  obtain ⟨ttlSecs, hop, ⟨b, hreply⟩, rfl⟩ := hw
  cases hop
  have heff := set_effect hinv k v ttlSecs clock
  simp only [Call.event, Call.exec, MemLaneClient.set] at hreply ⊢
  split at hreply
  · simp at hreply
  · next hk =>
      split at hreply
      · simp at hreply
      · next hv =>
          rw [if_neg hk, if_neg hv]
          generalize MemLane.set hashFn arena k v ttlSecs clock = res at heff hreply ⊢
          obtain ⟨result, after⟩ := res
          refine heff.stores_self (not_lt.mp hk) (not_lt.mp hv) ?_
          intro heq
          subst heq
          simp at hreply

/-- The call searches the table and finds the entry of `k` expired on its way.  The first
reading of the clock that a `set` makes is not one of its search. -/
def Call.FindsExpired (hashFn : Bytes → UInt64) (arena : Arena) (call : Call) (k : Bytes)
    (e : UInt64) : Prop :=
  match call.op with
  | .get key | .existsKey key => arena.Lapses (hashFn key) call.clock k e
  | .set key _ _ => arena.Lapses (hashFn key) (fun m => call.clock (m + 1)) k e
  | .del _ | .flush => False

theorem Call.FindsExpired.expired {call : Call} (h : call.FindsExpired hashFn arena k e) :
    e ≠ 0 ∧ ∃ m, e ≤ call.clock m := by
  obtain ⟨op, clock⟩ := call
  cases op with
  | get | existsKey => exact Arena.Lapses.expired h
  | set =>
      obtain ⟨hne, m, hle⟩ := Arena.Lapses.expired h
      exact ⟨hne, m + 1, hle⟩
  | del | flush => exact h.elim

/-- A call that does not touch a key keeps its entry, unless it finds it expired. -/
theorem Call.keeps (hinv : TableInv hashFn arena) (call : Call)
    (hnot : ¬ Touches (call.event hashFn arena) k) (hs : arena.Stores k v e) :
    (call.exec hashFn arena).2.Stores k v e ∨ call.FindsExpired hashFn arena k e := by
  obtain ⟨op, clock⟩ := call
  cases op with
  | get key =>
      simp only [Call.exec, MemLaneClient.get]
      split
      · exact .inl hs
      · exact (get_evicts hashFn arena key clock).stores_or_expired hs
  | existsKey key =>
      simp only [Call.exec, MemLaneClient.existsKey]
      split
      · exact .inl hs
      · exact (get_evicts hashFn arena key clock).stores_or_expired hs
  | del key =>
      have hne : k ≠ key := by
        intro heq
        subst heq
        exact hnot (.inr (.inl rfl))
      simp only [Call.exec, MemLaneClient.del]
      split
      · exact .inl hs
      · have heff := del_effect hinv key
        generalize MemLane.del hashFn arena key = res at heff ⊢
        obtain ⟨result, after⟩ := res
        exact .inl ((heff.stores_iff hinv).mpr ⟨hne, hs⟩)
  | flush => exact (hnot (.inr (.inr rfl))).elim
  | set key value ttlSecs =>
      simp only [Touches, Writes, Call.event, Call.exec, MemLaneClient.set] at hnot ⊢
      split
      · exact .inl hs
      · next hk =>
          split
          · exact .inl hs
          · next hv =>
              simp only [if_neg hk, if_neg hv] at hnot
              have heff := set_effect hinv key value ttlSecs clock
              generalize MemLane.set hashFn arena key value ttlSecs clock = res at heff hnot ⊢
              obtain ⟨result, after⟩ := res
              by_cases hne : k = key
              · subst hne
                cases result with
                | full => cases heff with
                  | full => exact .inl hs
                | inserted | updated =>
                    exact (hnot (.inl ⟨value, _, ttlSecs, rfl, ⟨_, rfl⟩, rfl⟩)).elim
              · exact heff.keeps hne hs

/-! ## Whole histories -/

/-- The history of a sequence of calls on a fresh arena. -/
def historyOf (hashFn : Bytes → UInt64) (region : Arena) (calls : List Call) :
    List (Call × Reply) :=
  Run.trace (Call.exec hashFn) (createArena region) calls

theorem historyOf_concat (hashFn : Bytes → UInt64) (region : Arena) (calls : List Call)
    (call : Call) :
    historyOf hashFn region (calls ++ [call]) =
      historyOf hashFn region calls ++ [call.event hashFn (arenaAfter hashFn region calls)] :=
  Run.trace_append _ _ _ _

theorem arenaAfter_concat (hashFn : Bytes → UInt64) (region : Arena) (calls : List Call)
    (call : Call) :
    arenaAfter hashFn region (calls ++ [call]) =
      (call.exec hashFn (arenaAfter hashFn region calls)).2 :=
  Run.after_append _ _ _ _

/-- Stored entries are last written ones. -/
theorem lastWritten_of_stores (hashFn : Bytes → UInt64) (region : Arena) (calls : List Call)
    (hs : (arenaAfter hashFn region calls).Stores k v e) :
    LastWritten (historyOf hashFn region calls) k v e := by
  induction calls using List.reverseRecOn with
  | nil =>
      obtain ⟨i, hocc, _⟩ := hs
      simp [arenaAfter, createArena, Slot.init] at hocc
  | append_singleton calls call ih =>
      rw [arenaAfter_concat] at hs
      rw [historyOf_concat]
      rcases Call.stores_exec (.arenaAfter hashFn region calls) call hs with hw | ⟨hnot, hs'⟩
      · exact .of_writes hw
      · exact (ih hs').of_not_touches hnot

/-- Last written entries are stored, unless some call has read the clock at or
past their expiry. -/
theorem stores_of_lastWritten (hashFn : Bytes → UInt64) (region : Arena) (calls : List Call)
    (h : LastWritten (historyOf hashFn region calls) k v e) :
    (arenaAfter hashFn region calls).Stores k v e ∨
      (e ≠ 0 ∧ ∃ call ∈ calls, ∃ m, e ≤ call.clock m) := by
  induction calls using List.reverseRecOn with
  | nil =>
      obtain ⟨before, event, rest, heq, _⟩ := h
      exact (List.append_ne_nil_of_right_ne_nil before (List.cons_ne_nil event rest) heq.symm).elim
  | append_singleton calls call ih =>
      have hinv : TableInv hashFn (arenaAfter hashFn region calls) :=
        .arenaAfter hashFn region calls
      rw [historyOf_concat] at h
      rw [arenaAfter_concat]
      rcases h.cases_last with hw | ⟨hnot, hlast⟩
      · exact .inl (Call.stores_of_writes hinv hw)
      · rcases ih hlast with hs | ⟨hne, call', hmem, m, hle⟩
        · rcases Call.keeps hinv call hnot hs with hs' | hexp
          · exact .inl hs'
          · obtain ⟨hne, m, hle⟩ := hexp.expired
            exact .inr ⟨hne, call, by simp, m, hle⟩
        · exact .inr ⟨hne, call', by simp [hmem], m, hle⟩

/-- What the client's `get` returns, in terms of the map's. -/
theorem MemLaneClient.get_eq_some_iff (hashFn : Bytes → UInt64) (arena : Arena) (key : Bytes)
    (clock : Clock) (value : Bytes) :
    (MemLaneClient.get hashFn arena key clock).1 = .ok (some value) ↔
      key.length ≤ maxKeyLen ∧ (MemLane.get hashFn arena key clock).1 = .found value := by
  simp only [MemLaneClient.get]
  split
  · next hk => simp [Nat.not_le.mpr hk]
  · next hk =>
      generalize (MemLane.get hashFn arena key clock).1 = r
      cases r <;> simp [not_lt.mp hk]

/-- **Soundness of reads.**  If `get` returns a value, the most recent successful
`set` of that very key gave it, no deletion of the key and no flush came later,
and its expiry is 0 or strictly greater than the reading `get` made at the OCCUPIED
slot of the key.  And `exists` answers true exactly when `get` would return a value. -/
theorem get_sound (hashFn : Bytes → UInt64) (region : Arena) (calls : List Call) (key : Bytes)
    (clock : Clock) :
    let arena := arenaAfter hashFn region calls
    (∀ value, (MemLaneClient.get hashFn arena key clock).1 = .ok (some value) →
      ∃ expiry, LastWritten (historyOf hashFn region calls) key value expiry ∧
        (expiry = 0 ∨ ∃ m, m < slotCount ∧
          (arena.probed (hashFn key) m).state = stateOccupied ∧
          (arena.probed (hashFn key) m).readKey = key ∧ clock m < expiry)) ∧
    ((MemLaneClient.existsKey hashFn arena key clock).1 = .ok true ↔
      ∃ value, (MemLaneClient.get hashFn arena key clock).1 = .ok (some value)) := by
  intro arena
  constructor
  · intro value hget
    obtain ⟨m, hm, hocc, hkey, hvalue, hlive⟩ :=
      get_found ((MemLaneClient.get_eq_some_iff _ _ _ _ _).mp hget).2
    refine ⟨_, lastWritten_of_stores hashFn region calls ⟨_, hocc, hkey, hvalue, rfl⟩, ?_⟩
    rcases Slot.isExpired_eq_false_iff.mp hlive with hzero | hlt
    · exact .inl hzero
    · exact .inr ⟨m, hm, hocc, hkey, hlt⟩
  · simp only [MemLaneClient.get_eq_some_iff, MemLaneClient.existsKey, MemLane.existsKey]
    split
    · next hk => simp [Nat.not_le.mpr hk]
    · next hk =>
        generalize (MemLane.get hashFn arena key clock).1 = r
        cases r <;> simp [not_lt.mp hk]

/-! ## Completeness, and where it fails -/

/-- No call reads the clock behind a reading of an earlier call, or behind its own
earlier readings. -/
def NonDecreasing (calls : List Call) : Prop :=
  calls.Pairwise (fun c c' => ∀ i j, c.clock i ≤ c'.clock j) ∧
    ∀ call ∈ calls, ∀ i j, i ≤ j → call.clock i ≤ call.clock j

/-- On the probe path of `key`, before the slot that holds it, an OCCUPIED slot
with the same fingerprint has expired. -/
def Shadowed (hashFn : Bytes → UInt64) (arena : Arena) (key : Bytes) (clock : Clock) : Prop :=
  ∃ m d, m < d ∧ d < slotCount ∧ (arena.probed (hashFn key) d).state = stateOccupied ∧
    (arena.probed (hashFn key) d).readKey = key ∧ ExpiredAt arena (hashFn key) clock m

/-- A stored entry that has not expired is found exactly when it is not shadowed. -/
theorem TableInv.get_found_iff (hinv : TableInv hashFn arena) (hs : arena.Stores key value expiry)
    (hlive : expiry = 0 ∨ ∀ m, clock m < expiry) :
    (MemLane.get hashFn arena key clock).1 = .found value ↔ ¬ Shadowed hashFn arena key clock := by
  obtain ⟨i, hocc, hkey, rfl, hexpiry⟩ := hs
  obtain ⟨d, hd, rfl⟩ := exists_probeIndex (hashFn key) i
  have hself : ¬ ExpiredAt arena (hashFn key) clock d := by
    intro hexp
    obtain ⟨hne, hle⟩ := Slot.isExpired_iff.mp hexp.2.2
    rw [Arena.probed, hexpiry] at hne hle
    exact UInt64.not_le.mpr ((hlive.resolve_left hne) d) hle
  refine (get_of_stored hinv hd hocc hkey).trans ⟨fun hnone hshadow => ?_, fun hnot m hm hexp => ?_⟩
  · obtain ⟨m, d', hm, hd', hocc', hkey', hexp⟩ := hshadow
    have hslot : probeIndex (hashFn key) d' = probeIndex (hashFn key) d :=
      hinv.slot_unique hocc' hocc (hkey'.trans hkey.symm)
    obtain rfl := probeIndex_injective hd' hd hslot
    exact hnone m (by omega) hexp
  · rcases Nat.lt_or_eq_of_le hm with hlt | rfl
    · exact hnot ⟨m, d, hlt, hd, hocc, hkey, hexp⟩
    · exact hself hexp

/-- **Completeness of reads, exactly.**  With a clock that does not go backwards,
let the last successful `set` of a key not be followed by its deletion or a
flush, and let its expiry be 0 or greater than the current readings.  Then `get`
returns its value if and only if the key is not shadowed by an expired entry
with the same fingerprint. -/
theorem get_complete_iff (hashFn : Bytes → UInt64) (region : Arena) (calls : List Call)
    (key value : Bytes) (expiry : UInt64) (clock : Clock)
    (hclock : NonDecreasing (calls ++ [⟨.get key, clock⟩]))
    (hlast : LastWritten (historyOf hashFn region calls) key value expiry)
    (hlive : expiry = 0 ∨ ∀ m, clock m < expiry) :
    (MemLaneClient.get hashFn (arenaAfter hashFn region calls) key clock).1 = .ok (some value) ↔
      ¬ Shadowed hashFn (arenaAfter hashFn region calls) key clock := by
  have hinv : TableInv hashFn (arenaAfter hashFn region calls) := .arenaAfter hashFn region calls
  have hstores : (arenaAfter hashFn region calls).Stores key value expiry := by
    rcases stores_of_lastWritten hashFn region calls hlast with hs | ⟨hne, call, hmem, m, hle⟩
    · exact hs
    · have hlt : clock 0 < expiry := (hlive.resolve_left hne) 0
      have hmono : call.clock m ≤ clock 0 :=
        (List.pairwise_append.mp hclock.1).2.2 call hmem _ (List.mem_singleton.mpr rfl) m 0
      exact (UInt64.not_le.mpr hlt (UInt64.le_trans hle hmono)).elim
  rw [MemLaneClient.get_eq_some_iff, and_iff_right hstores.key_length]
  exact hinv.get_found_iff hstores hlive

/-- An 8-byte key, and below one with the same siphash. -/
def expiredKey : Bytes := [0x80, 0x44, 0xcb, 0x3a, 0xb6, 0xb3, 0x9b, 0x8b]

def hiddenKey : Bytes := [0xe3, 0x23, 0xa8, 0xc9, 0x16, 0x8b, 0x57, 0xd5]

/-- The first key is stored for one second, the second behind it for good. -/
def collidingCalls : List Call :=
  [⟨.set expiredKey [1] 1, fun _ => 1000⟩, ⟨.set hiddenKey [2] 0, fun _ => 1500⟩]

theorem collidingCalls_nonDecreasing (key : Bytes) {now : UInt64} (h : 1500 ≤ now) :
    NonDecreasing (collidingCalls ++ [⟨.get key, fun _ => now⟩]) := by
  have h' : (1000 : UInt64) ≤ now := UInt64.le_trans (by decide) h
  simp [NonDecreasing, collidingCalls, h, h']

theorem collidingCalls_lastWritten :
    LastWritten (historyOf siphash zeroedRegion collidingCalls) hiddenKey [2] 0 := by
  have hreply : ((historyOf siphash zeroedRegion collidingCalls).map Prod.snd)[1]? =
      some (.set (.ok true)) := by
    decide +kernel
  refine ⟨(historyOf siphash zeroedRegion collidingCalls).take 1, _, [], rfl,
    ⟨0, rfl, ⟨true, ?_⟩, rfl⟩, by simp⟩
  exact Option.some.inj hreply

/-- The two keys collide, so after the first has expired a `get` of the second,
which never expires, returns nothing. -/
theorem get_misses_hidden_key :
    NonDecreasing (collidingCalls ++ [⟨.get hiddenKey, fun _ => 5000⟩]) ∧
      LastWritten (historyOf siphash zeroedRegion collidingCalls) hiddenKey [2] 0 ∧
      (MemLaneClient.get siphash (arenaAfter siphash zeroedRegion collidingCalls) hiddenKey
        (fun _ => 5000)).1 = .ok none :=
  ⟨collidingCalls_nonDecreasing _ (by decide), collidingCalls_lastWritten, by decide +kernel⟩

/-- The equivalence at the colliding keys, before the first one expires. -/
theorem get_complete_iff_colliding :
    (MemLaneClient.get siphash (arenaAfter siphash zeroedRegion collidingCalls) hiddenKey
        (fun _ => 1999)).1 = .ok (some [2]) ↔
      ¬ Shadowed siphash (arenaAfter siphash zeroedRegion collidingCalls) hiddenKey
        (fun _ => 1999) :=
  get_complete_iff siphash zeroedRegion collidingCalls hiddenKey [2] 0 (fun _ => 1999)
    (collidingCalls_nonDecreasing _ (by decide)) collidingCalls_lastWritten (.inl rfl)

end MemLane
