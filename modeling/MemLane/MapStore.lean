import MemLane.MapRefinement
import MemLane.RequestEffects

/-!
# What the server means by its commands

Over a finite map of bounded size every command has a plain meaning: `EXISTS` counts the
arguments that are keys, `DEL` the distinct ones, `MSET` writes its pairs until one does
not fit, and so on (`Command.meaning`).  As long as no request asks for an expiry, the
server answers from its arena what this meaning gives, whatever else the arguments are.

The map is a store for the scripts of `RequestScripts` (`mapStore`), and the arena answers
every operation of a script as the map does.
-/

namespace MemLane

/-- The keys that the client accepts. -/
def Admissible (key : Bytes) : Prop := key.length ≤ maxKeyLen

instance (key : Bytes) : Decidable (Admissible key) :=
  inferInstanceAs (Decidable (key.length ≤ maxKeyLen))

/-- The value of a key that the client accepts. -/
def readKey (m : KeyMap) (key : Bytes) : Except MemLaneError (Option Bytes) :=
  if Admissible key then .ok (m.lookup key) else .error (.keyTooLong key.length)

/-- Write a pair, if it fits; the key may be new. -/
def writePair (m : KeyMap) (key value : Bytes) : Except MemLaneError Bool × KeyMap :=
  if ¬ Admissible key then (.error (.keyTooLong key.length), m)
  else if maxValLen < value.length then (.error (.valueTooLong value.length), m)
  else if key ∈ m ∨ m.keys.card < slotCount then
    (.ok (decide (key ∉ m)), m.insert key value)
  else (.error (.arenaFull slotCount), m)

/-- The operations on the abstract map. -/
def mapStore : ClientStore KeyMap
  | m, .get key, _ => (readKey m key, m)
  | m, .set key value _, _ => writePair m key value
  | m, .del key, _ =>
      if Admissible key then (.ok (decide (key ∈ m)), m.erase key)
      else (.error (.keyTooLong key.length), m)
  | m, .existsKey key, _ => ((readKey m key).map Option.isSome, m)
  | _, .flush, _ => (.ok (), ∅)
  | m, .usedCount, _ => (UInt64.ofNat m.keys.card, m)

/-- The operation stores nothing that expires, and does not look at the counter. -/
def Query.Plain : Query → Prop
  | .set _ _ ttlSecs => ttlSecs = 0
  | .usedCount => False
  | _ => True

section Alike

variable {hashFn : Bytes → UInt64} {arena : Arena} {m : KeyMap} {key value : Bytes} {clock : Clock}

theorem Refines.client_get (h : Refines hashFn arena m) :
    (MemLaneClient.get hashFn arena key clock).1 = readKey m key ∧
      Refines hashFn (MemLaneClient.get hashFn arena key clock).2 m := by
  by_cases hk : Admissible key
  · obtain ⟨hreply, hnext⟩ := @Refines.exec _ _ _ h ⟨.get key, clock⟩ hk
    rw [readKey, if_pos hk]
    exact ⟨Reply.get.inj hreply, hnext⟩
  · rw [MemLaneClient.get, if_pos (not_le.mp hk), readKey, if_neg hk]
    exact ⟨rfl, h⟩

theorem Refines.client_set (h : Refines hashFn arena m) :
    (MemLaneClient.set hashFn arena key value 0 clock).1 = (writePair m key value).1 ∧
      Refines hashFn (MemLaneClient.set hashFn arena key value 0 clock).2
        (writePair m key value).2 := by
  by_cases hk : Admissible key
  · by_cases hv : maxValLen < value.length
    · rw [MemLaneClient.set, if_neg (not_lt.mpr hk), if_pos hv, writePair, if_neg (not_not.mpr hk),
        if_pos hv]
      exact ⟨rfl, h⟩
    · obtain ⟨hreply, hnext⟩ := @Refines.exec _ _ _ h ⟨.set key value 0, clock⟩
        ⟨hk, not_lt.mp hv, rfl⟩
      rw [writePair, if_neg (not_not.mpr hk), if_neg hv]
      simp only [mapExec] at hreply hnext
      by_cases hmem : key ∈ m
      · simp only [if_pos hmem] at hreply hnext
        rw [if_pos (.inl hmem), decide_eq_false (not_not.mpr hmem)]
        exact ⟨Reply.set.inj hreply, hnext⟩
      · simp only [if_neg hmem] at hreply hnext
        by_cases hcard : m.keys.card < slotCount
        · simp only [if_pos hcard] at hreply hnext
          rw [if_pos (.inr hcard), decide_eq_true hmem]
          exact ⟨Reply.set.inj hreply, hnext⟩
        · simp only [if_neg hcard] at hreply hnext
          rw [if_neg (not_or.mpr ⟨hmem, hcard⟩)]
          exact ⟨Reply.set.inj hreply, hnext⟩
  · rw [MemLaneClient.set, if_pos (not_le.mp hk), writePair, if_pos hk]
    exact ⟨rfl, h⟩

/-- The arena answers plain operations as the map that it refines. -/
theorem arenaStore_alike (hashFn : Bytes → UInt64) :
    Script.Alike (arenaStore hashFn) mapStore Query.Plain (Refines hashFn) := by
  intro arena m q clock h hplain
  cases q with
  | get key => exact h.client_get
  | set key value ttlSecs =>
      obtain rfl : ttlSecs = 0 := hplain
      exact h.client_set
  | del key =>
      simp only [arenaStore, MemLaneClient.del, mapStore]
      by_cases hk : Admissible key
      · obtain ⟨hreply, hnext⟩ := @Refines.exec _ _ _ h ⟨.del key, clock⟩ hk
        rw [if_pos hk]
        exact ⟨Reply.del.inj hreply, hnext⟩
      · rw [if_pos (not_le.mp hk), if_neg hk]
        exact ⟨rfl, h⟩
  | existsKey key =>
      simp only [arenaStore, MemLaneClient.existsKey, mapStore, readKey]
      by_cases hk : Admissible key
      · obtain ⟨hreply, hnext⟩ := @Refines.exec _ _ _ h ⟨.existsKey key, clock⟩ hk
        have hmem : decide (key ∈ m) = (m.lookup key).isSome := by
          rw [Bool.eq_iff_iff, decide_eq_true_iff, Finmap.lookup_isSome]
        rw [if_pos hk, Except.map, ← hmem]
        exact ⟨Reply.existsKey.inj hreply, hnext⟩
      · rw [if_pos (not_le.mp hk), if_neg hk]
        exact ⟨rfl, h⟩
  | flush => exact ⟨rfl, .flush arena⟩
  | usedCount => exact hplain.elim

end Alike

/-! ## Plain requests -/

/-- A request that asks for no expiry, and not for `INFO`. -/
def RespValue.Plain (tables : CaseTables) (val : RespValue) : Prop :=
  ∀ cmd, extractCommand tables val = .ok cmd → cmd.name ≠ "INFO" ∧
    ∀ key value ttlSecs, cmd.Writes tables (fun _ _ => True) key value ttlSecs → ttlSecs = 0

theorem Query.MadeBy.plain {tables : CaseTables} {read : Bytes → Option Bytes → Prop}
    {cmd : Command} {q : Query} (h : q.MadeBy tables read cmd) (hplain : cmd.name ≠ "INFO" ∧
      ∀ key value ttlSecs, cmd.Writes tables (fun _ _ => True) key value ttlSecs → ttlSecs = 0) :
    q.Plain := by
  cases q with
  | set key value ttlSecs =>
      exact hplain.2 key value ttlSecs (Command.Writes.mono h fun _ _ _ => trivial)
  | usedCount => exact hplain.1 h
  | get | del | existsKey | flush => trivial

theorem requestScript_plain {tables : CaseTables} {val : RespValue} (h : val.Plain tables) :
    (requestScript tables val).Only Query.Plain := by
  apply (requestScript_only tables val).mono
  intro q hmade
  obtain ⟨cmd, hcmd, hmade⟩ := hmade
  exact hmade.plain (h cmd hcmd)

/-- Only the options of `SET` ask for an expiry. -/
theorem RespValue.plain_of_ne {tables : CaseTables} {val : RespValue}
    (h : ∀ cmd, extractCommand tables val = .ok cmd → cmd.name ≠ "INFO" ∧ cmd.name ≠ "SET") :
    val.Plain tables := by
  intro cmd hcmd
  obtain ⟨hinfo, hset⟩ := h cmd hcmd
  refine ⟨hinfo, ?_⟩
  intro key value ttlSecs hwrites
  cases hwrites with
  | set => exact (hset rfl).elim
  | mset | incr | decr => rfl

/-! ## The meaning of commands -/

/-- The values of all keys, or the error of the first key that is too long. -/
def readKeys (m : KeyMap) (keys : List Bytes) : Except MemLaneError (List (Option Bytes)) :=
  match keys.find? fun key => ¬ Admissible key with
  | some key => .error (.keyTooLong key.length)
  | none => .ok (keys.map m.lookup)

/-- Write pairs up to the first that does not fit. -/
def writePairs (m : KeyMap) : List (Bytes × Bytes) → Except MemLaneError Unit × KeyMap
  | [] => (.ok (), m)
  | (key, value) :: pairs =>
      let written := writePair m key value
      match written.1 with
      | .error e => (.error e, written.2)
      | .ok _ => writePairs written.2 pairs

/-- Replace a counter by what `next` makes of it. -/
def stepCounter (m : KeyMap) (next : UInt64 → UInt64) (key : Bytes) : RespValue × KeyMap :=
  match readKey m key with
  | .error e => (Resp.err e.display, m)
  | .ok stored =>
      let n := next (MemLaneClient.counterValue stored)
      let written := writePair m key (Decimal.numeral n.toNat)
      (replyOf (fun _ => Resp.integer n.toInt64) written.1, written.2)

/-- The map without some keys. -/
def without (m : KeyMap) (keys : List Bytes) : KeyMap := keys.foldl (fun m key => m.erase key) m

/-- What a command replies, and what it makes of the map. -/
def Command.meaning (tables : CaseTables) (cmd : Command) (m : KeyMap) : RespValue × KeyMap :=
  match cmd.name, cmd.args with
  | "PING", [] => (Resp.pong, m)
  | "PING", msg :: _ => (Resp.bulk msg, m)
  | "GET", [key] => (replyOf bulkOrNil (readKey m key), m)
  | "SET", key :: value :: _ =>
      let written := writePair m key value
      (replyOf (fun _ => Resp.ok) written.1, written.2)
  | "DEL", key :: keys =>
      (Resp.integer (Int64.ofNat ((key :: keys).toFinset ∩ m.keys).card), without m (key :: keys))
  | "EXISTS", key :: keys => (Resp.integer (Int64.ofNat ((key :: keys).countP (· ∈ m))), m)
  | "MGET", key :: keys =>
      (replyOf (fun values => .array (values.map bulkOrNil)) (readKeys m (key :: keys)), m)
  | "MSET", key :: value :: rest =>
      if rest.length % 2 = 0 then
        let written := writePairs m (chunkPairs (key :: value :: rest))
        (replyOf (fun _ => Resp.ok) written.1, written.2)
      else (Resp.wrongArgs tables "MSET", m)
  | "INCR", [key] => stepCounter m (· + 1) key
  | "DECR", [key] => stepCounter m (fun n => if n = 0 then 0 else n - 1) key
  | "TTL", [_] => (Resp.integer (-1), m)
  | "FLUSH", _ | "FLUSHALL", _ | "FLUSHDB", _ => (Resp.ok, ∅)
  | "COMMAND", _ => (.array [], m)
  | name, _ =>
      (if name ∈ ["GET", "SET", "DEL", "EXISTS", "MGET", "MSET", "INCR", "DECR", "TTL"] then
        Resp.wrongArgs tables name
      else .error ("ERR unknown command '" ++ (toLowercase tables name ++
        "', try PING, GET, SET, DEL, EXISTS, MGET, MSET, INCR, DECR, FLUSH, INFO")), m)

section Meaning

variable {tables : CaseTables} {m : KeyMap} {clock : Nat → Clock}

/-- All keys of the map are admissible. -/
def Bounded (m : KeyMap) : Prop := ∀ key ∈ m, Admissible key

theorem erase_eq_self {key : Bytes} (h : key ∉ m) : m.erase key = m := by
  apply Finmap.ext_lookup
  intro k
  by_cases hk : k = key
  · rw [hk, Finmap.lookup_erase, Finmap.lookup_eq_none.mpr h]
  · exact Finmap.lookup_erase_ne hk

/-- Erasing a key takes it off the count once. -/
theorem card_inter_erase {keys : Finset Bytes} {key : Bytes} :
    (insert key keys ∩ m.keys).card =
      (if key ∈ m then 1 else 0) + (keys ∩ (m.erase key).keys).card := by
  rw [Finmap.keys_erase]
  by_cases hmem : key ∈ m
  · have hkeys : key ∈ m.keys := Finmap.mem_keys.mpr hmem
    have herase : (insert key keys ∩ m.keys).erase key = keys ∩ m.keys.erase key := by
      rw [Finset.insert_inter_of_mem hkeys, Finset.erase_insert_eq_erase, Finset.inter_erase]
    have hself : key ∈ insert key keys ∩ m.keys := by
      exact Finset.mem_inter.mpr ⟨Finset.mem_insert_self _ _, hkeys⟩
    rw [if_pos hmem, ← Finset.card_erase_add_one hself, herase, Nat.add_comm]
  · have hkeys : key ∉ m.keys := fun h => hmem (Finmap.mem_keys.mp h)
    rw [if_neg hmem, Nat.zero_add, Finset.insert_inter_of_notMem hkeys,
      Finset.erase_eq_of_notMem hkeys]

theorem add_ofNat_zero (n : Int64) : n + Int64.ofNat 0 = n := Int64.add_zero n

theorem delScript_meaning (h : Bounded m) (deleted : Int64) (keys : List Bytes) :
    (delScript deleted keys).run mapStore m clock =
      (Resp.integer (deleted + Int64.ofNat (keys.toFinset ∩ m.keys).card), without m keys) := by
  induction keys generalizing m deleted clock with
  | nil =>
      rw [delScript, Script.run_done, List.toFinset_nil, Finset.empty_inter, Finset.card_empty,
        add_ofNat_zero]
      rfl
  | cons key keys ih =>
      have hbounded : Bounded (m.erase key) := fun k hk => h k (Finmap.mem_erase.mp hk).2
      have hwithout : without m (key :: keys) = without (m.erase key) keys := rfl
      rw [delScript, Script.run_ask, List.toFinset_cons, card_inter_erase, hwithout, Int64.ofNat_add,
        ← Int64.add_assoc]
      by_cases hmem : key ∈ m
      · simp only [mapStore, if_pos (h key hmem), decide_eq_true hmem, if_pos hmem]
        exact ih hbounded _
      · rw [if_neg hmem, add_ofNat_zero]
        by_cases hk : Admissible key
        · simp only [mapStore, if_pos hk, decide_eq_false hmem]
          exact ih hbounded _
        · rw [erase_eq_self hmem]
          simp only [mapStore, if_neg hk]
          exact ih h _

theorem existsScript_meaning (h : Bounded m) (count : Int64) (keys : List Bytes) :
    (existsScript count keys).run mapStore m clock =
      (Resp.integer (count + Int64.ofNat (keys.countP (· ∈ m))), m) := by
  induction keys generalizing count clock with
  | nil => rw [existsScript, Script.run_done, List.countP_nil, add_ofNat_zero]
  | cons key keys ih =>
      rw [existsScript, Script.run_ask, List.countP_cons, Nat.add_comm, Int64.ofNat_add,
        ← Int64.add_assoc]
      by_cases hmem : key ∈ m
      · have hsome : (m.lookup key).isSome = true := Finmap.lookup_isSome.mpr hmem
        simp only [mapStore, readKey, if_pos (h key hmem), Except.map, hsome, hmem, decide_true,
          if_true]
        exact ih _
      · have hnone : m.lookup key = none := Finmap.lookup_eq_none.mpr hmem
        simp only [hmem, decide_false, Bool.false_eq_true, if_false, add_ofNat_zero]
        by_cases hk : Admissible key
        · simp only [mapStore, readKey, if_pos hk, Except.map, hnone, Option.isSome_none]
          exact ih _
        · simp only [mapStore, readKey, if_neg hk, Except.map]
          exact ih _

theorem mgetScript_meaning (values : List (Option Bytes)) (keys : List Bytes) :
    (mgetScript values keys).run mapStore m clock =
      (replyOf (fun rest => .array ((values ++ rest).map bulkOrNil)) (readKeys m keys), m) := by
  induction keys generalizing values clock with
  | nil =>
      rw [mgetScript, Script.run_done, readKeys, List.find?_nil]
      simp only [replyOf, List.map_nil, List.append_nil]
  | cons key keys ih =>
      rw [mgetScript, Script.run_ask, readKeys, List.find?_cons]
      by_cases hk : Admissible key
      · simp only [mapStore, readKey, hk, if_true, not_true_eq_false, decide_false]
        rw [ih, readKeys]
        cases keys.find? fun key => ¬ Admissible key with
        | some long => rfl
        | none => simp only [replyOf, List.map_cons, List.append_assoc, List.singleton_append]
      · simp only [mapStore, readKey, hk, if_false, not_false_eq_true, decide_true]
        rfl

theorem msetScript_meaning (pairs : List (Bytes × Bytes)) :
    (msetScript pairs).run mapStore m clock =
      (replyOf (fun _ => Resp.ok) (writePairs m pairs).1, (writePairs m pairs).2) := by
  induction pairs generalizing m clock with
  | nil => rfl
  | cons pair pairs ih =>
      obtain ⟨key, value⟩ := pair
      rw [msetScript, Script.run_ask, writePairs]
      simp only [mapStore]
      cases (writePair m key value).1 with
      | error e => rfl
      | ok isNew => exact ih

theorem counterScript_meaning (next : UInt64 → UInt64) (key : Bytes) :
    (counterScript next key).run mapStore m clock = stepCounter m next key := by
  rw [counterScript, Script.run_ask, stepCounter]
  simp only [mapStore]
  cases readKey m key with
  | error e => rfl
  | ok stored => rfl

/-- On the map, the script of a command does what the command means. -/
theorem commandScript_meaning (tables : CaseTables) {cmd : Command} (hname : cmd.name ≠ "INFO")
    (h : Bounded m) (clock : Nat → Clock) :
    (commandScript tables cmd).run mapStore m clock = cmd.meaning tables m := by
  obtain ⟨name, args⟩ := cmd
  unfold commandScript
  simp only
  -- one case per command name, in the order of the source
  split
  · cases args <;> rfl
  · rcases args with _ | ⟨key, _ | ⟨more, rest⟩⟩ <;> rfl
  · rcases args with _ | ⟨key, _ | ⟨value, options⟩⟩ <;> rfl
  · cases args with
    | nil => rfl
    | cons key keys =>
        refine (delScript_meaning h 0 (key :: keys)).trans ?_
        rw [Int64.zero_add]
        rfl
  · cases args with
    | nil => rfl
    | cons key keys =>
        refine (existsScript_meaning h 0 (key :: keys)).trans ?_
        rw [Int64.zero_add]
        rfl
  · cases args with
    | nil => rfl
    | cons key keys => exact mgetScript_meaning [] (key :: keys)
  · rcases args with _ | ⟨key, _ | ⟨value, rest⟩⟩
    · rfl
    · rfl
    · have hlength : (key :: value :: rest).length % 2 = rest.length % 2 := by
        rw [List.length_cons, List.length_cons]
        omega
      unfold Command.meaning
      simp only [hlength, reduceCtorEq, false_or]
      by_cases heven : rest.length % 2 = 0
      · rw [if_neg (not_not.mpr heven), if_pos heven]
        exact msetScript_meaning _
      · rw [if_pos heven, if_neg heven]
        rfl
  · rcases args with _ | ⟨key, _ | ⟨more, rest⟩⟩
    · rfl
    · exact counterScript_meaning _ key
    · rfl
  · rcases args with _ | ⟨key, _ | ⟨more, rest⟩⟩
    · rfl
    · exact counterScript_meaning _ key
    · rfl
  · rcases args with _ | ⟨key, _ | ⟨more, rest⟩⟩ <;> rfl
  · rfl
  · rfl
  · rfl
  · exact (hname rfl).elim
  · rfl
  · rw [Script.run_done]
    unfold Command.meaning
    simp only
    split
    all_goals try contradiction
    rw [if_neg]
    simp only [List.mem_cons, List.not_mem_nil, or_false]
    rintro (h | h | h | h | h | h | h | h | h) <;> contradiction

/-- What a request means: a command, or an error that leaves the map alone. -/
def RespValue.meaning (tables : CaseTables) (val : RespValue) (m : KeyMap) : RespValue × KeyMap :=
  match extractCommand tables val with
  | .error e => (Resp.err e, m)
  | .ok cmd => cmd.meaning tables m

end Meaning

/-! ## Sequences of requests -/

section Posted

variable {tables : CaseTables} {hashFn : Bytes → UInt64} {arena : Arena} {m : KeyMap}

theorem Refines.bounded (h : Refines hashFn arena m) : Bounded m := by
  intro key hmem
  obtain ⟨value, hvalue⟩ := Finmap.mem_iff.mp hmem
  exact ((h.lookup key value).mp hvalue).key_length

/-- A request, with the clock readings of its operations. -/
structure Posted where
  val : RespValue
  clock : Nat → Clock

def Posted.exec (tables : CaseTables) (hashFn : Bytes → UInt64) (arena : Arena) (post : Posted) :
    RespValue × Arena :=
  dispatchCommand tables hashFn arena post.val post.clock

/-- A plain request is answered by its meaning, and keeps the refinement. -/
theorem Refines.request (h : Refines hashFn arena m) {val : RespValue} (hplain : val.Plain tables)
    (clock : Nat → Clock) :
    (dispatchCommand tables hashFn arena val clock).1 = (val.meaning tables m).1 ∧
      Refines hashFn (dispatchCommand tables hashFn arena val clock).2
        (val.meaning tables m).2 := by
  have hrun := (arenaStore_alike hashFn).run (requestScript_plain hplain) h clock
  rw [requestScript_run] at hrun
  have hmeaning : (requestScript tables val).run mapStore m clock = val.meaning tables m := by
    unfold requestScript RespValue.meaning
    cases hcmd : extractCommand tables val with
    | error e => rfl
    | ok cmd => exact commandScript_meaning tables (hplain cmd hcmd).1 h.bounded clock
  rw [hmeaning] at hrun
  exact hrun

/-- **The server means what its commands say.**  For any fingerprint function, a fresh arena
answers every sequence of requests that ask for no expiry, well-formed or not, with what
they mean on a finite map that holds at most `slotCount` keys. -/
theorem requests_mean (tables : CaseTables) (hashFn : Bytes → UInt64) (region : Arena)
    (posts : List Posted) (hplain : ∀ post ∈ posts, post.val.Plain tables) :
    Run.trace (Posted.exec tables hashFn) (createArena region) posts =
      Run.trace (fun m post => post.val.meaning tables m) ∅ posts := by
  have hstart : Refines hashFn (createArena region) ∅ := .createArena region
  have hstep : ∀ arena m (post : Posted), Refines hashFn arena m → post.val.Plain tables →
      (post.exec tables hashFn arena).1 = (post.val.meaning tables m).1 ∧
        Refines hashFn (post.exec tables hashFn arena).2 (post.val.meaning tables m).2 :=
    fun arena m post h hp => h.request hp post.clock
  exact (Run.lockstep hstep hstart hplain).1

/-- Two pairs in one `MSET`, and a `DEL` that names a key twice. -/
def twicePosts : List Posted :=
  [⟨request "MSET" [[1], [10], [2], [20]], fun _ _ => 0⟩,
    ⟨request "DEL" [[1], [1], [3]], fun _ _ => 0⟩, ⟨request "EXISTS" [[2], [2]], fun _ _ => 0⟩]

theorem requests_mean_twice :
    Run.trace (Posted.exec asciiTables siphash) (createArena zeroedRegion) twicePosts =
      Run.trace (fun m post => post.val.meaning asciiTables m) ∅ twicePosts := by
  apply requests_mean asciiTables siphash zeroedRegion twicePosts
  intro post hpost
  apply RespValue.plain_of_ne
  intro cmd hcmd
  simp only [twicePosts, List.mem_cons, List.not_mem_nil, or_false] at hpost
  rcases hpost with rfl | rfl | rfl
  all_goals
    rw [extractCommand_request _ (by decide)] at hcmd
    cases hcmd
    decide

end Posted

end MemLane
