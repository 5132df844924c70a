import MemLane.ReadHistory
import MemLane.RequestScripts

/-!
# What a request does to the entries

Whatever arrives as a request, an entry that is stored afterwards was stored before,
or the request is a command that writes it; and an entry that was stored before is
stored afterwards, unless it has expired or the command replaces it.

Both come from single operations.  A request only asks for operations that its command
makes (`requestScript_only`), and each operation is a client call.
-/

namespace MemLane

/-! ## Commands and their operations -/

/-- The command stores this value under this key, with this time to live.  The counter commands
write what follows the number that they have read. -/
inductive Command.Writes (tables : CaseTables) (read : Bytes → Option Bytes → Prop) :
    Command → Bytes → Bytes → UInt64 → Prop
  | set (key value : Bytes) (options : List Bytes) :
      Writes tables read ⟨"SET", key :: value :: options⟩ key value (setOptions tables 0 options)
  | mset {args : List Bytes} {key value : Bytes} (hpair : (key, value) ∈ chunkPairs args) :
      Writes tables read ⟨"MSET", args⟩ key value 0
  | incr {key : Bytes} {stored : Option Bytes} (hread : read key stored) :
      Writes tables read ⟨"INCR", [key]⟩ key
        (Decimal.numeral (MemLaneClient.counterValue stored + 1).toNat) 0
  | decr {key : Bytes} {stored : Option Bytes} (hread : read key stored) :
      Writes tables read ⟨"DECR", [key]⟩ key
        (Decimal.numeral (if MemLaneClient.counterValue stored = 0 then 0
          else MemLaneClient.counterValue stored - 1).toNat) 0

/-- The command deletes this key. -/
def Command.Deletes (cmd : Command) (key : Bytes) : Prop := cmd.name = "DEL" ∧ key ∈ cmd.args

/-- The command empties the table. -/
def Command.Flushes (cmd : Command) : Prop :=
  cmd.name = "FLUSH" ∨ cmd.name = "FLUSHALL" ∨ cmd.name = "FLUSHDB"

/-- The command writes the key, deletes it or empties the table. -/
def Command.Replaces (tables : CaseTables) (cmd : Command) (key : Bytes) : Prop :=
  (∃ value ttlSecs, cmd.Writes tables (fun _ _ => True) key value ttlSecs) ∨ cmd.Deletes key ∨
    cmd.Flushes

/-- The operations that a command may make, having read this: reads of its arguments, the
changes above, and readings of the counter for `INFO`. -/
def Query.MadeBy (tables : CaseTables) (read : Bytes → Option Bytes → Prop) (cmd : Command) :
    Query → Prop
  | .get key | .existsKey key => key ∈ cmd.args
  | .set key value ttlSecs => cmd.Writes tables read key value ttlSecs
  | .del key => cmd.Deletes key
  | .flush => cmd.Flushes
  | .usedCount => cmd.name = "INFO"

/-- What a `get` has been answered is among what was read. -/
def Query.Reads (read : Bytes → Option Bytes → Prop) : (q : Query) → q.Result → Prop
  | .get key, (result : Except MemLaneError (Option Bytes)) =>
      ∀ stored, result = .ok stored → read key stored
  | _, _ => True

section Commands

variable {tables : CaseTables} {read read' : Bytes → Option Bytes → Prop} {cmd : Command}
  {C : (q : Query) → q.Result → Prop}

theorem Command.Writes.mono {key value : Bytes} {ttlSecs : UInt64}
    (h : cmd.Writes tables read key value ttlSecs)
    (hread : ∀ key stored, read key stored → read' key stored) :
    cmd.Writes tables read' key value ttlSecs := by
  cases h with
  | set => exact .set _ _ _
  | mset hpair => exact .mset hpair
  | incr h => exact .incr (hread _ _ h)
  | decr h => exact .decr (hread _ _ h)

theorem Query.MadeBy.mono {q : Query} (h : q.MadeBy tables read cmd)
    (hread : ∀ key stored, read key stored → read' key stored) : q.MadeBy tables read' cmd := by
  cases q with
  | set key value ttlSecs => exact Command.Writes.mono h hread
  | get | existsKey | del | flush | usedCount => exact h

theorem delScript_onlyIf {deleted : Int64} {keys : List Bytes}
    (h : ∀ key ∈ keys, cmd.Deletes key) :
    (delScript deleted keys).OnlyIf C (Query.MadeBy tables read cmd) := by
  induction keys generalizing deleted with
  | nil => trivial
  | cons key keys ih =>
      refine ⟨h key List.mem_cons_self, fun _ _ => ih ?_⟩
      exact fun k hk => h k (List.mem_cons_of_mem _ hk)

theorem existsScript_onlyIf {count : Int64} {keys : List Bytes}
    (h : ∀ key ∈ keys, key ∈ cmd.args) :
    (existsScript count keys).OnlyIf C (Query.MadeBy tables read cmd) := by
  induction keys generalizing count with
  | nil => trivial
  | cons key keys ih =>
      refine ⟨h key List.mem_cons_self, fun _ _ => ih ?_⟩
      exact fun k hk => h k (List.mem_cons_of_mem _ hk)

theorem mgetScript_onlyIf {values : List (Option Bytes)} {keys : List Bytes}
    (h : ∀ key ∈ keys, key ∈ cmd.args) :
    (mgetScript values keys).OnlyIf C (Query.MadeBy tables read cmd) := by
  induction keys generalizing values with
  | nil => trivial
  | cons key keys ih =>
      refine ⟨h key List.mem_cons_self, fun (result : Except MemLaneError (Option Bytes)) _ => ?_⟩
      cases result with
      | error e => trivial
      | ok value => exact ih fun k hk => h k (List.mem_cons_of_mem _ hk)

theorem msetScript_onlyIf {pairs : List (Bytes × Bytes)}
    (h : ∀ pair ∈ pairs, cmd.Writes tables read pair.1 pair.2 0) :
    (msetScript pairs).OnlyIf C (Query.MadeBy tables read cmd) := by
  induction pairs with
  | nil => trivial
  | cons pair pairs ih =>
      obtain ⟨key, value⟩ := pair
      refine ⟨h _ List.mem_cons_self, fun (result : Except MemLaneError Bool) _ => ?_⟩
      cases result with
      | error e => trivial
      | ok inserted => exact ih fun pair hpair => h pair (List.mem_cons_of_mem _ hpair)

theorem counterScript_onlyIf {next : UInt64 → UInt64} {key : Bytes} (hkey : key ∈ cmd.args)
    (h : ∀ stored, read key stored → cmd.Writes tables read key
      (Decimal.numeral (next (MemLaneClient.counterValue stored)).toNat) 0) :
    (counterScript next key).OnlyIf (Query.Reads read) (Query.MadeBy tables read cmd) := by
  refine ⟨hkey, fun (result : Except MemLaneError (Option Bytes)) hresult => ?_⟩
  cases result with
  | error e => trivial
  | ok stored => exact ⟨h stored (hresult stored rfl), fun _ _ => trivial⟩

/-- A command asks for nothing but the operations it may make, after what it has read. -/
theorem commandScript_onlyIf (tables : CaseTables) (read : Bytes → Option Bytes → Prop)
    (cmd : Command) :
    (commandScript tables cmd).OnlyIf (Query.Reads read) (Query.MadeBy tables read cmd) := by
  obtain ⟨name, args⟩ := cmd
  unfold commandScript
  simp only
  split
  · cases args <;> trivial
  · split
    · exact ⟨List.mem_singleton_self _, fun _ _ => trivial⟩
    · trivial
  · split
    · exact ⟨.set _ _ _, fun _ _ => trivial⟩
    · trivial
  · split
    · trivial
    · exact delScript_onlyIf fun key hkey => ⟨rfl, hkey⟩
  · split
    · trivial
    · exact existsScript_onlyIf fun key hkey => hkey
  · split
    · trivial
    · exact mgetScript_onlyIf fun key hkey => hkey
  · split
    · trivial
    · exact msetScript_onlyIf fun pair hpair => .mset hpair
  · split
    · exact counterScript_onlyIf (List.mem_singleton_self _) fun _ hread => .incr hread
    · trivial
  · split
    · exact counterScript_onlyIf (List.mem_singleton_self _) fun _ hread => .decr hread
    · trivial
  · split <;> trivial
  · exact ⟨.inl rfl, fun _ _ => trivial⟩
  · exact ⟨.inr (.inl rfl), fun _ _ => trivial⟩
  · exact ⟨.inr (.inr rfl), fun _ _ => trivial⟩
  · exact ⟨rfl, fun _ _ => ⟨rfl, fun _ _ => trivial⟩⟩
  · trivial
  · trivial

/-- A request asks for operations of its command, if it is one. -/
theorem requestScript_onlyIf (tables : CaseTables) (read : Bytes → Option Bytes → Prop)
    (val : RespValue) :
    (requestScript tables val).OnlyIf (Query.Reads read) fun q =>
      ∃ cmd, extractCommand tables val = .ok cmd ∧ q.MadeBy tables read cmd := by
  unfold requestScript
  split
  · trivial
  · next cmd hcmd =>
      exact (commandScript_onlyIf tables read cmd).mono fun q hq => ⟨cmd, hcmd, hq⟩

/-- The same, whatever has been read. -/
theorem requestScript_only (tables : CaseTables) (val : RespValue) :
    (requestScript tables val).Only fun q =>
      ∃ cmd, extractCommand tables val = .ok cmd ∧ q.MadeBy tables (fun _ _ => True) cmd := by
  refine (requestScript_onlyIf tables (fun _ _ => True) val).only fun q answer => ?_
  cases q with
  | get => exact fun _ _ => trivial
  | set | del | existsKey | flush | usedCount => trivial

end Commands

/-! ## Operations -/

section Operations

variable {hashFn : Bytes → UInt64} {arena : Arena} {k v : Bytes} {e : UInt64}

/-- The client call of an operation. -/
def Query.call? (clock : Clock) : Query → Option Call
  | .get key => some ⟨.get key, clock⟩
  | .set key value ttlSecs => some ⟨.set key value ttlSecs, clock⟩
  | .del key => some ⟨.del key, clock⟩
  | .existsKey key => some ⟨.existsKey key, clock⟩
  | .flush => some ⟨.flush, clock⟩
  | .usedCount => none

/-- An operation leaves the arena as its client call does. -/
theorem arenaStore_eq (q : Query) (clock : Clock) :
    (arenaStore hashFn arena q clock).2 =
      Run.after (Call.exec hashFn) arena (q.call? clock).toList := by
  cases q <;> rfl

theorem TableInv.query (h : TableInv hashFn arena) (q : Query) (clock : Clock) :
    TableInv hashFn (arenaStore hashFn arena q clock).2 := by
  rw [arenaStore_eq]
  exact Run.after_invariant (TableInv hashFn) (fun _ call h => h.exec call) h _

theorem Reachable.query (h : Reachable hashFn arena) (q : Query) (clock : Clock) :
    Reachable hashFn (arenaStore hashFn arena q clock).2 := by
  obtain ⟨region, calls, rfl⟩ := h
  refine ⟨region, calls ++ (q.call? clock).toList, ?_⟩
  rw [arenaStore_eq, arenaAfter, arenaAfter, Run.after_append]

theorem Reachable.tableInv (h : Reachable hashFn arena) : TableInv hashFn arena := by
  obtain ⟨region, calls, rfl⟩ := h
  exact .arenaAfter hashFn region calls

/-- An entry stored after an operation was stored before, or the operation sets it. -/
theorem Query.stores_after (hinv : TableInv hashFn arena) {q : Query} {clock : Clock}
    (hs : (arenaStore hashFn arena q clock).2.Stores k v e) :
    arena.Stores k v e ∨ ∃ ttlSecs, q = .set k v ttlSecs ∧ e = ttlToExpiry ttlSecs (clock 0) := by
  have hbefore : ∀ {op : Op}, ((⟨op, clock⟩ : Call).exec hashFn arena).2.Stores k v e →
      arena.Stores k v e ∨
        ∃ ttlSecs, op = .set k v ttlSecs ∧ e = ttlToExpiry ttlSecs (clock 0) := by
    intro op hs
    rcases Call.stores_exec hinv ⟨op, clock⟩ hs with ⟨ttlSecs, hop, _, he⟩ | ⟨_, hbefore⟩
    · exact .inr ⟨ttlSecs, hop, he⟩
    · exact .inl hbefore
  cases q with
  | usedCount => exact .inl hs
  | set key value ttlSecs =>
      rcases @hbefore (.set key value ttlSecs) hs with hbefore | ⟨ttlSecs, hop, he⟩
      · exact .inl hbefore
      · cases hop
        exact .inr ⟨_, rfl, he⟩
  | get key =>
      rcases @hbefore (.get key) hs with hbefore | ⟨ttlSecs, hop, _⟩
      · exact .inl hbefore
      · cases hop
  | del key =>
      rcases @hbefore (.del key) hs with hbefore | ⟨ttlSecs, hop, _⟩
      · exact .inl hbefore
      · cases hop
  | existsKey key =>
      rcases @hbefore (.existsKey key) hs with hbefore | ⟨ttlSecs, hop, _⟩
      · exact .inl hbefore
      · cases hop
  | flush =>
      rcases @hbefore .flush hs with hbefore | ⟨ttlSecs, hop, _⟩
      · exact .inl hbefore
      · cases hop

/-- The operation sets or deletes the key, or empties the table. -/
def Query.Replaces (key : Bytes) : Query → Prop
  | .set k _ _ => k = key
  | .del k => k = key
  | .flush => True
  | _ => False

/-- The operation finds the entry of `k` expired on its way, as its client call does. -/
def Query.FindsExpired (hashFn : Bytes → UInt64) (arena : Arena) (clock : Clock) (k : Bytes)
    (e : UInt64) (q : Query) : Prop :=
  ∃ call ∈ q.call? clock, call.FindsExpired hashFn arena k e

/-- An operation that does not replace an entry keeps it, unless it finds it expired. -/
theorem Query.keeps (hinv : TableInv hashFn arena) {q : Query} {clock : Clock}
    (hnot : ¬ q.Replaces k) (hs : arena.Stores k v e) :
    (arenaStore hashFn arena q clock).2.Stores k v e ∨ q.FindsExpired hashFn arena clock k e := by
  have hkeeps : ∀ {op : Op}, (∀ value ttlSecs, op ≠ .set k value ttlSecs) → op ≠ .del k →
      op ≠ .flush → ((⟨op, clock⟩ : Call).exec hashFn arena).2.Stores k v e ∨
        (⟨op, clock⟩ : Call).FindsExpired hashFn arena k e := by
    intro op hset hdel hflush
    refine Call.keeps hinv ⟨op, clock⟩ ?_ hs
    rintro (⟨value, expiry, ttlSecs, hop, _⟩ | hop | hop)
    · exact hset value ttlSecs hop
    · exact hdel hop
    · exact hflush hop
  cases q with
  | usedCount => exact .inl hs
  | flush => exact (hnot trivial).elim
  | get key =>
      exact (@hkeeps (.get key) (by simp) (by simp) (by simp)).imp_right fun h => ⟨_, rfl, h⟩
  | existsKey key =>
      exact (@hkeeps (.existsKey key) (by simp) (by simp) (by simp)).imp_right
        fun h => ⟨_, rfl, h⟩
  | del key =>
      exact (@hkeeps (.del key) (by simp) (fun hop => hnot (Op.del.inj hop)) (by simp)).imp_right
        fun h => ⟨_, rfl, h⟩
  | set key value ttlSecs =>
      have hset : ∀ value' ttlSecs', Op.set key value ttlSecs ≠ .set k value' ttlSecs' := by
        intro value' ttlSecs' hop
        cases hop
        exact hnot rfl
      exact (@hkeeps (.set key value ttlSecs) hset (by simp) (by simp)).imp_right
        fun h => ⟨_, rfl, h⟩

end Operations

/-! ## Requests -/

section Requests

variable {tables : CaseTables} {hashFn : Bytes → UInt64} {arena : Arena} {val : RespValue}
  {clock : Nat → Clock} {k v : Bytes} {e : UInt64}

/-- The operations that a request makes by itself: the arena that each finds, the operation and
its readings of the clock. -/
def requestTrace (tables : CaseTables) (hashFn : Bytes → UInt64) (arena : Arena)
    (val : RespValue) (clock : Nat → Clock) : List (Arena × Query × Clock) :=
  (requestScript tables val).trace (arenaStore hashFn) arena clock

/-- The request gets this under the key. -/
def RespValue.Gets (tables : CaseTables) (hashFn : Bytes → UInt64) (arena : Arena)
    (val : RespValue) (clock : Nat → Clock) (key : Bytes) (stored : Option Bytes) : Prop :=
  ∃ now reading, (now, .get key, reading) ∈ requestTrace tables hashFn arena val clock ∧
    (MemLaneClient.get hashFn now key reading).1 = .ok stored

/-- The operations of a request are those of its command, after what it gets. -/
theorem requestTrace_madeBy {now : Arena} {q : Query} {reading : Clock}
    (h : (now, q, reading) ∈ requestTrace tables hashFn arena val clock) :
    ∃ cmd, extractCommand tables val = .ok cmd ∧
      q.MadeBy tables (val.Gets tables hashFn arena clock) cmd := by
  have honly := requestScript_onlyIf tables (val.Gets tables hashFn arena clock) val
  refine honly.trace ?_ _ h
  rintro ⟨now, q, reading⟩ hstep
  cases q with
  | get key => exact fun stored hstored => ⟨now, reading, hstep, hstored⟩
  | set | del | existsKey | flush | usedCount => trivial

/-- What every operation of a request keeps, the request keeps. -/
theorem request_invariant (Inv : Arena → Prop)
    (hstep : ∀ now q reading, (now, q, reading) ∈ requestTrace tables hashFn arena val clock →
      Inv now → Inv (arenaStore hashFn now q reading).2)
    (harena : Inv arena) : Inv (dispatchCommand tables hashFn arena val clock).2 := by
  rw [← requestScript_run]
  exact Script.run_invariant _ Inv hstep harena

theorem TableInv.request (h : TableInv hashFn arena) (val : RespValue) (clock : Nat → Clock) :
    TableInv hashFn (dispatchCommand tables hashFn arena val clock).2 :=
  request_invariant (TableInv hashFn) (fun _ q reading _ h => h.query q reading) h

/-- The request is a command that writes this entry, by one of its operations. -/
def RespValue.WritesEntry (tables : CaseTables) (hashFn : Bytes → UInt64) (arena : Arena)
    (val : RespValue) (clock : Nat → Clock) (key value : Bytes) (expiry : UInt64) : Prop :=
  ∃ cmd ttlSecs now reading, extractCommand tables val = .ok cmd ∧
    cmd.Writes tables (val.Gets tables hashFn arena clock) key value ttlSecs ∧
    (now, .set key value ttlSecs, reading) ∈ requestTrace tables hashFn arena val clock ∧
    expiry = ttlToExpiry ttlSecs (reading 0)

/-- The request is a command that replaces the entry of this key. -/
def RespValue.Replaces (tables : CaseTables) (val : RespValue) (key : Bytes) : Prop :=
  ∃ cmd, extractCommand tables val = .ok cmd ∧ cmd.Replaces tables key

/-- An operation of the request finds the entry of `k` expired on its way. -/
def RespValue.FindsExpired (tables : CaseTables) (hashFn : Bytes → UInt64) (arena : Arena)
    (val : RespValue) (clock : Nat → Clock) (k : Bytes) (e : UInt64) : Prop :=
  ∃ now q reading, (now, q, reading) ∈ requestTrace tables hashFn arena val clock ∧
    q.FindsExpired hashFn now reading k e

/-- An entry stored after a request was stored before, or the request writes it. -/
theorem request_stores (hinv : TableInv hashFn arena)
    (hs : (dispatchCommand tables hashFn arena val clock).2.Stores k v e) :
    arena.Stores k v e ∨ val.WritesEntry tables hashFn arena clock k v e := by
  let Inv (now : Arena) : Prop := TableInv hashFn now ∧ ∀ k v e, now.Stores k v e →
    arena.Stores k v e ∨ val.WritesEntry tables hashFn arena clock k v e
  have hafter : Inv (dispatchCommand tables hashFn arena val clock).2 := by
    refine request_invariant Inv ?_ ⟨hinv, fun _ _ _ h => .inl h⟩
    intro now q reading hmem h
    refine ⟨h.1.query q reading, fun k v e hs => ?_⟩
    rcases Query.stores_after h.1 hs with hbefore | ⟨ttlSecs, rfl, he⟩
    · exact h.2 k v e hbefore
    · obtain ⟨cmd, hcmd, hwrites⟩ := requestTrace_madeBy hmem
      exact .inr ⟨cmd, ttlSecs, now, reading, hcmd, hwrites, hmem, he⟩
  exact hafter.2 k v e hs

theorem Query.MadeBy.replaces {read : Bytes → Option Bytes → Prop} {cmd : Command} {q : Query}
    (h : q.MadeBy tables read cmd) (hk : q.Replaces k) : cmd.Replaces tables k := by
  cases q with
  | set key value ttlSecs =>
      obtain rfl : key = k := hk
      exact .inl ⟨value, ttlSecs, Command.Writes.mono h fun _ _ _ => trivial⟩
  | del key =>
      obtain rfl : key = k := hk
      exact .inr (.inl h)
  | flush => exact .inr (.inr h)
  | get | existsKey | usedCount => exact hk.elim

/-- An entry that a request does not replace is kept, unless the request finds it expired. -/
theorem request_keeps (hinv : TableInv hashFn arena) (hnot : ¬ val.Replaces tables k)
    (hs : arena.Stores k v e) :
    (dispatchCommand tables hashFn arena val clock).2.Stores k v e ∨
      val.FindsExpired tables hashFn arena clock k e := by
  let Inv (now : Arena) : Prop := TableInv hashFn now ∧
    (now.Stores k v e ∨ val.FindsExpired tables hashFn arena clock k e)
  have hafter : Inv (dispatchCommand tables hashFn arena val clock).2 := by
    refine request_invariant Inv ?_ ⟨hinv, .inl hs⟩
    intro now q reading hmem h
    refine ⟨h.1.query q reading, ?_⟩
    rcases h.2 with hs | hexp
    · obtain ⟨cmd, hcmd, hmade⟩ := requestTrace_madeBy hmem
      have hkey : ¬ q.Replaces k := fun hk => hnot ⟨cmd, hcmd, hmade.replaces hk⟩
      exact (Query.keeps h.1 hkey hs).imp_right fun hexp => ⟨now, q, reading, hmem, hexp⟩
    · exact .inr hexp
  exact hafter.2

/-- **A request changes no entry but those its command names.**  On every reachable arena,
for every value that a connection may send and every clock: entries come from before or
from a write of the command, which for the counter commands follows the number that the
request has got, and go because the command replaces them or because one of its operations
has found them expired at the reading of the clock that it made at their slot. -/
theorem request_changes_named_entries (tables : CaseTables) (hashFn : Bytes → UInt64)
    (region : Arena) (calls : List Call) (val : RespValue) (clock : Nat → Clock)
    (k v : Bytes) (e : UInt64) :
    let arena := arenaAfter hashFn region calls
    let after := (dispatchCommand tables hashFn arena val clock).2
    (after.Stores k v e → arena.Stores k v e ∨ val.WritesEntry tables hashFn arena clock k v e) ∧
      (arena.Stores k v e → after.Stores k v e ∨ val.Replaces tables k ∨
        val.FindsExpired tables hashFn arena clock k e) := by
  intro arena after
  have hinv : TableInv hashFn arena := .arenaAfter hashFn region calls
  refine ⟨request_stores hinv, fun hs => ?_⟩
  by_cases hreplaces : val.Replaces tables k
  · exact .inr (.inl hreplaces)
  · rcases request_keeps hinv hreplaces hs with hafter | hexp
    · exact .inl hafter
    · exact .inr (.inr hexp)

end Requests

end MemLane
