import MemLane.Requests
import MemLane.Script

/-!
# Requests as scripts of map operations

`dispatch_command` of `server/mod.rs` again, cut at the calls it makes on the client.
Several connections share one arena, and between two operations of a request those of
other requests may come.  Each operation is taken as a whole here.

Run by itself, the script of a request is `dispatchCommand` (`requestScript_run`).
-/

namespace MemLane

/-- An operation of the client on the shared table. -/
inductive Query
  | get (key : Bytes)
  | set (key value : Bytes) (ttlSecs : UInt64)
  | del (key : Bytes)
  | existsKey (key : Bytes)
  | flush
  | usedCount

/-- What the operation returns. -/
abbrev Query.Result : Query → Type
  | .get _ => Except MemLaneError (Option Bytes)
  | .set .. => Except MemLaneError Bool
  | .del _ => Except MemLaneError Bool
  | .existsKey _ => Except MemLaneError Bool
  | .flush => Except MemLaneError Unit
  | .usedCount => UInt64

/-- A program of client operations. -/
abbrev ClientScript (α : Type) := Script Query Query.Result α

/-- The table behind a client, with the clock readings that an operation makes. -/
abbrev ClientStore (σ : Type) := Script.Store Query Query.Result Clock σ

/-- The client of an arena. -/
def arenaStore (hashFn : Bytes → UInt64) : ClientStore Arena
  | arena, .get key, clock => MemLaneClient.get hashFn arena key clock
  | arena, .set key value ttlSecs, clock => MemLaneClient.set hashFn arena key value ttlSecs clock
  | arena, .del key, _ => MemLaneClient.del hashFn arena key
  | arena, .existsKey key, clock => MemLaneClient.existsKey hashFn arena key clock
  | arena, .flush, _ => MemLaneClient.flush arena
  | arena, .usedCount, _ => (usedCount arena, arena)

/-! ## The operations of a request -/

/-- The loop of `DEL`. -/
def delScript (deleted : Int64) : List Bytes → ClientScript RespValue
  | [] => .done (Resp.integer deleted)
  | key :: keys => .ask (.del key) fun (result : Except MemLaneError Bool) =>
      delScript (match result with | .ok true => deleted + 1 | _ => deleted) keys

/-- The loop of `EXISTS`. -/
def existsScript (count : Int64) : List Bytes → ClientScript RespValue
  | [] => .done (Resp.integer count)
  | key :: keys => .ask (.existsKey key) fun (result : Except MemLaneError Bool) =>
      existsScript (match result with | .ok true => count + 1 | _ => count) keys

/-- `mget`, with the values read so far. -/
def mgetScript (values : List (Option Bytes)) : List Bytes → ClientScript RespValue
  | [] => .done (.array (values.map bulkOrNil))
  | key :: keys => .ask (.get key) fun (result : Except MemLaneError (Option Bytes)) =>
      match result with
      | .error e => .done (Resp.err e.display)
      | .ok value => mgetScript (values ++ [value]) keys

/-- `mset` without expiry. -/
def msetScript : List (Bytes × Bytes) → ClientScript RespValue
  | [] => .done Resp.ok
  | (key, value) :: pairs => .ask (.set key value 0) fun (result : Except MemLaneError Bool) =>
      match result with
      | .error e => .done (Resp.err e.display)
      | .ok _ => msetScript pairs

/-- `incr` and `decr`, with what they make of the current number. -/
def counterScript (next : UInt64 → UInt64) (key : Bytes) : ClientScript RespValue :=
  .ask (.get key) fun (result : Except MemLaneError (Option Bytes)) =>
    match result with
    | .error e => .done (Resp.err e.display)
    | .ok stored =>
        let n := next (MemLaneClient.counterValue stored)
        .ask (.set key (Decimal.numeral n.toNat) 0) fun (result : Except MemLaneError Bool) =>
          .done (replyOf (fun _ => Resp.integer n.toInt64) result)

/-- The text of `INFO`, for its two readings of the counter. -/
def infoOf (used usedAgain : UInt64) : String :=
  "# MemLane\r\nmemlane_version:0.1.0\r\nused_slots:" ++ toString used.toNat ++
    "\r\ntotal_slots:" ++ toString slotCount ++ "\r\nfill_ratio:" ++
    fillText usedAgain ++ "%\r\ntransport:shared_memory\r\nprotocol:RESP2\r\n"

/-- A command that is known by its name. -/
def commandScript (tables : CaseTables) (cmd : Command) : ClientScript RespValue :=
  match cmd.name with
  | "PING" =>
      match cmd.args with
      | [] => .done Resp.pong
      | msg :: _ => .done (Resp.bulk msg)
  | "GET" =>
      match cmd.args with
      | [key] => .ask (.get key) fun (result : Except MemLaneError (Option Bytes)) =>
          .done (replyOf bulkOrNil result)
      | _ => .done (Resp.wrongArgs tables "GET")
  | "SET" =>
      match cmd.args with
      | key :: value :: options =>
          .ask (.set key value (setOptions tables 0 options))
            fun (result : Except MemLaneError Bool) => .done (replyOf (fun _ => Resp.ok) result)
      | _ => .done (Resp.wrongArgs tables "SET")
  | "DEL" =>
      match cmd.args with
      | [] => .done (Resp.wrongArgs tables "DEL")
      | keys => delScript 0 keys
  | "EXISTS" =>
      match cmd.args with
      | [] => .done (Resp.wrongArgs tables "EXISTS")
      | keys => existsScript 0 keys
  | "MGET" =>
      match cmd.args with
      | [] => .done (Resp.wrongArgs tables "MGET")
      | keys => mgetScript [] keys
  | "MSET" =>
      if cmd.args = [] ∨ cmd.args.length % 2 ≠ 0 then .done (Resp.wrongArgs tables "MSET")
      else msetScript (chunkPairs cmd.args)
  | "INCR" =>
      match cmd.args with
      | [key] => counterScript (· + 1) key
      | _ => .done (Resp.wrongArgs tables "INCR")
  | "DECR" =>
      match cmd.args with
      | [key] => counterScript (fun n => if n = 0 then 0 else n - 1) key
      | _ => .done (Resp.wrongArgs tables "DECR")
  | "TTL" =>
      match cmd.args with
      | [_] => .done (Resp.integer (-1))
      | _ => .done (Resp.wrongArgs tables "TTL")
  | "FLUSH" | "FLUSHALL" | "FLUSHDB" =>
      .ask .flush fun (result : Except MemLaneError Unit) =>
        .done (replyOf (fun _ => Resp.ok) result)
  | "INFO" =>
      .ask .usedCount fun (used : UInt64) => .ask .usedCount fun (usedAgain : UInt64) =>
        .done (Resp.bulk (asBytes (infoOf used usedAgain)))
  | "COMMAND" => .done (.array [])
  | unknown =>
      .done (.error ("ERR unknown command '" ++ (toLowercase tables unknown ++
        "', try PING, GET, SET, DEL, EXISTS, MGET, MSET, INCR, DECR, FLUSH, INFO")))

/-- A request: what is no command is answered without touching the table. -/
def requestScript (tables : CaseTables) (val : RespValue) : ClientScript RespValue :=
  match extractCommand tables val with
  | .error e => .done (Resp.err e)
  | .ok cmd => commandScript tables cmd

/-! ## Run by itself -/

section Run

variable {tables : CaseTables} {hashFn : Bytes → UInt64} {arena : Arena} {clock : Nat → Clock}

theorem delScript_run (deleted : Int64) (keys : List Bytes) :
    (delScript deleted keys).run (arenaStore hashFn) arena clock =
      (Resp.integer (delEach hashFn arena deleted keys).1,
        (delEach hashFn arena deleted keys).2) := by
  induction keys generalizing arena deleted clock with
  | nil => rfl
  | cons key keys ih => exact ih _

theorem existsScript_run (count : Int64) (keys : List Bytes) :
    (existsScript count keys).run (arenaStore hashFn) arena clock =
      (Resp.integer (existsEach hashFn arena count keys clock).1,
        (existsEach hashFn arena count keys clock).2) := by
  induction keys generalizing arena count clock with
  | nil => rfl
  | cons key keys ih => exact ih _

theorem mgetScript_run (values : List (Option Bytes)) (keys : List Bytes) :
    (mgetScript values keys).run (arenaStore hashFn) arena clock =
      (replyOf (fun rest => .array ((values ++ rest).map bulkOrNil))
          (MemLaneClient.mget hashFn arena keys clock).1,
        (MemLaneClient.mget hashFn arena keys clock).2) := by
  induction keys generalizing arena values clock with
  | nil =>
      rw [mgetScript, Script.run_done, MemLaneClient.mget, replyOf, List.append_nil]
  | cons key keys ih =>
      rw [mgetScript, Script.run_ask, MemLaneClient.mget]
      simp only [arenaStore]
      cases (MemLaneClient.get hashFn arena key (clock 0)).1 with
      | error e => rfl
      | ok value =>
          simp only
          rw [ih]
          cases (MemLaneClient.mget hashFn _ keys _).1 with
          | error e => rfl
          | ok rest =>
              simp only [replyOf, List.append_assoc, List.singleton_append]

theorem msetScript_run (count : Nat) (pairs : List (Bytes × Bytes)) :
    (msetScript pairs).run (arenaStore hashFn) arena clock =
      (replyOf (fun _ => Resp.ok) (MemLaneClient.msetLoop hashFn 0 arena count pairs clock).1,
        (MemLaneClient.msetLoop hashFn 0 arena count pairs clock).2) := by
  induction pairs generalizing arena count clock with
  | nil => rfl
  | cons pair pairs ih =>
      obtain ⟨key, value⟩ := pair
      rw [msetScript, Script.run_ask, MemLaneClient.msetLoop]
      simp only [arenaStore]
      cases (MemLaneClient.set hashFn arena key value 0 (clock 0)).1 with
      | error e => rfl
      | ok inserted => exact ih (count + 1)

theorem counterScript_run (next : UInt64 → UInt64) (key : Bytes) :
    (counterScript next key).run (arenaStore hashFn) arena clock =
      match (MemLaneClient.get hashFn arena key (clock 0)).1 with
      | .error e => (Resp.err e.display, (MemLaneClient.get hashFn arena key (clock 0)).2)
      | .ok stored =>
          let result := MemLaneClient.storeCounter hashFn
            (MemLaneClient.get hashFn arena key (clock 0)).2 key
            (next (MemLaneClient.counterValue stored)) (clock 1)
          (replyOf (fun n => Resp.integer n.toInt64) result.1, result.2) := by
  rw [counterScript, Script.run_ask]
  simp only [arenaStore]
  cases (MemLaneClient.get hashFn arena key (clock 0)).1 with
  | error e => rfl
  | ok stored =>
      simp only [Script.run_ask, arenaStore, MemLaneClient.storeCounter]
      cases (MemLaneClient.set hashFn _ key _ 0 (clock 1)).1 with
      | error e => rfl
      | ok inserted => rfl

theorem incr_run (key : Bytes) :
    (counterScript (· + 1) key).run (arenaStore hashFn) arena clock =
      (replyOf (fun n => Resp.integer n.toInt64) (MemLaneClient.incr hashFn arena key clock).1,
        (MemLaneClient.incr hashFn arena key clock).2) := by
  rw [counterScript_run, MemLaneClient.incr]
  cases (MemLaneClient.get hashFn arena key (clock 0)).1 with
  | error e => rfl
  | ok stored => rfl

theorem decr_run (key : Bytes) :
    (counterScript (fun n => if n = 0 then 0 else n - 1) key).run (arenaStore hashFn) arena clock =
      (replyOf (fun n => Resp.integer n.toInt64) (MemLaneClient.decr hashFn arena key clock).1,
        (MemLaneClient.decr hashFn arena key clock).2) := by
  rw [counterScript_run, MemLaneClient.decr]
  cases (MemLaneClient.get hashFn arena key (clock 0)).1 with
  | error e => rfl
  | ok stored => rfl

/-- **The script of a request is the dispatcher.**  With nothing in between its operations,
it replies what `dispatch_command` replies and leaves the arena as it does. -/
theorem requestScript_run (tables : CaseTables) (hashFn : Bytes → UInt64) (arena : Arena)
    (val : RespValue) (clock : Nat → Clock) :
    (requestScript tables val).run (arenaStore hashFn) arena clock =
      dispatchCommand tables hashFn arena val clock := by
  unfold requestScript dispatchCommand
  cases extractCommand tables val with
  | error e => rfl
  | ok cmd =>
      obtain ⟨name, args⟩ := cmd
      simp only
      unfold commandScript
      simp only
      -- one case per command name, in the order of the source
      split
      · cases args <;> rfl
      · rcases args with _ | ⟨key, _ | ⟨more, rest⟩⟩ <;> rfl
      · rcases args with _ | ⟨key, _ | ⟨value, options⟩⟩ <;> rfl
      · cases args with
        | nil => rfl
        | cons key keys => exact delScript_run 0 (key :: keys)
      · cases args with
        | nil => rfl
        | cons key keys => exact existsScript_run 0 (key :: keys)
      · cases args with
        | nil => rfl
        | cons key keys => exact mgetScript_run [] (key :: keys)
      · split
        · rfl
        · exact msetScript_run 0 _
      · rcases args with _ | ⟨key, _ | ⟨more, rest⟩⟩
        · rfl
        · exact incr_run key
        · rfl
      · rcases args with _ | ⟨key, _ | ⟨more, rest⟩⟩
        · rfl
        · exact decr_run key
        · rfl
      · rcases args with _ | ⟨key, _ | ⟨more, rest⟩⟩ <;> rfl
      · rfl
      · rfl
      · rfl
      · rfl
      · rfl
      · -- the other names do not match in the dispatcher either
        simp_all only [Script.run_done]

end Run

end MemLane
