import MemLane.Client
import MemLane.Resp
import MemLane.UnicodeText

/-!
# The command dispatcher

`extract_command` and the response builders of `resp.rs`, and `dispatch_command`
of `server/mod.rs`.  A request is a parsed value; the reply is the value that
the connection handler encodes and writes.  Every map operation of a request has
a clock of its own.
-/

namespace MemLane

variable (tables : CaseTables) (hashFn : Bytes → UInt64)

/-! ## Commands -/

structure Command where
  name : String
  args : List Bytes

/-- The arguments of a command; the first one of another kind is an error. -/
def commandArgs : List RespValue → Except String (List Bytes)
  | [] => .ok []
  | .bulkString b :: items =>
      match commandArgs items with
      | .error e => .error e
      | .ok args => .ok (b :: args)
  | _ :: _ => .error "Command args must be bulk strings"

def extractCommand (val : RespValue) : Except String Command :=
  match val with
  | .array (.bulkString b :: items) =>
      match fromUtf8 b with
      | none => .error "Non-UTF8 command name"
      | some s =>
          match commandArgs items with
          | .error e => .error e
          | .ok args => .ok { name := toUppercase tables s, args := args }
  | .array (_ :: _) => .error "Command name must be a bulk string"
  | _ => .error "Expected RESP array for command"

/-! ## Responses -/

namespace Resp

def ok : RespValue := .simpleString "OK"

def pong : RespValue := .simpleString "PONG"

def err (msg : String) : RespValue := .error ("ERR " ++ msg)

def wrongArgs (cmd : String) : RespValue :=
  .error ("ERR wrong number of arguments for '" ++ (toLowercase tables cmd ++ "' command"))

def nil : RespValue := .nil

def integer (n : Int64) : RespValue := .integer n

def bulk (data : Bytes) : RespValue := .bulkString data

end Resp

/-- The text of an error, as `Display` writes it. -/
def MemLaneError.display : MemLaneError → String
  | .arenaInit msg => "Arena initialisation failed: " ++ msg
  | .arenaFull slots => "Arena is full — all " ++ (toString slots ++ " slots are occupied")
  | .keyTooLong len => "Key too long: " ++ (toString len ++ " bytes (max 128)")
  | .valueTooLong len => "Value too long: " ++ (toString len ++ " bytes (max 1024)")

/-- A reply that is `value` on success and the error's text otherwise. -/
def replyOf {α : Type} (value : α → RespValue) : Except MemLaneError α → RespValue
  | .ok a => value a
  | .error e => Resp.err e.display

/-! ## The fill ratio

`used as f64 / capacity as f64 * 100.0`, printed with two decimals.  The capacity
is a power of two, so only the conversion and the product round. -/

/-- The integer nearest to `num / den`, ties to even. -/
def roundEven (num den : Nat) : Nat :=
  let q := num / den
  let r := num % den
  if 2 * r < den ∨ 2 * r = den ∧ q % 2 = 0 then q else q + 1

/-- The `f64` nearest to an integer. -/
def toF64 (n : Nat) : Nat :=
  let dropped := n.log2 + 1 - 53
  roundEven n (2 ^ dropped) * 2 ^ dropped

/-- The percentage of used slots, as `{:.2}` prints it. -/
def fillText (used : UInt64) : String :=
  let hundredths := roundEven (toF64 (toF64 used.toNat * 100) * 100) slotCount
  toString (hundredths / 100) ++ "." ++ (if hundredths % 100 < 10 then "0" else "") ++
    toString (hundredths % 100)

def infoText (arena : Arena) : String :=
  "# MemLane\r\nmemlane_version:0.1.0\r\nused_slots:" ++ toString (usedCount arena).toNat ++
    "\r\ntotal_slots:" ++ toString (capacity arena) ++ "\r\nfill_ratio:" ++
    fillText (usedCount arena) ++ "%\r\ntransport:shared_memory\r\nprotocol:RESP2\r\n"

/-! ## The commands -/

/-- The options of `SET`: the last `EX` or `PX` counts, anything else is skipped. -/
def setOptions (ttlSecs : UInt64) : List Bytes → UInt64
  | [] => ttlSecs
  | [_] => ttlSecs
  | opt :: value :: rest =>
      match toUppercase tables (fromUtf8Lossy opt) with
      | "EX" => setOptions ((parseU64 (fromUtf8Lossy value)).getD 0) rest
      | "PX" => setOptions (((parseU64 (fromUtf8Lossy value)).getD 0 + 999) / 1000) rest
      | _ => setOptions ttlSecs (value :: rest)

/-- The loop of `DEL`; errors count as nothing deleted. -/
def delEach (arena : Arena) (deleted : Int64) : List Bytes → Int64 × Arena
  | [] => (deleted, arena)
  | key :: keys =>
      let result := MemLaneClient.del hashFn arena key
      delEach result.2 (match result.1 with | .ok true => deleted + 1 | _ => deleted) keys

/-- The loop of `EXISTS`. -/
def existsEach (arena : Arena) (count : Int64) (keys : List Bytes) (clock : Nat → Clock) :
    Int64 × Arena :=
  match keys with
  | [] => (count, arena)
  | key :: keys =>
      let result := MemLaneClient.existsKey hashFn arena key (clock 0)
      existsEach result.2 (match result.1 with | .ok true => count + 1 | _ => count) keys
        fun i => clock (i + 1)

/-- `chunks(2)` of an even number of arguments. -/
def chunkPairs : List Bytes → List (Bytes × Bytes)
  | key :: value :: rest => (key, value) :: chunkPairs rest
  | _ => []

/-- A found value as a bulk string. -/
def bulkOrNil : Option Bytes → RespValue
  | some value => Resp.bulk value
  | none => Resp.nil

def dispatchCommand (arena : Arena) (val : RespValue) (clock : Nat → Clock) :
    RespValue × Arena :=
  match extractCommand tables val with
  | .error e => (Resp.err e, arena)
  | .ok cmd =>
      match cmd.name with
      | "PING" =>
          match cmd.args with
          | [] => (Resp.pong, arena)
          | msg :: _ => (Resp.bulk msg, arena)
      | "GET" =>
          match cmd.args with
          | [key] =>
              let result := MemLaneClient.get hashFn arena key (clock 0)
              (replyOf bulkOrNil result.1, result.2)
          | _ => (Resp.wrongArgs tables "GET", arena)
      | "SET" =>
          match cmd.args with
          | key :: value :: options =>
              let ttlSecs := setOptions tables 0 options
              let result := MemLaneClient.set hashFn arena key value ttlSecs (clock 0)
              (replyOf (fun _ => Resp.ok) result.1, result.2)
          | _ => (Resp.wrongArgs tables "SET", arena)
      | "DEL" =>
          match cmd.args with
          | [] => (Resp.wrongArgs tables "DEL", arena)
          | keys =>
              let result := delEach hashFn arena 0 keys
              (Resp.integer result.1, result.2)
      | "EXISTS" =>
          match cmd.args with
          | [] => (Resp.wrongArgs tables "EXISTS", arena)
          | keys =>
              let result := existsEach hashFn arena 0 keys clock
              (Resp.integer result.1, result.2)
      | "MGET" =>
          match cmd.args with
          | [] => (Resp.wrongArgs tables "MGET", arena)
          | keys =>
              let result := MemLaneClient.mget hashFn arena keys clock
              (replyOf (fun values => .array (values.map bulkOrNil)) result.1, result.2)
      | "MSET" =>
          if cmd.args = [] ∨ cmd.args.length % 2 ≠ 0 then (Resp.wrongArgs tables "MSET", arena)
          else
            let result := MemLaneClient.mset hashFn arena (chunkPairs cmd.args) 0 clock
            (replyOf (fun _ => Resp.ok) result.1, result.2)
      | "INCR" =>
          match cmd.args with
          | [key] =>
              let result := MemLaneClient.incr hashFn arena key clock
              (replyOf (fun n => Resp.integer n.toInt64) result.1, result.2)
          | _ => (Resp.wrongArgs tables "INCR", arena)
      | "DECR" =>
          match cmd.args with
          | [key] =>
              let result := MemLaneClient.decr hashFn arena key clock
              (replyOf (fun n => Resp.integer n.toInt64) result.1, result.2)
          | _ => (Resp.wrongArgs tables "DECR", arena)
      | "TTL" =>
          match cmd.args with
          | [_] => (Resp.integer (-1), arena)
          | _ => (Resp.wrongArgs tables "TTL", arena)
      | "FLUSH" | "FLUSHALL" | "FLUSHDB" =>
          let result := MemLaneClient.flush arena
          (replyOf (fun _ => Resp.ok) result.1, result.2)
      | "INFO" => (Resp.bulk (asBytes (infoText arena)), arena)
      | "COMMAND" => (.array [], arena)
      | unknown =>
          (.error ("ERR unknown command '" ++ (toLowercase tables unknown ++
            "', try PING, GET, SET, DEL, EXISTS, MGET, MSET, INCR, DECR, FLUSH, INFO")), arena)

end MemLane
