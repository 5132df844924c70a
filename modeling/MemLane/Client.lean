import MemLane.HashMap
import MemLane.Run
import MemLane.Text

/-!
# The client

`MemLaneClient` (`client.rs`): length checks around the map operations, and the
operations built from several of them.  A sequential history of one arena is a
run of `Call.exec`, one client call with its clock readings at a time.
-/

namespace MemLane

inductive MemLaneError
  | arenaInit (msg : String)
  | arenaFull (slots : Nat)
  | keyTooLong (len : Nat)
  | valueTooLong (len : Nat)
  deriving DecidableEq

variable (hashFn : Bytes → UInt64)

namespace MemLaneClient

def get (arena : Arena) (key : Bytes) (clock : Clock) :
    Except MemLaneError (Option Bytes) × Arena :=
  if key.length > maxKeyLen then (.error (.keyTooLong key.length), arena)
  else
    let result := MemLane.get hashFn arena key clock
    (match result.1 with
      | .found value => .ok (some value)
      | .notFound | .expired => .ok none,
     result.2)

/-- `Ok(true)` if inserted, `Ok(false)` if updated in place. -/
def set (arena : Arena) (key value : Bytes) (ttlSecs : UInt64) (clock : Clock) :
    Except MemLaneError Bool × Arena :=
  if key.length > maxKeyLen then (.error (.keyTooLong key.length), arena)
  else if value.length > maxValLen then (.error (.valueTooLong value.length), arena)
  else
    let result := MemLane.set hashFn arena key value ttlSecs clock
    (match result.1 with
      | .inserted => .ok true
      | .updated => .ok false
      | .full => .error (.arenaFull slotCount),
     result.2)

def del (arena : Arena) (key : Bytes) : Except MemLaneError Bool × Arena :=
  if key.length > maxKeyLen then (.error (.keyTooLong key.length), arena)
  else
    let result := MemLane.del hashFn arena key
    (match result.1 with
      | .deleted => .ok true
      | .notFound => .ok false,
     result.2)

/-- `exists`. -/
def existsKey (arena : Arena) (key : Bytes) (clock : Clock) :
    Except MemLaneError Bool × Arena :=
  if key.length > maxKeyLen then (.error (.keyTooLong key.length), arena)
  else
    let result := MemLane.existsKey hashFn arena key clock
    (.ok result.1, result.2)

def flush (arena : Arena) : Except MemLaneError Unit × Arena :=
  (.ok (), flushAll arena)

/-! ## Operations built from several

Each map operation of such a call has a clock of its own. -/

/-- The keys are read in order; the first error ends the call. -/
def mget (arena : Arena) (keys : List Bytes) (clock : Nat → Clock) :
    Except MemLaneError (List (Option Bytes)) × Arena :=
  match keys with
  | [] => (.ok [], arena)
  | key :: rest =>
      let result := get hashFn arena key (clock 0)
      match result.1 with
      | .error e => (.error e, result.2)
      | .ok value =>
          let results := mget result.2 rest fun i => clock (i + 1)
          (match results.1 with
            | .error e => .error e
            | .ok values => .ok (value :: values),
           results.2)

/-- The loop of `mset`, with `count` pairs already set. -/
def msetLoop (ttlSecs : UInt64) (arena : Arena) (count : Nat) (pairs : List (Bytes × Bytes))
    (clock : Nat → Clock) : Except MemLaneError Nat × Arena :=
  match pairs with
  | [] => (.ok count, arena)
  | (key, value) :: rest =>
      let result := set hashFn arena key value ttlSecs (clock 0)
      match result.1 with
      | .error e => (.error e, result.2)
      | .ok _ => msetLoop ttlSecs result.2 (count + 1) rest fun i => clock (i + 1)

def mset (arena : Arena) (pairs : List (Bytes × Bytes)) (ttlSecs : UInt64)
    (clock : Nat → Clock) : Except MemLaneError Nat × Arena :=
  msetLoop hashFn ttlSecs arena 0 pairs clock

/-- `current` of `incr` and `decr`: the stored bytes as a number, and 0 where they
are none. -/
def counterValue (stored : Option Bytes) : UInt64 :=
  match stored with
  | some bytes => (parseU64 ((fromUtf8 bytes).getD "0")).getD 0
  | none => 0

/-- The second half of `incr` and `decr`: store the new value, without expiry. -/
def storeCounter (arena : Arena) (key : Bytes) (next : UInt64) (clock : Clock) :
    Except MemLaneError UInt64 × Arena :=
  let result := set hashFn arena key (Decimal.numeral next.toNat) 0 clock
  (match result.1 with
    | .error e => .error e
    | .ok _ => .ok next,
   result.2)

/-- `incr`; the addition wraps. -/
def incr (arena : Arena) (key : Bytes) (clock : Nat → Clock) :
    Except MemLaneError UInt64 × Arena :=
  let result := get hashFn arena key (clock 0)
  match result.1 with
  | .error e => (.error e, result.2)
  | .ok stored => storeCounter hashFn result.2 key (counterValue stored + 1) (clock 1)

/-- `decr`; the subtraction saturates at 0. -/
def decr (arena : Arena) (key : Bytes) (clock : Nat → Clock) :
    Except MemLaneError UInt64 × Arena :=
  let result := get hashFn arena key (clock 0)
  match result.1 with
  | .error e => (.error e, result.2)
  | .ok stored =>
      let current := counterValue stored
      storeCounter hashFn result.2 key (if current = 0 then 0 else current - 1) (clock 1)

end MemLaneClient

/-- A client operation with its arguments. -/
inductive Op
  | get (key : Bytes)
  | set (key value : Bytes) (ttlSecs : UInt64)
  | del (key : Bytes)
  | existsKey (key : Bytes)
  | flush

/-- What a client operation returns. -/
inductive Reply
  | get (result : Except MemLaneError (Option Bytes))
  | set (result : Except MemLaneError Bool)
  | del (result : Except MemLaneError Bool)
  | existsKey (result : Except MemLaneError Bool)
  | flush (result : Except MemLaneError Unit)
  deriving DecidableEq

/-- One client call: the operation, and the clock readings it makes. -/
structure Call where
  op : Op
  clock : Clock

/-- Execute one call. -/
def Call.exec (arena : Arena) (call : Call) : Reply × Arena :=
  match call.op with
  | .get key =>
      let result := MemLaneClient.get hashFn arena key call.clock
      (.get result.1, result.2)
  | .set key value ttlSecs =>
      let result := MemLaneClient.set hashFn arena key value ttlSecs call.clock
      (.set result.1, result.2)
  | .del key =>
      let result := MemLaneClient.del hashFn arena key
      (.del result.1, result.2)
  | .existsKey key =>
      let result := MemLaneClient.existsKey hashFn arena key call.clock
      (.existsKey result.1, result.2)
  | .flush =>
      let result := MemLaneClient.flush arena
      (.flush result.1, result.2)

/-- The arena after a sequence of calls on a freshly created arena. -/
def arenaAfter (region : Arena) (calls : List Call) : Arena :=
  Run.after (Call.exec hashFn) (createArena region) calls

end MemLane
