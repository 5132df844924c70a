import MemLane.Dispatch

/-!
# The connection handler

`handle_client` of `server/mod.rs`: it appends what a read returns to its pending
bytes, answers every complete request in them, and keeps the rest for the next read.
Writes to the socket succeed.  The metric events of a request are not modelled.

Other connections share the arena; what they do to it before the `n`-th request of
this one is `others n`.
-/

namespace MemLane

/-- The size of the buffer that `socket.read` fills. -/
def readBufSize : Nat := 8192

/-- The text of a parse error, as `Display` writes it. -/
def RespError.display : RespError → String
  | .incomplete => "Incomplete data — need more bytes"
  | .protocol msg => "Protocol error: " ++ msg

/-- What a connection runs in: the environment of its requests. -/
structure Host where
  tables : CaseTables
  hashFn : Bytes → UInt64
  elemSize : Nat
  clock : Nat → Nat → Clock
  others : Nat → Arena → Arena

/-- What the handler does: dispatch a request, write to the socket, clear `pending`. -/
inductive Act
  | dispatched (val : RespValue)
  | wrote (bytes : Bytes)
  | cleared

def Act.request? : Act → Option RespValue
  | .dispatched val => some val
  | _ => none

def Act.output? : Act → Option Bytes
  | .wrote bytes => some bytes
  | _ => none

def Act.isClear : Act → Bool
  | .cleared => true
  | _ => false

inductive Status
  | reading
  | disconnected
  | panicked
  deriving DecidableEq

/-- The handler between two reads, with what it has done so far. -/
structure Connection where
  arena : Arena
  pending : Bytes
  acts : List Act
  status : Status

namespace Connection

/-- The requests dispatched, in order. -/
def requests (conn : Connection) : List RespValue := conn.acts.filterMap Act.request?

/-- The arguments of `write_all`, in order. -/
def written (conn : Connection) : List Bytes := conn.acts.filterMap Act.output?

/-- A new connection. -/
def accept (arena : Arena) : Connection :=
  { arena := arena, pending := [], acts := [], status := .reading }

variable (host : Host) (conn : Connection)

/-- Dispatch one request and write the reply. -/
def answer (val : RespValue) : Connection :=
  let n := conn.requests.length
  let result := dispatchCommand host.tables host.hashFn (host.others n conn.arena) val (host.clock n)
  { conn with
    arena := result.2
    acts := conn.acts ++ [.dispatched val, .wrote (encodeToVec result.1)] }

/-- Report a protocol error and drop the pending bytes. -/
def refuse (e : RespError) : Connection :=
  { conn with
    pending := []
    acts := conn.acts ++ [.wrote (encodeToVec (Resp.err e.display)), .cleared] }

def panic : Connection := { conn with status := .panicked }

/-- The inner loop, from an offset into `pending` and with the given number of iterations
left; `none` when they run out. -/
def parseLoop (conn : Connection) (offset : Nat) : Nat → Option (Connection × Nat)
  | 0 => none
  | left + 1 =>
      match sliceFrom conn.pending offset with
      | .error _ => some (conn.panic, offset)
      | .ok rest =>
          match parse host.elemSize rest with
          | .ok (some (val, consumed)) =>
              parseLoop (conn.answer host val) (usizeAdd offset consumed) left
          | .ok none => some (conn, offset)
          | .error (.err e) => some (conn.refuse e, 0)
          | .error .panic => some (conn.panic, offset)

/-- `pending.drain(..offset)`. -/
def drainPending (offset : Nat) : Connection :=
  if offset ≤ conn.pending.length then { conn with pending := conn.pending.drop offset }
  else conn.panic

/-- One iteration of the outer loop, for what `socket.read` has returned.  Every iteration
of the inner loop but the last consumes at least one byte. -/
def serveRead (read : Bytes) : Connection :=
  if conn.status ≠ .reading then conn
  else if read = [] then { conn with status := .disconnected }
  else if (conn.pending ++ read).length > isizeMax then conn.panic
  else
    let conn := { conn with pending := conn.pending ++ read }
    match parseLoop host conn 0 (conn.pending.length + 1) with
    | none => conn
    | some (conn, offset) => if conn.status = .panicked then conn else conn.drainPending offset

end Connection

/-- `handle_client`, after the given reads. -/
def handleClient (host : Host) (arena : Arena) (reads : List Bytes) : Connection :=
  Run.final (Connection.serveRead host) (.accept arena) reads

/-- The replies to a sequence of requests, the first of which is the `n`-th one of the
connection. -/
def replies (host : Host) (arena : Arena) (n : Nat) : List RespValue → List RespValue
  | [] => []
  | val :: vals =>
      let result := dispatchCommand host.tables host.hashFn (host.others n arena) val (host.clock n)
      result.1 :: replies host result.2 (n + 1) vals

end MemLane
