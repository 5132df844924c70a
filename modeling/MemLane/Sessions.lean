import MemLane.Metrics
import MemLane.Replies
import MemLane.StreamFraming

/-!
# The server with all its connections

`run_server` of `server/mod.rs` gives every connection a task of its own, which runs
`handle_client` on the one shared client and reports to the one metrics channel.  A
step of the server is one step of one task: it awaits a read, looks for a request in what
has been read, makes one operation of the request on the shared table, or reports the
request and writes its reply.

The tasks run on several threads.  What they share is the table, and its operations are
taken to happen one at a time here, each as a whole, in any order; operations that overlap
in time are the subject of `SlotAccess` and what follows from it.  The table is any store
that answers the operations, so that the server over the arena can be compared with the
server over a map.

A panic ends the process (`panic = "abort"` in the release profile), and so do a listener
that fails and an allocation or a recursion for which there is no room.  Whether there is
room is up to the run: a step finds it, or `exhausted` comes in its place.
-/

namespace MemLane

/-- Where the task of a connection stands.  Offsets are positions in its pending bytes. -/
inductive SessionPhase
  | unaccepted
  | reading
  | parsing (offset : Nat)
  | running (offset : Nat) (val : RespValue) (script : ClientScript RespValue)
  | returned

/-- A connection with its history: `received` is what has been read since the pending bytes
were last cleared, and `asked` the operations made for its requests, with their answers. -/
structure Session where
  phase : SessionPhase
  pending : Bytes
  received : Bytes
  asked : List Operation
  acts : List Act

/-- What happens at a connection next.  `sent` says whether a write succeeds. -/
inductive ServerEvent
  | accept
  | acceptFailed
  | exhausted
  | read (bytes : Bytes)
  | readFailed
  | parse (sent : Bool)
  | operate (clock : Clock)
  | reply (elapsedUs : UInt64) (sent : Bool)

/-- What a step of a connection does to the server. -/
inductive SessionMove
  | stay
  | become (session : Session)
  | query (q : Query) (clock : Clock) (next : q.Result → Session)
  | emit (event : MetricEvent) (session : Session)
  | abort

/-- `command_name`: what a request counts as in the metrics. -/
def commandName (tables : CaseTables) : RespValue → String
  | .array (.bulkString b :: _) => toUppercase tables (fromUtf8Lossy b)
  | _ => "UNKNOWN"

namespace Session

def new : Session :=
  { phase := .unaccepted, pending := [], received := [], asked := [], acts := [] }

variable (tables : CaseTables) (elemSize : Nat) (session : Session)

/-- `socket.read` has returned; nothing is left to read when it is empty. -/
def readMove (bytes : Bytes) : SessionMove :=
  if bytes = [] then .become { session with phase := .returned }
  else if (session.pending ++ bytes).length > isizeMax then .abort
  else
    .become { session with
      phase := .parsing 0
      pending := session.pending ++ bytes
      received := session.received ++ bytes }

/-- The head of the inner loop: dispatch the next request, report an error, or keep the rest
for the next read.  There is room for what the parser builds; see `exhausted`. -/
def parseMove (offset : Nat) (sent : Bool) : SessionMove :=
  match sliceFrom session.pending offset with
  | .error _ => .abort
  | .ok rest =>
      match parse elemSize rest with
      | .ok (some (val, consumed)) =>
          .become { session with
            phase := .running (usizeAdd offset consumed) val (requestScript tables val)
            acts := session.acts ++ [.dispatched val] }
      | .ok none => .become { session with phase := .reading, pending := rest }
      | .error (.err e) =>
          if sent then
            .become
              { session with
                phase := .reading
                pending := []
                received := []
                acts := session.acts ++ [.wrote (encodeToVec (Resp.err e.display)), .cleared] }
          else .become { session with phase := .returned }
      | .error .panic => .abort

/-- The reply is ready: report the request, and write it. -/
def replyMove (offset : Nat) (val reply : RespValue) (elapsedUs : UInt64) (sent : Bool) :
    SessionMove :=
  .emit { op := commandName tables val, latencyUs := elapsedUs }
    (if sent then
      { session with
        phase := .parsing offset
        acts := session.acts ++ [.wrote (encodeToVec reply)] }
    else { session with phase := .returned })

/-- One step of a connection; an event that its phase does not wait for changes nothing. -/
def move (event : ServerEvent) : SessionMove :=
  match event, session.phase with
  | .exhausted, _ => .abort
  | .accept, .unaccepted => .become { session with phase := .reading }
  | .acceptFailed, .unaccepted => .abort
  | .read bytes, .reading => session.readMove bytes
  | .readFailed, .reading => .become { session with phase := .returned }
  | .parse sent, .parsing offset => session.parseMove tables elemSize offset sent
  | .operate clock, .running offset val (.ask q next) =>
      .query q clock fun answer => { session with
        phase := .running offset val (next answer)
        asked := session.asked ++ [⟨q, answer⟩] }
  | .reply elapsedUs sent, .running offset val (.done reply) =>
      session.replyMove tables offset val reply elapsedUs sent
  | _, _ => .stay

/-- The requests dispatched since the last error, and the writes. -/
def current : List Act := session.acts.rtakeWhile fun act => !act.isClear

def requests : List RespValue := session.acts.filterMap Act.request?

def written : List Bytes := session.acts.filterMap Act.output?

end Session

/-- The server: the table, a session for every connection, the events sent to the metrics
channel, and whether the process has ended. -/
structure Server (σ ι : Type) where
  store : σ
  sessions : ι → Session
  emitted : List MetricEvent
  aborted : Bool

namespace Server

variable {σ ι : Type} [DecidableEq ι]

/-- A server that has accepted no connection. -/
def fresh (store : σ) : Server σ ι :=
  { store := store, sessions := fun _ => .new, emitted := [], aborted := false }

def setSession (server : Server σ ι) (i : ι) (session : Session) : Server σ ι :=
  { server with sessions := Function.update server.sessions i session }

/-- Carry out the step of connection `i`.  An operation on the table is one step: no other one
overlaps it. -/
def apply (store : ClientStore σ) (server : Server σ ι) (i : ι) : SessionMove → Server σ ι
  | .stay => server
  | .become session => server.setSession i session
  | .query q clock next =>
      let answer := store server.store q clock
      { server.setSession i (next answer.1) with store := answer.2 }
  | .emit event session =>
      { server.setSession i session with emitted := server.emitted ++ [event] }
  | .abort => { server with aborted := true }

/-- One step of the server: the connection that moves, and its event. -/
def next (tables : CaseTables) (elemSize : Nat) (store : ClientStore σ) (server : Server σ ι)
    (input : ι × ServerEvent) : Server σ ι :=
  if server.aborted then server
  else server.apply store input.1 ((server.sessions input.1).move tables elemSize input.2)

/-- The server after a sequence of steps. -/
def after (tables : CaseTables) (elemSize : Nat) (store : ClientStore σ) (s : σ)
    (inputs : List (ι × ServerEvent)) : Server σ ι :=
  Run.final (next tables elemSize store) (fresh s) inputs

end Server

end MemLane
