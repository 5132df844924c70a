import MemLane.Channels
import MemLane.ServerRuns

/-!
# The metrics pipeline

`start_all` of `server/ws_bridge.rs` runs the TCP server beside a bridge to dashboards.
Requests are reported to a bounded queue, and the report is dropped where the queue is
full; the aggregator's task takes the reports into its window and makes a snapshot of the
window once a second; a ring carries the snapshots to the dashboards, each with a task of
its own.  Every task may be arbitrarily far behind the others.  The runs here begin when both
listeners are bound; a bridge whose address is taken panics before that.

The queue, the ring and the JSON texts come from libraries: the channels are any that keep
their promises, the texts are any texts.
-/

namespace MemLane

open Channels

/-- The capacity of `metrics_channel`. -/
def metricsCapacity : Nat := 1000000

/-- The capacity of the broadcast channel in `run_ws_server`. -/
def broadcastCapacity : Nat := 64

/-- The JSON texts of the bridge: of a snapshot, if there is one, and of the greeting. -/
structure Json where
  snapshot : MetricsSnapshot → Option String
  welcome : String

/-! ## Dashboards -/

/-- What the bridge sends to a dashboard. -/
inductive WsMessage
  | text (json : String)
  | pong (data : Bytes)

/-- What a dashboard sends; its leaving counts as `close`. -/
inductive WsIncoming
  | close
  | ping (data : Bytes)
  | other

/-- Where the task of a dashboard stands, with its end of the ring. -/
inductive DashboardPhase (Reader : Type)
  | absent
  | connected (rx : Reader)
  | serving (rx : Reader)
  | closed

/-- A dashboard with its history: the length of the log when it subscribed, the texts that it
has got off the ring, how many it has missed, and what it was sent. -/
structure Dashboard (Reader : Type) where
  phase : DashboardPhase Reader
  first : Nat
  heard : List String
  lost : Nat
  sent : List WsMessage

/-- What happens at a dashboard.  `sent` says whether a send succeeds. -/
inductive DashboardEvent
  | connect
  | handshake (accepted sent : Bool)
  | forward (sent : Bool)
  | incoming (msg : WsIncoming) (sent : Bool)

namespace Dashboard

variable {ring : Ring String broadcastCapacity}

def new {Reader : Type} : Dashboard Reader :=
  { phase := .absent, first := 0, heard := [], lost := 0, sent := [] }

/-- A message off the ring is passed on; a lag is only noted. -/
def forward (s : ring.State) (dash : Dashboard ring.Reader) (rx : ring.Reader) (sent : Bool) :
    Dashboard ring.Reader :=
  let received := ring.recv s rx
  let dash :=
    { dash with
      heard := dash.heard ++ received.1.values
      lost := dash.lost + received.1.missed
      phase := .serving received.2 }
  match received.1 with
  | .value json =>
      if sent then { dash with sent := dash.sent ++ [.text json] }
      else { dash with phase := .closed }
  | .lagged _ | .waiting => dash

/-- `handle_ws_client`, one step of it. -/
def next (json : Json) (s : ring.State) (dash : Dashboard ring.Reader) (event : DashboardEvent) :
    Dashboard ring.Reader :=
  match event, dash.phase with
  | .connect, .absent =>
      { dash with phase := .connected (ring.subscribe s), first := (ring.log s).length }
  | .handshake accepted sent, .connected rx =>
      if accepted then
        { dash with
          phase := .serving rx
          sent := if sent then [.text json.welcome] else [] }
      else { dash with phase := .closed }
  | .forward sent, .serving rx => dash.forward s rx sent
  | .incoming .close _, .serving _ => { dash with phase := .closed }
  | .incoming (.ping data) sent, .serving _ =>
      if sent then { dash with sent := dash.sent ++ [.pong data] } else dash
  | _, _ => dash

end Dashboard

/-! ## The deployment -/

/-- The server with its metrics pipeline: what is queued and what has been refused, the
window of the aggregator and the snapshots made so far, and the dashboards. -/
structure Deployment (ι δ : Type) (queue : BoundedQueue MetricEvent metricsCapacity)
    (ring : Ring String broadcastCapacity) where
  server : Server Arena ι
  queued : queue.State
  refused : List MetricEvent
  aggregator : Aggregator
  snapshots : List MetricsSnapshot
  broadcast : ring.State
  dashboards : δ → Dashboard ring.Reader

/-- The turn of a task: which one moves next. -/
inductive Turn (ι δ : Type)
  | server (input : ι × ServerEvent)
  | receive
  | tick
  | dashboard (d : δ) (event : DashboardEvent)

/-- The step of the server, if it is the server's turn. -/
def Turn.input? {ι δ : Type} : Turn ι δ → Option (ι × ServerEvent)
  | .server input => some input
  | .receive | .tick | .dashboard _ _ => none

namespace Deployment

variable {ι δ : Type} [DecidableEq ι] [DecidableEq δ]
  {queue : BoundedQueue MetricEvent metricsCapacity} {ring : Ring String broadcastCapacity}

/-- `start_all` with its listeners bound, before anything connects. -/
def start (queue : BoundedQueue MetricEvent metricsCapacity)
    (ring : Ring String broadcastCapacity) (region : Arena) : Deployment ι δ queue ring where
  server := .fresh (createArena region)
  queued := queue.empty
  refused := []
  aggregator := .new
  snapshots := []
  broadcast := ring.empty
  dashboards := fun _ => .new

/-- `try_send` in `handle_client`: the report is dropped if the queue is full. -/
def report (deployment : Deployment ι δ queue ring) (event : MetricEvent) :
    Deployment ι δ queue ring :=
  let sent := queue.trySend deployment.queued event
  { deployment with
    queued := sent.2
    refused := if sent.1 then deployment.refused else deployment.refused ++ [event] }

/-- A step of a connection, which reports what it emits. -/
def serve (tables : CaseTables) (elemSize : Nat) (hashFn : Bytes → UInt64)
    (deployment : Deployment ι δ queue ring) (input : ι × ServerEvent) :
    Deployment ι δ queue ring :=
  let server := deployment.server.next tables elemSize (arenaStore hashFn) input
  let events := server.emitted.drop deployment.server.emitted.length
  { events.foldl report deployment with server := server }

/-- The aggregator's task takes a report from the queue, if there is one. -/
def receive (deployment : Deployment ι δ queue ring) : Deployment ι δ queue ring :=
  let received := queue.recv deployment.queued
  { deployment with
    queued := received.2
    aggregator :=
      match received.1 with
      | some event => deployment.aggregator.record event
      | none => deployment.aggregator }

/-- The aggregator's task makes a snapshot and sends it to the dashboards. -/
def tick (json : Json) (deployment : Deployment ι δ queue ring) : Deployment ι δ queue ring :=
  let result := deployment.aggregator.drain (usedCount deployment.server.store)
    (UInt64.ofNat slotCount)
  { deployment with
    aggregator := result.2
    snapshots := deployment.snapshots ++ [result.1]
    broadcast :=
      match json.snapshot result.1 with
      | some text => ring.send deployment.broadcast text
      | none => deployment.broadcast }

/-- One step of the deployment; a panic of the server ends all tasks. -/
def next (tables : CaseTables) (elemSize : Nat) (hashFn : Bytes → UInt64) (json : Json)
    (deployment : Deployment ι δ queue ring) : Turn ι δ → Deployment ι δ queue ring :=
  fun turn =>
    if deployment.server.aborted then deployment
    else
      match turn with
      | .server input => deployment.serve tables elemSize hashFn input
      | .receive => deployment.receive
      | .tick => deployment.tick json
      | .dashboard d event =>
          { deployment with
            dashboards := Function.update deployment.dashboards d
              ((deployment.dashboards d).next json deployment.broadcast event) }

/-- The deployment after a sequence of turns. -/
def after (tables : CaseTables) (elemSize : Nat) (hashFn : Bytes → UInt64) (json : Json)
    (queue : BoundedQueue MetricEvent metricsCapacity) (ring : Ring String broadcastCapacity)
    (region : Arena) (turns : List (Turn ι δ)) : Deployment ι δ queue ring :=
  Run.final (next tables elemSize hashFn json) (start queue ring region) turns

end Deployment

end MemLane
