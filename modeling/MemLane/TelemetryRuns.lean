import MemLane.Telemetry

/-!
# What the metrics pipeline accounts for

Every request that has been carried out is reported once.  A report is in one place at a
time: it has been refused because the queue was full, it is in the queue, in the window of
the aggregator, or in exactly one snapshot.  And a dashboard gets the snapshots in order,
none twice, and is told how many it has missed.
-/

namespace MemLane

open Channels

variable {tables : CaseTables} {elemSize : Nat}

/-! ## Reports of a connection -/

/-- What a step reports. -/
def SessionMove.events : SessionMove → List MetricEvent
  | .emit event _ => [event]
  | .stay | .become _ | .query _ _ _ | .abort => []

namespace Session

/-- The names of the requests that have been carried out: all that were dispatched, but for the
one that is running. -/
def completed (tables : CaseTables) (session : Session) : List String :=
  match session.phase with
  | .running _ _ _ => (session.requests.map (commandName tables)).dropLast
  | _ => session.requests.map (commandName tables)

/-- The request that is running was dispatched last. -/
def RunsLast (session : Session) : Prop :=
  match session.phase with
  | .running _ val _ => session.requests.getLast? = some val
  | _ => True

variable {session : Session}

theorem requests_concat (act : Act) (phase : SessionPhase) (pending received : Bytes)
    (asked : List Operation) (acts : List Act) :
    ({ phase := phase, pending := pending, received := received, asked := asked,
       acts := acts ++ [act] } : Session).requests =
        acts.filterMap Act.request? ++ act.request?.toList := by
  rw [requests, List.filterMap_append]
  cases act <;> rfl

theorem RunsLast.move (h : session.RunsLast) (event : ServerEvent) :
    (session.move tables elemSize event).Leads RunsLast := by
  unfold Session.move
  split
  · trivial
  · trivial
  · trivial
  · unfold readMove
    split
    · trivial
    · split <;> trivial
  · trivial
  · unfold parseMove
    split
    · trivial
    · split
      · next val consumed _ =>
          have hrequests := requests_concat (.dispatched val) session.phase session.pending
            session.received session.asked session.acts
          exact (congrArg List.getLast? hrequests).trans List.getLast?_concat
      · trivial
      · split <;> trivial
      · trivial
  · next hphase =>
      intro answer
      rw [RunsLast, hphase] at h
      exact h
  · unfold replyMove
    split <;> trivial
  · trivial

/-- The names of the requests carried out grow by what is reported. -/
theorem RunsLast.completed_move (h : session.RunsLast) (tables : CaseTables) (elemSize : Nat)
    (event : ServerEvent) :
    (session.move tables elemSize event).Leads fun session' =>
      session'.completed tables = session.completed tables ++
        (session.move tables elemSize event).events.map MetricEvent.op := by
  unfold Session.move
  split
  · trivial
  · next hphase => simp [SessionMove.Leads, completed, hphase, SessionMove.events, requests]
  · trivial
  · next hphase =>
      unfold readMove
      split
      · simp [SessionMove.Leads, completed, hphase, SessionMove.events, requests]
      · split <;> simp [SessionMove.Leads, completed, hphase, SessionMove.events, requests]
  · next hphase => simp [SessionMove.Leads, completed, hphase, SessionMove.events, requests]
  · next hphase =>
      unfold parseMove
      split
      · trivial
      · split
        · simp [SessionMove.Leads, completed, hphase, SessionMove.events, requests, Act.request?]
        · simp [SessionMove.Leads, completed, hphase, SessionMove.events, requests]
        · split <;>
            simp [SessionMove.Leads, completed, hphase, SessionMove.events, requests, Act.request?]
        · trivial
  · next hphase => simp [SessionMove.Leads, completed, hphase, SessionMove.events, requests]
  · next val reply hphase =>
      rw [RunsLast, hphase] at h
      have hnames : session.completed tables ++ [commandName tables val] =
          session.requests.map (commandName tables) := by
        rw [completed, hphase, ← List.map_dropLast, ← List.map_singleton, ← List.map_append,
          List.dropLast_append_getLast? val h]
      unfold replyMove
      split
      · simp only [SessionMove.Leads, SessionMove.events, List.map_singleton, hnames]
        simp [completed, requests, Act.request?]
      · exact hnames.symm
  · trivial

end Session

namespace Server

variable {σ ι : Type} [DecidableEq ι] {store : ClientStore σ} {server : Server σ ι}
  {input : ι × ServerEvent}

theorem apply_emitted (i : ι) (move : SessionMove) :
    (server.apply store i move).emitted = server.emitted ++ move.events := by
  cases move with
  | emit event session => rfl
  | stay | become | query | abort => exact (List.append_nil _).symm

/-- A step reports what the connection that moves has carried out. -/
theorem next_completed (hlast : (server.sessions input.1).RunsLast) :
    ∃ events, (server.next tables elemSize store input).emitted = server.emitted ++ events ∧
      ∀ i, ((server.next tables elemSize store input).sessions i).completed tables =
        (server.sessions i).completed tables ++
          if i = input.1 then events.map MetricEvent.op else [] := by
  cases haborted : server.aborted with
  | true =>
      rw [next_aborted haborted]
      refine ⟨[], (List.append_nil _).symm, fun i => ?_⟩
      rw [List.map_nil, ite_self, List.append_nil]
  | false =>
      rw [next_of_running haborted]
      refine ⟨_, apply_emitted _ _, fun i => ?_⟩
      by_cases hi : i = input.1
      · rw [if_pos hi, hi]
        have hmove := hlast.completed_move tables elemSize input.2
        refine @apply_session _ _ _ store server input.1
          (fun session' => session'.completed tables =
            (server.sessions input.1).completed tables ++ _) _ hmove ?_
        intro hquiet
        rcases hquiet with hstay | habort
        · rw [hstay]
          exact (List.append_nil _).symm
        · rw [habort]
          exact (List.append_nil _).symm
      · rw [if_neg hi, List.append_nil, apply_sessions_of_ne hi]

theorem runsLast_after (tables : CaseTables) (elemSize : Nat) (store : ClientStore σ) (s : σ)
    (inputs : List (ι × ServerEvent)) (i : ι) :
    ((after tables elemSize store s inputs).sessions i).RunsLast :=
  sessions_invariant Session.RunsLast trivial (fun _ event h => h.move event) store s inputs i

/-- Any connections that have moved account for all reports. -/
theorem reports_eq_sum (store : ClientStore σ) (s : σ) {inputs : List (ι × ServerEvent)}
    {moved : Finset ι} (hmoved : ∀ input ∈ inputs, input.1 ∈ moved) (op : String) :
    countOp (after tables elemSize store s inputs).emitted op =
      ∑ i ∈ moved, (((after tables elemSize store s inputs).sessions i).completed tables).count
        op := by
  induction inputs using List.reverseRecOn with
  | nil => exact (Finset.sum_eq_zero fun _ _ => rfl).symm
  | append_singleton inputs input ih =>
      obtain ⟨events, hemitted, hcompleted⟩ := @next_completed tables elemSize _ _ _ store
        (after tables elemSize store s inputs) input (runsLast_after _ _ _ _ _ _)
      have hbefore := ih fun input hinput => hmoved input (List.mem_append_left _ hinput)
      have hself := hmoved input (List.mem_append_right _ (List.mem_singleton_self _))
      rw [after_concat, countOp, hemitted, List.map_append, List.count_append, ← countOp, hbefore]
      simp only [hcompleted, List.count_append, Finset.sum_add_distrib]
      congr 1
      rw [Finset.sum_eq_single_of_mem input.1 hself, if_pos rfl]
      intro i _ hne
      rw [if_neg hne]
      rfl

end Server

/-- **Every request that is carried out is reported once.**  In every run of the server,
whatever the table answers: for each name, the reports with this name are as many as the
requests with this name that the connections have carried out. -/
theorem requests_reported {σ ι : Type} [DecidableEq ι] (tables : CaseTables) (elemSize : Nat)
    (store : ClientStore σ) (s : σ) (inputs : List (ι × ServerEvent)) (op : String) :
    countOp (Server.after tables elemSize store s inputs).emitted op =
      ∑ i ∈ (inputs.map Prod.fst).toFinset,
        (((Server.after tables elemSize store s inputs).sessions i).completed tables).count op := by
  apply Server.reports_eq_sum
  intro input hinput
  exact List.mem_toFinset.mpr (List.mem_map_of_mem hinput)

/-! ## Reports in the pipeline -/

namespace Deployment

variable {ι δ : Type} {queue : BoundedQueue MetricEvent metricsCapacity}
  {ring : Ring String broadcastCapacity} {deployment : Deployment ι δ queue ring}
  {windows : List (List MetricEvent)} {current received offered : List MetricEvent}

/-- The reports have been handed out: those that were received are in the closed windows, one
for each snapshot, and in the current one. -/
structure Accounted (deployment : Deployment ι δ queue ring) (windows : List (List MetricEvent))
    (current : List MetricEvent) : Prop where
  flow : queue.Flow deployment.queued deployment.server.emitted deployment.refused
    (windows.flatten ++ current)
  closed : List.Forall₂ (fun snapshot window => window.length * 8 ≤ isizeMax →
    Summarises snapshot window) deployment.snapshots windows
  current : Accumulates deployment.aggregator current

/-- Reports change nothing but the queue and what it has refused. -/
theorem foldl_report (events : List MetricEvent) (deployment : Deployment ι δ queue ring) :
    events.foldl report deployment = { deployment with
      queued := (events.foldl report deployment).queued
      refused := (events.foldl report deployment).refused } := by
  induction events generalizing deployment with
  | nil => rfl
  | cons event events ih => exact ih (deployment.report event)

theorem foldl_report_flow (events : List MetricEvent)
    (h : queue.Flow deployment.queued offered deployment.refused received) :
    queue.Flow (events.foldl report deployment).queued (offered ++ events)
      (events.foldl report deployment).refused received := by
  induction events generalizing deployment offered with
  | nil =>
      rw [List.append_nil]
      exact h
  | cons event events ih =>
      have hnext := @ih (deployment.report event) _ (h.trySend event)
      rw [List.append_assoc] at hnext
      exact hnext

theorem Accounted.receive (h : deployment.Accounted windows current) :
    ∃ current, deployment.receive.Accounted windows current := by
  have hflow := h.flow.recv
  refine ⟨current ++ (queue.recv deployment.queued).1.toList, ?_, h.closed, ?_⟩
  · rw [← List.append_assoc]
    exact hflow
  · simp only [Deployment.receive]
    cases (queue.recv deployment.queued).1 with
    | none =>
        rw [Option.toList_none, List.append_nil]
        exact h.current
    | some event => exact h.current.record event

theorem Accounted.tick (h : deployment.Accounted windows current) (json : Json) :
    (deployment.tick json).Accounted (windows ++ [current]) [] := by
  refine ⟨?_, ?_, .new⟩
  · rw [List.flatten_append, List.flatten_singleton, List.append_nil]
    exact h.flow
  · apply List.rel_append h.closed
    exact .cons (fun hfits => h.current.summarises hfits _ _) .nil

variable [DecidableEq ι]

/-- A step of the server reports what it emits. -/
theorem serve_eq (tables : CaseTables) (elemSize : Nat) (hashFn : Bytes → UInt64)
    (deployment : Deployment ι δ queue ring) (input : ι × ServerEvent) :
    ∃ events, (deployment.server.next tables elemSize (arenaStore hashFn) input).emitted =
        deployment.server.emitted ++ events ∧
      deployment.serve tables elemSize hashFn input = { events.foldl report deployment with
        server := deployment.server.next tables elemSize (arenaStore hashFn) input } := by
  obtain ⟨events, hemitted⟩ : ∃ events, (deployment.server.next tables elemSize
      (arenaStore hashFn) input).emitted = deployment.server.emitted ++ events := by
    cases haborted : deployment.server.aborted with
    | true =>
        rw [Server.next_aborted haborted]
        exact ⟨[], (List.append_nil _).symm⟩
    | false =>
        rw [Server.next_of_running haborted]
        exact ⟨_, Server.apply_emitted _ _⟩
  refine ⟨events, hemitted, ?_⟩
  rw [serve, hemitted, List.drop_left]

theorem Accounted.serve (h : deployment.Accounted windows current) (tables : CaseTables)
    (elemSize : Nat) (hashFn : Bytes → UInt64) (input : ι × ServerEvent) :
    (deployment.serve tables elemSize hashFn input).Accounted windows current := by
  obtain ⟨events, hemitted, hserve⟩ := serve_eq tables elemSize hashFn deployment input
  have hflow := foldl_report_flow events h.flow
  rw [← hemitted] at hflow
  rw [hserve]
  refine ⟨hflow, ?_, ?_⟩
  all_goals rw [foldl_report]
  · exact h.closed
  · exact h.current

variable [DecidableEq δ]

theorem Accounted.next (h : deployment.Accounted windows current) (tables : CaseTables)
    (elemSize : Nat) (hashFn : Bytes → UInt64) (json : Json) (turn : Turn ι δ) :
    ∃ windows current,
      (deployment.next tables elemSize hashFn json turn).Accounted windows current := by
  unfold Deployment.next
  split
  · exact ⟨windows, current, h⟩
  · cases turn with
    | server input => exact ⟨windows, current, h.serve tables elemSize hashFn input⟩
    | receive => exact ⟨windows, h.receive⟩
    | tick => exact ⟨_, _, h.tick json⟩
    | dashboard d event => exact ⟨windows, current, h.flow, h.closed, h.current⟩

theorem after_concat (hashFn : Bytes → UInt64) (json : Json) (region : Arena)
    (turns : List (Turn ι δ)) (turn : Turn ι δ) :
    after tables elemSize hashFn json queue ring region (turns ++ [turn]) =
      (after tables elemSize hashFn json queue ring region turns).next tables elemSize hashFn json
        turn :=
  Run.final_append _ _ _ _

/-- The pipeline does nothing to the server. -/
theorem next_server (hashFn : Bytes → UInt64) (json : Json)
    (deployment : Deployment ι δ queue ring) (turn : Turn ι δ) :
    (deployment.next tables elemSize hashFn json turn).server =
      Run.final (Server.next tables elemSize (arenaStore hashFn)) deployment.server
        turn.input?.toList := by
  unfold next
  split
  · next haborted =>
      cases turn with
      | server input => exact (Server.next_aborted haborted).symm
      | receive | tick | dashboard => rfl
  · cases turn with
    | server input | receive | tick | dashboard => rfl

end Deployment

/-- **No report is lost silently, none is counted twice, and the server does not notice.**  In
every run of the deployment: the server is where its own steps alone would have taken it,
and what it has reported has been refused at a full queue, or is, in the order of the reports,
in the windows behind the snapshots, in the current window or in the queue. -/
theorem reports_accounted {ι δ : Type} [DecidableEq ι] [DecidableEq δ] (tables : CaseTables)
    (elemSize : Nat) (hashFn : Bytes → UInt64) (json : Json)
    (queue : BoundedQueue MetricEvent metricsCapacity) (ring : Ring String broadcastCapacity)
    (region : Arena) (turns : List (Turn ι δ)) :
    (Deployment.after tables elemSize hashFn json queue ring region turns).server =
        Server.after tables elemSize (arenaStore hashFn) (createArena region)
          (turns.filterMap Turn.input?) ∧
      ∃ windows current, (Deployment.after tables elemSize hashFn json queue ring region
        turns).Accounted windows current := by
  induction turns using List.reverseRecOn with
  | nil => exact ⟨rfl, [], [], .empty, .nil, .new⟩
  | append_singleton turns turn ih =>
      obtain ⟨hserver, windows, current, haccounted⟩ := ih
      rw [Deployment.after_concat]
      refine ⟨?_, haccounted.next tables elemSize hashFn json turn⟩
      rw [Deployment.next_server, hserver, List.filterMap_append, Server.after, Server.after,
        Run.final_append]
      congr 1

/-! ## Dashboards -/

def WsMessage.text? : WsMessage → Option String
  | .text json => some json
  | .pong _ => none

namespace Dashboard

variable {ring : Ring String broadcastCapacity} {s : ring.State} {dash : Dashboard ring.Reader}
  {json : Json}

/-- The texts that a dashboard was sent. -/
def texts (dash : Dashboard ring.Reader) : List String := dash.sent.filterMap WsMessage.text?

/-- What a dashboard has got off the ring at a position, after at most a greeting, and how much
of it has been sent on. -/
structure Follows (json : Json) (log : List String) (dash : Dashboard ring.Reader)
    (position : Nat) (greeting : List String) : Prop where
  greets : greeting.Sublist [json.welcome]
  heard : Heard log dash.first position dash.heard dash.lost
  sent : dash.texts <+: greeting ++ dash.heard

/-- The task of a dashboard has sent on all that it has got, as long as it serves. -/
def Serves (json : Json) (s : ring.State) (dash : Dashboard ring.Reader) : Prop :=
  match dash.phase with
  | .absent => dash = .new
  | .connected rx => dash.Follows json (ring.log s) (ring.position rx) [] ∧ dash.heard = []
  | .serving rx => ∃ greeting, dash.Follows json (ring.log s) (ring.position rx) greeting ∧
      dash.texts = greeting ++ dash.heard
  | .closed => ∃ position greeting, dash.Follows json (ring.log s) position greeting

theorem Serves.follows (h : dash.Serves json s) :
    ∃ position greeting, dash.Follows json (ring.log s) position greeting ∧
      (∀ rx, dash.phase = .connected rx ∨ dash.phase = .serving rx →
        position = ring.position rx) ∧
      ∀ rx, dash.phase = .serving rx → dash.texts = greeting ++ dash.heard := by
  unfold Serves at h
  split at h
  · rw [h]
    refine ⟨0, [], ⟨List.nil_sublist _, ⟨Nat.zero_le _, List.nil_sublist _, rfl⟩,
      List.nil_prefix⟩, ?_, nofun⟩
    rintro rx (hconnected | hserving)
    · cases hconnected
    · cases hserving
  · next rx hphase =>
      simp only [hphase]
      refine ⟨_, _, h.1, ?_, nofun⟩
      rintro _ (hconnected | hserving)
      · cases hconnected
        rfl
      · cases hserving
  · next rx hphase =>
      simp only [hphase]
      obtain ⟨greeting, hfollows, htexts⟩ := h
      refine ⟨_, greeting, hfollows, ?_, fun _ _ => htexts⟩
      rintro _ (hconnected | hserving)
      · cases hconnected
      · cases hserving
        rfl
  · next hphase =>
      simp only [hphase]
      obtain ⟨position, greeting, hfollows⟩ := h
      refine ⟨position, greeting, hfollows, ?_, nofun⟩
      rintro _ (hconnected | hserving)
      · cases hconnected
      · cases hserving

/-- A dashboard whose task ends keeps its history. -/
theorem Serves.closed (h : dash.Serves json s) :
    Serves json s { dash with phase := .closed } := by
  obtain ⟨position, greeting, hfollows, _, _⟩ := h.follows
  exact ⟨position, greeting, hfollows.greets, hfollows.heard, hfollows.sent⟩

/-- What is sent to the ring does not disturb the dashboards. -/
theorem Serves.send (h : dash.Serves json s) (text : String) :
    dash.Serves json (ring.send s text) := by
  have hkeep : ∀ {position greeting}, dash.Follows json (ring.log s) position greeting →
      dash.Follows json (ring.log (ring.send s text)) position greeting := by
    intro position greeting hfollows
    rw [ring.log_send]
    exact ⟨hfollows.greets, hfollows.heard.append [text], hfollows.sent⟩
  unfold Serves at h ⊢
  split
  · next hphase => simpa only [hphase] using h
  · next hphase =>
      simp only [hphase] at h
      exact ⟨hkeep h.1, h.2⟩
  · next hphase =>
      simp only [hphase] at h
      obtain ⟨greeting, hfollows, htexts⟩ := h
      exact ⟨greeting, hkeep hfollows, htexts⟩
  · next hphase =>
      simp only [hphase] at h
      obtain ⟨position, greeting, hfollows⟩ := h
      exact ⟨position, greeting, hkeep hfollows⟩

theorem Serves.forward {rx : ring.Reader} (h : dash.Serves json s)
    (hphase : dash.phase = .serving rx) (sent : Bool) :
    (dash.forward s rx sent).Serves json s := by
  rw [Serves, hphase] at h
  obtain ⟨greeting, hfollows, htexts⟩ := h
  have hheard := (Ring.heard_recv hfollows.heard).1
  simp only [Dashboard.forward]
  generalize (ring.recv s rx).1 = received at hheard
  cases received with
  | value text =>
      have hnext : dash.texts ++ [text] = greeting ++ (dash.heard ++ [text]) := by
        rw [htexts, List.append_assoc]
      cases sent with
      | true =>
          have hsent : (dash.sent ++ [WsMessage.text text]).filterMap WsMessage.text? =
              greeting ++ (dash.heard ++ [text]) := List.filterMap_append.trans hnext
          have hprefix : (dash.sent ++ [WsMessage.text text]).filterMap WsMessage.text? <+:
              greeting ++ (dash.heard ++ [text]) := by rw [hsent]
          exact ⟨greeting, ⟨hfollows.greets, hheard, hprefix⟩, hsent⟩
      | false =>
          have hprefix : dash.texts <+: greeting ++ (dash.heard ++ [text]) := ⟨[text], hnext⟩
          exact ⟨_, greeting, hfollows.greets, hheard, hprefix⟩
  | lagged n | waiting =>
      rw [Received.values, List.append_nil] at hheard
      refine ⟨greeting, ⟨hfollows.greets, ?_, ?_⟩, ?_⟩
      · rw [Received.values, List.append_nil]
        exact hheard
      · rw [Received.values, List.append_nil]
        exact hfollows.sent
      · rw [Received.values, List.append_nil]
        exact htexts

theorem Serves.next (h : dash.Serves json s) (event : DashboardEvent) :
    (dash.next json s event).Serves json s := by
  unfold Dashboard.next
  split
  · next hphase =>
      rw [Serves, hphase] at h
      rw [h]
      refine ⟨⟨List.nil_sublist _, ?_, List.nil_prefix⟩, rfl⟩
      simp only [ring.position_subscribe]
      exact .new _
  · next accepted sent rx hphase =>
      have hclosed := h.closed
      rw [Serves, hphase] at h
      obtain ⟨hfollows, hheard⟩ := h
      cases accepted with
      | false => exact hclosed
      | true =>
          cases sent with
          | true =>
              refine ⟨[json.welcome], ⟨List.Sublist.refl _, hfollows.heard, ?_⟩, ?_⟩
              · exact List.prefix_append _ _
              · simp only [hheard]
                rfl
          | false =>
              refine ⟨[], ⟨List.nil_sublist _, hfollows.heard, List.nil_prefix⟩, ?_⟩
              simp only [hheard]
              rfl
  · next hphase => exact h.forward hphase _
  · exact h.closed
  · next hphase =>
      split
      · rw [Serves, hphase] at h
        obtain ⟨greeting, hfollows, htexts⟩ := h
        have hpong : ∀ data, (dash.sent ++ [WsMessage.pong data]).filterMap WsMessage.text? =
            dash.texts := fun data => List.filterMap_append.trans (List.append_nil _)
        simp only [Serves, hphase]
        refine ⟨greeting, ⟨hfollows.greets, hfollows.heard, ?_⟩, (hpong _).trans htexts⟩
        rw [texts, hpong]
        exact hfollows.sent
      · exact h
  · exact h

end Dashboard

/-- The ring has carried the texts of the snapshots, and every dashboard follows it. -/
structure Deployment.Broadcasts {ι δ : Type} {queue : BoundedQueue MetricEvent metricsCapacity}
    {ring : Ring String broadcastCapacity} (json : Json)
    (deployment : Deployment ι δ queue ring) : Prop where
  log : ring.log deployment.broadcast = deployment.snapshots.filterMap json.snapshot
  serves : ∀ d, (deployment.dashboards d).Serves json deployment.broadcast

namespace Deployment

variable {ι δ : Type} {queue : BoundedQueue MetricEvent metricsCapacity}
  {ring : Ring String broadcastCapacity} {deployment : Deployment ι δ queue ring} {json : Json}

theorem Broadcasts.tick (h : deployment.Broadcasts json) :
    (deployment.tick json).Broadcasts json := by
  simp only [Deployment.tick]
  generalize deployment.aggregator.drain (usedCount deployment.server.store)
    (UInt64.ofNat slotCount) = result
  cases htext : json.snapshot result.1 with
  | none =>
      refine ⟨?_, h.serves⟩
      rw [List.filterMap_append, ← h.log, List.filterMap_cons_none htext, List.filterMap_nil,
        List.append_nil]
  | some text =>
      refine ⟨?_, fun d => (h.serves d).send text⟩
      rw [List.filterMap_append, ← h.log, List.filterMap_cons_some htext, List.filterMap_nil]
      exact ring.log_send _ _

variable [DecidableEq ι]

theorem Broadcasts.serve (h : deployment.Broadcasts json) (tables : CaseTables) (elemSize : Nat)
    (hashFn : Bytes → UInt64) (input : ι × ServerEvent) :
    (deployment.serve tables elemSize hashFn input).Broadcasts json := by
  obtain ⟨events, _, hserve⟩ := serve_eq tables elemSize hashFn deployment input
  rw [hserve, foldl_report]
  exact ⟨h.log, h.serves⟩

variable [DecidableEq δ]

theorem Broadcasts.next (h : deployment.Broadcasts json) (tables : CaseTables) (elemSize : Nat)
    (hashFn : Bytes → UInt64) (turn : Turn ι δ) :
    (deployment.next tables elemSize hashFn json turn).Broadcasts json := by
  unfold Deployment.next
  split
  · exact h
  · cases turn with
    | server input => exact h.serve tables elemSize hashFn input
    | receive => exact ⟨h.log, h.serves⟩
    | tick => exact h.tick
    | dashboard d event =>
        refine ⟨h.log, fun e => ?_⟩
        simp only [Function.update_apply]
        split
        · exact (h.serves d).next event
        · exact h.serves e

end Deployment

/-- **Dashboards get the snapshots in order.**  In every run of the deployment, whatever sends
fail and however far the tasks are behind each other: a dashboard has been sent at most the
greeting and then, in order and none twice, snapshots that were made since it subscribed; the
snapshots up to a position that it has not got are as many as it was told it missed, and as long
as it holds its end of the ring this is the position of that; and as long as it is served, all
that it has got was sent on. -/
theorem dashboards_follow {ι δ : Type} [DecidableEq ι] [DecidableEq δ] (tables : CaseTables)
    (elemSize : Nat) (hashFn : Bytes → UInt64) (json : Json)
    (queue : BoundedQueue MetricEvent metricsCapacity) (ring : Ring String broadcastCapacity)
    (region : Arena) (turns : List (Turn ι δ)) (d : δ) :
    let deployment := Deployment.after tables elemSize hashFn json queue ring region turns
    ∃ position greeting, (deployment.dashboards d).Follows json
        (deployment.snapshots.filterMap json.snapshot) position greeting ∧
      (∀ rx, (deployment.dashboards d).phase = .connected rx ∨
        (deployment.dashboards d).phase = .serving rx → position = ring.position rx) ∧
      ∀ rx, (deployment.dashboards d).phase = .serving rx →
        (deployment.dashboards d).texts = greeting ++ (deployment.dashboards d).heard := by
  intro deployment
  have hbroadcasts : deployment.Broadcasts json := by
    apply Run.invariant_all (fun deployment : Deployment ι δ queue ring =>
      deployment.Broadcasts json)
    · exact fun deployment turn h => h.next tables elemSize hashFn turn
    · exact ⟨ring.log_empty, fun _ => rfl⟩
  rw [← hbroadcasts.log]
  exact (hbroadcasts.serves d).follows

/-- A dashboard is there when a request is reported. -/
def reportedTurns : List (Turn Unit Unit) :=
  [.dashboard () .connect, .dashboard () (.handshake true true), .server ((), .accept),
    .server ((), .read (encodeToVec (request "PING" []))), .server ((), .parse true),
    .server ((), .reply 7 true), .receive, .tick, .dashboard () (.forward true)]

example :
    let json : Json :=
      { snapshot := fun snapshot => if snapshot.opsPerSec = 1 then some "1 op" else none
        welcome := "hello" }
    let deployment := Deployment.after asciiTables 32 siphash json (listQueue _ _) (listRing _ _)
      zeroedRegion reportedTurns
    deployment.snapshots.length = 1 ∧ deployment.refused.length = 0 ∧
      (deployment.dashboards ()).texts = ["hello", "1 op"] := by
  decide +kernel

end MemLane
