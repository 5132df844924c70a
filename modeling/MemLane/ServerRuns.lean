import MemLane.MapStore
import MemLane.ParserPanics
import MemLane.Sessions

/-!
# Runs of the server

What holds in every state of the server, with any number of connections, any bytes on
them and any order of their steps.

Each connection takes the frames off its own bytes, in order, and answers each by one
reply.  The table is one that client calls of the requests lead to.  And the server over
the arena cannot be told from a server over a finite map, as long as its requests ask
for no expiry.
-/

namespace MemLane

open Framing (Leaves drain)

variable {tables : CaseTables} {elemSize : Nat}

/-! ## Steps of the server -/

/-- Whatever the step makes of the session satisfies `P`. -/
def SessionMove.Leads (P : Session → Prop) : SessionMove → Prop
  | .stay => True
  | .become session => P session
  | .query _ _ next => ∀ answer, P (next answer)
  | .emit _ session => P session
  | .abort => True

namespace Server

variable {σ ι : Type} [DecidableEq ι] {store : ClientStore σ} {server : Server σ ι} {i : ι}
  {input : ι × ServerEvent}

theorem after_concat (s : σ) (inputs : List (ι × ServerEvent)) (input : ι × ServerEvent) :
    after tables elemSize store s (inputs ++ [input]) =
      (after tables elemSize store s inputs).next tables elemSize store input :=
  Run.final_append _ _ _ _

@[simp] theorem setSession_sessions (server : Server σ ι) (i j : ι) (session : Session) :
    (server.setSession i session).sessions j = if j = i then session else server.sessions j := by
  simp [setSession, Function.update_apply]

theorem next_aborted (h : server.aborted = true) :
    server.next tables elemSize store input = server := if_pos h

theorem next_of_running (h : server.aborted = false) :
    server.next tables elemSize store input =
      server.apply store input.1 ((server.sessions input.1).move tables elemSize input.2) := by
  rw [next, h]
  rfl

/-- A step changes the session of no other connection. -/
theorem apply_sessions_of_ne {j : ι} (hne : j ≠ i) (move : SessionMove) :
    (server.apply store i move).sessions j = server.sessions j := by
  cases move with
  | stay | abort => rfl
  | become session => exact (setSession_sessions server i j session).trans (if_neg hne)
  | query q clock next => exact (setSession_sessions server i j _).trans (if_neg hne)
  | emit event session => exact (setSession_sessions server i j session).trans (if_neg hne)

theorem setSession_self (session : Session) : (server.setSession i session).sessions i = session :=
  (setSession_sessions server i i session).trans (if_pos rfl)

/-- The session that a step makes satisfies what the step leads to. -/
theorem apply_session {P : Session → Prop} {move : SessionMove} (hmove : move.Leads P)
    (h : move = .stay ∨ move = .abort → P (server.sessions i)) :
    P ((server.apply store i move).sessions i) := by
  cases move with
  | stay => exact h (.inl rfl)
  | abort => exact h (.inr rfl)
  | become session =>
      rw [apply, setSession_self]
      exact hmove
  | query q clock next =>
      have hself := @setSession_self _ _ _ server i (next (store server.store q clock).1)
      rw [apply]
      simp only [hself]
      exact hmove _
  | emit event session =>
      have hself := @setSession_self _ _ _ server i session
      rw [apply]
      simp only [hself]
      exact hmove

/-- What the steps of a connection keep, the steps of the server keep. -/
theorem next_session {P : Session → Prop}
    (hmove : ∀ session event, P session → (session.move tables elemSize event).Leads P)
    (h : P (server.sessions i)) (input : ι × ServerEvent) :
    P ((server.next tables elemSize store input).sessions i) := by
  cases haborted : server.aborted with
  | true =>
      rw [next_aborted haborted]
      exact h
  | false =>
      rw [next_of_running haborted]
      by_cases hi : i = input.1
      · subst hi
        exact apply_session (hmove _ _ h) fun _ => h
      · rw [apply_sessions_of_ne hi]
        exact h

/-- **Session rule.**  What the steps of a connection keep holds of all connections, in every
run and whatever the table answers. -/
theorem sessions_invariant (P : Session → Prop) (hnew : P .new)
    (hmove : ∀ session event, P session → (session.move tables elemSize event).Leads P)
    (store : ClientStore σ) (s : σ) (inputs : List (ι × ServerEvent)) (i : ι) :
    P ((after tables elemSize store s inputs).sessions i) :=
  Run.invariant_all (fun server : Server σ ι => P (server.sessions i))
    (fun _ input h => next_session hmove h input) hnew inputs

end Server

/-! ## The operations of a connection -/

/-- The step adds the operation that it makes to `asked`, and otherwise keeps it. -/
def SessionMove.Logs (asked : List Operation) : SessionMove → Prop
  | .query q _ next => ∀ answer, (next answer).asked = asked ++ [⟨q, answer⟩]
  | move => move.Leads fun session => session.asked = asked

theorem Session.move_logs (session : Session) (event : ServerEvent) :
    (session.move tables elemSize event).Logs session.asked := by
  unfold move
  split
  · trivial
  · rfl
  · trivial
  · unfold readMove
    split
    · rfl
    · split
      · trivial
      · rfl
  · rfl
  · unfold parseMove
    split
    · trivial
    · split
      · rfl
      · rfl
      · split <;> rfl
      · trivial
  · exact fun _ => rfl
  · unfold replyMove
    split <;> rfl
  · trivial

namespace Server

variable {σ ι : Type} [DecidableEq ι] {store : ClientStore σ} {server : Server σ ι}
  {input : ι × ServerEvent}

/-- The operation that a step makes, with the answer of the table. -/
def operation? (tables : CaseTables) (elemSize : Nat) (store : ClientStore σ)
    (server : Server σ ι) (input : ι × ServerEvent) : Option Operation :=
  if server.aborted then none
  else
    match (server.sessions input.1).move tables elemSize input.2 with
    | .query q clock _ => some ⟨q, (store server.store q clock).1⟩
    | _ => none

/-- The operations that connection `i` makes in a run, with the answers of the table. -/
def operations (tables : CaseTables) (elemSize : Nat) (store : ClientStore σ) (i : ι) :
    Server σ ι → List (ι × ServerEvent) → List Operation
  | _, [] => []
  | server, input :: inputs =>
      (if input.1 = i then (server.operation? tables elemSize store input).toList else []) ++
        operations tables elemSize store i (server.next tables elemSize store input) inputs

theorem next_asked (server : Server σ ι) (input : ι × ServerEvent) (i : ι) :
    ((server.next tables elemSize store input).sessions i).asked = (server.sessions i).asked ++
      if input.1 = i then (server.operation? tables elemSize store input).toList else [] := by
  cases haborted : server.aborted with
  | true =>
      rw [next_aborted haborted, operation?, haborted]
      simp
  | false =>
      by_cases hi : input.1 = i
      · subst hi
        have hlogs : ((server.sessions input.1).move tables elemSize input.2).Logs
            (server.sessions input.1).asked := Session.move_logs _ input.2
        rw [next_of_running haborted, operation?, haborted, if_pos rfl]
        generalize (server.sessions input.1).move tables elemSize input.2 = move at hlogs
        cases move with
        | stay | abort => exact (List.append_nil _).symm
        | become session | emit event session =>
            simp only [apply, setSession_self, Bool.false_eq_true, if_false, Option.toList_none,
              List.append_nil]
            exact hlogs
        | query q clock next =>
            simp only [apply, setSession_self, Bool.false_eq_true, if_false, Option.toList_some]
            exact hlogs _
      · rw [if_neg hi, List.append_nil, next_of_running haborted,
          apply_sessions_of_ne (Ne.symm hi)]

/-- A connection has asked what it asked before a run, and what it asks in the run. -/
theorem final_asked (server : Server σ ι) (inputs : List (ι × ServerEvent)) (i : ι) :
    ((Run.final (next tables elemSize store) server inputs).sessions i).asked =
      (server.sessions i).asked ++ operations tables elemSize store i server inputs := by
  induction inputs generalizing server with
  | nil => exact (List.append_nil _).symm
  | cons input inputs ih =>
      rw [Run.final_cons, ih, next_asked, operations, List.append_assoc]

end Server

/-! ## Frames and replies of a connection -/

/-- A request that has been answered: the operations made for it, and its reply. -/
structure Exchange where
  val : RespValue
  asked : List Operation
  reply : RespValue

/-- What a connection does about it. -/
def Exchange.acts (e : Exchange) : List Act := Connection.exchange e.val e.reply

/-- Each of these requests has been dispatched, and answered by one write before the next: of
the reply that the operations made for it call for. -/
def Answered (tables : CaseTables) (vals : List RespValue) (asked : List Operation)
    (acts : List Act) : Prop :=
  ∃ exchanges : List Exchange, (∀ e ∈ exchanges, e.val.RepliesBy tables e.asked e.reply) ∧
    exchanges.map Exchange.val = vals ∧ exchanges.flatMap Exchange.asked = asked ∧
    exchanges.flatMap Exchange.acts = acts

theorem Answered.nil : Answered tables [] [] [] := ⟨[], by simp, rfl, rfl, rfl⟩

theorem Answered.concat {vals : List RespValue} {asked : List Operation} {acts : List Act}
    (h : Answered tables vals asked acts) {val reply : RespValue} {more : List Operation}
    (hreply : val.RepliesBy tables more reply) :
    Answered tables (vals ++ [val]) (asked ++ more)
      (acts ++ [.dispatched val, .wrote (encodeToVec reply)]) := by
  obtain ⟨exchanges, hall, rfl, rfl, rfl⟩ := h
  refine ⟨exchanges ++ [⟨val, more, reply⟩], ?_, ?_, ?_, ?_⟩
  · intro e he
    rcases List.mem_append.mp he with he | he
    · exact hall e he
    · obtain rfl := List.mem_singleton.mp he
      exact hreply
  · rw [List.map_append]
    rfl
  · rw [List.flatMap_append, List.flatMap_singleton]
  · rw [List.flatMap_append, List.flatMap_singleton]
    rfl

theorem Answered.requests {vals : List RespValue} {asked : List Operation} {acts : List Act}
    (h : Answered tables vals asked acts) : acts.filterMap Act.request? = vals := by
  obtain ⟨exchanges, -, rfl, -, rfl⟩ := h
  induction exchanges with
  | nil => rfl
  | cons e exchanges ih =>
      rw [List.flatMap_cons, List.filterMap_append, ih]
      rfl

namespace Session

variable {session : Session} {act : Act}

theorem current_concat (h : act.isClear = false) (acts : List Act) (phase : SessionPhase)
    (pending received : Bytes) (asked : List Operation) :
    ({ phase := phase, pending := pending, received := received, asked := asked,
       acts := acts ++ [act] } : Session).current =
        acts.rtakeWhile (fun act => !act.isClear) ++ [act] := by
  rw [current, List.rtakeWhile_concat_pos]
  rw [h]
  rfl

/-- The frames `vals` have been taken off what was received, and the pending bytes from the
offset on are left. -/
structure Taken (elemSize : Nat) (session : Session) (offset : Nat) (vals : List RespValue) :
    Prop where
  offset_le : offset ≤ session.pending.length
  size : session.pending.length ≤ isizeMax
  leaves : Leaves (parseFront elemSize) session.received vals (session.pending.drop offset)

/-- Since the last error the connection has answered `vals`, and then dispatched `val` and
brought its script so far. -/
def Works (tables : CaseTables) (session : Session) (vals : List RespValue) (val : RespValue)
    (script : ClientScript RespValue) : Prop :=
  ∃ earlier answered begun acts, Answered tables vals answered acts ∧
    session.current = acts ++ [.dispatched val] ∧ session.asked = earlier ++ answered ++ begun ∧
    (requestScript tables val).Reaches begun script

/-- Since the last error the connection has answered `vals`, one after another, and then, if
there is a `last` one, dispatched it and made the first operations for it. -/
def Alternates (tables : CaseTables) (session : Session) (vals : List RespValue)
    (last : Option RespValue) : Prop :=
  ∃ earlier answered begun acts, Answered tables vals answered acts ∧
    session.current = acts ++ last.toList.map .dispatched ∧
    session.asked = earlier ++ answered ++ begun ∧
    match last with
    | none => begun = []
    | some val => val.Begins tables begun

theorem Works.alternates {vals : List RespValue} {val : RespValue}
    {script : ClientScript RespValue} (h : session.Works tables vals val script) :
    session.Alternates tables vals (some val) := by
  obtain ⟨earlier, answered, begun, acts, hanswered, hcurrent, hasked, hreaches⟩ := h
  exact ⟨earlier, answered, begun, acts, hanswered, hcurrent, hasked, requestScript_begins hreaches⟩

theorem Alternates.requests {vals : List RespValue} {last : Option RespValue}
    (h : session.Alternates tables vals last) :
    session.current.filterMap Act.request? = vals ++ last.toList := by
  obtain ⟨earlier, answered, begun, acts, hanswered, hcurrent, -⟩ := h
  rw [hcurrent, List.filterMap_append, hanswered.requests]
  cases last <;> rfl

/-- Where a connection stands with the frames of what it has received. -/
def Framed (tables : CaseTables) (elemSize : Nat) (session : Session) : Prop :=
  match session.phase with
  | .unaccepted => session = .new
  | .reading => ∃ vals, Taken elemSize session 0 vals ∧
      parseFront elemSize session.pending = .ok none ∧ session.Alternates tables vals none
  | .parsing offset => ∃ vals, Taken elemSize session offset vals ∧
      session.Alternates tables vals none
  | .running offset val script => ∃ vals, Taken elemSize session offset (vals ++ [val]) ∧
      session.Works tables vals val script
  | .returned => ∃ vals last, vals ++ last.toList <+: (drain (parseFront elemSize)
      session.received).1 ∧ session.Alternates tables vals last

theorem Taken.prefix {offset : Nat} {vals : List RespValue}
    (h : Taken elemSize session offset vals) :
    vals <+: (drain (parseFront elemSize) session.received).1 := by
  rw [h.leaves]
  exact List.prefix_append _ _

theorem Alternates.new : Session.new.Alternates tables [] none :=
  ⟨[], [], [], [], .nil, rfl, rfl, rfl⟩

/-- What a connection has dispatched are the first frames of what it has received, and all of
them have been answered where it is not at work on one. -/
theorem Framed.alternates (h : Framed tables elemSize session) :
    ∃ vals last, session.Alternates tables vals last ∧
      vals ++ last.toList <+: (drain (parseFront elemSize) session.received).1 ∧
      (∀ val ∈ last, session.phase = .returned ∨
        ∃ offset script, session.phase = .running offset val script) ∧
      (session.phase = .reading →
        drain (parseFront elemSize) session.received = (vals, .ok session.pending)) := by
  unfold Framed at h
  split at h
  · next hphase =>
      rw [h]
      exact ⟨[], none, .new, List.nil_prefix, by simp, by simp [Session.new]⟩
  · obtain ⟨vals, htaken, hmore, halternates⟩ := h
    have hprefix := htaken.prefix
    refine ⟨vals, none, halternates, by simpa using hprefix, by simp, fun _ => ?_⟩
    have hleaves := htaken.leaves
    rw [List.drop_zero] at hleaves
    exact hleaves.drain_eq hmore
  · next hphase =>
      obtain ⟨vals, htaken, halternates⟩ := h
      have hprefix := htaken.prefix
      exact ⟨vals, none, halternates, by simpa using hprefix, by simp, by simp [hphase]⟩
  · next offset val script hphase =>
      obtain ⟨vals, htaken, hworks⟩ := h
      refine ⟨vals, some val, hworks.alternates, htaken.prefix, ?_, by simp [hphase]⟩
      intro val' hval'
      obtain rfl := Option.some.inj hval'
      exact .inr ⟨offset, script, hphase⟩
  · next hphase =>
      obtain ⟨vals, last, hprefix, halternates⟩ := h
      exact ⟨vals, last, halternates, hprefix, fun _ _ => .inl hphase, by simp [hphase]⟩

/-- All that is complete has been answered where a connection awaits a read. -/
theorem Framed.answered (h : Framed tables elemSize session) (hphase : session.phase = .reading) :
    ∃ vals, drain (parseFront elemSize) session.received = (vals, .ok session.pending) ∧
      session.Alternates tables vals none := by
  obtain ⟨vals, last, halternates, -, hlast, hdrain⟩ := h.alternates
  cases last with
  | none => exact ⟨vals, hdrain hphase, halternates⟩
  | some val => simpa [hphase] using hlast val rfl

/-- A connection whose task ends keeps its history. -/
theorem Framed.returned (h : Framed tables elemSize session) :
    Framed tables elemSize { session with phase := .returned } := by
  obtain ⟨vals, last, halternates, hprefix, -⟩ := h.alternates
  exact ⟨vals, last, hprefix, halternates⟩

theorem Framed.readMove (h : Framed tables elemSize session) (hphase : session.phase = .reading)
    (bytes : Bytes) : (session.readMove bytes).Leads (Framed tables elemSize) := by
  have hreturned := h.returned
  rw [Framed, hphase] at h
  obtain ⟨vals, htaken, hmore, halternates⟩ := h
  unfold Session.readMove
  split
  · exact hreturned
  · split
    · trivial
    · next hsize =>
        refine ⟨vals, ⟨Nat.zero_le _, not_lt.mp hsize, ?_⟩, halternates⟩
        have hleaves := htaken.leaves
        rw [List.drop_zero] at hleaves ⊢
        exact hleaves.append (parseFront_stable elemSize) hmore bytes

theorem Framed.parseMove {offset : Nat} (h : Framed tables elemSize session)
    (hphase : session.phase = .parsing offset) (sent : Bool) :
    (session.parseMove tables elemSize offset sent).Leads (Framed tables elemSize) := by
  have hreturned := h.returned
  rw [Framed, hphase] at h
  obtain ⟨vals, htaken, halternates⟩ := h
  have hdrop : (session.pending.drop offset).length ≤ isizeMax := by
    rw [List.length_drop]
    exact (Nat.sub_le _ _).trans htaken.size
  have hfront := parseFront_eq elemSize hdrop
  unfold Session.parseMove
  rw [sliceFrom, if_pos htaken.offset_le]
  simp only
  cases hparse : parse elemSize (session.pending.drop offset) with
  | error fault =>
      cases fault with
      | panic => trivial
      | err e =>
          cases sent with
          | false => exact hreturned
          | true =>
              -- what was asked so far belongs to requests before the error
              refine ⟨[], ⟨Nat.le_refl _, Nat.zero_le _, .refl _⟩, rfl,
                session.asked, [], [], [], .nil, ?_, ?_, rfl⟩
              · simp only [current]
                rw [← List.singleton_append, ← List.append_assoc,
                  List.rtakeWhile_concat_neg _ _ _ Bool.false_ne_true]
                rfl
              · simp only [List.append_nil]
  | ok found =>
      rw [hparse] at hfront
      cases found with
      | none =>
          refine ⟨vals, ⟨Nat.zero_le _, hdrop, ?_⟩, hfront, halternates⟩
          rw [List.drop_zero]
          exact htaken.leaves
      | some frame =>
          obtain ⟨val, consumed⟩ := frame
          have hle := (parseFront_stable elemSize).le hfront
          rw [List.length_drop] at hle
          have hoffset := htaken.offset_le
          have hsize := htaken.size
          have hadd : usizeAdd offset consumed = offset + consumed := by
            rw [usizeAdd_eq]
            unfold isizeMax at hsize
            omega
          obtain ⟨earlier, answered, begun, acts, hanswered, hcurrent, hasked, rfl⟩ := halternates
          refine ⟨vals, ⟨?_, hsize, ?_⟩, earlier, answered, [], session.current, ?_,
            current_concat rfl _ _ _ _ _, hasked, .refl _⟩
          · rw [hadd]
            simp only
            omega
          · rw [hadd, ← List.drop_drop]
            exact htaken.leaves.item (parseFront_stable elemSize) hfront
          · rw [hcurrent]
            simpa using hanswered

theorem Framed.replyMove {offset : Nat} {val reply : RespValue}
    (h : Framed tables elemSize session)
    (hphase : session.phase = .running offset val (.done reply)) (elapsedUs : UInt64)
    (sent : Bool) :
    (session.replyMove tables offset val reply elapsedUs sent).Leads
      (Framed tables elemSize) := by
  have hreturned := h.returned
  rw [Framed, hphase] at h
  obtain ⟨vals, htaken, earlier, answered, begun, acts, hanswered, hcurrent, hasked, hreaches⟩ := h
  cases sent with
  | false => exact hreturned
  | true =>
      refine ⟨vals ++ [val], ⟨htaken.offset_le, htaken.size, htaken.leaves⟩, earlier,
        answered ++ begun, [], _, hanswered.concat (requestScript_replies hreaches), ?_, ?_, rfl⟩
      · have hstep : ({ session with phase := .parsing offset, acts := session.acts ++
            [.wrote (encodeToVec reply)] } : Session).current =
              session.current ++ [.wrote (encodeToVec reply)] := current_concat rfl _ _ _ _ _
        rw [if_pos rfl, hstep, hcurrent, List.append_assoc]
        simp
      · simpa using hasked

/-- One more answer to the request in progress. -/
theorem Framed.answer {offset : Nat} {val : RespValue} {q : Query}
    {next : q.Result → ClientScript RespValue} (h : Framed tables elemSize session)
    (hphase : session.phase = .running offset val (.ask q next)) (answer : q.Result) :
    Framed tables elemSize { session with
      phase := .running offset val (next answer)
      asked := session.asked ++ [⟨q, answer⟩] } := by
  rw [Framed, hphase] at h
  obtain ⟨vals, htaken, earlier, answered, begun, acts, hanswered, hcurrent, hasked, hreaches⟩ := h
  refine ⟨vals, ⟨htaken.offset_le, htaken.size, htaken.leaves⟩, earlier, answered,
    begun ++ [⟨q, answer⟩], acts, hanswered, hcurrent, ?_, hreaches.concat answer⟩
  simp only [hasked, List.append_assoc]

/-- Step lemma: no step of a connection loses or repeats a frame. -/
theorem Framed.move (h : Framed tables elemSize session) (event : ServerEvent) :
    (session.move tables elemSize event).Leads (Framed tables elemSize) := by
  unfold Session.move
  split
  · trivial
  · next hphase =>
      rw [Framed, hphase] at h
      subst h
      exact ⟨[], ⟨Nat.le_refl _, Nat.zero_le _, .refl _⟩, rfl, [], [], [], [], .nil, rfl, rfl, rfl⟩
  · trivial
  · next hphase => exact h.readMove hphase _
  · exact h.returned
  · next hphase => exact h.parseMove hphase _
  · next hphase => exact h.answer hphase
  · next hphase => exact h.replyMove hphase _ _
  · trivial

end Session

theorem Server.framed_after {σ ι : Type} [DecidableEq ι] (tables : CaseTables) (elemSize : Nat)
    (store : ClientStore σ) (s : σ) (inputs : List (ι × ServerEvent)) (i : ι) :
    ((after tables elemSize store s inputs).sessions i).Framed tables elemSize :=
  sessions_invariant (Session.Framed tables elemSize) rfl (fun _ event h => h.move event) store s
    inputs i

/-- **No connection loses, repeats or reorders a request.**  In every run of the server, one
operation on the table at a time, whatever the table answers and whatever the other connections
do: since its last protocol error a connection has done nothing but dispatch requests, which
are the first frames of the bytes it has received since, and write to each, before the next,
the reply that the operations made for it call for.  Only the last request may be without its
reply, while the connection works on it or if the task has ended; and whenever the connection
awaits a read, all frames have been answered, and the rest of the bytes is pending.  The
operations are those that the connection makes in the run, with the answers of the table. -/
theorem connections_framed {σ ι : Type} [DecidableEq ι] (tables : CaseTables) (elemSize : Nat)
    (store : ClientStore σ) (s : σ) (inputs : List (ι × ServerEvent)) (i : ι) :
    let session := (Server.after tables elemSize store s inputs).sessions i
    session.asked = Server.operations tables elemSize store i (.fresh s) inputs ∧
      ∃ vals last, session.Alternates tables vals last ∧
        vals ++ last.toList <+: (drain (parseFront elemSize) session.received).1 ∧
        (∀ val ∈ last, session.phase = .returned ∨
          ∃ offset script, session.phase = .running offset val script) ∧
        (session.phase = .reading →
          drain (parseFront elemSize) session.received = (vals, .ok session.pending)) := by
  intro session
  have hframed : session.Framed tables elemSize :=
    Server.framed_after tables elemSize store s inputs i
  exact ⟨Server.final_asked _ _ _, hframed.alternates⟩

/-! ## When the process ends -/

/-- The event ends the process: no room for what the step needs, a listener that fails, more
pending bytes than a `Vec` holds, or a frame on which the parser overflows. -/
def Session.EndsOn (elemSize : Nat) (session : Session) : ServerEvent → Prop
  | .exhausted => True
  | .acceptFailed => session.phase = .unaccepted
  | .read bytes => session.phase = .reading ∧ bytes ≠ [] ∧
      isizeMax < (session.pending ++ bytes).length
  | .parse _ => ∃ offset, session.phase = .parsing offset ∧
      Oversized elemSize (session.pending.drop offset)
  | _ => False

theorem Session.readMove_abort_iff {session : Session} {bytes : Bytes} :
    session.readMove bytes = .abort ↔
      bytes ≠ [] ∧ isizeMax < (session.pending ++ bytes).length := by
  unfold readMove
  split
  · next hnil => exact iff_of_false (by simp) (fun h => h.1 hnil)
  · next hne =>
      split
      · next hlong => exact iff_of_true rfl ⟨hne, hlong⟩
      · next hfits => exact iff_of_false (by simp) (fun h => hfits h.2)

theorem Session.Taken.parseMove_abort_iff {session : Session} {offset : Nat}
    {vals : List RespValue} (h : Taken elemSize session offset vals) (sent : Bool) :
    session.parseMove tables elemSize offset sent = .abort ↔
      Oversized elemSize (session.pending.drop offset) := by
  have hdrop : (session.pending.drop offset).length ≤ isizeMax := by
    rw [List.length_drop]
    exact (Nat.sub_le _ _).trans h.size
  have hpanic : Oversized elemSize (session.pending.drop offset) ↔
      parse elemSize (session.pending.drop offset) = .error .panic :=
    ⟨fun hover => hover.parse_panic hdrop, oversized_of_parse_panic hdrop⟩
  rw [hpanic, parseMove, sliceFrom, if_pos h.offset_le]
  simp only
  cases parse elemSize (session.pending.drop offset) with
  | error fault =>
      cases fault with
      | panic => exact iff_of_true rfl rfl
      | err e => cases sent <;> simp
  | ok found => cases found <;> simp

theorem Session.Framed.move_abort_iff {session : Session} (h : Framed tables elemSize session)
    (event : ServerEvent) :
    session.move tables elemSize event = .abort ↔ session.EndsOn elemSize event := by
  unfold Session.move
  split
  · exact iff_of_true rfl trivial
  · exact iff_of_false (by simp) id
  · next hphase => exact iff_of_true rfl hphase
  · next hphase =>
      rw [readMove_abort_iff]
      exact (and_iff_right hphase).symm
  · exact iff_of_false (by simp) id
  · next offset hphase =>
      rw [Framed, hphase] at h
      obtain ⟨vals, htaken, _⟩ := h
      rw [htaken.parseMove_abort_iff]
      constructor
      · intro hover
        exact ⟨offset, hphase, hover⟩
      · rintro ⟨offset', hphase', hover⟩
        obtain rfl := SessionPhase.parsing.inj (hphase.symm.trans hphase')
        exact hover
  · exact iff_of_false (by simp) id
  · exact iff_of_false (by simp [Session.replyMove]) id
  · next event _ _ hexhausted _ hfailed hread _ hparse _ _ =>
      refine iff_of_false (by simp) ?_
      intro hends
      cases event with
      | exhausted => exact hexhausted rfl
      | acceptFailed => exact hfailed rfl hends
      | read bytes => exact hread bytes rfl hends.1
      | parse sent =>
          obtain ⟨offset, hphase, _⟩ := hends
          exact hparse sent offset rfl hphase
      | accept | readFailed | operate | reply => exact hends

theorem Server.apply_aborted {σ ι : Type} [DecidableEq ι] {store : ClientStore σ}
    {server : Server σ ι} {i : ι} {move : SessionMove} (h : server.aborted = false) :
    (server.apply store i move).aborted = true ↔ move = .abort := by
  cases move with
  | abort => exact iff_of_true rfl rfl
  | stay | become | query | emit => exact iff_of_false (by simp [apply, setSession, h]) (by simp)

/-- **What ends the process.**  A run of the server ends with the process alive exactly when at
no step of it memory or stack ran out or the listener failed, and no step was a read that
overflows the pending bytes of its connection, or met an oversized frame in them. -/
theorem server_lives_iff {σ ι : Type} [DecidableEq ι] (tables : CaseTables) (elemSize : Nat)
    (store : ClientStore σ) (s : σ) (inputs : List (ι × ServerEvent)) :
    (Server.after tables elemSize store s inputs).aborted = false ↔
      Run.Along (Server.next tables elemSize store)
        (fun server input => ¬ (server.sessions input.1).EndsOn elemSize input.2)
        (Server.fresh s) inputs := by
  induction inputs using List.reverseRecOn with
  | nil => exact iff_of_true rfl trivial
  | append_singleton inputs input ih =>
      have hframed := Server.framed_after tables elemSize store s inputs input.1
      have hlast : Run.Along (Server.next tables elemSize store)
          (fun server input => ¬ (server.sessions input.1).EndsOn elemSize input.2)
          (Server.after tables elemSize store s inputs) [input] ↔
            ¬ ((Server.after tables elemSize store s inputs).sessions
              input.1).EndsOn elemSize input.2 :=
        and_iff_left trivial
      rw [Server.after_concat, Run.along_append, ← ih, ← Server.after, hlast,
        ← hframed.move_abort_iff]
      cases haborted : (Server.after tables elemSize store s inputs).aborted with
      | true => simp [Server.next_aborted haborted, haborted]
      | false =>
          rw [Server.next_of_running haborted, ← Bool.not_eq_true, Server.apply_aborted haborted]
          exact (and_iff_right rfl).symm

/-! ## What is in the table -/

/-- The operation that a step makes, if any, satisfies `P`. -/
def SessionMove.Asks (P : Query → Prop) : SessionMove → Prop
  | .query q _ _ => P q
  | _ => True

theorem SessionMove.Asks.mono {P P' : Query → Prop} {move : SessionMove} (h : move.Asks P)
    (hP : ∀ q, P q → P' q) : move.Asks P' := by
  cases move with
  | stay | become | emit | abort => trivial
  | query q clock next => exact hP q h

/-- A `get` of the connection has been answered so. -/
def Session.HasRead (session : Session) (key : Bytes) (stored : Option Bytes) : Prop :=
  (⟨.get key, .ok stored⟩ : Operation) ∈ session.asked

/-- The operation is one that a request of the connection may make. -/
def Session.MayAsk (tables : CaseTables) (session : Session) (q : Query) : Prop :=
  ∃ val cmd, val ∈ session.requests ∧ extractCommand tables val = .ok cmd ∧
    q.MadeBy tables session.HasRead cmd

namespace Session

variable {session session' : Session}

/-- The one session is the other at a later moment. -/
structure Grows (session session' : Session) : Prop where
  acts : session.acts <+: session'.acts
  asked : session.asked <+: session'.asked

theorem Grows.refl (session : Session) : session.Grows session :=
  ⟨List.prefix_rfl, List.prefix_rfl⟩

theorem Grows.trans {session'' : Session} (h : session.Grows session')
    (h' : session'.Grows session'') : session.Grows session'' :=
  ⟨h.acts.trans h'.acts, h.asked.trans h'.asked⟩

theorem Grows.requests (h : session.Grows session') {val : RespValue}
    (hval : val ∈ session.requests) : val ∈ session'.requests := by
  obtain ⟨more, hmore⟩ := h.acts
  rw [Session.requests, ← hmore, List.filterMap_append]
  exact List.mem_append_left _ hval

theorem Grows.hasRead (h : session.Grows session') (key : Bytes) (stored : Option Bytes)
    (hread : session.HasRead key stored) : session'.HasRead key stored := h.asked.subset hread

theorem MayAsk.mono (h : session.Grows session') {q : Query}
    (hq : session.MayAsk tables q) : session'.MayAsk tables q := by
  obtain ⟨val, cmd, hval, hcmd, hmade⟩ := hq
  exact ⟨val, cmd, h.requests hval, hcmd, hmade.mono h.hasRead⟩

/-- What a connection has done is not taken back. -/
theorem move_grows (session : Session) (event : ServerEvent) :
    (session.move tables elemSize event).Leads session.Grows := by
  unfold move
  split
  · trivial
  · exact ⟨List.prefix_rfl, List.prefix_rfl⟩
  · trivial
  · unfold readMove
    split
    · exact ⟨List.prefix_rfl, List.prefix_rfl⟩
    · split
      · trivial
      · exact ⟨List.prefix_rfl, List.prefix_rfl⟩
  · exact ⟨List.prefix_rfl, List.prefix_rfl⟩
  · unfold parseMove
    split
    · trivial
    · split
      · exact ⟨List.prefix_append _ _, List.prefix_rfl⟩
      · exact ⟨List.prefix_rfl, List.prefix_rfl⟩
      · split
        · exact ⟨List.prefix_append _ _, List.prefix_rfl⟩
        · exact ⟨List.prefix_rfl, List.prefix_rfl⟩
      · trivial
  · exact fun _ => ⟨List.prefix_rfl, List.prefix_append _ _⟩
  · unfold replyMove
    split
    · exact ⟨List.prefix_append _ _, List.prefix_rfl⟩
    · exact ⟨List.prefix_rfl, List.prefix_rfl⟩
  · trivial

/-- Only an operation asks the table, and it is the next one of the script in progress. -/
theorem move_query {event : ServerEvent} {q : Query} {clock : Clock} {next : q.Result → Session}
    (h : session.move tables elemSize event = .query q clock next) :
    event = .operate clock ∧ ∃ offset val more,
      session.phase = .running offset val (.ask q more) ∧
      next = fun answer => { session with
        phase := .running offset val (more answer)
        asked := session.asked ++ [⟨q, answer⟩] } := by
  unfold move at h
  split at h
  · cases h
  · cases h
  · cases h
  · unfold readMove at h
    split_ifs at h
  · cases h
  · unfold parseMove at h
    split at h
    · cases h
    · split at h
      · cases h
      · cases h
      · split at h <;> cases h
      · cases h
  · next hphase =>
      cases h
      exact ⟨rfl, _, _, _, hphase, rfl⟩
  · cases h
  · cases h

/-- A connection asks for operations of its own requests, after what it has read. -/
theorem Framed.asks (h : Framed tables elemSize session) (event : ServerEvent) :
    (session.move tables elemSize event).Asks (session.MayAsk tables) := by
  cases hmove : session.move tables elemSize event with
  | stay | become | emit | abort => trivial
  | query q clock next =>
      obtain ⟨-, offset, val, more, hphase, -⟩ := move_query hmove
      rw [Framed, hphase] at h
      obtain ⟨vals, -, earlier, answered, begun, acts, -, hcurrent, hasked, hreaches⟩ := h
      have honly := (requestScript_onlyIf tables session.HasRead val).reaches hreaches ?_
      · obtain ⟨cmd, hcmd, hmade⟩ := honly.1
        have hval : val ∈ session.current.filterMap Act.request? := by
          rw [hcurrent, List.filterMap_append]
          exact List.mem_append_right _ (List.mem_singleton_self val)
        exact ⟨val, cmd, ((List.rtakeWhile_suffix _ _).filterMap _).subset hval, hcmd, hmade⟩
      · intro a ha
        have hmem : a ∈ session.asked := by
          rw [hasked]
          exact List.mem_append_right _ ha
        obtain ⟨q, answer⟩ := a
        cases q with
        | get key =>
            intro stored hstored
            rw [HasRead, ← hstored]
            exact hmem
        | set | del | existsKey | flush | usedCount => trivial

end Session

namespace Server

variable {σ ι : Type} [DecidableEq ι] {store : ClientStore σ} {server : Server σ ι}
  {input : ι × ServerEvent}

/-- The histories of all connections grow. -/
theorem next_grows (tables : CaseTables) (elemSize : Nat) (store : ClientStore σ)
    (server : Server σ ι) (input : ι × ServerEvent) (i : ι) :
    (server.sessions i).Grows ((server.next tables elemSize store input).sessions i) := by
  cases haborted : server.aborted with
  | true =>
      rw [next_aborted haborted]
      exact .refl _
  | false =>
      rw [next_of_running haborted]
      by_cases hi : i = input.1
      · rw [hi]
        exact apply_session ((server.sessions input.1).move_grows input.2) fun _ => .refl _
      · rw [apply_sessions_of_ne hi]
        exact .refl _

theorem final_grows (tables : CaseTables) (elemSize : Nat) (store : ClientStore σ)
    (server : Server σ ι) (inputs : List (ι × ServerEvent)) (i : ι) :
    (server.sessions i).Grows
      ((Run.final (next tables elemSize store) server inputs).sessions i) :=
  Run.invariant_all (fun s : Server σ ι => (server.sessions i).Grows (s.sessions i))
    (fun s input h => h.trans (next_grows tables elemSize store s input i)) (.refl _) inputs

/-- A step leaves the table alone, or makes one operation of a request on it. -/
theorem next_store (elemSize : Nat) (store : ClientStore σ) (input : ι × ServerEvent)
    (hframed : ∀ i, (server.sessions i).Framed tables elemSize) :
    (server.next tables elemSize store input).store = server.store ∨
      ∃ q clock, input.2 = .operate clock ∧ (server.sessions input.1).MayAsk tables q ∧
        (server.next tables elemSize store input).store = (store server.store q clock).2 := by
  cases haborted : server.aborted with
  | true =>
      rw [next_aborted haborted]
      exact .inl rfl
  | false =>
      rw [next_of_running haborted]
      have hasks := (hframed input.1).asks input.2
      cases hmove : (server.sessions input.1).move tables elemSize input.2 with
      | stay | become | emit | abort => exact .inl rfl
      | query q clock next =>
          rw [hmove] at hasks
          exact .inr ⟨q, clock, (Session.move_query hmove).1, hasks, rfl⟩

/-- In the run some connection has sent a command that writes this entry, after what it has
read, and has made an operation with the reading of the clock that the expiry counts from. -/
def Sent (tables : CaseTables) (inputs : List (ι × ServerEvent)) (server : Server σ ι)
    (key value : Bytes) (expiry : UInt64) : Prop :=
  ∃ i val cmd ttlSecs clock, val ∈ (server.sessions i).requests ∧
    extractCommand tables val = .ok cmd ∧
    cmd.Writes tables (server.sessions i).HasRead key value ttlSecs ∧
    (i, .operate clock) ∈ inputs ∧ expiry = ttlToExpiry ttlSecs (clock 0)

theorem Sent.final {inputs : List (ι × ServerEvent)} {key value : Bytes} {expiry : UInt64}
    (h : server.Sent tables inputs key value expiry) (elemSize : Nat) (store : ClientStore σ)
    (more : List (ι × ServerEvent)) :
    (Run.final (next tables elemSize store) server more).Sent tables (inputs ++ more) key value
      expiry := by
  obtain ⟨i, val, cmd, ttlSecs, clock, hval, hcmd, hwrites, hclock, hexpiry⟩ := h
  have hgrows := final_grows tables elemSize store server more i
  exact ⟨i, val, cmd, ttlSecs, clock, hgrows.requests hval, hcmd, hwrites.mono hgrows.hasRead,
    List.mem_append_left _ hclock, hexpiry⟩

end Server

/-- After these inputs the arena of the server is reached by client calls, and was filled by
commands. -/
structure Server.Accounted {ι : Type} (tables : CaseTables) (hashFn : Bytes → UInt64)
    (inputs : List (ι × ServerEvent)) (server : Server Arena ι) : Prop where
  reachable : Reachable hashFn server.store
  sent : ∀ k v e, server.store.Stores k v e → server.Sent tables inputs k v e

section Accounted

variable {ι : Type} [DecidableEq ι] {hashFn : Bytes → UInt64} {server : Server Arena ι}
  {inputs : List (ι × ServerEvent)}

theorem Server.Accounted.next (h : server.Accounted tables hashFn inputs)
    (hframed : ∀ i, (server.sessions i).Framed tables elemSize) (input : ι × ServerEvent) :
    (server.next tables elemSize (arenaStore hashFn) input).Accounted tables hashFn
      (inputs ++ [input]) := by
  have hkept : ∀ {k v e}, server.Sent tables inputs k v e →
      (server.next tables elemSize (arenaStore hashFn) input).Sent tables (inputs ++ [input])
        k v e :=
    fun hsent => hsent.final elemSize (arenaStore hashFn) [input]
  rcases Server.next_store elemSize (arenaStore hashFn) input hframed with
    hstore | ⟨q, clock, hclock, hmay, hstore⟩
  · refine ⟨?_, ?_⟩
    · rw [hstore]
      exact h.reachable
    · intro k v e hs
      rw [hstore] at hs
      exact hkept (h.sent k v e hs)
  · refine ⟨?_, ?_⟩
    · rw [hstore]
      exact h.reachable.query q clock
    · intro k v e hs
      rw [hstore] at hs
      rcases Query.stores_after h.reachable.tableInv hs with hbefore | ⟨ttlSecs, rfl, he⟩
      · exact hkept (h.sent k v e hbefore)
      · obtain ⟨val, cmd, hval, hcmd, hwrites⟩ := hmay
        have hgrows := Server.next_grows tables elemSize (arenaStore hashFn) server input input.1
        have hinput : (input.1, ServerEvent.operate clock) ∈ inputs ++ [input] := by
          rw [← hclock]
          exact List.mem_append_right _ (List.mem_singleton_self input)
        exact ⟨input.1, val, cmd, ttlSecs, clock, hgrows.requests hval, hcmd,
          Command.Writes.mono hwrites hgrows.hasRead, hinput, he⟩

/-- In every run of the server, the arena is one that sequential client calls reach, and every
entry in it was written by a command that some connection has dispatched. -/
theorem Server.accounted_after (tables : CaseTables) (elemSize : Nat) (hashFn : Bytes → UInt64)
    (region : Arena) (inputs : List (ι × ServerEvent)) :
    (Server.after tables elemSize (arenaStore hashFn) (createArena region) inputs).Accounted
      tables hashFn inputs := by
  induction inputs using List.reverseRecOn with
  | nil =>
      refine ⟨⟨region, [], rfl⟩, ?_⟩
      intro k v e hs
      obtain ⟨i, hocc, _⟩ := hs
      exact absurd hocc.symm stateOccupied_ne_stateEmpty
  | append_singleton inputs input ih =>
      rw [Server.after_concat]
      exact ih.next (Server.framed_after _ _ _ _ _) input

end Accounted

/-! ## The table as a map -/

/-- Two servers that look the same from their connections and from the metrics channel, and
whose tables are related. -/
structure Server.Matches {σ τ ι : Type} (R : σ → τ → Prop) (server : Server σ ι)
    (server' : Server τ ι) : Prop where
  sessions : server.sessions = server'.sessions
  emitted : server.emitted = server'.emitted
  aborted : server.aborted = server'.aborted
  store : R server.store server'.store

section Matches

variable {σ τ ι : Type} [DecidableEq ι] {R : σ → τ → Prop} {P : Query → Prop}
  {store : ClientStore σ} {store' : ClientStore τ} {server : Server σ ι} {server' : Server τ ι}

/-- Tables that answer alike keep two servers alike. -/
theorem Server.Matches.next (h : server.Matches R server') (halike : Script.Alike store store' P R)
    (elemSize : Nat) (input : ι × ServerEvent)
    (hasks : ((server.sessions input.1).move tables elemSize input.2).Asks P) :
    (server.next tables elemSize store input).Matches R
      (server'.next tables elemSize store' input) := by
  obtain ⟨s, sessions, emitted, aborted⟩ := server
  obtain ⟨t, sessions', emitted', aborted'⟩ := server'
  obtain ⟨hsessions, hemitted, haborted, hstore⟩ := h
  simp only at hsessions hemitted haborted hstore
  subst hsessions hemitted haborted
  cases aborted with
  | true => exact ⟨rfl, rfl, rfl, hstore⟩
  | false =>
      rw [next_of_running rfl, next_of_running rfl]
      simp only at hasks ⊢
      generalize (sessions input.1).move tables elemSize input.2 = move at hasks
      cases move with
      | stay | become | emit | abort => exact ⟨rfl, rfl, rfl, hstore⟩
      | query q clock next =>
          obtain ⟨hanswer, hnext⟩ := halike s t q clock hstore hasks
          refine ⟨?_, rfl, rfl, hnext⟩
          simp only [Server.apply, Server.setSession, hanswer]

/-- The requests dispatched up to a moment are among those dispatched later. -/
theorem Server.plain_before {s : σ} {inputs : List (ι × ServerEvent)} {input : ι × ServerEvent}
    {Q : RespValue → Prop}
    (h : ∀ i, ∀ val ∈ ((Server.after tables elemSize store s (inputs ++ [input])).sessions
      i).requests, Q val) (i : ι) :
    ∀ val ∈ ((Server.after tables elemSize store s inputs).sessions i).requests, Q val := by
  intro val hval
  apply h i val
  rw [Server.after_concat]
  exact (Server.next_grows _ _ _ _ _ i).requests hval

/-- **The arena cannot be told from a map.**  For any fingerprint function, any number of
connections, any bytes on them and any order of their steps: if no request that has been
dispatched asks for an expiry or for `INFO`, the server over a fresh arena has read,
dispatched and written the same on every connection, has sent the same events, and stands
where a server over the finite map with at most `slotCount` keys stands. -/
theorem server_matches_map (tables : CaseTables) (elemSize : Nat) (hashFn : Bytes → UInt64)
    (region : Arena) (inputs : List (ι × ServerEvent))
    (hplain : ∀ i, ∀ val ∈ ((Server.after tables elemSize (arenaStore hashFn)
      (createArena region) inputs).sessions i).requests, val.Plain tables) :
    (Server.after tables elemSize (arenaStore hashFn) (createArena region) inputs).Matches
      (Refines hashFn) (Server.after tables elemSize mapStore ∅ inputs) := by
  induction inputs using List.reverseRecOn with
  | nil => exact ⟨rfl, rfl, rfl, .createArena region⟩
  | append_singleton inputs input ih =>
      have hbefore := Server.plain_before hplain
      have hframed := Server.framed_after tables elemSize (arenaStore hashFn) (createArena region)
        inputs input.1
      rw [Server.after_concat, Server.after_concat]
      apply (ih hbefore).next (arenaStore_alike hashFn)
      apply (hframed.asks input.2).mono
      intro q hq
      obtain ⟨val, cmd, hval, hcmd, hmade⟩ := hq
      exact hmade.plain (hbefore input.1 val hval cmd hcmd)

end Matches

/-- One connection steps a counter while the other writes it. -/
def overlapInputs : List (Bool × ServerEvent) :=
  [(false, .accept), (true, .accept), (false, .read (encodeToVec (request "INCR" [[1]]))),
    (true, .read (encodeToVec (request "MSET" [[1], [57]]))), (false, .parse true),
    (true, .parse true), (false, .operate fun _ => 0), (true, .operate fun _ => 0),
    (false, .operate fun _ => 0), (true, .reply 0 true), (false, .reply 0 true)]

theorem server_matches_map_overlap :
    (Server.after asciiTables 32 (arenaStore siphash) (createArena zeroedRegion)
      overlapInputs).Matches (Refines siphash)
        (Server.after asciiTables 32 mapStore ∅ overlapInputs) := by
  apply server_matches_map asciiTables 32 siphash zeroedRegion overlapInputs
  have hrequests : ∀ i, ((Server.after asciiTables 32 (arenaStore siphash)
      (createArena zeroedRegion) overlapInputs).sessions i).requests =
        [bif i then request "MSET" [[1], [57]] else request "INCR" [[1]]] := by
    intro i
    cases i <;> rfl
  intro i val hval
  rw [hrequests i, List.mem_singleton] at hval
  subst hval
  apply RespValue.plain_of_ne
  intro cmd hcmd
  cases i
  all_goals
    simp only [cond_true, cond_false] at hcmd
    rw [extractCommand_request _ (by decide)] at hcmd
    cases hcmd
    decide

end MemLane
