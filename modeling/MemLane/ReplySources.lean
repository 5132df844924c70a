import MemLane.ServerRuns

/-!
# Where the values in replies come from

A value that `GET` or `MGET` replies has been on its way through the table: some connection
has sent it for the very key that was asked for.  That is so however many requests run at the
same time, and although the operations of other requests come between those of an `MGET`.

The script of a request turns the answers of the table into a reply; what holds of the answers
holds of the reply (`requestScript_ends`), and the answers come from an arena in which every
entry was sent.
-/

namespace MemLane

/-! ## Scripts and their answers -/

/-- An answer of the table has only values that `sent` has for the key. -/
def Answers (sent : Bytes → Bytes → Prop) : (q : Query) → q.Result → Prop
  | .get key, (result : Except MemLaneError (Option Bytes)) =>
      ∀ value, result = .ok (some value) → sent key value
  | _, _ => True

/-- A reply to `GET` or `MGET` has only values that `sent` has for the keys asked for. -/
structure Command.Backs (sent : Bytes → Bytes → Prop) (cmd : Command) (reply : RespValue) :
    Prop where
  get : cmd.name = "GET" → ∀ value, reply = .bulkString value →
    ∃ key, cmd.args = [key] ∧ sent key value
  mget : cmd.name = "MGET" → ∀ items, reply = .array items →
    List.Forall₂ (fun key item => item = .nil ∨ ∃ value, item = .bulkString value ∧ sent key value)
      cmd.args items

section Scripts

variable {tables : CaseTables} {sent : Bytes → Bytes → Prop}

theorem mgetScript_ends (seen keys : List Bytes) (values : List (Option Bytes))
    (hseen : List.Forall₂ (fun key stored => ∀ value, stored = some value → sent key value) seen
      values) :
    (mgetScript values keys).Ends (Answers sent) fun reply => ∀ items, reply = .array items →
      List.Forall₂ (fun key item => item = .nil ∨
        ∃ value, item = .bulkString value ∧ sent key value) (seen ++ keys) items := by
  induction keys generalizing seen values with
  | nil =>
      intro items hitems
      obtain rfl := RespValue.array.inj hitems
      rw [List.append_nil, List.forall₂_map_right_iff]
      refine hseen.imp fun key stored hstored => ?_
      cases stored with
      | none => exact .inl rfl
      | some value => exact .inr ⟨value, rfl, hstored value rfl⟩
  | cons key keys ih =>
      intro result hresult
      cases result with
      | error e => exact fun items hitems => RespValue.noConfusion hitems
      | ok stored =>
          have hnext := ih (seen ++ [key]) (values ++ [stored]) (List.rel_append hseen
            (.cons (fun value hvalue => hresult value (congrArg Except.ok hvalue)) .nil))
          rw [List.append_assoc] at hnext
          exact hnext

/-- A reply that is no value backs anything. -/
theorem Command.Backs.error (cmd : Command) (msg : String) : cmd.Backs sent (.error msg) :=
  ⟨fun _ _ h => RespValue.noConfusion h, fun _ _ h => RespValue.noConfusion h⟩

theorem commandScript_ends (cmd : Command) :
    (commandScript tables cmd).Ends (Answers sent) (cmd.Backs sent) := by
  obtain ⟨name, args⟩ := cmd
  have hne : "GET" ≠ "MGET" := by decide
  by_cases hget : name = "GET"
  · subst hget
    rcases args with _ | ⟨key, _ | ⟨more, rest⟩⟩
    · exact .error ..
    · intro result hresult
      refine ⟨fun _ value hvalue => ⟨key, rfl, ?_⟩, fun hname => absurd hname hne⟩
      cases result with
      | error e => exact RespValue.noConfusion hvalue
      | ok stored =>
          cases stored with
          | none => exact RespValue.noConfusion hvalue
          | some data =>
              obtain rfl := RespValue.bulkString.inj hvalue
              exact hresult data rfl
    · exact .error ..
  · by_cases hmget : name = "MGET"
    · subst hmget
      cases args with
      | nil => exact .error ..
      | cons key keys =>
          refine (mgetScript_ends [] (key :: keys) [] .nil).mono fun reply h => ?_
          exact ⟨fun hname => absurd hname.symm hne, fun _ => h⟩
    · exact .of_forall (fun reply => ⟨fun h => absurd h hget, fun h => absurd h hmget⟩) _

/-- What a request replies, if the answers that it gets have been sent. -/
theorem requestScript_ends (tables : CaseTables) (sent : Bytes → Bytes → Prop) (val : RespValue) :
    (requestScript tables val).Ends (Answers sent) fun reply =>
      ∀ cmd, extractCommand tables val = .ok cmd → cmd.Backs sent reply := by
  unfold requestScript
  cases extractCommand tables val with
  | error e =>
      intro cmd hcmd
      cases hcmd
  | ok cmd =>
      refine commandScript_ends cmd |>.mono fun reply h cmd' hcmd' => ?_
      obtain rfl := Except.ok.inj hcmd'
      exact h

end Scripts

/-! ## Connections -/

/-- A write that comes right after a request is a reply to it of the kind `G`. -/
def Act.Replies (G : RespValue → RespValue → Prop) : Act → Act → Prop
  | .dispatched val, .wrote bytes => ∃ reply, bytes = encodeToVec reply ∧ G val reply
  | _, _ => True

/-- All replies of the connection are of the kind `G`, and the one that it works on will be, if
the answers it gets are of the kind `C`. -/
structure Session.Replied (C : (q : Query) → q.Result → Prop) (G : RespValue → RespValue → Prop)
    (session : Session) : Prop where
  replies : session.acts.IsChain (Act.Replies G)
  running : ∀ offset val script, session.phase = .running offset val script →
    session.acts.getLast? = some (.dispatched val) ∧ script.Ends C (G val)
  between : ∀ val, session.acts.getLast? = some (.dispatched val) →
    (∃ offset script, session.phase = .running offset val script) ∨ session.phase = .returned

/-- Whatever the step makes of the session satisfies `P`, if its answer is of the kind `C`. -/
def SessionMove.LeadsIf (C : (q : Query) → q.Result → Prop) (P : Session → Prop) :
    SessionMove → Prop
  | .query q _ next => ∀ answer, C q answer → P (next answer)
  | move => move.Leads P

namespace Session

variable {tables : CaseTables} {elemSize : Nat} {C : (q : Query) → q.Result → Prop}
  {G : RespValue → RespValue → Prop} {session : Session} {phase : SessionPhase}
  {pending received : Bytes} {asked : List Operation} {acts : List Act}

theorem Replied.new : Session.new.Replied C G where
  replies := .nil
  running _ _ _ hphase := SessionPhase.noConfusion hphase
  between _ hlast := by cases hlast

/-- A connection whose last act was no request, and that works on none. -/
theorem Replied.of_rested (hreplies : acts.IsChain (Act.Replies G))
    (hrested : ∀ val, acts.getLast? ≠ some (.dispatched val))
    (hphase : ∀ offset val script, phase ≠ .running offset val script) :
    Replied C G { phase := phase, pending := pending, received := received, asked := asked,
                  acts := acts } where
  replies := hreplies
  running offset val script h := absurd h (hphase offset val script)
  between val hlast := absurd hlast (hrested val)

/-- Between two requests the last act was none. -/
theorem Replied.rested (h : session.Replied C G)
    (hphase : ∀ offset val script, session.phase ≠ .running offset val script)
    (hserves : session.phase ≠ .returned) (val : RespValue) :
    session.acts.getLast? ≠ some (.dispatched val) := by
  intro hlast
  obtain ⟨offset, script, hrunning⟩ | hreturned := h.between val hlast
  · exact hphase offset val script hrunning
  · exact hserves hreturned

/-- An act that answers no request. -/
theorem Replied.chain_concat (h : session.acts.IsChain (Act.Replies G))
    (hrested : ∀ val, session.acts.getLast? ≠ some (.dispatched val)) (more : List Act)
    (hmore : more.IsChain (Act.Replies G)) :
    (session.acts ++ more).IsChain (Act.Replies G) := by
  refine h.append hmore fun act hact next _ => ?_
  cases act with
  | dispatched val => exact absurd hact (hrested val)
  | wrote | cleared => trivial

section Scripts

variable (hscript : ∀ val, (requestScript tables val).Ends C (G val))

include hscript

/-- The head of the inner loop, between two requests. -/
theorem Replied.parseMove (h : session.acts.IsChain (Act.Replies G))
    (hrested : ∀ val, session.acts.getLast? ≠ some (.dispatched val)) (offset : Nat)
    (written : Bool) :
    (session.parseMove tables elemSize offset written).LeadsIf C (Replied C G) := by
  unfold Session.parseMove
  split
  · trivial
  · split
    · next val consumed _ =>
        have hlast : (session.acts ++ [Act.dispatched val]).getLast? = some (.dispatched val) :=
          List.getLast?_concat
        refine ⟨Replied.chain_concat h hrested _ (.singleton _), ?_, ?_⟩
        · intro offset' val' script hphase
          obtain ⟨-, rfl, rfl⟩ := SessionPhase.running.inj hphase
          exact ⟨hlast, hscript val⟩
        · intro val' hlast'
          obtain rfl := Act.dispatched.inj (Option.some.inj (hlast.symm.trans hlast'))
          exact .inl ⟨_, _, rfl⟩
    · exact .of_rested h hrested fun _ _ _ => SessionPhase.noConfusion
    · split
      · refine .of_rested (Replied.chain_concat h hrested _ ?_) ?_ fun _ _ _ =>
          SessionPhase.noConfusion
        · exact .cons_cons trivial (.singleton _)
        · simp
      · exact .of_rested h hrested fun _ _ _ => SessionPhase.noConfusion
    · trivial

theorem Replied.move (h : session.Replied C G) (event : ServerEvent) :
    (session.move tables elemSize event).LeadsIf C (Replied C G) := by
  unfold Session.move
  split
  · trivial
  · next hphase =>
      have hrested := h.rested (by simp [hphase]) (by simp [hphase])
      exact .of_rested h.replies hrested fun _ _ _ => SessionPhase.noConfusion
  · trivial
  · next hphase =>
      have hrested := h.rested (by simp [hphase]) (by simp [hphase])
      unfold readMove
      split
      · exact .of_rested h.replies hrested fun _ _ _ => SessionPhase.noConfusion
      · split
        · trivial
        · exact .of_rested h.replies hrested fun _ _ _ => SessionPhase.noConfusion
  · next hphase =>
      have hrested := h.rested (by simp [hphase]) (by simp [hphase])
      exact .of_rested h.replies hrested fun _ _ _ => SessionPhase.noConfusion
  · next hphase =>
      have hrested := h.rested (by simp [hphase]) (by simp [hphase])
      exact Replied.parseMove hscript h.replies hrested _ _
  · next clock offset val q next hphase =>
      obtain ⟨hlast, hends⟩ := h.running _ _ _ hphase
      intro answer hanswer
      refine ⟨h.replies, ?_, ?_⟩
      · intro offset' val' script' hphase'
        obtain ⟨-, rfl, rfl⟩ := SessionPhase.running.inj hphase'
        exact ⟨hlast, hends answer hanswer⟩
      · intro val' hlast'
        obtain rfl := Act.dispatched.inj (Option.some.inj (hlast.symm.trans hlast'))
        exact .inl ⟨_, _, rfl⟩
  · next elapsedUs written offset val reply hphase =>
      obtain ⟨hlast, hends⟩ := h.running _ _ _ hphase
      unfold replyMove
      split
      · refine .of_rested (h.replies.append (.singleton _) ?_) (by simp) fun _ _ _ =>
          SessionPhase.noConfusion
        intro act hact next hnext
        obtain rfl := Option.some.inj (hlast.symm.trans hact)
        obtain rfl := Option.some.inj hnext
        exact ⟨reply, rfl, hends⟩
      · refine ⟨h.replies, fun _ _ _ => SessionPhase.noConfusion, fun _ _ => .inr rfl⟩
  · trivial

end Scripts

end Session

/-! ## The server -/

namespace Server

variable {σ ι : Type} [DecidableEq ι] {tables : CaseTables} {elemSize : Nat}
  {sent : Bytes → Bytes → Prop} {store : ClientStore σ} {server : Server σ ι}

/-- A step keeps a property of sessions, if the answers of the table do. -/
theorem sessions_next {C : (q : Query) → q.Result → Prop} {P : Session → Prop}
    (hmove : ∀ session event, P session → (session.move tables elemSize event).LeadsIf C P)
    (hanswers : ∀ q clock, C q (store server.store q clock).1)
    (h : ∀ i, P (server.sessions i)) (input : ι × ServerEvent) (i : ι) :
    P ((server.next tables elemSize store input).sessions i) := by
  cases haborted : server.aborted with
  | true =>
      rw [next_aborted haborted]
      exact h i
  | false =>
      rw [next_of_running haborted]
      by_cases hi : i = input.1
      · subst hi
        have hleads := hmove _ input.2 (h input.1)
        generalize (server.sessions input.1).move tables elemSize input.2 = move at hleads
        cases move with
        | query q clock next =>
            have hself := @setSession_self _ _ _ server input.1
              (next (store server.store q clock).1)
            rw [apply]
            simp only [hself]
            exact hleads _ (hanswers q clock)
        | stay | become | emit | abort => exact apply_session hleads fun _ => h input.1
      · rw [apply_sessions_of_ne hi]
        exact h i

/-- **Reply rule.**  If scripts end in replies of the kind `G` on answers of the kind `C`, and the
table gives such answers in every state of the run, then all replies are of this kind. -/
theorem replied_after {C : (q : Query) → q.Result → Prop} {G : RespValue → RespValue → Prop}
    (elemSize : Nat) (hscript : ∀ val, (requestScript tables val).Ends C (G val)) {s : σ}
    {inputs : List (ι × ServerEvent)}
    (hanswers : ∀ before input later, inputs = before ++ input :: later → ∀ q clock,
      C q (store (after tables elemSize store s before).store q clock).1) (i : ι) :
    ((after tables elemSize store s inputs).sessions i).Replied C G := by
  have hall : ∀ i, ((after tables elemSize store s inputs).sessions i).Replied C G :=
    Run.invariant (fun server : Server σ ι => ∀ i, (server.sessions i).Replied C G)
      (fun _ input h hanswers =>
        sessions_next (fun _ event h => h.move hscript event) hanswers h input)
      (fun _ => .new) (Run.along_iff.mpr hanswers)
  exact hall i

end Server

/-- The answers of an arena in which every entry was sent. -/
theorem Server.Accounted.answers {ι : Type} {tables : CaseTables} {hashFn : Bytes → UInt64}
    {inputs : List (ι × ServerEvent)} {server : Server Arena ι} {sent : Bytes → Bytes → Prop}
    (h : server.Accounted tables hashFn inputs)
    (hsent : ∀ k v e, server.Sent tables inputs k v e → sent k v) (q : Query) (clock : Clock) :
    Answers sent q (arenaStore hashFn server.store q clock).1 := by
  cases q with
  | get key =>
      intro value hvalue
      obtain ⟨_, hfound⟩ := (MemLaneClient.get_eq_some_iff ..).mp hvalue
      obtain ⟨m, _, hocc, hkey, hval, _⟩ := get_found hfound
      exact hsent _ _ _ (h.sent key value _ ⟨_, hocc, hkey, hval, rfl⟩)
  | set | del | existsKey | flush | usedCount => trivial

/-- **Nothing is stored or replied but what was sent.**  In every run of the server, one
operation on the table at a time, whatever bytes its connections receive and in whatever order
their operations come: the arena is one that sequential client calls reach, every entry in it
was written by a command that some connection has dispatched, a counter following a number that
the same connection has read, with an expiry computed from its time to live and a reading that
an operation of the connection made, and every value in a reply to `GET` or `MGET` was so written
for the key that it is the reply for. -/
theorem server_values_sent {ι : Type} [DecidableEq ι] (tables : CaseTables) (elemSize : Nat)
    (hashFn : Bytes → UInt64) (region : Arena) (inputs : List (ι × ServerEvent)) :
    let server := Server.after tables elemSize (arenaStore hashFn) (createArena region) inputs
    server.Accounted tables hashFn inputs ∧ ∀ i, (server.sessions i).acts.IsChain (Act.Replies
      fun val reply => ∀ cmd, extractCommand tables val = .ok cmd →
        cmd.Backs (fun key value => ∃ expiry, server.Sent tables inputs key value expiry)
          reply) := by
  intro server
  refine ⟨Server.accounted_after tables elemSize hashFn region inputs, fun i => ?_⟩
  refine (Server.replied_after elemSize (requestScript_ends tables _) ?_ i).replies
  intro before input later heq q clock
  have haccounted := Server.accounted_after tables elemSize hashFn region before
  refine haccounted.answers (fun key value expiry hsent => ?_) q clock
  have hafter := hsent.final elemSize (arenaStore hashFn) (input :: later)
  rw [Server.after, ← Run.final_append, ← heq] at hafter
  exact ⟨expiry, hafter⟩

end MemLane
