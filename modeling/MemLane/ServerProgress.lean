import MemLane.ReplyFraming
import MemLane.RespGrammar
import MemLane.ServerRuns

/-!
# Every request is answered

Between two reads a connection has a bounded amount of work: at most one step for every
pending byte, and one more.  Within so many steps of its own it has answered all complete
requests, whatever the other connections do and however long they take.

A frame of `c` bytes leads to one parse, one reply, and at most as many operations on the
table as it has items, and one more; every item is at least three bytes long.
-/

namespace MemLane

open Framing (drain)

/-! ## The operations of a request -/

section Scripts

variable {tables : CaseTables}

theorem delScript_atMost (deleted : Int64) (keys : List Bytes) :
    (delScript deleted keys).AtMost keys.length := by
  induction keys generalizing deleted with
  | nil => trivial
  | cons key keys ih => exact fun result => ih _

theorem existsScript_atMost (count : Int64) (keys : List Bytes) :
    (existsScript count keys).AtMost keys.length := by
  induction keys generalizing count with
  | nil => trivial
  | cons key keys ih => exact fun result => ih _

theorem mgetScript_atMost (values : List (Option Bytes)) (keys : List Bytes) :
    (mgetScript values keys).AtMost keys.length := by
  induction keys generalizing values with
  | nil => trivial
  | cons key keys ih =>
      intro result
      cases result with
      | error e => trivial
      | ok value => exact ih _

theorem msetScript_atMost (pairs : List (Bytes × Bytes)) :
    (msetScript pairs).AtMost pairs.length := by
  induction pairs with
  | nil => trivial
  | cons pair pairs ih =>
      intro result
      cases result with
      | error e => trivial
      | ok isNew => exact ih

theorem counterScript_atMost (next : UInt64 → UInt64) (key : Bytes) :
    (counterScript next key).AtMost 2 := by
  intro result
  cases result with
  | error e => trivial
  | ok stored => exact fun _ => trivial

theorem length_chunkPairs_le (args : List Bytes) : (chunkPairs args).length ≤ args.length := by
  induction args using chunkPairs.induct with
  | case1 key value rest ih =>
      rw [chunkPairs, List.length_cons, List.length_cons, List.length_cons]
      omega
  | case2 args hshort =>
      rw [chunkPairs]
      · exact Nat.zero_le _
      · exact hshort

theorem commandScript_atMost (tables : CaseTables) (cmd : Command) :
    (commandScript tables cmd).AtMost (cmd.args.length + 2) := by
  obtain ⟨name, args⟩ := cmd
  unfold commandScript
  simp only
  -- one case per command name, in the order of the source
  split
  · cases args <;> trivial
  · rcases args with _ | ⟨key, _ | ⟨more, rest⟩⟩
    · trivial
    · exact fun _ => trivial
    · trivial
  · rcases args with _ | ⟨key, _ | ⟨value, options⟩⟩
    · trivial
    · trivial
    · exact fun _ => trivial
  · cases args with
    | nil => trivial
    | cons key keys => exact (delScript_atMost 0 _).mono (Nat.le_add_right _ 2)
  · cases args with
    | nil => trivial
    | cons key keys => exact (existsScript_atMost 0 _).mono (Nat.le_add_right _ 2)
  · cases args with
    | nil => trivial
    | cons key keys => exact (mgetScript_atMost [] _).mono (Nat.le_add_right _ 2)
  · split
    · trivial
    · exact (msetScript_atMost _).mono ((length_chunkPairs_le args).trans (Nat.le_add_right _ 2))
  · rcases args with _ | ⟨key, _ | ⟨more, rest⟩⟩
    · trivial
    · exact (counterScript_atMost _ key).mono (Nat.le_add_left 2 _)
    · trivial
  · rcases args with _ | ⟨key, _ | ⟨more, rest⟩⟩
    · trivial
    · exact (counterScript_atMost _ key).mono (Nat.le_add_left 2 _)
    · trivial
  · rcases args with _ | ⟨key, _ | ⟨more, rest⟩⟩ <;> trivial
  · exact fun _ => trivial
  · exact fun _ => trivial
  · exact fun _ => trivial
  · exact fun _ _ => trivial
  · trivial
  · trivial

/-- A request makes at most one operation for each of its items, and one more. -/
theorem requestScript_atMost (tables : CaseTables) (val : RespValue) :
    (requestScript tables val).AtMost (val.items.length + 1) := by
  unfold requestScript
  cases hcmd : extractCommand tables val with
  | error e => trivial
  | ok cmd =>
      obtain ⟨name, text, rfl, _⟩ := extractCommand_ok_iff.mp hcmd
      rw [RespValue.items, List.length_map, List.length_cons]
      exact commandScript_atMost tables cmd

end Scripts

/-- A frame has three bytes, and three for each of its items. -/
theorem items_le_of_parse {elemSize : Nat} {buf : Bytes} {val : RespValue} {consumed : Nat}
    (hlen : buf.length ≤ isizeMax) (h : parse elemSize buf = .ok (some (val, consumed))) :
    val.items.length + 3 ≤ consumed ∧ consumed ≤ buf.length := by
  refine ⟨?_, (parse_progress hlen h).2⟩
  obtain ⟨used, rest, rfl, rfl, haccepted⟩ := parse_accepted elemSize hlen _ _ h
  have hshort := haccepted.three_le_length
  cases haccepted with
  | @array s count frames hline hparse hneg hcount halloc hframes =>
      have hlong := three_mul_length_le_flatMap fun frame hframe =>
        (hframes frame hframe).three_le_length
      rw [RespValue.items, List.length_map, List.length_append, length_line]
      omega
  | simpleString | error | integer | nilBulkString | bulkString | nilArray => exact hshort

/-! ## The steps of a connection -/

/-- The phase waits for this event. -/
def SessionPhase.Awaits : SessionPhase → ServerEvent → Prop
  | .unaccepted, .accept | .unaccepted, .acceptFailed => True
  | .reading, .read _ | .reading, .readFailed => True
  | .parsing _, .parse _ => True
  | .running _ _ (.ask _ _), .operate _ => True
  | .running _ _ (.done _), .reply _ _ => True
  | _, .exhausted => True
  | _, _ => False

/-- The connection has something to do. -/
def SessionPhase.Busy : SessionPhase → Prop
  | .parsing _ | .running _ _ _ => True
  | _ => False

/-- The connection awaits its next read, or has ended, after at most `n` of its steps. -/
def Session.Left (n : Nat) (session : Session) : Prop :=
  match session.phase with
  | .parsing offset => session.pending.length - offset + 1 ≤ n
  | .running offset _ script => ∃ k, script.AtMost k ∧
      k + 1 + (session.pending.length - offset + 1) ≤ n
  | _ => True

/-- The operations of the request in progress are bounded by the bytes before the offset. -/
def Session.Paced (session : Session) : Prop :=
  match session.phase with
  | .running offset _ script => ∃ k, script.AtMost k ∧ k < offset
  | _ => True

/-- The step is one, and what it makes of the session satisfies `P`. -/
def SessionMove.Advances (P : Session → Prop) : SessionMove → Prop
  | .stay => False
  | move => move.Leads P

theorem SessionMove.Advances.leads {P : Session → Prop} {move : SessionMove}
    (h : move.Advances P) : move.Leads P := by
  cases move with
  | stay => trivial
  | become | query | emit | abort => exact h

theorem SessionMove.Leads.and {P P' : Session → Prop} {move : SessionMove} (h : move.Leads P)
    (h' : move.Leads P') : move.Leads fun session => P session ∧ P' session := by
  cases move with
  | stay | abort => trivial
  | become | emit => exact ⟨h, h'⟩
  | query => exact fun answer => ⟨h answer, h' answer⟩

namespace Session

variable {tables : CaseTables} {elemSize n : Nat} {session : Session}

/-- The head of the inner loop takes a frame, which is longer than its items are many, or there
is nothing to do afterwards. -/
theorem parseMove_advances {P : Session → Prop} {offset : Nat}
    (hoffset : offset ≤ session.pending.length) (hsize : session.pending.length ≤ isizeMax)
    (hrun : ∀ val consumed acts, val.items.length + 3 ≤ consumed →
      offset + consumed ≤ session.pending.length →
        P { session with
          phase := .running (offset + consumed) val (requestScript tables val)
          acts := acts })
    (hrest : ∀ session' : Session, ¬ session'.phase.Busy → P session') (sent : Bool) :
    (session.parseMove tables elemSize offset sent).Advances P := by
  have hdrop : (session.pending.drop offset).length ≤ isizeMax := by
    rw [List.length_drop]
    exact (Nat.sub_le _ _).trans hsize
  unfold Session.parseMove
  rw [sliceFrom, if_pos hoffset]
  simp only
  cases hparse : parse elemSize (session.pending.drop offset) with
  | error fault =>
      cases fault with
      | panic => trivial
      | err e =>
          cases sent with
          | true => exact hrest _ id
          | false => exact hrest _ id
  | ok found =>
      cases found with
      | none => exact hrest _ id
      | some frame =>
          obtain ⟨val, consumed⟩ := frame
          obtain ⟨hitems, hle⟩ := items_le_of_parse hdrop hparse
          rw [List.length_drop] at hle
          have hadd : usizeAdd offset consumed = offset + consumed := by
            rw [usizeAdd_eq]
            unfold isizeMax at hsize
            omega
          have hnext := hrun val consumed (session.acts ++ [.dispatched val]) hitems (by omega)
          rw [← hadd] at hnext
          exact hnext

theorem Left.of_rested (h : ¬ session.phase.Busy) : session.Left n := by
  unfold Left
  split
  · next hphase => exact (h (by rw [hphase]; trivial)).elim
  · next hphase => exact (h (by rw [hphase]; trivial)).elim
  · trivial

theorem Paced.of_rested (h : ¬ session.phase.Busy) : session.Paced := by
  unfold Paced
  split
  · next hphase => exact (h (by rw [hphase]; trivial)).elim
  · trivial

theorem Left.pos (h : session.Left n) (hbusy : session.phase.Busy) : 0 < n := by
  unfold Left at h
  split at h
  · omega
  · obtain ⟨k, _, hk⟩ := h
    omega
  · next hparsing hrunning =>
      cases hphase : session.phase with
      | parsing offset => exact (hparsing offset hphase).elim
      | running offset val script => exact (hrunning offset val script hphase).elim
      | unaccepted | reading | returned =>
          rw [hphase] at hbusy
          exact hbusy.elim

/-- Step lemma: each step of a busy connection leaves fewer. -/
theorem Left.advance (h : session.Left (n + 1)) (hframed : session.Framed tables elemSize)
    (hbusy : session.phase.Busy) {event : ServerEvent} (hawaits : session.phase.Awaits event) :
    (session.move tables elemSize event).Advances (Left n) := by
  unfold Session.move
  cases hphase : session.phase with
  | unaccepted | reading | returned =>
      rw [hphase] at hbusy
      exact hbusy.elim
  | parsing offset =>
      rw [Left, hphase] at h
      rw [Framed, hphase] at hframed
      obtain ⟨vals, htaken, _⟩ := hframed
      rw [hphase] at hawaits
      cases event with
      | parse sent =>
          refine parseMove_advances htaken.offset_le htaken.size ?_ (fun _ => .of_rested) sent
          intro val consumed acts hitems hle
          exact ⟨_, requestScript_atMost tables val, by simp only; omega⟩
      | exhausted => trivial
      | accept | acceptFailed | read | readFailed | operate | reply => exact hawaits.elim
  | running offset val script =>
      rw [Left, hphase] at h
      obtain ⟨k, hscript, hk⟩ := h
      rw [hphase] at hawaits
      cases script with
      | done reply =>
          cases event with
          | reply elapsedUs sent =>
              cases sent with
              | false => trivial
              | true =>
                  have hleft : session.pending.length - offset + 1 ≤ n := by omega
                  exact hleft
          | exhausted => trivial
          | accept | acceptFailed | read | readFailed | parse | operate => exact hawaits.elim
      | ask q next =>
          cases event with
          | operate clock =>
              cases k with
              | zero => exact hscript.elim
              | succ k => exact fun answer => ⟨k, hscript answer, by simp only; omega⟩
          | exhausted => trivial
          | accept | acceptFailed | read | readFailed | parse | reply => exact hawaits.elim

theorem Paced.move (h : session.Paced) (hframed : session.Framed tables elemSize)
    (event : ServerEvent) :
    (session.move tables elemSize event).Leads Paced := by
  unfold Session.move
  split
  · trivial
  · trivial
  · trivial
  · unfold readMove
    split
    · trivial
    · split <;> trivial
  · trivial
  · next sent offset hphase =>
      rw [Framed, hphase] at hframed
      obtain ⟨vals, htaken, _⟩ := hframed
      refine (parseMove_advances htaken.offset_le htaken.size ?_ (fun _ => .of_rested) sent).leads
      intro val consumed acts hitems _
      exact ⟨_, requestScript_atMost tables val, by omega⟩
  · next clock offset val q next hphase =>
      rw [Paced, hphase] at h
      obtain ⟨k, hscript, hk⟩ := h
      cases k with
      | zero => exact hscript.elim
      | succ k => exact fun answer => ⟨k, hscript answer, Nat.lt_of_succ_lt hk⟩
  · unfold replyMove
    split <;> trivial
  · trivial

/-- What is left is bounded by the pending bytes. -/
theorem Paced.left (h : session.Paced) (hframed : session.Framed tables elemSize) :
    session.Left (session.pending.length + 1) := by
  unfold Left
  split
  · omega
  · next offset val script hphase =>
      rw [Paced, hphase] at h
      rw [Framed, hphase] at hframed
      obtain ⟨k, hscript, hk⟩ := h
      obtain ⟨vals, htaken, _⟩ := hframed
      have hoffset := htaken.offset_le
      exact ⟨k, hscript, by omega⟩
  · trivial

end Session

/-! ## Runs of the server -/

namespace Server

variable {σ ι : Type} [DecidableEq ι] {tables : CaseTables} {elemSize : Nat}
  {store : ClientStore σ} {server : Server σ ι} {i : ι} {n : Nat} {input : ι × ServerEvent}

/-- The process has ended, or connection `i` has, or it awaits a read and has answered all that
is complete in what it has received. -/
def Settled (tables : CaseTables) (elemSize : Nat) (server : Server σ ι) (i : ι) : Prop :=
  server.aborted = true ∨ ¬ (server.sessions i).phase.Busy ∧
    ((server.sessions i).phase = .reading → ∃ vals,
      drain (parseFront elemSize) (server.sessions i).received =
        (vals, .ok (server.sessions i).pending) ∧ (server.sessions i).Alternates tables vals none)

/-- What is left to do of a connection, unless the process has ended. -/
def Left (i : ι) (n : Nat) (server : Server σ ι) : Prop :=
  server.aborted = true ∨ (server.sessions i).Left n

theorem Left.other (h : server.Left i n) (hother : input.1 ≠ i) :
    (server.next tables elemSize store input).Left i n := by
  cases haborted : server.aborted with
  | true =>
      rw [next_aborted haborted]
      exact h
  | false =>
      refine .inr ?_
      rw [next_of_running haborted, apply_sessions_of_ne (Ne.symm hother)]
      exact h.resolve_left (ne_true_of_eq_false haborted)

/-- A step of a busy connection. -/
theorem Left.own (h : server.Left i (n + 1))
    (hframed : (server.sessions i).Framed tables elemSize)
    (hbusy : (server.sessions i).phase.Busy) (hi : input.1 = i)
    (hawaits : (server.sessions i).phase.Awaits input.2) :
    (server.next tables elemSize store input).Left i n := by
  subst hi
  cases haborted : server.aborted with
  | true =>
      rw [next_aborted haborted]
      exact .inl haborted
  | false =>
      have hadvance : ((server.sessions input.1).move tables elemSize input.2).Advances
          (Session.Left n) :=
        (h.resolve_left (ne_true_of_eq_false haborted)).advance hframed hbusy hawaits
      rw [next_of_running haborted]
      generalize (server.sessions input.1).move tables elemSize input.2 = move at hadvance
      cases move with
      | abort => exact .inl rfl
      | stay => exact hadvance.elim
      | become | query | emit =>
          exact .inr (apply_session (P := Session.Left n) hadvance.leads (by simp))

omit [DecidableEq ι] in
/-- A connection that is not settled is busy. -/
theorem busy_of_unsettled (hframed : (server.sessions i).Framed tables elemSize)
    (h : ¬ server.Settled tables elemSize i) : (server.sessions i).phase.Busy := by
  by_contra hrest
  exact h (.inr ⟨hrest, hframed.answered⟩)

theorem left_after (tables : CaseTables) (elemSize : Nat) (store : ClientStore σ) (s : σ)
    (inputs : List (ι × ServerEvent)) (i : ι) :
    (after tables elemSize store s inputs).Left i
      (((after tables elemSize store s inputs).sessions i).pending.length + 1) := by
  have hpaced : ((after tables elemSize store s inputs).sessions i).Framed tables elemSize ∧
      ((after tables elemSize store s inputs).sessions i).Paced := by
    refine sessions_invariant (fun session => session.Framed tables elemSize ∧ session.Paced)
      ⟨rfl, trivial⟩ ?_ store s inputs i
    intro session event h
    exact SessionMove.Leads.and (h.1.move event) (h.2.move h.1 event)
  exact .inr (hpaced.2.left hpaced.1)

end Server

/-- **Every request is answered.**  In every run of the server, whatever the table answers: from
any moment on, a connection needs at most one step for each of its pending bytes, and one more,
until the process or the connection has ended, or the connection awaits a read and has answered
every complete request in what it has received.  The steps of the other connections do not
count, and may come in between in any number. -/
theorem requests_answered {σ ι : Type} [DecidableEq ι] (tables : CaseTables) (elemSize : Nat)
    (store : ClientStore σ) (s : σ) (inputs later : List (ι × ServerEvent)) (i : ι)
    (hawaits : Run.Along (Server.next tables elemSize store)
      (fun server input => input.1 = i → (server.sessions i).phase.Awaits input.2)
      (Server.after tables elemSize store s inputs) later) :
    let server := Server.after tables elemSize store s inputs
    later.countP (fun input => decide (input.1 = i)) < (server.sessions i).pending.length + 1 ∨
      ∃ before rest, later = before ++ rest ∧
        (Run.final (Server.next tables elemSize store) server before).Settled tables elemSize i := by
  intro server
  have hframed : (server.sessions i).Framed tables elemSize :=
    Server.framed_after tables elemSize store s inputs i
  -- a connection that has no step left is settled, since it keeps account of its frames
  refine Run.rests_or_countP_lt_of_left
    (fun n server => server.Left i n ∧ (server.sessions i).Framed tables elemSize)
    (Server.Settled tables elemSize · i) _ ?_ ?_ ?_
    ⟨Server.left_after tables elemSize store s inputs i, hframed⟩ hawaits
  · intro server h
    by_contra hunsettled
    have hlives : ¬ server.aborted = true := fun haborted => hunsettled (.inl haborted)
    have hbusy := Server.busy_of_unsettled h.2 hunsettled
    exact Nat.lt_irrefl 0 ((h.1.resolve_left hlives).pos hbusy)
  · intro n server input h _ _ hother
    exact ⟨h.1.other (of_decide_eq_false hother),
      Server.next_session (fun _ event h => h.move event) h.2 input⟩
  · intro n server input h hunsettled hawaits hown
    have hbusy := Server.busy_of_unsettled h.2 hunsettled
    have hi := of_decide_eq_true hown
    have hlives : ¬ server.aborted = true := fun haborted => hunsettled (.inl haborted)
    obtain ⟨m, rfl⟩ := Nat.exists_eq_add_one.mpr ((h.1.resolve_left hlives).pos hbusy)
    exact ⟨m, Nat.lt_succ_self m, h.1.own h.2 hbusy hi (hawaits hi),
      Server.next_session (fun _ event h => h.move event) h.2 input⟩

/-- A counter is stepped while another connection writes it. -/
theorem requests_answered_overlap :
    let server := Server.after asciiTables 32 (arenaStore siphash) (createArena zeroedRegion)
      (overlapInputs.take 4)
    (overlapInputs.drop 4).countP (fun input => decide (input.1 = false)) <
        (server.sessions false).pending.length + 1 ∨
      ∃ before rest, overlapInputs.drop 4 = before ++ rest ∧
        (Run.final (Server.next asciiTables 32 (arenaStore siphash)) server before).Settled
          asciiTables 32 false := by
  refine requests_answered asciiTables 32 (arenaStore siphash) (createArena zeroedRegion)
    (overlapInputs.take 4) (overlapInputs.drop 4) false ?_
  exact ⟨fun _ => trivial, nofun, fun _ => trivial, nofun, fun _ => trivial, nofun,
    fun _ => trivial, trivial⟩

end MemLane
