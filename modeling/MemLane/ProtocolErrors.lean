import MemLane.StreamFraming

/-!
# Reads and protocol errors

At a malformed frame the handler reports the error and drops everything that is
pending: the frame, and whatever the same read brought behind it.  The next frame
begins with the next read.  So what a connection does after its first error depends
on where the reads that met errors ended, and on nothing else.
-/

namespace MemLane

open Framing (drain)

namespace Connection

/-- How often the pending bytes were cleared. -/
def clears (conn : Connection) : Nat := conn.acts.countP Act.isClear

/-- The ends of the reads during which the pending bytes are cleared, as positions in the
stream, of which `received` bytes have been read. -/
def discardPoints (host : Host) (conn : Connection) (received : Nat) : List Bytes → List Nat
  | [] => []
  | read :: reads =>
      let next := conn.serveRead host read
      if next.clears = conn.clears then discardPoints host next (received + read.length) reads
      else (received + read.length) :: discardPoints host next (received + read.length) reads

/-! ## Clearing -/

section Clearing

variable (host : Host) (conn : Connection)

theorem answerAll_clears (vals : List RespValue) :
    (conn.answerAll host vals).clears = conn.clears := by
  induction vals generalizing conn with
  | nil => rfl
  | cons val vals ih =>
      refine (ih (conn.answer host val)).trans ?_
      rw [clears, answer, List.countP_append]
      rfl

theorem refuse_clears (e : RespError) : (conn.refuse e).clears = conn.clears + 1 := by
  rw [clears, refuse, List.countP_append]
  rfl

theorem answerAll_acts_prefix (vals : List RespValue) :
    conn.acts <+: (conn.answerAll host vals).acts := by
  rw [answerAll_acts]
  exact List.prefix_append _ _

/-- What has been done is not taken back. -/
theorem serveRead_acts (read : Bytes) : conn.acts <+: (conn.serveRead host read).acts := by
  by_cases hstatus : conn.status = .reading
  · by_cases hread : read = []
    · rw [serveRead, if_neg (not_not.mpr hstatus), if_pos hread]
    · by_cases hfits : conn.Fits read
      · have hanswered : conn.acts <+: (({ conn with
            pending := conn.pending ++ read } : Connection).answerAll host
              (drain (parseFront host.elemSize) (conn.pending ++ read)).1).acts :=
          answerAll_acts_prefix host { conn with pending := conn.pending ++ read } _
        rw [serveRead_eq hstatus hread hfits, drained]
        split
        · exact hanswered
        · exact hanswered.trans (List.prefix_append _ _)
        · exact hanswered
      · rw [serveRead, if_neg (not_not.mpr hstatus), if_neg hread, if_pos (Nat.lt_of_not_le hfits)]
        exact List.prefix_rfl
  · rw [serveRead, if_pos hstatus]

theorem serveReads_acts (reads : List Bytes) :
    conn.acts <+: (Run.final (serveRead host) conn reads).acts := by
  induction reads generalizing conn with
  | nil => exact List.prefix_rfl
  | cons read reads ih => exact (serveRead_acts host conn read).trans (ih _)

end Clearing

variable {host : Host} {conn : Connection}

/-- A connection that is not reading does nothing more. -/
theorem serveReads_ended (reads : List Bytes) (hstatus : conn.status ≠ .reading) :
    Run.final (serveRead host) conn reads = conn := by
  induction reads with
  | nil => rfl
  | cons read reads ih =>
      have hsame : conn.serveRead host read = conn := by
        rw [serveRead, if_pos hstatus]
      rw [Run.final_cons, hsame]
      exact ih

theorem panicked_ne_reading : Status.panicked ≠ Status.reading := by decide

/-! ## Up to the first error -/

/-- What holds of a connection that waits for more. -/
structure Waiting (host : Host) (conn : Connection) : Prop where
  status : conn.status = .reading
  more : parseFront host.elemSize conn.pending = .ok none

variable {reads : List Bytes} {vals : List RespValue}

/-- One read that ends without an error. -/
theorem Waiting.serveRead (h : Waiting host conn) {read rest : Bytes} (hread : read ≠ [])
    (hfits : conn.Fits read)
    (hdrain : drain (parseFront host.elemSize) (conn.pending ++ read) = (vals, .ok rest)) :
    conn.serveRead host read = { conn.answerAll host vals with pending := rest } ∧
      Waiting host (conn.serveRead host read) := by
  have hserve : conn.serveRead host read = { conn.answerAll host vals with pending := rest } := by
    rw [serveRead_eq h.status hread hfits, hdrain, drained, answerAll_withPending]
  rw [hserve]
  refine ⟨rfl, ?_, ?_⟩
  · exact (answerAll_status host conn vals).trans h.status
  · exact Framing.drain_rest (parseFront_stable host.elemSize) (congrArg Prod.snd hdrain)

/-- The first read of a stream, if it ends without an error: it leaves the rest of the stream
to be drained, and discards nothing. -/
theorem Waiting.firstRead (h : Waiting host conn) {read back tail : Bytes}
    {done : List RespValue} {last : Except Fault Bytes} (hread : read ≠ [])
    (hfits : conn.Fits read)
    (hfirst : drain (parseFront host.elemSize) (conn.pending ++ read) = (done, .ok back))
    (hdrain : drain (parseFront host.elemSize) (conn.pending ++ (read ++ tail)) = (vals, last)) :
    ∃ left, vals = done ++ left ∧
      conn.serveRead host read = { conn.answerAll host done with pending := back } ∧
      Waiting host (conn.serveRead host read) ∧
      drain (parseFront host.elemSize) ((conn.serveRead host read).pending ++ tail) = (left, last) ∧
      (conn.serveRead host read).clears = conn.clears := by
  have hstable := parseFront_stable host.elemSize
  rw [← List.append_assoc, Framing.drain_append hstable hfirst] at hdrain
  obtain ⟨rfl, rfl⟩ := Prod.mk.inj hdrain
  obtain ⟨hserve, hwaiting⟩ := h.serveRead hread hfits hfirst
  refine ⟨_, rfl, hserve, hwaiting, ?_, ?_⟩
  · rw [hserve]
  · rw [hserve]
    exact answerAll_clears host conn done

/-- A stream without an error is answered, and nothing is discarded. -/
theorem Waiting.serveReads (h : Waiting host conn) (hreads : ∀ read ∈ reads, read ≠ [])
    (hfits : Run.Along (Connection.serveRead host) Fits conn reads) {rest : Bytes}
    (hdrain : drain (parseFront host.elemSize) (conn.pending ++ reads.flatten) = (vals, .ok rest))
    (received : Nat) :
    Run.final (Connection.serveRead host) conn reads =
        { conn.answerAll host vals with pending := rest } ∧
      discardPoints host conn received reads = [] := by
  have hstable := parseFront_stable host.elemSize
  induction reads generalizing conn vals received with
  | nil =>
      rw [List.flatten_nil, List.append_nil, Framing.drain_more h.more] at hdrain
      cases hdrain
      exact ⟨rfl, rfl⟩
  | cons read reads ih =>
      rw [List.flatten_cons] at hdrain
      generalize hfirst : drain (parseFront host.elemSize) (conn.pending ++ read) = first at *
      obtain ⟨done, last⟩ := first
      cases last with
      | error e =>
          rw [← List.append_assoc, Framing.drain_append_error hstable hfirst] at hdrain
          cases hdrain
      | ok back =>
          obtain ⟨left, rfl, hserve, hwaiting, hleft, hclears⟩ :=
            h.firstRead (hreads read List.mem_cons_self) hfits.1 hfirst hdrain
          obtain ⟨hfinal, hdiscard⟩ := ih hwaiting
            (fun r hr => hreads r (List.mem_cons_of_mem _ hr)) hfits.2 hleft
            (received + read.length)
          rw [Run.final_cons, hfinal, discardPoints]
          simp only [if_pos hclears]
          refine ⟨?_, hdiscard⟩
          rw [hserve, answerAll_withPending, ← answerAll_append]

theorem drained_append (done vals : List RespValue) (last : Except Fault Bytes) (pending : Bytes) :
    ({ conn.answerAll host done with pending := pending } : Connection).drained host (vals, last) =
      ({ conn with pending := pending } : Connection).drained host (done ++ vals, last) := by
  simp only [drained, answerAll_append, answerAll_withPending]

/-- The read that meets the first error of a stream, and what the connection is then. -/
theorem Waiting.serveReads_error (h : Waiting host conn) (hreads : ∀ read ∈ reads, read ≠ [])
    (hfits : Run.Along (Connection.serveRead host) Fits conn reads) {fault : Fault}
    (hdrain : drain (parseFront host.elemSize) (conn.pending ++ reads.flatten) =
      (vals, .error fault)) (received : Nat) :
    ∃ before after pending, reads = before ++ after ∧ after.length < reads.length ∧
      Run.final (Connection.serveRead host) conn before =
        ({ conn with pending := pending } : Connection).drained host (vals, .error fault) ∧
      discardPoints host conn received reads =
        let next := Run.final (Connection.serveRead host) conn before
        let received := received + before.flatten.length
        if next.clears = conn.clears then discardPoints host next received after
        else received :: discardPoints host next received after := by
  have hstable := parseFront_stable host.elemSize
  induction reads generalizing conn vals received with
  | nil =>
      rw [List.flatten_nil, List.append_nil, Framing.drain_more h.more] at hdrain
      cases hdrain
  | cons read reads ih =>
      rw [List.flatten_cons] at hdrain
      generalize hfirst : drain (parseFront host.elemSize) (conn.pending ++ read) = first at *
      obtain ⟨done, last⟩ := first
      cases last with
      | error e =>
          rw [← List.append_assoc, Framing.drain_append_error hstable hfirst] at hdrain
          cases hdrain
          refine ⟨[read], reads, conn.pending ++ read, rfl, Nat.lt_succ_self _, ?_, ?_⟩
          · rw [Run.final_cons, Run.final_nil,
              serveRead_eq h.status (hreads read List.mem_cons_self) hfits.1, hfirst]
          · rw [List.flatten_singleton, Run.final_cons, Run.final_nil, discardPoints]
      | ok back =>
          obtain ⟨left, rfl, hserve, hwaiting, hleft, hclears⟩ :=
            h.firstRead (hreads read List.mem_cons_self) hfits.1 hfirst hdrain
          obtain ⟨before, after, pending, rfl, hshorter, hfinal, hdiscard⟩ := ih hwaiting
            (fun r hr => hreads r (List.mem_cons_of_mem _ hr)) hfits.2 hleft
            (received + read.length)
          refine ⟨read :: before, after, pending, rfl, Nat.lt_succ_of_lt hshorter, ?_, ?_⟩
          · rw [Run.final_cons, hfinal, hserve]
            exact drained_append done _ _ pending
          · rw [discardPoints]
            simp only [if_pos hclears]
            rw [hdiscard, hclears]
            simp only [Run.final_cons, List.flatten_cons, List.length_append, Nat.add_assoc]

theorem drained_err (e : RespError) (pending : Bytes) :
    ({ conn with pending := pending } : Connection).drained host (vals, .error (.err e)) =
      (conn.answerAll host vals).refuse e := by
  rw [drained, answerAll_withPending]
  rfl

theorem drained_panic (pending : Bytes) :
    ({ conn with pending := pending } : Connection).drained host (vals, .error .panic) =
      { (conn.answerAll host vals).panic with pending := pending } := by
  rw [drained, answerAll_withPending]
  rfl

/-- Behind an error the connection waits for a new frame. -/
theorem Waiting.refuse (h : Waiting host conn) (vals : List RespValue) (e : RespError) :
    Waiting host ((conn.answerAll host vals).refuse e) where
  status := (answerAll_status host conn vals).trans h.status
  more := rfl

/-! ## Behind an error -/

/-- Two runs over one stream act alike if their reads discard at the same positions. -/
theorem Waiting.acts_eq (h : Waiting host conn) {reads₁ reads₂ : List Bytes}
    (hreads₁ : ∀ read ∈ reads₁, read ≠ []) (hreads₂ : ∀ read ∈ reads₂, read ≠ [])
    (hfits₁ : Run.Along (Connection.serveRead host) Fits conn reads₁)
    (hfits₂ : Run.Along (Connection.serveRead host) Fits conn reads₂)
    (hstream : reads₁.flatten = reads₂.flatten) {received : Nat}
    (hdiscard : discardPoints host conn received reads₁ =
      discardPoints host conn received reads₂) :
    (Run.final (Connection.serveRead host) conn reads₁).acts =
      (Run.final (Connection.serveRead host) conn reads₂).acts := by
  induction hsize : reads₁.length using Nat.strongRecOn
    generalizing conn reads₁ reads₂ received with
  | ind size ih =>
      subst hsize
      generalize hdrain₁ : drain (parseFront host.elemSize) (conn.pending ++ reads₁.flatten) = out
      have hdrain₂ := hdrain₁
      rw [hstream] at hdrain₂
      obtain ⟨vals, last⟩ := out
      cases last with
      | ok rest =>
          rw [(h.serveReads hreads₁ hfits₁ hdrain₁ 0).1, (h.serveReads hreads₂ hfits₂ hdrain₂ 0).1]
      | error fault =>
          obtain ⟨before₁, after₁, pending₁, rfl, hshorter, hfinal₁, hpoints₁⟩ :=
            h.serveReads_error hreads₁ hfits₁ hdrain₁ received
          obtain ⟨before₂, after₂, pending₂, rfl, _, hfinal₂, hpoints₂⟩ :=
            h.serveReads_error hreads₂ hfits₂ hdrain₂ received
          rw [Run.final_append, Run.final_append]
          have hrest₁ := (Run.along_append.mp hfits₁).2
          have hrest₂ := (Run.along_append.mp hfits₂).2
          cases fault with
          | panic =>
              rw [drained_panic] at hfinal₁ hfinal₂
              rw [hfinal₁, hfinal₂, serveReads_ended _ panicked_ne_reading,
                serveReads_ended _ panicked_ne_reading]
          | err e =>
              rw [drained_err] at hfinal₁ hfinal₂
              rw [hdiscard, hpoints₂] at hpoints₁
              rw [hfinal₁] at hrest₁ hpoints₁ ⊢
              rw [hfinal₂] at hrest₂ hpoints₁ ⊢
              have hcleared : ((conn.answerAll host vals).refuse e).clears ≠ conn.clears := by
                rw [refuse_clears, answerAll_clears]
                exact Nat.succ_ne_self _
              simp only [if_neg hcleared] at hpoints₁
              obtain ⟨hposition, hpoints⟩ := List.cons.inj hpoints₁
              rw [List.flatten_append, List.flatten_append] at hstream
              have hlength := Nat.add_left_cancel hposition
              obtain ⟨_, hafter⟩ := List.append_inj hstream hlength.symm
              rw [hposition] at hpoints
              refine ih after₁.length hshorter (h.refuse vals e) ?_ ?_ hrest₁ hrest₂ hafter
                hpoints.symm rfl
              · intro read hread
                exact hreads₁ read (List.mem_append_right _ hread)
              · intro read hread
                exact hreads₂ read (List.mem_append_right _ hread)

/-- Up to its first error, a run does not depend on its reads. -/
theorem Waiting.takeWhile_acts (h : Waiting host conn) (hclean : conn.clears = 0)
    (hreads : ∀ read ∈ reads, read ≠ [])
    (hfits : Run.Along (Connection.serveRead host) Fits conn reads) :
    (Run.final (Connection.serveRead host) conn reads).acts.takeWhile (fun act => !act.isClear) =
      (conn.drained host
        (drain (parseFront host.elemSize) (conn.pending ++ reads.flatten))).acts.takeWhile
          (fun act => !act.isClear) := by
  generalize hdrain : drain (parseFront host.elemSize) (conn.pending ++ reads.flatten) = out
  obtain ⟨vals, last⟩ := out
  cases last with
  | ok rest =>
      rw [(h.serveReads hreads hfits hdrain 0).1]
      rfl
  | error fault =>
      obtain ⟨before, after, pending, rfl, _, hfinal, _⟩ :=
        h.serveReads_error hreads hfits hdrain 0
      rw [Run.final_append]
      cases fault with
      | panic =>
          rw [drained_panic] at hfinal
          rw [hfinal, serveReads_ended _ panicked_ne_reading]
          rfl
      | err e =>
          rw [drained_err] at hfinal
          rw [hfinal]
          have hsame : conn.drained host (vals, .error (.err e)) =
              (conn.answerAll host vals).refuse e := drained_err e conn.pending
          obtain ⟨more, hmore⟩ := serveReads_acts host ((conn.answerAll host vals).refuse e) after
          have hbefore : ∀ act ∈ (conn.answerAll host vals).acts, (!act.isClear) = true := by
            intro act hact
            have hcount := (answerAll_clears host conn vals).trans hclean
            rw [Bool.not_eq_true']
            exact Bool.eq_false_of_not_eq_true (List.countP_eq_zero.mp hcount act hact)
          rw [← hmore, hsame, Connection.refuse, List.append_assoc,
            List.takeWhile_append_of_pos hbefore, List.takeWhile_append_of_pos hbefore]
          rfl

end Connection

open Connection

/-- Two runs over one stream act alike up to the first protocol error, and to the end if
the reads that met errors ended at the same positions. -/
theorem recovery_after_errors (host : Host) (arena : Arena) (reads₁ reads₂ : List Bytes)
    (hreads₁ : ∀ read ∈ reads₁, read ≠ []) (hreads₂ : ∀ read ∈ reads₂, read ≠ [])
    (hfits₁ : Run.Along (serveRead host) Fits (accept arena) reads₁)
    (hfits₂ : Run.Along (serveRead host) Fits (accept arena) reads₂)
    (hstream : reads₁.flatten = reads₂.flatten) :
    (handleClient host arena reads₁).acts.takeWhile (fun act => !act.isClear) =
        (handleClient host arena reads₂).acts.takeWhile (fun act => !act.isClear) ∧
      (discardPoints host (accept arena) 0 reads₁ = discardPoints host (accept arena) 0 reads₂ →
        (handleClient host arena reads₁).acts = (handleClient host arena reads₂).acts) := by
  have hwaiting : Waiting host (accept arena) := ⟨rfl, rfl⟩
  constructor
  · rw [handleClient, handleClient, hwaiting.takeWhile_acts rfl hreads₁ hfits₁,
      hwaiting.takeWhile_acts rfl hreads₂ hfits₂, hstream]
  · exact hwaiting.acts_eq hreads₁ hreads₂ hfits₁ hfits₂ hstream

/-- An unknown type byte and a `PING` behind it, in one read and in two. -/
def wholeReads : List Bytes := [[33, 42, 49, 13, 10, 36, 52, 13, 10, 80, 73, 78, 71, 13, 10]]

def cutReads : List Bytes := [[33], [42, 49, 13, 10, 36, 52, 13, 10, 80, 73, 78, 71, 13, 10]]

/-- The same with the `PING` in two reads. -/
def laterReads : List Bytes := [[33], [42, 49, 13, 10, 36, 52, 13, 10], [80, 73, 78, 71, 13, 10]]

theorem recovery_after_errors_cut :
    (handleClient quietHost (createArena zeroedRegion) cutReads).acts =
      (handleClient quietHost (createArena zeroedRegion) laterReads).acts := by
  exact (recovery_after_errors quietHost (createArena zeroedRegion) cutReads laterReads
    (by decide) (by decide) (by decide +kernel) (by decide +kernel) (by decide)).2
    (by decide +kernel)

/-- The first run drops the `PING` with the error, and the second answers it. -/
theorem recovery_depends_on_reads :
    (∀ read ∈ wholeReads, read ≠ [] ∧ read.length ≤ readBufSize) ∧
    (∀ read ∈ cutReads, read ≠ [] ∧ read.length ≤ readBufSize) ∧
    wholeReads.flatten = cutReads.flatten ∧
    parse 32 wholeReads.flatten = .error (.protocol "Unknown RESP type byte: 0x21") ∧
    (handleClient quietHost (createArena zeroedRegion) wholeReads).requests = [] ∧
    (handleClient quietHost (createArena zeroedRegion) cutReads).requests =
      [.array [.bulkString [80, 73, 78, 71]]] ∧
    (handleClient quietHost (createArena zeroedRegion) wholeReads).written ≠
      (handleClient quietHost (createArena zeroedRegion) cutReads).written :=
  ⟨by decide, by decide, rfl, rfl, rfl, rfl, by decide +kernel⟩

end MemLane
