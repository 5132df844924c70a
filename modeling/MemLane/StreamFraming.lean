import MemLane.ParserPrefix
import MemLane.RespRoundTrip
import MemLane.Server
import MemLane.SipHash

/-!
# Requests and reads

How the bytes of a connection become requests.  One read answers the frames that
draining the pending bytes and the new ones gives, and leaves the rest pending.  Since
the parser is stable, it makes no difference to a stream of well-formed frames where
the reads cut it.
-/

namespace MemLane

open Framing (drain)

namespace Connection

/-! ## Answers -/

section Answers

variable (host : Host) (conn : Connection)

@[simp] theorem answer_pending (val : RespValue) : (conn.answer host val).pending = conn.pending :=
  rfl

@[simp] theorem answer_status (val : RespValue) : (conn.answer host val).status = conn.status := rfl

theorem answer_requests (val : RespValue) :
    (conn.answer host val).requests = conn.requests ++ [val] := by
  rw [requests, answer, List.filterMap_append]
  rfl

/-- Answer requests one after the other. -/
def answerAll (vals : List RespValue) : Connection :=
  vals.foldl (answer host) conn

@[simp] theorem answerAll_pending (vals : List RespValue) :
    (conn.answerAll host vals).pending = conn.pending := by
  induction vals generalizing conn with
  | nil => rfl
  | cons val vals ih => exact ih (conn.answer host val)

@[simp] theorem answerAll_status (vals : List RespValue) :
    (conn.answerAll host vals).status = conn.status := by
  induction vals generalizing conn with
  | nil => rfl
  | cons val vals ih => exact ih (conn.answer host val)

theorem answerAll_append (vals vals' : List RespValue) :
    conn.answerAll host (vals ++ vals') = (conn.answerAll host vals).answerAll host vals' :=
  List.foldl_append

theorem answerAll_requests (vals : List RespValue) :
    (conn.answerAll host vals).requests = conn.requests ++ vals := by
  induction vals generalizing conn with
  | nil => exact (List.append_nil _).symm
  | cons val vals ih =>
      have hrest := ih (conn.answer host val)
      rw [answer_requests, List.append_assoc] at hrest
      exact hrest

/-- What has been done with a list of requests: each was dispatched, and then its reply
written. -/
def exchange (val reply : RespValue) : List Act := [.dispatched val, .wrote (encodeToVec reply)]

theorem answerAll_acts (vals : List RespValue) :
    (conn.answerAll host vals).acts = conn.acts ++ (List.zipWith exchange vals
      (replies host conn.arena conn.requests.length vals)).flatten := by
  induction vals generalizing conn with
  | nil => exact (List.append_nil _).symm
  | cons val vals ih =>
      have hrest := ih (conn.answer host val)
      rw [answer_requests, List.length_append] at hrest
      rw [answerAll, List.foldl_cons]
      refine hrest.trans ?_
      rw [replies, List.zipWith_cons_cons, List.flatten_cons, ← List.append_assoc]
      rfl

/-- The requests are answered whatever is pending. -/
theorem answerAll_withPending (pending : Bytes) (vals : List RespValue) :
    ({ conn with pending := pending } : Connection).answerAll host vals =
      { conn.answerAll host vals with pending := pending } := by
  induction vals generalizing conn with
  | nil => rfl
  | cons val vals ih => exact ih (conn.answer host val)

end Answers

variable {host : Host} {conn : Connection}

/-! ## One read -/

/-- What becomes of a connection whose pending bytes have been drained. -/
def drained (host : Host) (conn : Connection) (out : List RespValue × Except Fault Bytes) :
    Connection :=
  let conn := conn.answerAll host out.1
  match out.2 with
  | .ok rest => { conn with pending := rest }
  | .error (.err e) => conn.refuse e
  | .error .panic => conn.panic

/-- The inner loop drains the pending bytes from its offset, and ends before its bound. -/
theorem parseLoop_drain (host : Host) {front buf : Bytes} {left : Nat}
    (hpending : conn.pending = front ++ buf)
    (hstatus : conn.status = .reading) (hlen : (front ++ buf).length ≤ isizeMax)
    (hleft : buf.length < left) :
    ∃ out offset, parseLoop host conn front.length left = some (out, offset) ∧
      (if out.status = .panicked then out else out.drainPending offset) =
        conn.drained host (drain (parseFront host.elemSize) buf) := by
  have hstable := parseFront_stable host.elemSize
  induction left generalizing conn front buf with
  | zero => omega
  | succ left ih =>
      have hbuf : buf.length ≤ isizeMax := by
        rw [List.length_append] at hlen
        omega
      have hfront := parseFront_eq host.elemSize hbuf
      rw [parseLoop, hpending, sliceFrom_append]
      simp only
      cases hparse : parse host.elemSize buf with
      | error fault =>
          rw [hparse] at hfront
          rw [Framing.drain_error hfront]
          cases fault with
          | err e =>
              refine ⟨conn.refuse e, 0, rfl, ?_⟩
              have hreading : ¬ (conn.refuse e).status = .panicked := by
                rw [refuse, hstatus]
                decide
              rw [if_neg hreading]
              rfl
          | panic => exact ⟨conn.panic, _, rfl, if_pos rfl⟩
      | ok found =>
          cases found with
          | none =>
              rw [hparse] at hfront
              rw [Framing.drain_more hfront]
              refine ⟨conn, front.length, rfl, ?_⟩
              have hreading : ¬ conn.status = .panicked := by
                rw [hstatus]
                decide
              have hle : front.length ≤ conn.pending.length := by
                rw [hpending, List.length_append]
                omega
              rw [if_neg hreading, drainPending, if_pos hle, hpending, List.drop_left]
              rfl
          | some frame =>
              obtain ⟨val, n⟩ := frame
              rw [hparse] at hfront
              have hpos := hstable.pos hfront
              have hle := hstable.le hfront
              obtain ⟨used, rest, rfl, hused⟩ := exists_append_of_le hle
              rw [← List.append_assoc] at hpending hlen
              have hadd : usizeAdd front.length n = (front ++ used).length := by
                rw [List.length_append, hused, usizeAdd_eq]
                simp only [List.length_append] at hlen
                unfold isizeMax at hlen
                omega
              rw [List.length_append] at hleft
              have hnext := @ih (conn.answer host val) _ _ hpending hstatus hlen (by omega)
              rw [Framing.drain_item hstable hfront]
              simp only
              rw [hadd, ← hused, List.drop_left]
              exact hnext

/-- The buffer of a read fits into memory. -/
def Fits (conn : Connection) (read : Bytes) : Prop := (conn.pending ++ read).length ≤ isizeMax

instance (conn : Connection) (read : Bytes) : Decidable (conn.Fits read) :=
  inferInstanceAs (Decidable ((conn.pending ++ read).length ≤ isizeMax))

theorem serveRead_eq {read : Bytes} (hstatus : conn.status = .reading) (hread : read ≠ [])
    (hfits : conn.Fits read) :
    conn.serveRead host read = ({ conn with pending := conn.pending ++ read } : Connection).drained
      host (drain (parseFront host.elemSize) (conn.pending ++ read)) := by
  have hpending : ({ conn with pending := conn.pending ++ read } : Connection).pending =
      [] ++ (conn.pending ++ read) := rfl
  obtain ⟨out, offset, hloop, hdrained⟩ :=
    parseLoop_drain host hpending hstatus hfits (Nat.lt_succ_self _)
  rw [List.length_nil] at hloop
  rw [serveRead, if_neg (not_not.mpr hstatus), if_neg hread, if_neg (Nat.not_lt.mpr hfits)]
  simp only [hloop]
  exact hdrained

end Connection

/-! ## Streams of requests -/

/-- A command as clients send it: an array of bulk strings. -/
def RespValue.IsRequest (v : RespValue) : Prop :=
  ∃ args : List Bytes, v = .array (args.map .bulkString)

theorem RespValue.IsRequest.crlfFree {v : RespValue} (h : v.IsRequest) : v.CrlfFree := by
  obtain ⟨args, rfl⟩ := h
  refine ⟨trivial, ?_⟩
  intro w hw
  obtain ⟨arg, _, rfl⟩ := List.mem_map.mp hw
  exact .leaf trivial rfl

/-- The encoding of a value is a frame. -/
theorem reads_encodeToVec {elemSize : Nat} {v : RespValue} (hfree : v.CrlfFree)
    (halloc : v.Allocated elemSize) (hlen : (encodeToVec v).length ≤ isizeMax) :
    Framing.Reads (parseFront elemSize) encodeToVec v := by
  intro ext
  have hbound := length_take_isizeMax (encodeToVec v ++ ext)
  rw [parseFront, List.take_append, List.take_of_length_le hlen] at *
  exact parse_encode hfree halloc _ hbound

/-- The request fits into memory, and behind it one more read. -/
def RespValue.Receivable (elemSize : Nat) (v : RespValue) : Prop :=
  v.Allocated elemSize ∧ (encodeToVec v).length + readBufSize ≤ isizeMax

theorem requests_read {elemSize : Nat} {v : RespValue}
    (h : v.IsRequest ∧ v.Receivable elemSize) :
    Framing.Reads (parseFront elemSize) encodeToVec v := by
  obtain ⟨hrequest, halloc, hlen⟩ := h
  exact reads_encodeToVec hrequest.crlfFree halloc (by omega)

section Reads

variable {host : Host} {conn : Connection} {vals : List RespValue} {next : RespValue}
  {rest : Bytes} {reads : List Bytes}

/-- Run lemma: whatever the reads, a stream of requests is answered in order. -/
theorem serveReads_requests
    (hrequests : ∀ v ∈ next :: vals, v.IsRequest ∧ v.Receivable host.elemSize)
    (hrest : parseFront host.elemSize rest = .ok none)
    (hle : rest.length ≤ (encodeToVec next).length)
    (hreads : ∀ read ∈ reads, read ≠ [] ∧ read.length ≤ readBufSize)
    (hstatus : conn.status = .reading)
    (hpending : parseFront host.elemSize conn.pending = .ok none)
    (hstream : conn.pending ++ reads.flatten = vals.flatMap encodeToVec ++ rest) :
    Run.final (Connection.serveRead host) conn reads =
      { conn.answerAll host vals with pending := rest } := by
  induction reads generalizing conn vals with
  | nil =>
      have hframe : ∀ v ∈ vals, Framing.Reads (parseFront host.elemSize) encodeToVec v :=
        fun v hv => requests_read (hrequests v (List.mem_cons_of_mem _ hv))
      cases vals with
      | nil =>
          rw [List.flatten_nil, List.append_nil, List.flatMap_nil, List.nil_append] at hstream
          rw [← hstream]
          rfl
      | cons v vals =>
          have hshort := Framing.length_lt_of_more (hframe v (by simp)) hpending hstream
          have hlen := congrArg List.length hstream
          rw [List.flatten_nil, List.flatMap_cons] at hlen
          simp only [List.length_append, List.length_nil] at hlen
          omega
  | cons read reads ih =>
      have hframe : ∀ v ∈ vals, Framing.Reads (parseFront host.elemSize) encodeToVec v :=
        fun v hv => requests_read (hrequests v (List.mem_cons_of_mem _ hv))
      obtain ⟨hne, hsize⟩ := hreads read List.mem_cons_self
      have hfits : conn.Fits read := by
        have hpendingLe : conn.pending.length + readBufSize ≤ isizeMax := by
          cases vals with
          | nil =>
              have hlen := congrArg List.length hstream
              rw [List.flatMap_nil, List.nil_append, List.length_append] at hlen
              have hmax := (hrequests next List.mem_cons_self).2.2
              omega
          | cons v vals =>
              have hshort := Framing.length_lt_of_more (hframe v (by simp)) hpending hstream
              have hmax := (hrequests v (by simp)).2.2
              omega
        rw [Connection.Fits, List.length_append]
        omega
      rw [List.flatten_cons, ← List.append_assoc] at hstream
      obtain ⟨done, left, back, rfl, hdrain, hback⟩ :=
        Framing.drain_front (parseFront_stable host.elemSize) hframe hrest hstream
      have hmore : parseFront host.elemSize back = .ok none :=
        Framing.drain_rest (parseFront_stable host.elemSize) (congrArg Prod.snd hdrain)
      have hserve : conn.serveRead host read =
          { conn.answerAll host done with pending := back } := by
        rw [Connection.serveRead_eq hstatus hne hfits, hdrain, Connection.drained,
          Connection.answerAll_withPending]
      have hleft : ∀ v ∈ next :: left, v.IsRequest ∧ v.Receivable host.elemSize := by
        intro v hv
        rcases List.mem_cons.mp hv with rfl | hmem
        · exact hrequests v List.mem_cons_self
        · exact hrequests v (List.mem_cons_of_mem _ (List.mem_append_right _ hmem))
      have hstatus' : (conn.answerAll host done).status = .reading := by
        rw [Connection.answerAll_status]
        exact hstatus
      have hlast := @ih { conn.answerAll host done with pending := back } _ hleft
        (fun r hr => hreads r (List.mem_cons_of_mem _ hr)) hstatus' hmore hback
      rw [Run.final_cons, hserve, hlast, Connection.answerAll_withPending,
        ← Connection.answerAll_append]

/-- The replies are as many as the requests. -/
theorem length_replies (host : Host) (arena : Arena) (n : Nat) (vals : List RespValue) :
    (replies host arena n vals).length = vals.length := by
  induction vals generalizing arena n with
  | nil => rfl
  | cons val vals ih =>
      rw [replies, List.length_cons, List.length_cons]
      exact congrArg Nat.succ (ih _ _)

theorem filterMap_exchange {vals answers : List RespValue} (hlen : answers.length = vals.length) :
    (List.zipWith Connection.exchange vals answers).flatten.filterMap Act.output? =
      answers.map encodeToVec := by
  induction vals generalizing answers with
  | nil =>
      rw [List.eq_nil_of_length_eq_zero hlen]
      rfl
  | cons val vals ih =>
      cases answers with
      | nil => cases hlen
      | cons answer answers =>
          rw [List.zipWith_cons_cons, List.flatten_cons, List.filterMap_append,
            ih (Nat.succ.inj hlen)]
          rfl

/-- A stream of requests, and a part of one more behind it, may be read in any pieces: the
requests are dispatched in order, each is answered by one write, and the part is pending. -/
theorem framing_independent_of_reads (host : Host) (arena : Arena) (vals : List RespValue)
    (next : RespValue) (rest : Bytes) (reads : List Bytes)
    (hrequests : ∀ v ∈ next :: vals, v.IsRequest ∧ v.Receivable host.elemSize)
    (hrest : rest <+: encodeToVec next) (hpart : rest ≠ encodeToVec next)
    (hreads : ∀ read ∈ reads, read ≠ [] ∧ read.length ≤ readBufSize)
    (hstream : reads.flatten = vals.flatMap encodeToVec ++ rest) :
    (handleClient host arena reads).requests = vals ∧
    (handleClient host arena reads).written = (replies host arena 0 vals).map encodeToVec ∧
    (handleClient host arena reads).acts =
      (List.zipWith Connection.exchange vals (replies host arena 0 vals)).flatten ∧
    (handleClient host arena reads).pending = rest ∧
    (handleClient host arena reads).status = .reading := by
  obtain ⟨more, hmore⟩ := hrest
  have hne : more ≠ [] := by
    intro hnil
    rw [hnil, List.append_nil] at hmore
    exact hpart hmore
  have hwaits : parseFront host.elemSize rest = .ok none :=
    (requests_read (hrequests next List.mem_cons_self)).more
      (parseFront_stable host.elemSize) hmore hne
  have hle : rest.length ≤ (encodeToVec next).length := by
    rw [← hmore, List.length_append]
    exact Nat.le_add_right _ _
  have hfinal : handleClient host arena reads =
      { (Connection.accept arena).answerAll host vals with pending := rest } :=
    serveReads_requests hrequests hwaits hle hreads rfl rfl hstream
  have hacts : (handleClient host arena reads).acts =
      (List.zipWith Connection.exchange vals (replies host arena 0 vals)).flatten := by
    rw [hfinal]
    exact Connection.answerAll_acts host _ vals
  refine ⟨?_, ?_, hacts, ?_, ?_⟩
  · rw [hfinal]
    exact Connection.answerAll_requests host _ vals
  · rw [Connection.written, hacts]
    exact filterMap_exchange (length_replies host arena 0 vals)
  · rw [hfinal]
  · rw [hfinal]
    exact Connection.answerAll_status host _ vals

end Reads

/-- A connection without others, at clock 0. -/
def quietHost : Host where
  tables := asciiTables
  hashFn := siphash
  elemSize := 32
  clock := fun _ _ _ => 0
  others := fun _ arena => arena

/-- `PING`, cut behind the CR of its header and inside its payload, and the first two bytes
of another. -/
def pingReads : List Bytes :=
  [[42, 49, 13], [10, 36, 52, 13, 10, 80, 73], [78, 71, 13, 10, 42, 49]]

theorem framing_independent_of_reads_ping :
    (handleClient quietHost (createArena zeroedRegion) pingReads).written =
      [[43, 80, 79, 78, 71, 13, 10]] ∧
    (handleClient quietHost (createArena zeroedRegion) pingReads).pending = [42, 49] := by
  have hrequests : ∀ v ∈ [RespValue.array [.bulkString [80, 73, 78, 71]],
      .array [.bulkString [80, 73, 78, 71]]], v.IsRequest ∧ v.Receivable quietHost.elemSize := by
    intro v hv
    have hping : v = .array [.bulkString [80, 73, 78, 71]] := by
      simpa using hv
    subst hping
    refine ⟨⟨[[80, 73, 78, 71]], rfl⟩, ⟨by decide, ?_⟩, by decide +kernel⟩
    intro w hw
    obtain rfl := List.mem_singleton.mp hw
    exact RespValue.allocated_leaf rfl
  have h := framing_independent_of_reads quietHost (createArena zeroedRegion)
    [.array [.bulkString [80, 73, 78, 71]]] (.array [.bulkString [80, 73, 78, 71]]) [42, 49]
    pingReads hrequests (by decide +kernel) (by decide +kernel) (by decide +kernel) (by decide +kernel)
  exact ⟨h.2.1, h.2.2.2.1⟩

/-! ## Progress -/

/-- The loop of `parse_all` from an offset with the values read so far, up to its result.
There is no bound on its iterations, and every one that goes on has read three bytes. -/
inductive ParseAllRun (elemSize : Nat) (buf : Bytes) :
    Nat → List RespValue → Except Fault (List RespValue × Nat) → Prop
  | more {offset : Nat} {values : List RespValue} {rest : Bytes}
      (hslice : sliceFrom buf offset = .ok rest) (hparse : parse elemSize rest = .ok none) :
      ParseAllRun elemSize buf offset values (.ok (values, offset))
  | failed {offset : Nat} {values : List RespValue} {rest : Bytes} {fault : Fault}
      (hslice : sliceFrom buf offset = .ok rest) (hparse : parse elemSize rest = .error fault) :
      ParseAllRun elemSize buf offset values (.error fault)
  | value {offset consumed : Nat} {values : List RespValue} {rest : Bytes} {val : RespValue}
      {out : Except Fault (List RespValue × Nat)} (hslice : sliceFrom buf offset = .ok rest)
      (hparse : parse elemSize rest = .ok (some (val, consumed))) (hprogress : 3 ≤ consumed)
      (hnext : ParseAllRun elemSize buf (usizeAdd offset consumed) (values ++ [val]) out) :
      ParseAllRun elemSize buf offset values out

section Progress

variable {elemSize : Nat} {buf : Bytes}

theorem parse_progress {v : RespValue} {n : Nat} (hlen : buf.length ≤ isizeMax)
    (h : parse elemSize buf = .ok (some (v, n))) : 3 ≤ n ∧ n ≤ buf.length := by
  obtain ⟨used, rest, rfl, rfl, haccepted⟩ := parse_accepted elemSize hlen v n h
  refine ⟨haccepted.three_le_length, ?_⟩
  rw [List.length_append]
  exact Nat.le_add_right _ _

/-- The bound of `parseAllLoop` is never reached. -/
theorem parseAllLoop_run {offset left : Nat} {values : List RespValue}
    (hlen : buf.length ≤ isizeMax) (hoffset : offset ≤ buf.length)
    (hleft : buf.length < offset + left) :
    ParseAllRun elemSize buf offset values (parseAllLoop elemSize buf left offset values) := by
  induction left generalizing offset values with
  | zero => omega
  | succ left ih =>
      have hslice : sliceFrom buf offset = .ok (buf.drop offset) := if_pos hoffset
      have hdrop : (buf.drop offset).length = buf.length - offset := List.length_drop
      rw [parseAllLoop, hslice]
      simp only
      cases hparse : parse elemSize (buf.drop offset) with
      | error fault => exact .failed hslice hparse
      | ok found =>
          cases found with
          | none => exact .more hslice hparse
          | some frame =>
              obtain ⟨val, consumed⟩ := frame
              obtain ⟨hprogress, hle⟩ := parse_progress (by omega) hparse
              have hadd : usizeAdd offset consumed = offset + consumed := by
                rw [usizeAdd_eq]
                unfold isizeMax at hlen
                omega
              refine .value hslice hparse hprogress ?_
              simp only [hadd]
              exact ih (by omega) (by omega)

/-- The parser's results are stable under more input, values are cut exactly, and both loops
over it make progress and end. -/
theorem parser_prefix_stable (elemSize : Nat) :
    (∀ (buf ext : Bytes) (v : RespValue) (n : Nat), (buf ++ ext).length ≤ isizeMax →
      parse elemSize buf = .ok (some (v, n)) →
        3 ≤ n ∧ n ≤ buf.length ∧ parse elemSize (buf.take n) = .ok (some (v, n)) ∧
          parse elemSize (buf ++ ext) = .ok (some (v, n))) ∧
    (∀ (buf ext : Bytes) (fault : Fault), (buf ++ ext).length ≤ isizeMax →
      parse elemSize buf = .error fault → parse elemSize (buf ++ ext) = .error fault) ∧
    (∀ buf front : Bytes, buf.length ≤ isizeMax → parse elemSize buf = .ok none →
      front <+: buf → parse elemSize front = .ok none) ∧
    (∀ buf : Bytes, buf.length ≤ isizeMax →
      ParseAllRun elemSize buf 0 [] (parseAll elemSize buf)) ∧
    (∀ (host : Host) (conn : Connection), conn.status = .reading →
      conn.pending.length ≤ isizeMax →
        ∃ out offset, conn.parseLoop host 0 (conn.pending.length + 1) = some (out, offset)) := by
  refine ⟨?_, ?_, ?_, ?_, ?_⟩
  · intro buf ext v n hlen h
    have hbuf : buf.length ≤ isizeMax := by
      rw [List.length_append] at hlen
      omega
    obtain ⟨hprogress, hle⟩ := parse_progress hbuf h
    refine ⟨hprogress, hle, ?_, parse_append_some hlen h⟩
    obtain ⟨used, rest, rfl, rfl, haccepted⟩ := parse_accepted elemSize hbuf v n h
    have hread := haccepted.readsAs []
    rw [List.append_nil] at hread
    rw [List.take_left]
    exact hread (hle.trans hbuf)
  · intro buf ext fault hlen h
    exact parse_append_error hlen h
  · intro buf front hlen h hfront
    obtain ⟨ext, rfl⟩ := hfront
    have hle : front.length ≤ isizeMax := by
      rw [List.length_append] at hlen
      omega
    rw [← parseFront_eq elemSize hlen] at h
    rw [← parseFront_eq elemSize hle]
    exact (parseFront_stable elemSize).more_of_append h
  · intro buf hlen
    exact parseAllLoop_run hlen (Nat.zero_le _) (by omega)
  · intro host conn hstatus hlen
    have hpending : conn.pending = [] ++ conn.pending := rfl
    obtain ⟨out, offset, hloop, _⟩ :=
      Connection.parseLoop_drain host hpending hstatus hlen (Nat.lt_succ_self _)
    exact ⟨out, offset, hloop⟩

end Progress

/-- A nil with more behind it, an unknown type byte, and a length without its CR LF. -/
theorem parser_prefix_stable_short :
    (3 ≤ 5 ∧ 5 ≤ 6 ∧ parse 32 [36, 45, 49, 13, 10] = .ok (some (.nil, 5)) ∧
      parse 32 [36, 45, 49, 13, 10, 43, 33] = .ok (some (.nil, 5))) ∧
    parse 32 [33, 43] = .error (.protocol "Unknown RESP type byte: 0x21") ∧
    parse 32 [36, 49] = .ok none ∧
    ParseAllRun 32 [58, 55, 13, 10] 0 [] (parseAll 32 [58, 55, 13, 10]) ∧
    ∃ out offset, (Connection.accept zeroedRegion).parseLoop quietHost 0 1 = some (out, offset) := by
  obtain ⟨hsome, herror, hmore, hrun, hends⟩ := parser_prefix_stable 32
  refine ⟨?_, ?_, ?_, ?_, ?_⟩
  · exact hsome [36, 45, 49, 13, 10, 43] [33] .nil 5 (by decide) rfl
  · exact herror [33] [43] (.protocol "Unknown RESP type byte: 0x21") (by decide) rfl
  · exact hmore [36, 49, 13] [36, 49] (by decide) rfl ⟨[13], rfl⟩
  · exact hrun [58, 55, 13, 10] (by decide)
  · exact hends quietHost (Connection.accept zeroedRegion) rfl (by decide)

end MemLane
