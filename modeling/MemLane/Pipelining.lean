import MemLane.ReplyFraming
import MemLane.ServerRuns

/-!
# Pipelined requests

A client of the server may send many requests before it reads a reply, and then has to tell
from the bytes alone which reply belongs to which request.  It can: as long as no request is a
command with CR LF in its name, the bytes written to it parse as one reply for each of its
requests, in the order of the requests, and each is the reply that the operations made for its
request call for, although the operations of other connections have come in between.
-/

namespace MemLane

open Framing (drain)

/-! ## Replies to a request -/

/-- The errors among the answers of the table are those of a client call. -/
def CallErrors : (q : Query) → q.Result → Prop
  | .get _, (result : Except MemLaneError (Option Bytes)) => ∀ e, result = .error e → e.OfCall
  | .set .., (result : Except MemLaneError Bool) => ∀ e, result = .error e → e.OfCall
  | .flush, (result : Except MemLaneError Unit) => ∀ e, result = .error e → e.OfCall
  | _, _ => True

section Replies

variable {tables : CaseTables} {cmd : Command} {asked : List Operation} {reply : RespValue}

/-- The name of a command that the dispatcher knows has no CR LF. -/
theorem not_hasCrlf_of_known {name : String} (h : name ∈ commandNames) : ¬ HasCrlf name := by
  have hall : ∀ name ∈ commandNames, ¬ HasCrlf name := by decide
  exact hall name h

theorem counterStep_known {name : String} {next : UInt64 → UInt64}
    (h : counterStep name = some next) : name ∈ commandNames := by
  unfold counterStep at h
  split at h
  · decide
  · decide
  · cases h

theorem Command.Malformed.known (h : cmd.Malformed) : cmd.name ∈ commandNames := by
  unfold Command.Malformed at h
  split at h
  all_goals first | exact h.elim | simp_all [commandNames]

/-- The command is a known one, or the reply says that it is not. -/
theorem Command.RepliesBy.known_or (h : cmd.RepliesBy tables asked reply) :
    cmd.name ∈ commandNames ∨ Answer tables cmd reply := by
  cases h with
  | counter hnext | counterFails hnext => exact .inl (counterStep_known hnext)
  | flush hname =>
      have hall : ∀ name ∈ ["FLUSH", "FLUSHALL", "FLUSHDB"], name ∈ commandNames := by decide
      exact .inl (hall _ hname)
  | malformed h => exact .inl h.known
  | unknown => exact .inr .unknown
  | _ => exact .inl (by simp [commandNames])

/-- A reply of client calls has CR LF in a line of text only if the command has it in its name. -/
theorem Command.RepliesBy.answer (h : cmd.RepliesBy tables asked reply)
    (herrors : ∀ a ∈ asked, CallErrors a.1 a.2) : Answer tables cmd reply := by
  rcases h.known_or with hknown | hanswer
  · have hname := not_hasCrlf_of_known hknown
    cases h with
    | ping => exact .leaf hname safeLeaf_pong
    | echo | ttl | del | existsKey | info => exact .leaf hname ⟨rfl, trivial⟩
    | get key result =>
        refine Answer.replyOf hname (fun stored _ => ?_) (herrors _ List.mem_cons_self)
        exact .leaf hname (safeLeaf_bulkOrNil stored)
    | set | flush =>
        refine Answer.replyOf hname (fun _ _ => ?_) (herrors _ List.mem_cons_self)
        exact .leaf hname safeLeaf_ok
    | mget keys values hne hlen => exact .values hname values hlen.le
    | mgetFails keys values key rest e hlen =>
        have hcall : e.OfCall := herrors ⟨.get key, .error e⟩ (by simp) e rfl
        exact .leaf hname (safeLeaf_err hcall.not_hasCrlf)
    | mset => exact .leaf hname safeLeaf_ok
    | msetFails args pairs results pair rest e =>
        have hcall : e.OfCall := herrors ⟨.set pair.1 pair.2 0, .error e⟩ (by simp) e rfl
        exact .leaf hname (safeLeaf_err hcall.not_hasCrlf)
    | counter hnext key stored result =>
        refine Answer.replyOf hname (fun _ _ => .leaf hname ⟨rfl, trivial⟩) ?_
        exact herrors _ (List.mem_cons_of_mem _ List.mem_cons_self)
    | counterFails hnext key e =>
        have hcall : e.OfCall := herrors _ List.mem_cons_self e rfl
        exact .leaf hname (safeLeaf_err hcall.not_hasCrlf)
    | command => exact .values hname [] (Nat.zero_le _)
    | malformed => exact .leaf hname (safeLeaf_wrongArgs hname)
    | unknown h => exact absurd hknown h
  · exact hanswer

/-- A reply has CR LF in a line of text only if the request has it in its name. -/
theorem RespValue.RepliesBy.crlfFree {val : RespValue} (h : val.RepliesBy tables asked reply)
    (herrors : ∀ a ∈ asked, CallErrors a.1 a.2) (hname : ¬ val.NameHasCrlf) : reply.CrlfFree := by
  unfold RespValue.RepliesBy at h
  cases hcmd : extractCommand tables val with
  | error e =>
      rw [hcmd] at h
      have hleaf := safeLeaf_err (extractCommand_error hcmd)
      rw [h.2]
      exact .leaf hleaf.2 hleaf.1
  | ok cmd =>
      rw [hcmd] at h
      exact (Command.RepliesBy.answer h herrors).crlfFree_iff.mpr
        fun hcrlf => hname (nameHasCrlf_iff.mpr ⟨cmd, hcmd, hcrlf⟩)

theorem RespValue.RepliesBy.allocated {elemSize : Nat} {val : RespValue}
    (h : val.RepliesBy tables asked reply) (herrors : ∀ a ∈ asked, CallErrors a.1 a.2)
    (halloc : val.Allocated elemSize) : reply.Allocated elemSize := by
  unfold RespValue.RepliesBy at h
  cases hcmd : extractCommand tables val with
  | error e =>
      rw [hcmd] at h
      rw [h.2]
      exact RespValue.allocated_leaf rfl
  | ok cmd =>
      rw [hcmd] at h
      obtain ⟨name, text, rfl, _⟩ := extractCommand_ok_iff.mp hcmd
      obtain ⟨hfits, _⟩ := halloc
      refine (Command.RepliesBy.answer h herrors).allocated
        ((Nat.mul_le_mul_right elemSize ?_).trans hfits)
      rw [RespValue.items, List.length_map, List.length_cons]
      exact Nat.le_succ _

end Replies

/-- The client of an arena returns errors of client calls only. -/
theorem arenaStore_callErrors (hashFn : Bytes → UInt64) (arena : Arena) (q : Query)
    (clock : Clock) : CallErrors q (arenaStore hashFn arena q clock).1 := by
  cases q with
  | get key => exact fun e he => get_error he
  | set key value ttlSecs => exact fun e he => set_error he
  | flush => exact fun e he => nomatch he
  | del | existsKey | usedCount => trivial

/-! ## Connections -/

/-- What holds of all answers of the table holds of those that a connection gets. -/
theorem Server.forall_operations {σ ι : Type} [DecidableEq ι] {tables : CaseTables}
    {elemSize : Nat} {store : ClientStore σ} {C : (q : Query) → q.Result → Prop}
    (hanswers : ∀ s q clock, C q (store s q clock).1) (server : Server σ ι)
    (inputs : List (ι × ServerEvent)) (i : ι) :
    ∀ a ∈ server.operations tables elemSize store i inputs, C a.1 a.2 := by
  induction inputs generalizing server with
  | nil => exact fun _ ha => absurd ha List.not_mem_nil
  | cons input inputs ih =>
      intro a ha
      rcases List.mem_append.mp ha with ha | ha
      · split_ifs at ha
        · rw [Option.mem_toList, operation?] at ha
          split_ifs at ha
          split at ha
          · cases ha
            exact hanswers _ _ _
          · cases ha
        · cases ha
      · exact ih _ a ha

/-- The bytes written in exchanges are those of their replies. -/
theorem flatten_output_acts (exchanges : List Exchange) :
    ((exchanges.flatMap Exchange.acts).filterMap Act.output?).flatten =
      (exchanges.map Exchange.reply).flatMap encodeToVec := by
  induction exchanges with
  | nil => rfl
  | cons e exchanges ih =>
      rw [List.flatMap_cons, List.filterMap_append, List.flatten_append, ih]
      exact congrArg (· ++ _) (List.append_nil _)

/-- The replies of exchanges parse as what they are. -/
theorem parseAll_exchanges {tables : CaseTables} {elemSize : Nat} {exchanges : List Exchange}
    (hall : ∀ e ∈ exchanges, e.val.RepliesBy tables e.asked e.reply)
    (herrors : ∀ e ∈ exchanges, ∀ a ∈ e.asked, CallErrors a.1 a.2)
    (hnames : ∀ e ∈ exchanges, ¬ e.val.NameHasCrlf)
    (halloc : ∀ e ∈ exchanges, e.val.Allocated elemSize)
    (hlen : ((exchanges.map Exchange.reply).flatMap encodeToVec).length ≤ isizeMax) :
    parseAll elemSize ((exchanges.map Exchange.reply).flatMap encodeToVec) =
      .ok (exchanges.map Exchange.reply,
        ((exchanges.map Exchange.reply).flatMap encodeToVec).length) := by
  refine parseAll_encode ?_ ?_ hlen
  · intro reply hreply
    obtain ⟨e, he, rfl⟩ := List.mem_map.mp hreply
    exact (hall e he).crlfFree (herrors e he) (hnames e he)
  · intro reply hreply
    obtain ⟨e, he, rfl⟩ := List.mem_map.mp hreply
    exact (hall e he).allocated (herrors e he) (halloc e he)

/-- What is drained off received bytes fits into memory. -/
theorem allocated_of_drain {elemSize : Nat} {received : Bytes} {val : RespValue}
    (h : val ∈ (drain (parseFront elemSize) received).1) : val.Allocated elemSize := by
  obtain ⟨front, n, hfront⟩ := Framing.drain_mem (parseFront_stable elemSize) h
  exact (parse_sound elemSize _ _ _ (length_take_isizeMax front) hfront).allocated

/-- **Replies can be matched with requests by their order.**  In every run of the server, one
operation on the table at a time, with any other connections beside it: when a connection
awaits a read, its requests since the last protocol error are the frames received since then,
and unless one of them is a command with CR LF in its name, the bytes written since then parse
as one reply for each request, in the order of the requests, which is the reply that the
operations made for that request call for.  These are the last operations of the connection. -/
theorem replies_match_requests {ι : Type} [DecidableEq ι] (tables : CaseTables) (elemSize : Nat)
    (hashFn : Bytes → UInt64) (region : Arena) (inputs : List (ι × ServerEvent)) (i : ι) :
    let session := (Server.after tables elemSize (arenaStore hashFn) (createArena region)
      inputs).sessions i
    let sent := (session.current.filterMap Act.output?).flatten
    session.phase = .reading →
    (∀ val ∈ session.current.filterMap Act.request?, ¬ val.NameHasCrlf) →
    sent.length ≤ isizeMax →
    ∃ exchanges : List Exchange,
      drain (parseFront elemSize) session.received =
        (exchanges.map Exchange.val, .ok session.pending) ∧
      (∀ e ∈ exchanges, e.val.RepliesBy tables e.asked e.reply) ∧
      exchanges.flatMap Exchange.asked <:+ Server.operations tables elemSize (arenaStore hashFn) i
        (.fresh (createArena region)) inputs ∧
      parseAll elemSize sent = .ok (exchanges.map Exchange.reply, sent.length) := by
  intro session sent hphase hnames hlen
  have hframed : session.Framed tables elemSize :=
    Server.framed_after tables elemSize (arenaStore hashFn) (createArena region) inputs i
  have hasked : session.asked = Server.operations tables elemSize (arenaStore hashFn) i
    (.fresh (createArena region)) inputs := Server.final_asked _ _ _
  have herrors : ∀ a ∈ Server.operations tables elemSize (arenaStore hashFn) i
      (.fresh (createArena region)) inputs, CallErrors a.1 a.2 :=
    Server.forall_operations (arenaStore_callErrors hashFn) _ inputs i
  obtain ⟨vals, hdrain, halternates⟩ := hframed.answered hphase
  rw [halternates.requests, Option.toList_none, List.append_nil] at hnames
  obtain ⟨earlier, answered, begun, acts, ⟨exchanges, hall, rfl, rfl, rfl⟩, hcurrent, hsplit,
    rfl⟩ := halternates
  rw [List.append_nil] at hsplit
  have hsuffix : exchanges.flatMap Exchange.asked <:+ Server.operations tables elemSize
      (arenaStore hashFn) i (.fresh (createArena region)) inputs := by
    rw [← hasked, hsplit]
    exact List.suffix_append _ _
  have hdrained : (drain (parseFront elemSize) session.received).1 =
      exchanges.map Exchange.val := congrArg Prod.fst hdrain
  have hsent : sent = (exchanges.map Exchange.reply).flatMap encodeToVec := by
    rw [← flatten_output_acts, ← List.append_nil (exchanges.flatMap Exchange.acts)]
    exact congrArg (fun acts => (acts.filterMap Act.output?).flatten) hcurrent
  refine ⟨exchanges, hdrain, hall, hsuffix, ?_⟩
  rw [hsent] at hlen ⊢
  refine parseAll_exchanges hall ?_ ?_ ?_ hlen
  · exact fun e he a ha => herrors a (hsuffix.subset (List.mem_flatMap.mpr ⟨e, he, ha⟩))
  · exact fun e he => hnames e.val (List.mem_map_of_mem he)
  · intro e he
    have hframe : e.val ∈ (drain (parseFront elemSize) session.received).1 := by
      rw [hdrained]
      exact List.mem_map_of_mem he
    exact allocated_of_drain hframe

def SessionPhase.isReading : SessionPhase → Bool
  | .reading => true
  | _ => false

theorem SessionPhase.eq_reading {phase : SessionPhase} (h : phase.isReading = true) :
    phase = .reading := by
  cases phase with
  | reading => rfl
  | unaccepted | parsing | running | returned => cases h

/-- Both connections work at the same time. -/
def pipelinedInputs : List (Bool × ServerEvent) := overlapInputs ++ [(true, .parse true)]

theorem replies_match_requests_overlap :
    let session := (Server.after asciiTables 32 (arenaStore siphash) (createArena zeroedRegion)
      pipelinedInputs).sessions true
    let sent := (session.current.filterMap Act.output?).flatten
    ∃ exchanges : List Exchange,
      drain (parseFront 32) session.received =
        (exchanges.map Exchange.val, .ok session.pending) ∧
      (∀ e ∈ exchanges, e.val.RepliesBy asciiTables e.asked e.reply) ∧
      exchanges.flatMap Exchange.asked <:+ Server.operations asciiTables 32 (arenaStore siphash)
        true (.fresh (createArena zeroedRegion)) pipelinedInputs ∧
      parseAll 32 sent = .ok (exchanges.map Exchange.reply, sent.length) := by
  have hphase : ((Server.after asciiTables 32 (arenaStore siphash) (createArena zeroedRegion)
      pipelinedInputs).sessions true).phase = .reading :=
    SessionPhase.eq_reading (by decide +kernel)
  have hrequests : ((Server.after asciiTables 32 (arenaStore siphash) (createArena zeroedRegion)
      pipelinedInputs).sessions true).current.filterMap Act.request? =
        [request "MSET" [[1], [57]]] := rfl
  refine replies_match_requests asciiTables 32 siphash zeroedRegion pipelinedInputs true hphase ?_
    (by decide +kernel)
  intro val hval hcrlf
  rw [hrequests, List.mem_singleton] at hval
  subst hval
  obtain ⟨cmd, hcmd, hname⟩ := (@nameHasCrlf_iff asciiTables _).mp hcrlf
  rw [extractCommand_request _ (by decide)] at hcmd
  cases hcmd
  exact absurd hname (by decide)

end MemLane
