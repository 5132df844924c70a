import MemLane.Dispatch
import MemLane.RespRoundTrip
import MemLane.SipHash

/-!
# One request, one reply frame

A reply is read back as one value, whatever follows it, exactly when no text in
it contains CR LF.  Bulk strings carry the request's bytes behind their length,
and the fixed texts and the numbers in them are harmless.  One branch copies
request bytes into a line: the answer to an unknown command repeats its name.
-/

namespace MemLane

variable {tables : CaseTables} {hashFn : Bytes → UInt64} {elemSize : Nat}

/-- Reading back is freedom from CR LF. -/
theorem readsBack_iff {v : RespValue} (halloc : v.Allocated elemSize)
    (hlen : (encodeToVec v).length ≤ isizeMax) : ReadsBack (parse elemSize) v ↔ v.CrlfFree := by
  constructor
  · intro hread
    have hlen' : (encodeToVec v ++ []).length ≤ isizeMax := by
      rw [List.append_nil]
      exact hlen
    exact (parse_sound elemSize _ _ _ hlen' (hread [] hlen')).crlfFree
  · intro hfree
    exact parse_encode hfree halloc

/-! ## Texts -/

theorem crlfFree_error_iff {text : String} :
    (RespValue.error text).CrlfFree ↔ ¬ HasCrlf text := by
  rw [← infix_asBytes_iff]
  constructor
  · intro h
    obtain ⟨htext, _⟩ := h
    exact htext
  · intro h
    exact RespValue.Every.leaf h rfl

/-- A value with nothing inside and no CR LF in its text. -/
def RespValue.SafeLeaf (v : RespValue) : Prop := v.items = [] ∧ v.LineText

theorem safeLeaf_error {text : String} (h : ¬ HasCrlf text) : (RespValue.error text).SafeLeaf :=
  ⟨rfl, mt (infix_asBytes_iff text).mp h⟩

theorem safeLeaf_err {msg : String} (h : ¬ HasCrlf msg) : (Resp.err msg).SafeLeaf := by
  apply safeLeaf_error
  rw [hasCrlf_append_left (by decide)]
  exact h

theorem safeLeaf_wrongArgs {cmd : String} (h : ¬ HasCrlf cmd) :
    (Resp.wrongArgs tables cmd).SafeLeaf := by
  apply safeLeaf_error
  rw [hasCrlf_append_left (by decide), hasCrlf_append_right (by decide) (by decide),
    hasCrlf_toLowercase]
  exact h

theorem safeLeaf_ok : Resp.ok.SafeLeaf := ⟨rfl, mt (infix_asBytes_iff "OK").mp (by decide)⟩

theorem safeLeaf_pong : Resp.pong.SafeLeaf := ⟨rfl, mt (infix_asBytes_iff "PONG").mp (by decide)⟩

theorem safeLeaf_bulkOrNil (stored : Option Bytes) : (bulkOrNil stored).SafeLeaf := by
  cases stored with
  | none => exact ⟨rfl, trivial⟩
  | some value => exact ⟨rfl, trivial⟩

/-- The errors that a client call returns: all but `ArenaInit`. -/
def MemLaneError.OfCall (e : MemLaneError) : Prop := ∀ msg, e ≠ .arenaInit msg

theorem not_hasCrlf_number {before after : String} (n : Nat) (hbefore : '\r' ∉ before.toList)
    (hafter : ¬ HasCrlf after) : ¬ HasCrlf (before ++ (toString n ++ after)) := by
  rw [hasCrlf_append_left hbefore, hasCrlf_append_left (not_mem_toList_repr (by decide))]
  exact hafter

theorem MemLaneError.OfCall.not_hasCrlf {e : MemLaneError} (h : e.OfCall) :
    ¬ HasCrlf e.display := by
  cases e with
  | arenaInit msg => exact absurd rfl (h msg)
  | arenaFull slots => exact not_hasCrlf_number slots (by decide) (by decide)
  | keyTooLong len => exact not_hasCrlf_number len (by decide) (by decide)
  | valueTooLong len => exact not_hasCrlf_number len (by decide) (by decide)

/-! ## The errors of client calls -/

theorem get_error {arena : Arena} {key : Bytes} {clock : Clock} {e : MemLaneError}
    (h : (MemLaneClient.get hashFn arena key clock).1 = .error e) : e.OfCall := by
  unfold MemLaneClient.get at h
  split at h
  · cases h
    intro msg hmsg
    cases hmsg
  · simp only at h
    split at h <;> cases h

theorem set_error {arena : Arena} {key value : Bytes} {ttlSecs : UInt64} {clock : Clock}
    {e : MemLaneError} (h : (MemLaneClient.set hashFn arena key value ttlSecs clock).1 = .error e) :
    e.OfCall := by
  unfold MemLaneClient.set at h
  split at h
  · cases h
    intro msg hmsg
    cases hmsg
  · split at h
    · cases h
      intro msg hmsg
      cases hmsg
    · simp only at h
      split at h
      · cases h
      · cases h
      · cases h
        intro msg hmsg
        cases hmsg

theorem mget_result {arena : Arena} {keys : List Bytes} {clock : Nat → Clock} :
    (∀ e, (MemLaneClient.mget hashFn arena keys clock).1 = .error e → e.OfCall) ∧
    (∀ values, (MemLaneClient.mget hashFn arena keys clock).1 = .ok values →
      values.length = keys.length) := by
  induction keys generalizing arena clock with
  | nil =>
      refine ⟨?_, ?_⟩
      · intro e h
        cases h
      · intro values h
        cases h
        rfl
  | cons key keys ih =>
      unfold MemLaneClient.mget
      simp only
      split
      · next e hget =>
          refine ⟨?_, ?_⟩
          · intro e' h
            cases h
            exact get_error hget
          · intro values h
            cases h
      · next value hget =>
          obtain ⟨ihErr, ihOk⟩ := @ih (MemLaneClient.get hashFn arena key (clock 0)).2
            (fun i => clock (i + 1))
          split
          · next e hrest =>
              refine ⟨?_, ?_⟩
              · intro e' h
                cases h
                exact ihErr e hrest
              · intro values h
                cases h
          · next rest hrest =>
              refine ⟨?_, ?_⟩
              · intro e' h
                cases h
              · intro values h
                cases h
                rw [List.length_cons, List.length_cons, ihOk rest hrest]

theorem msetLoop_error {arena : Arena} {ttlSecs : UInt64} {count : Nat}
    {pairs : List (Bytes × Bytes)} {clock : Nat → Clock} {e : MemLaneError}
    (h : (MemLaneClient.msetLoop hashFn ttlSecs arena count pairs clock).1 = .error e) :
    e.OfCall := by
  induction pairs generalizing arena count clock with
  | nil => cases h
  | cons pair pairs ih =>
      obtain ⟨key, value⟩ := pair
      unfold MemLaneClient.msetLoop at h
      simp only at h
      split at h
      · next e' hset =>
          cases h
          exact set_error hset
      · exact ih h

theorem storeCounter_error {arena : Arena} {key : Bytes} {next : UInt64} {clock : Clock}
    {e : MemLaneError} (h : (MemLaneClient.storeCounter hashFn arena key next clock).1 = .error e) :
    e.OfCall := by
  unfold MemLaneClient.storeCounter at h
  simp only at h
  split at h
  · next e' hset =>
      cases h
      exact set_error hset
  · cases h

theorem incr_error {arena : Arena} {key : Bytes} {clock : Nat → Clock} {e : MemLaneError}
    (h : (MemLaneClient.incr hashFn arena key clock).1 = .error e) : e.OfCall := by
  unfold MemLaneClient.incr at h
  simp only at h
  split at h
  · next e' hget =>
      cases h
      exact get_error hget
  · exact storeCounter_error h

theorem decr_error {arena : Arena} {key : Bytes} {clock : Nat → Clock} {e : MemLaneError}
    (h : (MemLaneClient.decr hashFn arena key clock).1 = .error e) : e.OfCall := by
  unfold MemLaneClient.decr at h
  simp only at h
  split at h
  · next e' hget =>
      cases h
      exact get_error hget
  · exact storeCounter_error h

/-! ## The request -/

theorem commandArgs_ok {items : List RespValue} {args : List Bytes}
    (h : commandArgs items = .ok args) : items = args.map .bulkString := by
  induction items generalizing args with
  | nil =>
      cases h
      rfl
  | cons item items ih =>
      unfold commandArgs at h
      split at h
      · next heq => cases heq
      · next b items' heq =>
          cases heq
          split at h
          · cases h
          · next rest hrest =>
              cases h
              rw [ih hrest, List.map_cons]
      · cases h

theorem commandArgs_map (args : List Bytes) : commandArgs (args.map .bulkString) = .ok args := by
  induction args with
  | nil => rfl
  | cons arg args ih => rw [List.map_cons, commandArgs, ih]

theorem commandArgs_error {items : List RespValue} {e : String}
    (h : commandArgs items = .error e) : ¬ HasCrlf e := by
  induction items with
  | nil => cases h
  | cons item items ih =>
      unfold commandArgs at h
      split at h
      · cases h
      · next b items' heq =>
          cases heq
          split at h
          · next e' hrest =>
              cases h
              exact ih hrest
          · cases h
      · cases h
        decide

/-- Exactly the nonempty arrays of bulk strings with a decodable name are commands. -/
theorem extractCommand_ok_iff {val : RespValue} {cmd : Command} :
    extractCommand tables val = .ok cmd ↔
      ∃ b s, val = .array ((b :: cmd.args).map .bulkString) ∧ fromUtf8 b = some s ∧
        cmd.name = toUppercase tables s := by
  constructor
  · intro h
    unfold extractCommand at h
    split at h
    · next b items =>
        split at h
        · cases h
        · next s hs =>
            split at h
            · cases h
            · next args hargs =>
                cases h
                refine ⟨b, s, ?_, hs, rfl⟩
                rw [commandArgs_ok hargs, List.map_cons]
    · cases h
    · cases h
  · intro h
    obtain ⟨b, s, rfl, hs, hname⟩ := h
    simp only [List.map_cons, extractCommand, hs, commandArgs_map, ← hname]

theorem extractCommand_error {val : RespValue} {e : String}
    (h : extractCommand tables val = .error e) : ¬ HasCrlf e := by
  unfold extractCommand at h
  split at h
  · split at h
    · cases h
      decide
    · split at h
      · next e' hargs =>
          cases h
          exact commandArgs_error hargs
      · cases h
  · cases h
    decide
  · cases h
    decide

/-- A well-formed command whose name contains CR LF. -/
def RespValue.NameHasCrlf (val : RespValue) : Prop :=
  ∃ name args, val = .array ((name :: args).map .bulkString) ∧ (fromUtf8 name).isSome ∧
    crlf <:+: name

theorem nameHasCrlf_iff {val : RespValue} :
    val.NameHasCrlf ↔ ∃ cmd, extractCommand tables val = .ok cmd ∧ HasCrlf cmd.name := by
  constructor
  · intro h
    obtain ⟨name, args, hval, hsome, hcrlf⟩ := h
    obtain ⟨s, hs⟩ := Option.isSome_iff_exists.mp hsome
    refine ⟨⟨toUppercase tables s, args⟩, extractCommand_ok_iff.mpr ⟨name, s, hval, hs, rfl⟩, ?_⟩
    rw [hasCrlf_toUppercase, ← infix_asBytes_iff, fromUtf8_eq_some_iff.mp hs]
    exact hcrlf
  · intro h
    obtain ⟨cmd, hcmd, hcrlf⟩ := h
    obtain ⟨name, s, hval, hs, hname⟩ := extractCommand_ok_iff.mp hcmd
    refine ⟨name, cmd.args, hval, Option.isSome_iff_exists.mpr ⟨s, hs⟩, ?_⟩
    rw [hname, hasCrlf_toUppercase, ← infix_asBytes_iff, fromUtf8_eq_some_iff.mp hs] at hcrlf
    exact hcrlf

/-! ## The dispatcher -/

/-- The replies to a command: a single value, the values of `MGET`, or the answer to
an unknown name. -/
inductive Answer (tables : CaseTables) (cmd : Command) : RespValue → Prop
  | leaf {reply : RespValue} (hname : ¬ HasCrlf cmd.name) (hleaf : reply.SafeLeaf) :
      Answer tables cmd reply
  | values (hname : ¬ HasCrlf cmd.name) (values : List (Option Bytes))
      (hlen : values.length ≤ cmd.args.length) : Answer tables cmd (.array (values.map bulkOrNil))
  | unknown : Answer tables cmd (.error ("ERR unknown command '" ++ (toLowercase tables cmd.name ++
      "', try PING, GET, SET, DEL, EXISTS, MGET, MSET, INCR, DECR, FLUSH, INFO")))

theorem Answer.replyOf {cmd : Command} {α : Type} {value : α → RespValue}
    {result : Except MemLaneError α} (hname : ¬ HasCrlf cmd.name)
    (hvalue : ∀ a, result = .ok a → Answer tables cmd (value a))
    (herror : ∀ e, result = .error e → e.OfCall) :
    Answer tables cmd (MemLane.replyOf value result) := by
  cases result with
  | error e => exact .leaf hname (safeLeaf_err (herror e rfl).not_hasCrlf)
  | ok a => exact hvalue a rfl

theorem dispatchCommand_answer {arena : Arena} {val : RespValue} {clock : Nat → Clock}
    {cmd : Command} (hcmd : extractCommand tables val = .ok cmd) :
    Answer tables cmd (dispatchCommand tables hashFn arena val clock).1 := by
  have hknown : ∀ {name : String}, cmd.name = name → ¬ HasCrlf name → ¬ HasCrlf cmd.name := by
    intro name hname hcrlf
    rw [hname]
    exact hcrlf
  unfold dispatchCommand
  rw [hcmd]
  simp only
  -- one case per command name, in the order of the source
  split
  · next hname =>
      have hn := hknown hname (by decide)
      split
      · exact .leaf hn safeLeaf_pong
      · exact .leaf hn ⟨rfl, trivial⟩
  · next hname =>
      have hn := hknown hname (by decide)
      split
      · apply Answer.replyOf hn _ fun e he => get_error he
        intro stored _
        exact .leaf hn (safeLeaf_bulkOrNil stored)
      · exact .leaf hn (safeLeaf_wrongArgs (by decide))
  · next hname =>
      have hn := hknown hname (by decide)
      split
      · apply Answer.replyOf hn _ fun e he => set_error he
        intro inserted _
        exact .leaf hn safeLeaf_ok
      · exact .leaf hn (safeLeaf_wrongArgs (by decide))
  · next hname =>
      have hn := hknown hname (by decide)
      split
      · exact .leaf hn (safeLeaf_wrongArgs (by decide))
      · exact .leaf hn ⟨rfl, trivial⟩
  · next hname =>
      have hn := hknown hname (by decide)
      split
      · exact .leaf hn (safeLeaf_wrongArgs (by decide))
      · exact .leaf hn ⟨rfl, trivial⟩
  · next hname =>
      have hn := hknown hname (by decide)
      split
      · exact .leaf hn (safeLeaf_wrongArgs (by decide))
      · apply Answer.replyOf hn _ fun e he => mget_result.1 e he
        intro values hvalues
        exact .values hn values (mget_result.2 values hvalues).le
  · next hname =>
      have hn := hknown hname (by decide)
      split
      · exact .leaf hn (safeLeaf_wrongArgs (by decide))
      · apply Answer.replyOf hn _ fun e he => msetLoop_error he
        intro count _
        exact .leaf hn safeLeaf_ok
  · next hname =>
      have hn := hknown hname (by decide)
      split
      · apply Answer.replyOf hn _ fun e he => incr_error he
        intro n _
        exact .leaf hn ⟨rfl, trivial⟩
      · exact .leaf hn (safeLeaf_wrongArgs (by decide))
  · next hname =>
      have hn := hknown hname (by decide)
      split
      · apply Answer.replyOf hn _ fun e he => decr_error he
        intro n _
        exact .leaf hn ⟨rfl, trivial⟩
      · exact .leaf hn (safeLeaf_wrongArgs (by decide))
  · next hname =>
      have hn := hknown hname (by decide)
      split
      · exact .leaf hn ⟨rfl, trivial⟩
      · exact .leaf hn (safeLeaf_wrongArgs (by decide))
  · next hname => exact .leaf (hknown hname (by decide)) safeLeaf_ok
  · next hname => exact .leaf (hknown hname (by decide)) safeLeaf_ok
  · next hname => exact .leaf (hknown hname (by decide)) safeLeaf_ok
  · next hname => exact .leaf (hknown hname (by decide)) ⟨rfl, trivial⟩
  · next hname => exact .values (hknown hname (by decide)) [] (Nat.zero_le _)
  · exact .unknown

/-- Only the answer to an unknown command can have CR LF, and has it with its name. -/
theorem Answer.crlfFree_iff {cmd : Command} {reply : RespValue} (h : Answer tables cmd reply) :
    reply.CrlfFree ↔ ¬ HasCrlf cmd.name := by
  cases h with
  | leaf hname hleaf => exact iff_of_true (.leaf hleaf.2 hleaf.1) hname
  | values hname values _ =>
      apply iff_of_true _ hname
      refine ⟨trivial, ?_⟩
      intro w hw
      obtain ⟨stored, _, rfl⟩ := List.mem_map.mp hw
      have hleaf := safeLeaf_bulkOrNil stored
      exact .leaf hleaf.2 hleaf.1
  | unknown =>
      rw [crlfFree_error_iff, hasCrlf_append_left (by decide),
        hasCrlf_append_right (by decide) (by decide), hasCrlf_toLowercase]

/-- A reply has no more values than the command has arguments. -/
theorem Answer.allocated {cmd : Command} {reply : RespValue} (h : Answer tables cmd reply)
    (hargs : cmd.args.length * elemSize ≤ isizeMax) : reply.Allocated elemSize := by
  cases h with
  | leaf _ hleaf => exact RespValue.allocated_leaf hleaf.1
  | values _ values hlen =>
      refine ⟨?_, ?_⟩
      · rw [RespValue.items, List.length_map]
        exact (Nat.mul_le_mul_right elemSize hlen).trans hargs
      · intro w hw
        obtain ⟨stored, _, rfl⟩ := List.mem_map.mp hw
        exact RespValue.allocated_leaf (safeLeaf_bulkOrNil stored).1
  | unknown => exact RespValue.allocated_leaf rfl

theorem dispatchCommand_crlfFree_iff {arena : Arena} {val : RespValue} {clock : Nat → Clock} :
    (dispatchCommand tables hashFn arena val clock).1.CrlfFree ↔ ¬ val.NameHasCrlf := by
  rw [@nameHasCrlf_iff tables]
  cases hcmd : extractCommand tables val with
  | error e =>
      have hreply : (dispatchCommand tables hashFn arena val clock).1 = Resp.err e := by
        rw [dispatchCommand, hcmd]
      rw [hreply]
      have hleaf := safeLeaf_err (extractCommand_error hcmd)
      apply iff_of_true (.leaf hleaf.2 hleaf.1)
      intro h
      obtain ⟨cmd, h, _⟩ := h
      cases h
  | ok cmd =>
      rw [(dispatchCommand_answer hcmd).crlfFree_iff, not_iff_not]
      constructor
      · intro h
        exact ⟨cmd, rfl, h⟩
      · intro h
        obtain ⟨cmd', h, hcrlf⟩ := h
        cases h
        exact hcrlf

theorem dispatchCommand_allocated {arena : Arena} {val : RespValue} {clock : Nat → Clock}
    (halloc : val.Allocated elemSize) :
    (dispatchCommand tables hashFn arena val clock).1.Allocated elemSize := by
  cases hcmd : extractCommand tables val with
  | error e =>
      have hreply : (dispatchCommand tables hashFn arena val clock).1 = Resp.err e := by
        rw [dispatchCommand, hcmd]
      rw [hreply]
      exact RespValue.allocated_leaf rfl
  | ok cmd =>
      obtain ⟨name, s, rfl, _⟩ := extractCommand_ok_iff.mp hcmd
      obtain ⟨hfits, _⟩ := halloc
      apply (dispatchCommand_answer hcmd).allocated
      refine (Nat.mul_le_mul_right elemSize ?_).trans hfits
      rw [RespValue.items, List.length_map, List.length_cons]
      exact Nat.le_succ _

/-- The reply to a request is one frame, whatever follows it, unless the request is a
command whose name contains CR LF. -/
theorem reply_one_frame_iff (tables : CaseTables) (hashFn : Bytes → UInt64) (elemSize : Nat)
    (arena : Arena) (val : RespValue) (clock : Nat → Clock) (halloc : val.Allocated elemSize)
    (hlen : (encodeToVec (dispatchCommand tables hashFn arena val clock).1).length ≤ isizeMax) :
    (∀ rest : Bytes,
      (encodeToVec (dispatchCommand tables hashFn arena val clock).1 ++ rest).length ≤ isizeMax →
      parse elemSize (encodeToVec (dispatchCommand tables hashFn arena val clock).1 ++ rest) =
        .ok (some ((dispatchCommand tables hashFn arena val clock).1,
          (encodeToVec (dispatchCommand tables hashFn arena val clock).1).length))) ↔
      ¬ val.NameHasCrlf := by
  rw [← @dispatchCommand_crlfFree_iff tables hashFn arena val clock]
  exact readsBack_iff (dispatchCommand_allocated halloc) hlen

/-- `PING` with a message that looks like a frame of its own. -/
def pingRequest : RespValue := .array [.bulkString [80, 73, 78, 71], .bulkString [13, 10, 43, 79, 75]]

theorem reply_one_frame_ping :
    parse 32 (encodeToVec (.bulkString [13, 10, 43, 79, 75]) ++ [43, 79, 75, 13, 10]) =
      .ok (some (.bulkString [13, 10, 43, 79, 75], 11)) := by
  have halloc : pingRequest.Allocated 32 := by
    refine ⟨by decide, ?_⟩
    intro w hw
    simp only [pingRequest, RespValue.items, List.mem_cons, List.not_mem_nil, or_false] at hw
    rcases hw with rfl | rfl <;> exact RespValue.allocated_leaf rfl
  have hname : ¬ pingRequest.NameHasCrlf := by
    intro h
    obtain ⟨name, args, heq, _, hcrlf⟩ := h
    have hname := RespValue.bulkString.inj (List.cons.inj (RespValue.array.inj heq)).1
    rw [← hname] at hcrlf
    exact absurd hcrlf (by decide)
  exact (reply_one_frame_iff asciiTables siphash 32 (createArena zeroedRegion) pingRequest
    (fun _ _ => 0) halloc (by decide +kernel)).mpr hname [43, 79, 75, 13, 10] (by decide +kernel)

/-- A command that does not exist, with CR LF and `+OK` in its name. -/
def splittingRequest : RespValue := .array [.bulkString [120, 13, 10, 43, 79, 75]]

/-- The reply to it. -/
def splitReply : RespValue :=
  (dispatchCommand asciiTables siphash (createArena zeroedRegion) splittingRequest fun _ _ => 0).1

theorem parse_splitReply :
    parse 32 (encodeToVec splitReply) = .ok (some (.error "ERR unknown command 'x", 25)) := rfl

/-- It is two frames on the wire. -/
theorem unknown_command_splits_reply :
    ¬ (∀ rest : Bytes, (encodeToVec splitReply ++ rest).length ≤ isizeMax →
        parse 32 (encodeToVec splitReply ++ rest) =
          .ok (some (splitReply, (encodeToVec splitReply).length))) ∧
    parseAll 32 (encodeToVec splitReply) =
      .ok ([.error "ERR unknown command 'x", .simpleString ("ok', try PING, GET, SET, DEL, " ++
        "EXISTS, MGET, MSET, INCR, DECR, FLUSH, INFO")], 101) := by
  refine ⟨?_, rfl⟩
  intro h
  have hread := h [] (by decide +kernel)
  rw [List.append_nil, parse_splitReply] at hread
  have hreply : RespValue.error "ERR unknown command 'x" = splitReply :=
    congrArg Prod.fst (Option.some.inj (Except.ok.inj hread))
  have htext := RespValue.error.inj hreply
  exact absurd htext (by decide)

end MemLane
