import MemLane.ReplyFraming

/-!
# Requests

What a client library sends is an array of bulk strings with the name of a command
in front.  The dispatcher turns such a request into the client call of that name;
each equation below names the call and the reply made of its result.
-/

namespace MemLane

variable {tables : CaseTables} {hashFn : Bytes → UInt64} {arena : Arena} {val : RespValue}
  {clock : Nat → Clock} {key value : Bytes}

/-! ## Names, numbers and options -/

/-- The request with this command name and these arguments. -/
def request (name : String) (args : List Bytes) : RespValue :=
  .array ((asBytes name :: args).map .bulkString)

/-- Send a request while the clock stands at `now`. -/
def send (tables : CaseTables) (hashFn : Bytes → UInt64) (arena : Arena) (name : String)
    (args : List Bytes) (now : UInt64) : RespValue × Arena :=
  dispatchCommand tables hashFn arena (request name args) fun _ _ => now

/-- The name is written in ASCII, without small letters. -/
def isCapitals (s : String) : Bool := s.toList.all fun c => c.toNat < 128 && c.toUpper == c

/-- A name in ASCII capitals is its own upper case. -/
theorem toUppercase_eq_self {s : String} (h : isCapitals s = true) : toUppercase tables s = s := by
  have himage : s.toList.flatMap tables.toUpper = s.toList.flatMap fun c => [c] := by
    refine List.flatMap_congr fun c hc => ?_
    have hc := List.all_eq_true.mp h c hc
    rw [Bool.and_eq_true, decide_eq_true_eq, beq_iff_eq] at hc
    rw [tables.toUpper_ascii c hc.1, hc.2]
  rw [toUppercase, himage, List.flatMap_singleton', String.ofList_toList]

/-- The dispatcher sees the name and the arguments that were sent. -/
theorem extractCommand_request {name : String} (args : List Bytes) (h : isCapitals name = true) :
    extractCommand tables (request name args) = .ok ⟨name, args⟩ :=
  extractCommand_ok_iff.mpr
    ⟨asBytes name, name, rfl, fromUtf8_eq_some_iff.mpr rfl, (toUppercase_eq_self h).symm⟩

@[simp] theorem fromUtf8Lossy_asBytes (s : String) : fromUtf8Lossy (asBytes s) = s := by
  simp only [fromUtf8Lossy, fromUtf8_asBytes]

/-- A number is read back from the numeral a client sends. -/
theorem parseU64_numeral (n : UInt64) :
    parseU64 (fromUtf8Lossy (Decimal.numeral n.toNat)) = some n := by
  obtain ⟨s, hs, hbytes⟩ := exists_fromUtf8_of_ascii (Decimal.ascii_numeral n.toNat)
  simp only [fromUtf8Lossy, hs, parseU64, hbytes, Decimal.readNat_numeral, if_pos n.toNat_lt,
    UInt64.ofNat_toNat]

section Options

variable {ttlSecs : UInt64} {opt arg : Bytes} {rest : List Bytes}

/-- One round of the option loop that has an argument to look at. -/
theorem setOptions_cons_cons :
    setOptions tables ttlSecs (opt :: arg :: rest) =
      if toUppercase tables (fromUtf8Lossy opt) = "EX" then
        setOptions tables ((parseU64 (fromUtf8Lossy arg)).getD 0) rest
      else if toUppercase tables (fromUtf8Lossy opt) = "PX" then
        setOptions tables (((parseU64 (fromUtf8Lossy arg)).getD 0 + 999) / 1000) rest
      else setOptions tables ttlSecs (arg :: rest) := by
  conv_lhs => unfold setOptions
  split
  · next h => rw [if_pos h]
  · next h =>
      have hne : toUppercase tables (fromUtf8Lossy opt) ≠ "EX" := by rw [h]; decide
      rw [if_neg hne, if_pos h]
  · next hex hpx => rw [if_neg hex, if_neg hpx]

/-- `EX` takes its argument as seconds. -/
theorem setOptions_ex (h : toUppercase tables (fromUtf8Lossy opt) = "EX") :
    setOptions tables ttlSecs (opt :: arg :: rest) =
      setOptions tables ((parseU64 (fromUtf8Lossy arg)).getD 0) rest := by
  rw [setOptions_cons_cons, if_pos h]

/-- `PX` takes its argument as milliseconds. -/
theorem setOptions_px (h : toUppercase tables (fromUtf8Lossy opt) = "PX") :
    setOptions tables ttlSecs (opt :: arg :: rest) =
      setOptions tables (((parseU64 (fromUtf8Lossy arg)).getD 0 + 999) / 1000) rest := by
  have hne : toUppercase tables (fromUtf8Lossy opt) ≠ "EX" := by rw [h]; decide
  rw [setOptions_cons_cons, if_neg hne, if_pos h]

/-- Any other argument is skipped. -/
theorem setOptions_skip (hex : toUppercase tables (fromUtf8Lossy opt) ≠ "EX")
    (hpx : toUppercase tables (fromUtf8Lossy opt) ≠ "PX") :
    setOptions tables ttlSecs (opt :: rest) = setOptions tables ttlSecs rest := by
  cases rest with
  | nil => rfl
  | cons arg rest => rw [setOptions_cons_cons, if_neg hex, if_neg hpx]

end Options

/-! ## The calls behind the commands -/

theorem dispatchCommand_get (h : extractCommand tables val = .ok ⟨"GET", [key]⟩) :
    dispatchCommand tables hashFn arena val clock =
      (replyOf bulkOrNil (MemLaneClient.get hashFn arena key (clock 0)).1,
        (MemLaneClient.get hashFn arena key (clock 0)).2) := by
  simp only [dispatchCommand, h]

theorem dispatchCommand_set {options : List Bytes}
    (h : extractCommand tables val = .ok ⟨"SET", key :: value :: options⟩) :
    dispatchCommand tables hashFn arena val clock =
      (replyOf (fun _ => Resp.ok) (MemLaneClient.set hashFn arena key value
          (setOptions tables 0 options) (clock 0)).1,
        (MemLaneClient.set hashFn arena key value
          (setOptions tables 0 options) (clock 0)).2) := by
  simp only [dispatchCommand, h]

theorem dispatchCommand_del {keys : List Bytes} (hne : keys ≠ [])
    (h : extractCommand tables val = .ok ⟨"DEL", keys⟩) :
    dispatchCommand tables hashFn arena val clock =
      (Resp.integer (delEach hashFn arena 0 keys).1, (delEach hashFn arena 0 keys).2) := by
  cases keys with
  | nil => exact (hne rfl).elim
  | cons key keys => simp only [dispatchCommand, h]

theorem dispatchCommand_exists {keys : List Bytes} (hne : keys ≠ [])
    (h : extractCommand tables val = .ok ⟨"EXISTS", keys⟩) :
    dispatchCommand tables hashFn arena val clock =
      (Resp.integer (existsEach hashFn arena 0 keys clock).1,
        (existsEach hashFn arena 0 keys clock).2) := by
  cases keys with
  | nil => exact (hne rfl).elim
  | cons key keys => simp only [dispatchCommand, h]

theorem dispatchCommand_incr (h : extractCommand tables val = .ok ⟨"INCR", [key]⟩) :
    dispatchCommand tables hashFn arena val clock =
      (replyOf (fun n => Resp.integer n.toInt64) (MemLaneClient.incr hashFn arena key clock).1,
        (MemLaneClient.incr hashFn arena key clock).2) := by
  simp only [dispatchCommand, h]

theorem dispatchCommand_decr (h : extractCommand tables val = .ok ⟨"DECR", [key]⟩) :
    dispatchCommand tables hashFn arena val clock =
      (replyOf (fun n => Resp.integer n.toInt64) (MemLaneClient.decr hashFn arena key clock).1,
        (MemLaneClient.decr hashFn arena key clock).2) := by
  simp only [dispatchCommand, h]

end MemLane
