import MemLane.RequestScripts

/-!
# What a reply says

The reply to a request is determined by the request, the operations that were made for it on
the shared table, and what these returned: the number that `EXISTS` replies is the number of
its lookups that have found something, `MGET` replies the values of all its keys or the first
error, and so on.  `Command.RepliesBy` says so command by command, without a word about how
the dispatcher goes about it; `requestScript_replies` is that it does so.

Nothing is said here about the table.  Other requests may have changed it between any two of
the operations.
-/

namespace MemLane

/-- An operation of the client, with what it returned. -/
abbrev Operation : Type := (q : Query) × q.Result

/-- A lookup or a deletion that has found its key. -/
def isHit : Except MemLaneError Bool → Bool
  | .ok found => found
  | .error _ => false

/-- What a counter command makes of the number that it has read. -/
def counterStep : String → Option (UInt64 → UInt64)
  | "INCR" => some (· + 1)
  | "DECR" => some fun n => if n = 0 then 0 else n - 1
  | _ => none

/-- The names that the dispatcher knows. -/
def commandNames : List String :=
  ["PING", "GET", "SET", "DEL", "EXISTS", "MGET", "MSET", "INCR", "DECR", "TTL", "FLUSH",
    "FLUSHALL", "FLUSHDB", "INFO", "COMMAND"]

/-- The command has a wrong number of arguments. -/
def Command.Malformed (cmd : Command) : Prop :=
  match cmd.name with
  | "GET" | "INCR" | "DECR" | "TTL" => cmd.args.length ≠ 1
  | "SET" => cmd.args.length < 2
  | "DEL" | "EXISTS" | "MGET" => cmd.args = []
  | "MSET" => cmd.args = [] ∨ cmd.args.length % 2 ≠ 0
  | _ => False

/-- With these operations made for it, in this order, the command is answered by this reply. -/
inductive Command.RepliesBy (tables : CaseTables) : Command → List Operation → RespValue → Prop
  | ping : RepliesBy tables ⟨"PING", []⟩ [] (.simpleString "PONG")
  | echo (msg : Bytes) (rest : List Bytes) :
      RepliesBy tables ⟨"PING", msg :: rest⟩ [] (.bulkString msg)
  | get (key : Bytes) (result : Except MemLaneError (Option Bytes)) :
      RepliesBy tables ⟨"GET", [key]⟩ [⟨.get key, result⟩] (replyOf bulkOrNil result)
  | set (key value : Bytes) (options : List Bytes) (result : Except MemLaneError Bool) :
      RepliesBy tables ⟨"SET", key :: value :: options⟩
        [⟨.set key value (setOptions tables 0 options), result⟩]
        (replyOf (fun _ => Resp.ok) result)
  | del (keys : List Bytes) (results : List (Except MemLaneError Bool)) (hne : keys ≠ [])
      (hlen : results.length = keys.length) :
      RepliesBy tables ⟨"DEL", keys⟩
        (List.zipWith (fun key result => ⟨.del key, result⟩) keys results)
        (.integer (Int64.ofNat (results.countP isHit)))
  | existsKey (keys : List Bytes) (results : List (Except MemLaneError Bool)) (hne : keys ≠ [])
      (hlen : results.length = keys.length) :
      RepliesBy tables ⟨"EXISTS", keys⟩
        (List.zipWith (fun key result => ⟨.existsKey key, result⟩) keys results)
        (.integer (Int64.ofNat (results.countP isHit)))
  | mget (keys : List Bytes) (values : List (Option Bytes)) (hne : keys ≠ [])
      (hlen : values.length = keys.length) :
      RepliesBy tables ⟨"MGET", keys⟩
        (List.zipWith (fun key value => ⟨.get key, .ok value⟩) keys values)
        (.array (values.map bulkOrNil))
  | mgetFails (keys : List Bytes) (values : List (Option Bytes)) (key : Bytes) (rest : List Bytes)
      (e : MemLaneError) (hlen : values.length = keys.length) :
      RepliesBy tables ⟨"MGET", keys ++ key :: rest⟩
        (List.zipWith (fun key value => ⟨.get key, .ok value⟩) keys values ++
          [⟨.get key, .error e⟩])
        (Resp.err e.display)
  | mset (args : List Bytes) (results : List Bool) (hne : args ≠ []) (heven : args.length % 2 = 0)
      (hlen : results.length = (chunkPairs args).length) :
      RepliesBy tables ⟨"MSET", args⟩
        (List.zipWith (fun pair isNew => ⟨.set pair.1 pair.2 0, .ok isNew⟩) (chunkPairs args)
          results)
        Resp.ok
  | msetFails (args : List Bytes) (pairs : List (Bytes × Bytes)) (results : List Bool)
      (pair : Bytes × Bytes) (rest : List (Bytes × Bytes)) (e : MemLaneError)
      (hpairs : chunkPairs args = pairs ++ pair :: rest) (heven : args.length % 2 = 0)
      (hlen : results.length = pairs.length) :
      RepliesBy tables ⟨"MSET", args⟩
        (List.zipWith (fun pair isNew => ⟨.set pair.1 pair.2 0, .ok isNew⟩) pairs results ++
          [⟨.set pair.1 pair.2 0, .error e⟩])
        (Resp.err e.display)
  | counter {name : String} {next : UInt64 → UInt64} (hnext : counterStep name = some next)
      (key : Bytes) (stored : Option Bytes) (result : Except MemLaneError Bool) :
      RepliesBy tables ⟨name, [key]⟩
        [⟨.get key, .ok stored⟩,
          ⟨.set key (Decimal.numeral (next (MemLaneClient.counterValue stored)).toNat) 0, result⟩]
        (replyOf (fun _ => .integer (next (MemLaneClient.counterValue stored)).toInt64) result)
  | counterFails {name : String} {next : UInt64 → UInt64} (hnext : counterStep name = some next)
      (key : Bytes) (e : MemLaneError) :
      RepliesBy tables ⟨name, [key]⟩ [⟨.get key, .error e⟩] (Resp.err e.display)
  | ttl (key : Bytes) : RepliesBy tables ⟨"TTL", [key]⟩ [] (.integer (-1))
  | flush {name : String} (hname : name ∈ ["FLUSH", "FLUSHALL", "FLUSHDB"]) (args : List Bytes)
      (result : Except MemLaneError Unit) :
      RepliesBy tables ⟨name, args⟩ [⟨.flush, result⟩] (replyOf (fun _ => Resp.ok) result)
  | info (args : List Bytes) (used usedAgain : UInt64) :
      RepliesBy tables ⟨"INFO", args⟩ [⟨.usedCount, used⟩, ⟨.usedCount, usedAgain⟩]
        (.bulkString (asBytes (infoOf used usedAgain)))
  | command (args : List Bytes) : RepliesBy tables ⟨"COMMAND", args⟩ [] (.array [])
  | malformed {cmd : Command} (h : cmd.Malformed) :
      RepliesBy tables cmd [] (Resp.wrongArgs tables cmd.name)
  | unknown {cmd : Command} (h : cmd.name ∉ commandNames) :
      RepliesBy tables cmd [] (.error ("ERR unknown command '" ++ (toLowercase tables cmd.name ++
        "', try PING, GET, SET, DEL, EXISTS, MGET, MSET, INCR, DECR, FLUSH, INFO")))

/-- What is no command is answered by saying so. -/
def RespValue.RepliesBy (tables : CaseTables) (val : RespValue) (asked : List Operation)
    (reply : RespValue) : Prop :=
  match extractCommand tables val with
  | .error e => asked = [] ∧ reply = Resp.err e
  | .ok cmd => cmd.RepliesBy tables asked reply

/-- These are the first operations of those that some reply to the request needs. -/
def RespValue.Begins (tables : CaseTables) (val : RespValue) (asked : List Operation) : Prop :=
  ∃ more reply, val.RepliesBy tables (asked ++ more) reply

/-! ## Scripts reply so -/

section Scripts

variable {tables : CaseTables} {asked : List Operation} {reply : RespValue}

/-- What a loop counts at the first key, and then at the others. -/
theorem count_isHit_cons (count : Int64) (result : Except MemLaneError Bool)
    (results : List (Except MemLaneError Bool)) :
    (match result with | .ok true => count + 1 | _ => count) +
        Int64.ofNat (results.countP isHit) =
      count + Int64.ofNat ((result :: results).countP isHit) := by
  match result with
  | .ok true =>
      have hcons : (.ok true :: results).countP isHit = results.countP isHit + 1 :=
        List.countP_cons_of_pos rfl
      rw [hcons, Int64.ofNat_add, Int64.add_comm (Int64.ofNat _), ← Int64.add_assoc]
      rfl
  | .ok false => exact congrArg _ (congrArg _ (List.countP_cons_of_neg Bool.false_ne_true).symm)
  | .error e => exact congrArg _ (congrArg _ (List.countP_cons_of_neg Bool.false_ne_true).symm)

theorem delScript_replies {deleted : Int64} {keys : List Bytes}
    (h : (delScript deleted keys).Reaches asked (.done reply)) :
    ∃ results : List (Except MemLaneError Bool), results.length = keys.length ∧
      asked = List.zipWith (fun key result => ⟨.del key, result⟩) keys results ∧
      reply = .integer (deleted + Int64.ofNat (results.countP isHit)) := by
  induction keys generalizing deleted asked with
  | nil =>
      obtain ⟨rfl, hreply⟩ := Script.reaches_done_iff.mp h
      refine ⟨[], rfl, rfl, ?_⟩
      rw [Script.done.inj hreply]
      exact congrArg RespValue.integer (Int64.add_zero deleted).symm
  | cons key keys ih =>
      obtain ⟨result, rest, rfl, hrest⟩ := Script.ask_reaches_done_iff.mp h
      obtain ⟨results, hlen, rfl, hreply⟩ := ih hrest
      refine ⟨result :: results, congrArg Nat.succ hlen, rfl, ?_⟩
      rw [hreply]
      exact congrArg RespValue.integer (count_isHit_cons _ result results)

theorem existsScript_replies {count : Int64} {keys : List Bytes}
    (h : (existsScript count keys).Reaches asked (.done reply)) :
    ∃ results : List (Except MemLaneError Bool), results.length = keys.length ∧
      asked = List.zipWith (fun key result => ⟨.existsKey key, result⟩) keys results ∧
      reply = .integer (count + Int64.ofNat (results.countP isHit)) := by
  induction keys generalizing count asked with
  | nil =>
      obtain ⟨rfl, hreply⟩ := Script.reaches_done_iff.mp h
      refine ⟨[], rfl, rfl, ?_⟩
      rw [Script.done.inj hreply]
      exact congrArg RespValue.integer (Int64.add_zero count).symm
  | cons key keys ih =>
      obtain ⟨result, rest, rfl, hrest⟩ := Script.ask_reaches_done_iff.mp h
      obtain ⟨results, hlen, rfl, hreply⟩ := ih hrest
      refine ⟨result :: results, congrArg Nat.succ hlen, rfl, ?_⟩
      rw [hreply]
      exact congrArg RespValue.integer (count_isHit_cons _ result results)

/-- `mget` ends behind the last key, or at the first error. -/
theorem mgetScript_replies {values : List (Option Bytes)} {keys : List Bytes}
    (h : (mgetScript values keys).Reaches asked (.done reply)) :
    (∃ more : List (Option Bytes), more.length = keys.length ∧
      asked = List.zipWith (fun key value => ⟨.get key, .ok value⟩) keys more ∧
      reply = .array ((values ++ more).map bulkOrNil)) ∨
    ∃ seen key rest, ∃ more : List (Option Bytes), ∃ e, keys = seen ++ key :: rest ∧
      more.length = seen.length ∧
      asked = List.zipWith (fun key value => ⟨.get key, .ok value⟩) seen more ++
        [⟨.get key, .error e⟩] ∧
      reply = Resp.err e.display := by
  induction keys generalizing values asked with
  | nil =>
      obtain ⟨rfl, hreply⟩ := Script.reaches_done_iff.mp h
      refine .inl ⟨[], rfl, rfl, ?_⟩
      rw [Script.done.inj hreply, List.append_nil]
  | cons key keys ih =>
      obtain ⟨result, rest, rfl, hrest⟩ := Script.ask_reaches_done_iff.mp h
      match result with
      | .error e =>
          obtain ⟨rfl, hreply⟩ := Script.reaches_done_iff.mp hrest
          exact .inr ⟨[], key, keys, [], e, rfl, rfl, rfl, Script.done.inj hreply⟩
      | .ok value =>
          rcases ih hrest with ⟨more, hlen, rfl, hreply⟩ |
            ⟨seen, k, after, more, e, rfl, hlen, rfl, hreply⟩
          · refine .inl ⟨value :: more, congrArg Nat.succ hlen, rfl, ?_⟩
            rw [hreply, List.append_assoc]
            rfl
          · exact .inr ⟨key :: seen, k, after, value :: more, e, rfl, congrArg Nat.succ hlen, rfl,
              hreply⟩

/-- `mset` ends behind the last pair, or at the first error. -/
theorem msetScript_replies {pairs : List (Bytes × Bytes)}
    (h : (msetScript pairs).Reaches asked (.done reply)) :
    (∃ results : List Bool, results.length = pairs.length ∧
      asked = List.zipWith (fun pair isNew => ⟨.set pair.1 pair.2 0, .ok isNew⟩) pairs results ∧
      reply = Resp.ok) ∨
    ∃ seen pair rest, ∃ results : List Bool, ∃ e, pairs = seen ++ pair :: rest ∧
      results.length = seen.length ∧
      asked = List.zipWith (fun pair isNew => ⟨.set pair.1 pair.2 0, .ok isNew⟩) seen results ++
        [⟨.set pair.1 pair.2 0, .error e⟩] ∧
      reply = Resp.err e.display := by
  induction pairs generalizing asked with
  | nil =>
      obtain ⟨rfl, hreply⟩ := Script.reaches_done_iff.mp h
      exact .inl ⟨[], rfl, rfl, Script.done.inj hreply⟩
  | cons pair pairs ih =>
      obtain ⟨result, rest, rfl, hrest⟩ := Script.ask_reaches_done_iff.mp h
      match result with
      | .error e =>
          obtain ⟨rfl, hreply⟩ := Script.reaches_done_iff.mp hrest
          exact .inr ⟨[], pair, pairs, [], e, rfl, rfl, rfl, Script.done.inj hreply⟩
      | .ok isNew =>
          rcases ih hrest with ⟨results, hlen, rfl, hreply⟩ |
            ⟨seen, pair', after, results, e, rfl, hlen, rfl, hreply⟩
          · exact .inl ⟨isNew :: results, congrArg Nat.succ hlen, rfl, hreply⟩
          · exact .inr ⟨pair :: seen, pair', after, isNew :: results, e, rfl,
              congrArg Nat.succ hlen, rfl, hreply⟩

theorem counterScript_replies {name : String} {next : UInt64 → UInt64}
    (hnext : counterStep name = some next) {key : Bytes}
    (h : (counterScript next key).Reaches asked (.done reply)) :
    Command.RepliesBy tables ⟨name, [key]⟩ asked reply := by
  obtain ⟨result, rest, rfl, hrest⟩ := Script.ask_reaches_done_iff.mp h
  match result with
  | .error e =>
      obtain ⟨rfl, hreply⟩ := Script.reaches_done_iff.mp hrest
      rw [Script.done.inj hreply]
      exact .counterFails hnext key e
  | .ok stored =>
      obtain ⟨written, last, rfl, hlast⟩ := Script.ask_reaches_done_iff.mp hrest
      obtain ⟨rfl, hreply⟩ := Script.reaches_done_iff.mp hlast
      rw [Script.done.inj hreply]
      exact .counter hnext key stored written

/-- A script that replies at once. -/
theorem done_replies {cmd : Command} {value : RespValue}
    (h : (Script.done value : ClientScript RespValue).Reaches asked (.done reply))
    (hvalue : cmd.RepliesBy tables [] value) : cmd.RepliesBy tables asked reply := by
  obtain ⟨rfl, hreply⟩ := Script.reaches_done_iff.mp h
  rw [Script.done.inj hreply]
  exact hvalue

/-- A script that replies by a single operation. -/
theorem ask_replies {cmd : Command} {q : Query} {value : q.Result → RespValue}
    (h : (Script.ask q fun answer => .done (value answer) :
      ClientScript RespValue).Reaches asked (.done reply))
    (hvalue : ∀ answer, cmd.RepliesBy tables [⟨q, answer⟩] (value answer)) :
    cmd.RepliesBy tables asked reply := by
  obtain ⟨answer, rest, rfl, hrest⟩ := Script.ask_reaches_done_iff.mp h
  obtain ⟨rfl, hreply⟩ := Script.reaches_done_iff.mp hrest
  rw [Script.done.inj hreply]
  exact hvalue answer

/-- **Whatever the table returns, a command is answered as its operations say.** -/
theorem commandScript_replies {cmd : Command}
    (h : (commandScript tables cmd).Reaches asked (.done reply)) :
    cmd.RepliesBy tables asked reply := by
  obtain ⟨name, args⟩ := cmd
  unfold commandScript at h
  simp only at h
  -- one case per command name, in the order of the source
  split at h
  · cases args with
    | nil => exact done_replies h .ping
    | cons msg rest => exact done_replies h (.echo msg rest)
  · rcases args with _ | ⟨key, _ | ⟨more, rest⟩⟩
    · exact done_replies h (.malformed (by simp [Command.Malformed]))
    · exact ask_replies h (.get key)
    · exact done_replies h (.malformed (by simp [Command.Malformed]))
  · rcases args with _ | ⟨key, _ | ⟨value, options⟩⟩
    · exact done_replies h (.malformed (by simp [Command.Malformed]))
    · exact done_replies h (.malformed (by simp [Command.Malformed]))
    · exact ask_replies h (.set key value options)
  · cases args with
    | nil => exact done_replies h (.malformed rfl)
    | cons key keys =>
        obtain ⟨results, hlen, rfl, rfl⟩ := delScript_replies h
        rw [Int64.zero_add]
        exact .del _ results (List.cons_ne_nil key keys) hlen
  · cases args with
    | nil => exact done_replies h (.malformed rfl)
    | cons key keys =>
        obtain ⟨results, hlen, rfl, rfl⟩ := existsScript_replies h
        rw [Int64.zero_add]
        exact .existsKey _ results (List.cons_ne_nil key keys) hlen
  · cases args with
    | nil => exact done_replies h (.malformed rfl)
    | cons key keys =>
        rcases mgetScript_replies h with ⟨values, hlen, rfl, rfl⟩ |
          ⟨seen, k, rest, values, e, hkeys, hlen, rfl, rfl⟩
        · exact .mget _ values (List.cons_ne_nil key keys) hlen
        · rw [hkeys]
          exact .mgetFails seen values k rest e hlen
  · split at h
    · next hargs => exact done_replies h (.malformed hargs)
    · next hargs =>
        obtain ⟨hne, heven⟩ := not_or.mp hargs
        rcases msetScript_replies h with ⟨results, hlen, rfl, rfl⟩ |
          ⟨seen, pair, rest, results, e, hpairs, hlen, rfl, rfl⟩
        · exact .mset args results hne (not_not.mp heven) hlen
        · exact .msetFails args seen results pair rest e hpairs (not_not.mp heven) hlen
  · rcases args with _ | ⟨key, _ | ⟨more, rest⟩⟩
    · exact done_replies h (.malformed (by simp [Command.Malformed]))
    · exact counterScript_replies rfl h
    · exact done_replies h (.malformed (by simp [Command.Malformed]))
  · rcases args with _ | ⟨key, _ | ⟨more, rest⟩⟩
    · exact done_replies h (.malformed (by simp [Command.Malformed]))
    · exact counterScript_replies rfl h
    · exact done_replies h (.malformed (by simp [Command.Malformed]))
  · rcases args with _ | ⟨key, _ | ⟨more, rest⟩⟩
    · exact done_replies h (.malformed (by simp [Command.Malformed]))
    · exact done_replies h (.ttl key)
    · exact done_replies h (.malformed (by simp [Command.Malformed]))
  · exact ask_replies h (.flush (by decide) args)
  · exact ask_replies h (.flush (by decide) args)
  · exact ask_replies h (.flush (by decide) args)
  · obtain ⟨used, rest, rfl, hrest⟩ := Script.ask_reaches_done_iff.mp h
    obtain ⟨usedAgain, last, rfl, hlast⟩ := Script.ask_reaches_done_iff.mp hrest
    obtain ⟨rfl, hreply⟩ := Script.reaches_done_iff.mp hlast
    rw [Script.done.inj hreply]
    exact .info args used usedAgain
  · exact done_replies h (.command args)
  · refine done_replies h (.unknown ?_)
    simp_all [commandNames]

/-- A request is answered as its operations say. -/
theorem requestScript_replies {val : RespValue}
    (h : (requestScript tables val).Reaches asked (.done reply)) :
    val.RepliesBy tables asked reply := by
  unfold requestScript at h
  unfold RespValue.RepliesBy
  cases hcmd : extractCommand tables val with
  | error e =>
      rw [hcmd] at h
      obtain ⟨rfl, hreply⟩ := Script.reaches_done_iff.mp h
      exact ⟨rfl, Script.done.inj hreply⟩
  | ok cmd =>
      rw [hcmd] at h
      exact commandScript_replies h

instance (q : Query) : Nonempty q.Result := by
  cases q with
  | get => exact ⟨.ok none⟩
  | set | del | existsKey => exact ⟨.ok false⟩
  | flush => exact ⟨.ok ()⟩
  | usedCount => exact ⟨0⟩

/-- What a request has asked so far is the beginning of what its reply needs. -/
theorem requestScript_begins {val : RespValue} {rest : ClientScript RespValue}
    (h : (requestScript tables val).Reaches asked rest) : val.Begins tables asked := by
  obtain ⟨more, reply, hrest⟩ := Script.exists_reaches_done rest
  exact ⟨more, reply, requestScript_replies (h.append hrest)⟩

end Scripts

end MemLane
