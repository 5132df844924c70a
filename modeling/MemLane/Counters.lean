import MemLane.CounterRace
import MemLane.FullArena
import MemLane.Requests
import MemLane.Visibility

/-!
# Counters

`INCR` and `DECR` are a `get` and a `set` of the numeral of the next number.  What
the `get` finds counts as a number if it is a decimal numeral in 64 bits, and as 0
otherwise.  Sent one after another by a single client, the commands count as
unbounded arithmetic does, as long as the numbers fit the reply.  The `set` stores
without expiry, whatever the entry had.
-/

namespace MemLane

variable {tables : CaseTables} {hashFn : Bytes → UInt64} {arena : Arena} {key k v : Bytes}
  {stored : Option Bytes} {n : Nat} {e : UInt64}

/-! ## Numbers -/

/-- The number that bytes denote: a decimal numeral in the range of `u64`. -/
def numeralValue (b : Bytes) : Option Nat := (Decimal.readNat b).filter (· < 2 ^ 64)

/-- What a counter counts from: 0 if there is nothing, or no number. -/
def countOf (stored : Option Bytes) : Nat := (stored.bind numeralValue).getD 0

theorem numeralValue_eq_some_iff {b : Bytes} :
    numeralValue b = some n ↔ Decimal.readNat b = some n ∧ n < 2 ^ 64 := by
  simp [numeralValue, Option.filter_eq_some_iff]

theorem numeralValue_numeral (h : n < 2 ^ 64) : numeralValue (Decimal.numeral n) = some n :=
  numeralValue_eq_some_iff.mpr ⟨Decimal.readNat_numeral n, h⟩

/-- Bytes that a number can be read from decode. -/
theorem fromUtf8_of_readNat {b : Bytes} (h : Decimal.readNat b = some n) :
    ∃ s, fromUtf8 b = some s ∧ asBytes s = b := by
  refine exists_fromUtf8_of_ascii fun c hc => ?_
  unfold Decimal.readNat at h
  split at h
  · rcases List.mem_cons.mp hc with rfl | hc
    · decide
    · exact Decimal.lt_of_isDigit ((Decimal.isDigit_of_readDigits h).2 c hc)
  · exact Decimal.lt_of_isDigit ((Decimal.isDigit_of_readDigits h).2 c hc)

/-- `current`, as a number. -/
theorem toNat_counterValue (stored : Option Bytes) :
    (MemLaneClient.counterValue stored).toNat = countOf stored := by
  cases stored with
  | none => rfl
  | some b =>
      have hparse : ∀ s, parseU64 s = (numeralValue (asBytes s)).map UInt64.ofNat := by
        intro s
        rw [parseU64, numeralValue]
        cases Decimal.readNat (asBytes s) with
        | none => rfl
        | some n =>
            simp only [Option.filter_some, decide_eq_true_eq]
            split <;> rfl
      rw [MemLaneClient.counterValue, countOf, Option.bind_some, hparse]
      cases hnum : numeralValue b with
      | some n =>
          obtain ⟨hread, hlt⟩ := numeralValue_eq_some_iff.mp hnum
          obtain ⟨s, hs, hbytes⟩ := fromUtf8_of_readNat hread
          rw [hs, Option.getD_some, hbytes, hnum]
          exact UInt64.toNat_ofNat_of_lt' hlt
      | none =>
          cases hs : fromUtf8 b with
          | none => decide
          | some s =>
              rw [Option.getD_some, fromUtf8_eq_some_iff.mp hs, hnum]
              rfl

/-- The cast of the reply is exact below `2 ^ 63`. -/
theorem toInt_toInt64 {n : UInt64} (h : n.toNat < 2 ^ 63) : n.toInt64.toInt = n.toNat := by
  have hbits : n.toInt64.toBitVec.toNat = n.toNat := rfl
  have hint : n.toInt64.toBitVec.toInt = n.toInt64.toBitVec.toNat :=
    BitVec.toInt_eq_toNat_of_lt (by omega)
  rw [← hbits]
  exact hint

/-! ## The two commands -/

inductive CounterOp
  | incr
  | decr
  deriving DecidableEq

namespace CounterOp

def name : CounterOp → String
  | .incr => "INCR"
  | .decr => "DECR"

/-- What the command does to a number. -/
def apply : CounterOp → Nat → Nat
  | .incr, n => n + 1
  | .decr, n => n - 1

/-- What the code does to `current`. -/
def next : CounterOp → UInt64 → UInt64
  | .incr, current => current + 1
  | .decr, current => if current = 0 then 0 else current - 1

/-- The client call behind the command. -/
def run (op : CounterOp) (hashFn : Bytes → UInt64) (arena : Arena) (key : Bytes)
    (clock : Nat → Clock) : Except MemLaneError UInt64 × Arena :=
  match op with
  | .incr => MemLaneClient.incr hashFn arena key clock
  | .decr => MemLaneClient.decr hashFn arena key clock

/-- The code computes the next number, if it fits. -/
theorem toNat_next (op : CounterOp) {current : UInt64} (h : op.apply current.toNat < 2 ^ 64) :
    (op.next current).toNat = op.apply current.toNat := by
  cases op with
  | incr =>
      rw [next, UInt64.toNat_add, UInt64.toNat_one]
      exact Nat.mod_eq_of_lt h
  | decr =>
      rw [next, apply]
      split
      · next hzero =>
          subst hzero
          rfl
      · next hne =>
          have hone : (1 : UInt64) ≤ current := by
            rw [UInt64.le_iff_toNat_le, UInt64.toNat_one]
            exact Nat.pos_of_ne_zero fun h => hne (UInt64.toNat_inj.mp h)
          rw [UInt64.toNat_sub_of_le _ _ hone, UInt64.toNat_one]

/-- The call is a `get` and a `set`. -/
theorem run_eq (op : CounterOp) {clock : Nat → Clock}
    (hget : (MemLaneClient.get hashFn arena key (clock 0)).1 = .ok stored) :
    op.run hashFn arena key clock =
      MemLaneClient.storeCounter hashFn (MemLaneClient.get hashFn arena key (clock 0)).2 key
        (op.next (MemLaneClient.counterValue stored)) (clock 1) := by
  cases op <;> simp only [run, MemLaneClient.incr, MemLaneClient.decr, hget, next]

end CounterOp

/-- A command with the clocks of its two map operations. -/
structure CounterCommand where
  op : CounterOp
  clock : Nat → Clock

/-- Send the command to the server. -/
def CounterCommand.exec (tables : CaseTables) (hashFn : Bytes → UInt64) (key : Bytes)
    (arena : Arena) (c : CounterCommand) : RespValue × Arena :=
  dispatchCommand tables hashFn arena (request c.op.name [key]) c.clock

theorem CounterCommand.exec_eq (c : CounterCommand) :
    c.exec tables hashFn key arena =
      (replyOf (fun n => Resp.integer n.toInt64) (c.op.run hashFn arena key c.clock).1,
        (c.op.run hashFn arena key c.clock).2) := by
  obtain ⟨op, clock⟩ := c
  cases op with
  | incr =>
      have hcmd : extractCommand tables (request "INCR" [key]) = .ok ⟨"INCR", [key]⟩ :=
        extractCommand_request _ (by decide)
      exact dispatchCommand_incr hcmd
  | decr =>
      have hcmd : extractCommand tables (request "DECR" [key]) = .ok ⟨"DECR", [key]⟩ :=
        extractCommand_request _ (by decide)
      exact dispatchCommand_decr hcmd

/-! ## One command -/

/-- The table is full and does not hold the key. -/
def Crowded (arena : Arena) (key : Bytes) : Prop :=
  (∀ i, (arena.slots i).state = stateOccupied) ∧ ¬ arena.Contains key

theorem Refuses.crowded {clock : Clock} (h : Refuses hashFn arena key clock) :
    Crowded arena key := ⟨h.occupied, h.absent⟩

/-- What storing a counter does: it fails in a table that refuses the key, and otherwise
stores the numeral for good and gives the other keys nothing new. -/
theorem storeCounter_spec (hinv : TableInv hashFn arena) (hk : key.length ≤ maxKeyLen)
    (next : UInt64) (clock : Clock) :
    let result := MemLaneClient.storeCounter hashFn arena key next clock
    TableInv hashFn result.2 ∧
      (Refuses hashFn arena key clock → result = (.error (.arenaFull slotCount), arena)) ∧
      (¬ Refuses hashFn arena key clock → result.1 = .ok next ∧
        result.2.Stores key (Decimal.numeral next.toNat) 0) ∧
      (∀ k v e, k ≠ key → result.2.Stores k v e → arena.Stores k v e) ∧
      ∀ k v e, k ≠ key → arena.Stores k v e → (∀ m, Unexpired e (clock m)) →
        result.2.Stores k v e := by
  have hv := length_numeral_toNat next
  have hfull := @set_full_iff hashFn arena key (Decimal.numeral next.toNat) clock hinv 0
  have hinv' := hinv.set hk (Decimal.numeral next.toNat) 0 clock
  have heff := set_effect hinv key (Decimal.numeral next.toNat) 0 clock
  rw [ttlToExpiry_zero] at heff
  simp only [MemLaneClient.storeCounter, MemLaneClient.set, if_neg (not_lt.mpr hk),
    if_neg (not_lt.mpr hv)]
  generalize MemLane.set hashFn arena key (Decimal.numeral next.toNat) 0 clock = res
    at hfull hinv' heff ⊢
  obtain ⟨result, after⟩ := res
  refine ⟨hinv', fun hrefuses => ?_, fun hroom => ?_, ?_, ?_⟩
  · obtain rfl : result = .full := hfull.mpr hrefuses
    cases heff with
    | full => rfl
  · have hne : result ≠ .full := mt hfull.mp hroom
    refine ⟨?_, heff.stores_self hk hv hne⟩
    cases result with
    | inserted | updated => rfl
    | full => exact (hne rfl).elim
  · exact fun k v e hne hs => heff.stores_of_ne hk hne hs
  · intro k v e hne hs hlive
    rcases heff.keeps hne hs with hkept | hexp
    · exact hkept
    · obtain ⟨hne0, m, hle⟩ := hexp.expired
      exact (not_unexpired_iff.mpr ⟨hne0, hle⟩ (hlive (m + 1))).elim

/-- What the `get` of a counter does. -/
theorem getCounter_spec (hinv : TableInv hashFn arena) (key : Bytes) (clock : Clock) :
    let after := (MemLaneClient.get hashFn arena key clock).2
    TableInv hashFn after ∧ Evicts (hashFn key) clock arena after := by
  simp only [MemLaneClient.get]
  split
  · exact ⟨hinv, .refl _ _ _⟩
  · exact ⟨hinv.get key clock, get_evicts hashFn arena key clock⟩

/-- A key of admissible length is answered. -/
theorem getCounter_ok (hashFn : Bytes → UInt64) (arena : Arena) (hk : key.length ≤ maxKeyLen)
    (clock : Clock) : ∃ stored, (MemLaneClient.get hashFn arena key clock).1 = .ok stored := by
  simp only [MemLaneClient.get, if_neg (not_lt.mpr hk)]
  generalize (MemLane.get hashFn arena key clock).1 = r
  cases r with
  | found value => exact ⟨some value, rfl⟩
  | notFound | expired => exact ⟨none, rfl⟩

/-- **One command** counts on from what its `get` finds, if there is room and the number
fits the reply. -/
theorem CounterCommand.exec_counts (hinv : TableInv hashFn arena) (hk : key.length ≤ maxKeyLen)
    (c : CounterCommand) (hget : (MemLaneClient.get hashFn arena key (c.clock 0)).1 = .ok stored)
    (hroom : ¬ Crowded arena key) (hbound : c.op.apply (countOf stored) < 2 ^ 63) :
    (∃ r, (c.exec tables hashFn key arena).1 = .integer r ∧
      r.toInt = c.op.apply (countOf stored)) ∧
    (c.exec tables hashFn key arena).2.Stores key
      (Decimal.numeral (c.op.apply (countOf stored))) 0 := by
  obtain ⟨hinv', hev⟩ := getCounter_spec hinv key (c.clock 0)
  have hnat : (c.op.next (MemLaneClient.counterValue stored)).toNat =
      c.op.apply (countOf stored) := by
    rw [← toNat_counterValue] at hbound ⊢
    exact c.op.toNat_next (by omega)
  obtain ⟨_, _, hstores, _⟩ := storeCounter_spec hinv' hk
    (c.op.next (MemLaneClient.counterValue stored)) (c.clock 1)
  have hroom' : ¬ Refuses hashFn (MemLaneClient.get hashFn arena key (c.clock 0)).2 key
      (c.clock 1) := by
    intro hrefuses
    rw [hev.eq_of_occupied hrefuses.occupied] at hrefuses
    exact hroom hrefuses.crowded
  obtain ⟨hok, hs⟩ := hstores hroom'
  rw [hnat] at hs
  rw [c.exec_eq, c.op.run_eq hget, hok]
  refine ⟨⟨_, rfl, ?_⟩, hs⟩
  rw [toInt_toInt64 (by omega), hnat]

/-- The other keys with the fingerprint of `key` are unexpired at every reading that the
commands make. -/
def OthersUnexpired (hashFn : Bytes → UInt64) (arena : Arena) (key : Bytes)
    (commands : List CounterCommand) : Prop :=
  ∀ k v e, k ≠ key → hashFn k = hashFn key → arena.Stores k v e →
    ∀ c ∈ commands, ∀ i j, Unexpired e (c.clock i j)

section Others

variable {c : CounterCommand} {commands : List CounterCommand}

/-- No slot of another key with the key's fingerprint expires. -/
theorem OthersUnexpired.not_expired (hinv : TableInv hashFn arena)
    (h : OthersUnexpired hashFn arena key commands) (hc : c ∈ commands) {idx : Fin slotCount}
    (hocc : (arena.slots idx).state = stateOccupied)
    (hfp : (arena.slots idx).fingerprint = hashFn key) (hne : (arena.slots idx).readKey ≠ key)
    (i m : Nat) : (arena.slots idx).isExpired (c.clock i m) = false := by
  have hhash : hashFn (arena.slots idx).readKey = hashFn key :=
    ((hinv.slot idx).fingerprint hocc).symm.trans hfp
  have hlive := h _ _ _ hne hhash ⟨idx, hocc, rfl, rfl, rfl⟩ c hc i m
  exact Slot.isExpired_eq_false_iff_unexpired.mpr hlive

/-- Then no expired slot is in the way of a `get`. -/
theorem OthersUnexpired.not_shadowed (hinv : TableInv hashFn arena)
    (h : OthersUnexpired hashFn arena key commands) (hc : c ∈ commands) (i : Nat) :
    ¬ Shadowed hashFn arena key (c.clock i) := by
  intro hshadowed
  obtain ⟨m, d, hmd, hd, hocc, hkey, hocc', hfp, hexp⟩ := hshadowed
  have hne : (arena.probed (hashFn key) m).readKey ≠ key := by
    intro heq
    have hslot : probeIndex (hashFn key) m = probeIndex (hashFn key) d :=
      hinv.slot_unique hocc' hocc (heq.trans hkey.symm)
    have hmd' := probeIndex_injective (by omega) hd hslot
    omega
  exact Bool.false_ne_true ((h.not_expired hinv hc hocc' hfp hne i m).symm.trans hexp)

/-- A permanent entry is found. -/
theorem OthersUnexpired.get_permanent (hinv : TableInv hashFn arena)
    (h : OthersUnexpired hashFn arena key commands) (hc : c ∈ commands) (i : Nat)
    (hs : arena.Stores key v 0) :
    (MemLaneClient.get hashFn arena key (c.clock i)).1 = .ok (some v) := by
  rw [MemLaneClient.get_eq_some_iff, and_iff_right hs.key_length]
  exact (hinv.get_found_iff hs (.inl rfl)).mpr (h.not_shadowed hinv hc i)

/-- A command gives the other keys no new entries. -/
theorem OthersUnexpired.exec (hinv : TableInv hashFn arena) (hk : key.length ≤ maxKeyLen)
    (h : OthersUnexpired hashFn arena key (c :: commands)) :
    TableInv hashFn (c.exec tables hashFn key arena).2 ∧
      OthersUnexpired hashFn (c.exec tables hashFn key arena).2 key commands := by
  obtain ⟨hinv', hev⟩ := getCounter_spec hinv key (c.clock 0)
  obtain ⟨stored, hget⟩ := getCounter_ok hashFn arena hk (c.clock 0)
  obtain ⟨hinv'', _, _, hother, _⟩ := storeCounter_spec hinv' hk
    (c.op.next (MemLaneClient.counterValue stored)) (c.clock 1)
  rw [c.exec_eq, c.op.run_eq hget]
  refine ⟨hinv'', fun k v e hne hhash hs c' hc' => ?_⟩
  exact h k v e hne hhash (hev.stores (hother k v e hne hs)) c' (List.mem_cons_of_mem _ hc')

/-- In a crowded table a command fails and changes nothing. -/
theorem CounterCommand.exec_crowded (hinv : TableInv hashFn arena) (hk : key.length ≤ maxKeyLen)
    (h : OthersUnexpired hashFn arena key (c :: commands)) (hcrowded : Crowded arena key) :
    (∃ msg, (c.exec tables hashFn key arena).1 = .error msg) ∧
      (c.exec tables hashFn key arena).2 = arena := by
  -- no slot with the key's fingerprint has expired, so nothing is evicted
  have hunexpired : ∀ i m, (arena.slots i).fingerprint = hashFn key → ∀ j,
      (arena.slots i).isExpired (c.clock m j) = false := by
    intro i m hfp j
    have hocc := hcrowded.1 i
    have hne : (arena.slots i).readKey ≠ key := fun heq => hcrowded.2 ⟨i, hocc, heq⟩
    exact h.not_expired hinv List.mem_cons_self hocc hfp hne m j
  obtain ⟨_, hev⟩ := getCounter_spec hinv key (c.clock 0)
  have hsame : (MemLaneClient.get hashFn arena key (c.clock 0)).2 = arena := by
    refine Arena.ext' hev.header fun i => ?_
    rcases hev.slot i with heq | ⟨_, hfp, ⟨m, _, _, hexp⟩, _⟩
    · exact heq
    · rw [hunexpired i 0 hfp m] at hexp
      cases hexp
  obtain ⟨stored, hget⟩ := getCounter_ok hashFn arena hk (c.clock 0)
  obtain ⟨_, hrefused, _⟩ := storeCounter_spec hinv hk
    (c.op.next (MemLaneClient.counterValue stored)) (c.clock 1)
  have hrefuses : Refuses hashFn arena key (c.clock 1) :=
    ⟨hcrowded.1, hcrowded.2, fun m _ hfp => hunexpired _ 1 hfp (m + 1)⟩
  rw [c.exec_eq, c.op.run_eq hget, hsame, hrefused hrefuses]
  exact ⟨⟨_, rfl⟩, rfl⟩

end Others

/-! ## All commands of a client -/

/-- The numbers that the commands count through, starting from `n`. -/
def countValues (n : Nat) : List CounterOp → List Nat
  | [] => []
  | op :: ops => op.apply n :: countValues (op.apply n) ops

/-- The number they end at. -/
def countEnd (n : Nat) (ops : List CounterOp) : Nat := ops.foldl (fun n op => op.apply n) n

/-- The replies that these numbers make. -/
def RepliesAre (values : List Nat) (replies : List RespValue) : Prop :=
  List.Forall₂ (fun n reply => ∃ r, reply = .integer r ∧ r.toInt = (n : Int)) values replies

/-- The commands count reply by reply, and the last number is what is stored. -/
theorem counter_run (hinv : TableInv hashFn arena) (hk : key.length ≤ maxKeyLen)
    {commands : List CounterCommand} (hothers : OthersUnexpired hashFn arena key commands)
    (hstart : ∀ c ∈ commands.head?,
      (MemLaneClient.get hashFn arena key (c.clock 0)).1 = .ok stored)
    (hroom : ¬ Crowded arena key)
    (hbound : ∀ m ∈ countValues (countOf stored) (commands.map CounterCommand.op), m < 2 ^ 63) :
    RepliesAre (countValues (countOf stored) (commands.map CounterCommand.op))
      ((Run.trace (CounterCommand.exec tables hashFn key) arena commands).map Prod.snd) ∧
    (commands ≠ [] → (Run.after (CounterCommand.exec tables hashFn key) arena commands).Stores
      key (Decimal.numeral (countEnd (countOf stored) (commands.map CounterCommand.op))) 0) := by
  induction commands generalizing arena stored with
  | nil => exact ⟨.nil, fun h => (h rfl).elim⟩
  | cons c commands ih =>
      have hnext : c.op.apply (countOf stored) < 2 ^ 63 := hbound _ List.mem_cons_self
      obtain ⟨hreply, hs⟩ := @CounterCommand.exec_counts tables _ _ _ _ hinv hk c
        (hstart c rfl) hroom hnext
      obtain ⟨hinv', hothers'⟩ := @OthersUnexpired.exec tables _ _ _ _ _ hinv hk hothers
      have hcount : countOf (some (Decimal.numeral (c.op.apply (countOf stored)))) =
          c.op.apply (countOf stored) := by
        rw [countOf, Option.bind_some, numeralValue_numeral (by omega), Option.getD_some]
      have hrest := ih hinv' hothers'
        (fun c' hc' => hothers'.get_permanent hinv' (List.mem_of_mem_head? hc') 0 hs)
        (fun hcrowded => hcrowded.2 hs.contains)
        (by rw [hcount]; exact fun m hm => hbound m (List.mem_cons_of_mem _ hm))
      rw [hcount] at hrest
      refine ⟨.cons hreply hrest.1, fun _ => ?_⟩
      by_cases hnil : commands = []
      · subst hnil
        exact hs
      · exact hrest.2 hnil

/-- In a crowded table all commands fail, and nothing changes. -/
theorem counter_run_crowded (hinv : TableInv hashFn arena) (hk : key.length ≤ maxKeyLen)
    {commands : List CounterCommand} (hothers : OthersUnexpired hashFn arena key commands)
    (hcrowded : Crowded arena key) :
    (∀ event ∈ Run.trace (CounterCommand.exec tables hashFn key) arena commands,
      ∃ msg, event.2 = .error msg) ∧
    Run.after (CounterCommand.exec tables hashFn key) arena commands = arena := by
  induction commands with
  | nil =>
      refine ⟨fun event hmem => ?_, rfl⟩
      cases hmem
  | cons c commands ih =>
      obtain ⟨hreply, hsame⟩ :=
        @CounterCommand.exec_crowded tables _ _ _ _ _ hinv hk hothers hcrowded
      obtain ⟨herrors, hend⟩ := ih fun k v e hne hhash hs c' hc' =>
        hothers k v e hne hhash hs c' (List.mem_cons_of_mem _ hc')
      rw [Run.after_cons, Run.trace, hsame]
      refine ⟨fun event hmem => ?_, hend⟩
      rcases List.mem_cons.mp hmem with rfl | hrest
      · exact hreply
      · exact herrors event hrest

/-- **Counting, command by command.**  Let a single client send `INCR` and `DECR` for one key
of admissible length to a reachable arena, and let `stored` be what a `GET` finds just before.
If the key is stored or there is room for it, and the numbers stay below `2 ^ 63`, then the
replies are the numbers counted from `stored` in unbounded arithmetic, and the last one is
stored.  Bytes that are no numeral count as 0.  If there is no room, every reply is an error
and nothing changes.  Entries of other keys with the same fingerprint must not expire
meanwhile. -/
theorem counters_count (tables : CaseTables) (hashFn : Bytes → UInt64) (region : Arena)
    (calls : List Call) (key : Bytes) (stored : Option Bytes) (commands : List CounterCommand)
    (hk : key.length ≤ maxKeyLen)
    (hothers : OthersUnexpired hashFn (arenaAfter hashFn region calls) key commands)
    (hstart : ∀ c ∈ commands.head?, (MemLaneClient.get hashFn (arenaAfter hashFn region calls) key
      (c.clock 0)).1 = .ok stored) :
    let arena := arenaAfter hashFn region calls
    let values := countValues (countOf stored) (commands.map CounterCommand.op)
    let trace := Run.trace (CounterCommand.exec tables hashFn key) arena commands
    let after := Run.after (CounterCommand.exec tables hashFn key) arena commands
    (¬ Crowded arena key → (∀ m ∈ values, m < 2 ^ 63) → RepliesAre values (trace.map Prod.snd) ∧
      (commands ≠ [] → after.Stores key
        (Decimal.numeral (countEnd (countOf stored) (commands.map CounterCommand.op))) 0)) ∧
    (Crowded arena key → (∀ event ∈ trace, ∃ msg, event.2 = .error msg) ∧ after = arena) := by
  intro arena values trace after
  have hinv : TableInv hashFn arena := .arenaAfter hashFn region calls
  exact ⟨fun hroom hbound => counter_run hinv hk hothers hstart hroom hbound,
    fun hcrowded => counter_run_crowded hinv hk hothers hcrowded⟩

/-- A counter is stored behind an entry with its fingerprint, which lives until 2000. -/
def besideCalls : List Call :=
  [⟨.set expiredKey [1] 1, fun _ => 1000⟩, ⟨.set hiddenKey [52, 49] 0, fun _ => 1500⟩]

theorem besideCalls_stores (hs : (arenaAfter siphash zeroedRegion besideCalls).Stores k v e) :
    k = hiddenKey ∨ e = 2000 := by
  have hfirst : TableInv siphash (arenaAfter siphash zeroedRegion (besideCalls.take 1)) :=
    .arenaAfter _ _ _
  rcases Call.stores_exec hfirst ⟨.set hiddenKey [52, 49] 0, fun _ => 1500⟩ hs with
    ⟨_, hset, _⟩ | ⟨_, hs⟩
  · cases hset
    exact .inl rfl
  · have hfresh : TableInv siphash (arenaAfter siphash zeroedRegion []) := .arenaAfter _ _ _
    rcases Call.stores_exec hfresh ⟨.set expiredKey [1] 1, fun _ => 1000⟩ hs with
      ⟨_, hset, _, he⟩ | ⟨_, i, hocc, _⟩
    · cases hset
      exact .inr he
    · simp [arenaAfter, createArena, Slot.init] at hocc

/-- The commands find 41, and the other entry is there as long as they run. -/
theorem counters_count_beside :
    let commands : List CounterCommand :=
      [⟨.incr, fun _ _ => 1600⟩, ⟨.decr, fun _ _ => 1700⟩, ⟨.incr, fun _ _ => 1999⟩]
    let arena := arenaAfter siphash zeroedRegion besideCalls
    RepliesAre [42, 41, 42]
        ((Run.trace (CounterCommand.exec asciiTables siphash hiddenKey) arena commands).map
          Prod.snd) ∧
      (Run.after (CounterCommand.exec asciiTables siphash hiddenKey) arena commands).Stores
        hiddenKey [52, 50] 0 := by
  intro commands arena
  have hothers : OthersUnexpired siphash arena hiddenKey commands := by
    intro k v e hne _ hs c hc i j
    obtain rfl := (besideCalls_stores hs).resolve_left hne
    simp only [commands, List.mem_cons, List.not_mem_nil, or_false] at hc
    rcases hc with rfl | rfl | rfl
    all_goals exact .inr (by simp only; decide)
  have hstart : ∀ c ∈ commands.head?,
      (MemLaneClient.get siphash arena hiddenKey (c.clock 0)).1 = .ok (some [52, 49]) := by
    intro c hc
    obtain rfl := Option.some.inj hc
    decide +kernel
  have hroom : ¬ Crowded arena hiddenKey := by
    intro hcrowded
    have hocc := hcrowded.1 0
    have hempty : (arena.slots 0).state = stateEmpty := by decide +kernel
    exact stateEmpty_ne_stateOccupied (hempty.symm.trans hocc)
  have hcounts := (counters_count asciiTables siphash zeroedRegion besideCalls hiddenKey
    (some [52, 49]) commands (by decide) hothers hstart).1 hroom (by decide)
  exact ⟨hcounts.1, hcounts.2 (by decide)⟩

/-! ## Bytes that are no number -/

/-- A counter that is stored as `b` counts on if it is a numeral and the next number fits the
reply; otherwise the command fails and leaves the bytes as they are. -/
def CountsOrRefuses (tables : CaseTables) (hashFn : Bytes → UInt64) (arena : Arena)
    (key b : Bytes) (c : CounterCommand) : Prop :=
  let result := c.exec tables hashFn key arena
  (∀ n, numeralValue b = some n → c.op.apply n < 2 ^ 63 →
    (∃ r, result.1 = .integer r ∧ r.toInt = c.op.apply n) ∧
      ∃ e, result.2.Stores key (Decimal.numeral (c.op.apply n)) e) ∧
  ((∀ n, numeralValue b = some n → 2 ^ 63 ≤ c.op.apply n) →
    (∃ msg, result.1 = .error msg) ∧ ∃ e, result.2.Stores key b e)

/-- `INCR` of a key that holds `abc` answers 1 and overwrites it. -/
theorem incr_overwrites_text :
    ¬ CountsOrRefuses asciiTables siphash (arenaAfter siphash zeroedRegion
        [⟨.set [107] [97, 98, 99] 0, fun _ => 0⟩]) [107] [97, 98, 99] ⟨.incr, fun _ _ => 0⟩ := by
  intro h
  have hnone : numeralValue [97, 98, 99] = none := by decide
  obtain ⟨⟨msg, herror⟩, _⟩ := h.2 fun n hn => by
    rw [hnone] at hn
    cases hn
  have hone : (MemLaneClient.incr siphash (arenaAfter siphash zeroedRegion
      [⟨.set [107] [97, 98, 99] 0, fun _ => 0⟩]) [107] fun _ _ => 0).1 = .ok 1 := by
    decide +kernel
  rw [CounterCommand.exec_eq, CounterOp.run, hone] at herror
  cases herror

end MemLane
