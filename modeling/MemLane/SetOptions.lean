import MemLane.TtlArithmetic
import MemLane.FullArena
import Mathlib.Order.Bounds.Basic

/-!
# The expiry options of `SET`

A walk over the arguments of its own says which `EX` and `PX` options a `SET`
carries, with the argument of each.  It is compared with what the option loop
makes of them.  The loop takes the last option that has an argument, and turns an
argument it cannot read, and a number of milliseconds whose rounding overflows,
into 0 seconds: no expiry at all.
-/

namespace MemLane

variable {tables : CaseTables} {hashFn : Bytes → UInt64} {arena : Arena} {val : RespValue}
  {clock : Nat → Clock} {key value token arg : Bytes} {options : List Bytes}

/-! ## What a `SET` asks for -/

/-- The options that ask for an expiry. -/
inductive ExpiryOption
  | ex
  | px
  deriving DecidableEq

/-- The option that an argument names, in any letter case. -/
def expiryOption? (tables : CaseTables) (token : Bytes) : Option ExpiryOption :=
  if toUppercase tables (fromUtf8Lossy token) = "EX" then some .ex
  else if toUppercase tables (fromUtf8Lossy token) = "PX" then some .px
  else none

/-- The options in option position, each with its argument; the last one may have none. -/
def expiryOptions (tables : CaseTables) : List Bytes → List (ExpiryOption × Option Bytes)
  | [] => []
  | [token] =>
      match expiryOption? tables token with
      | some option => [(option, none)]
      | none => []
  | token :: arg :: rest =>
      match expiryOption? tables token with
      | some option => (option, some arg) :: expiryOptions tables rest
      | none => expiryOptions tables (arg :: rest)

/-- The number that an argument gives, of any size. -/
def givenNumber (arg : Bytes) : Option Nat := Decimal.readNat (asBytes (fromUtf8Lossy arg))

/-- The seconds asked for with the number `n`: the number itself, or the least whole number
of seconds that covers so many milliseconds. -/
def ExpiryOption.Asks : ExpiryOption → Nat → UInt64 → Prop
  | .ex, n, s => s.toNat = n
  | .px, n, s => IsLeast {m | n ≤ 1000 * m} s.toNat

/-- The numbers that the option converts without leaving 64 bits. -/
def ExpiryOption.InRange : ExpiryOption → Nat → Prop
  | .ex, n => n < 2 ^ 64
  | .px, n => n + 999 < 2 ^ 64

/-! ## What the loop makes of it -/

/-- The seconds that the loop computes from an argument. -/
def ExpiryOption.seconds : ExpiryOption → Bytes → UInt64
  | .ex, arg => (parseU64 (fromUtf8Lossy arg)).getD 0
  | .px, arg => ((parseU64 (fromUtf8Lossy arg)).getD 0 + 999) / 1000

theorem setOptions_of_some {option : ExpiryOption} (h : expiryOption? tables token = some option)
    (ttlSecs : UInt64) (rest : List Bytes) :
    setOptions tables ttlSecs (token :: arg :: rest) =
      setOptions tables (option.seconds arg) rest := by
  unfold expiryOption? at h
  split at h
  · next hex =>
      cases h
      exact setOptions_ex hex
  · split at h
    · next hpx =>
        cases h
        exact setOptions_px hpx
    · cases h

theorem setOptions_of_none (h : expiryOption? tables token = none) (ttlSecs : UInt64)
    (rest : List Bytes) :
    setOptions tables ttlSecs (token :: rest) = setOptions tables ttlSecs rest := by
  unfold expiryOption? at h
  split at h
  · cases h
  · next hex =>
      split at h
      · cases h
      · next hpx => exact setOptions_skip hex hpx

/-- Without expiry options the loop keeps the seconds it starts with. -/
theorem setOptions_of_nil (h : expiryOptions tables options = []) (ttlSecs : UInt64) :
    setOptions tables ttlSecs options = ttlSecs := by
  fun_induction expiryOptions tables options with
  | case1 => rfl
  | case2 token option hsome => cases h
  | case3 token hnone => rfl
  | case4 token arg rest option hsome ih => cases h
  | case5 token arg rest hnone ih => rw [setOptions_of_none hnone, ih h]

/-- The last option decides if it has an argument. -/
theorem setOptions_of_getLast {option : ExpiryOption}
    (h : (expiryOptions tables options).getLast? = some (option, some arg)) (ttlSecs : UInt64) :
    setOptions tables ttlSecs options = option.seconds arg := by
  fun_induction expiryOptions tables options generalizing ttlSecs with
  | case1 => cases h
  | case2 token option' hsome => cases h
  | case3 token hnone => cases h
  | case4 token arg' rest option' hsome ih =>
      rw [setOptions_of_some hsome]
      cases hrest : expiryOptions tables rest with
      | nil =>
          rw [hrest] at h
          cases h
          exact setOptions_of_nil hrest _
      | cons next more =>
          rw [hrest, List.getLast?_cons_cons, ← hrest] at h
          exact ih h _
  | case5 token arg' rest hnone ih =>
      rw [setOptions_of_none hnone]
      exact ih h ttlSecs

/-! ## The two compared -/

theorem parseU64_fromUtf8Lossy (arg : Bytes) :
    parseU64 (fromUtf8Lossy arg) =
      (givenNumber arg).bind fun n => if n < 2 ^ 64 then some (UInt64.ofNat n) else none := by
  rw [parseU64, givenNumber]
  cases Decimal.readNat (asBytes (fromUtf8Lossy arg)) <;> rfl

/-- The number of milliseconds, rounded up to seconds. -/
theorem isLeast_seconds (n : Nat) : IsLeast {m | n ≤ 1000 * m} ((n + 999) / 1000) := by
  refine ⟨?_, fun m hm => ?_⟩
  · show n ≤ 1000 * ((n + 999) / 1000)
    omega
  · have hle : n ≤ 1000 * m := hm
    omega

/-- The seconds computed from an argument are at least one and what was asked for exactly
when the argument is a positive number in the option's range. -/
theorem ExpiryOption.asks_seconds_iff (option : ExpiryOption) {n : Nat}
    (hn : givenNumber arg = some n) :
    1 ≤ option.seconds arg ∧ option.Asks n (option.seconds arg) ↔ 1 ≤ n ∧ option.InRange n := by
  have hone : (1 : UInt64).toNat = 1 := rfl
  have hparse : (parseU64 (fromUtf8Lossy arg)).getD 0 =
      if n < 2 ^ 64 then UInt64.ofNat n else 0 := by
    rw [parseU64_fromUtf8Lossy, hn, Option.bind_some]
    split <;> rfl
  have hnat : ((parseU64 (fromUtf8Lossy arg)).getD 0).toNat = if n < 2 ^ 64 then n else 0 := by
    rw [hparse]
    split
    · next hlt => exact UInt64.toNat_ofNat_of_lt' hlt
    · rfl
  cases option with
  | ex =>
      simp only [ExpiryOption.seconds, ExpiryOption.Asks, ExpiryOption.InRange,
        UInt64.le_iff_toNat_le, hone, hnat]
      split <;> omega
  | px =>
      have hsum : (((parseU64 (fromUtf8Lossy arg)).getD 0 + 999) / 1000).toNat =
          ((if n < 2 ^ 64 then n else 0) + 999) % 2 ^ 64 / 1000 := by
        rw [UInt64.toNat_div, UInt64.toNat_add, hnat]
        rfl
      simp only [ExpiryOption.seconds, ExpiryOption.Asks, ExpiryOption.InRange,
        UInt64.le_iff_toNat_le, hone, hsum]
      constructor
      · intro h
        obtain ⟨hpos, hleast⟩ := h
        -- a wrapped sum, or a number that was not read, leaves less than a second
        split at hpos <;> omega
      · intro h
        rw [if_pos (by omega), Nat.mod_eq_of_lt h.2]
        exact ⟨by omega, isLeast_seconds n⟩

/-! ## The command -/

/-- The reply is an error and nothing has changed, or the seconds handed to `set` are at
least one and what the last option asks for. -/
def ExpiryHonoured (tables : CaseTables) (hashFn : Bytes → UInt64) (arena : Arena)
    (val : RespValue) (options : List Bytes) (clock : Nat → Clock) : Prop :=
  ((∃ msg, (dispatchCommand tables hashFn arena val clock).1 = .error msg) ∧
    (dispatchCommand tables hashFn arena val clock).2 = arena) ∨
  ∃ option arg n, (expiryOptions tables options).getLast? = some (option, some arg) ∧
    givenNumber arg = some n ∧ 1 ≤ setOptions tables 0 options ∧
    option.Asks n (setOptions tables 0 options)

/-- The last option has an argument, and this is a positive number in the option's range. -/
def LastOptionReadable (tables : CaseTables) (options : List Bytes) : Prop :=
  ∃ option arg n, (expiryOptions tables options).getLast? = some (option, some arg) ∧
    givenNumber arg = some n ∧ 1 ≤ n ∧ option.InRange n

/-- Within the limits, `SET` answers with an error exactly when the table refuses the key. -/
theorem dispatchCommand_set_error_iff (hinv : TableInv hashFn arena)
    (hcmd : extractCommand tables val = .ok ⟨"SET", key :: value :: options⟩)
    (hk : key.length ≤ maxKeyLen) (hv : value.length ≤ maxValLen) :
    ((∃ msg, (dispatchCommand tables hashFn arena val clock).1 = .error msg) ∧
      (dispatchCommand tables hashFn arena val clock).2 = arena) ↔
      Refuses hashFn arena key (clock 0) := by
  rw [dispatchCommand_set hcmd,
    ← @set_full_iff hashFn arena key value (clock 0) hinv (setOptions tables 0 options)]
  have harena := @set_full_arena hashFn arena key value (clock 0) hinv (setOptions tables 0 options)
  simp only [MemLaneClient.set, if_neg (not_lt.mpr hk), if_neg (not_lt.mpr hv)]
  generalize MemLane.set hashFn arena key value (setOptions tables 0 options) (clock 0) = res
    at harena
  obtain ⟨result, after⟩ := res
  cases result with
  | inserted | updated => simp [replyOf, Resp.ok]
  | full => exact iff_of_true ⟨⟨_, rfl⟩, harena rfl⟩ rfl

theorem expiryHonoured_iff (hinv : TableInv hashFn arena)
    (hcmd : extractCommand tables val = .ok ⟨"SET", key :: value :: options⟩)
    (hk : key.length ≤ maxKeyLen) (hv : value.length ≤ maxValLen) :
    ExpiryHonoured tables hashFn arena val options clock ↔
      Refuses hashFn arena key (clock 0) ∨ LastOptionReadable tables options := by
  rw [ExpiryHonoured, dispatchCommand_set_error_iff hinv hcmd hk hv]
  refine or_congr_right ⟨fun h => ?_, fun h => ?_⟩
  · obtain ⟨option, arg, n, hlast, hn, hasks⟩ := h
    rw [setOptions_of_getLast hlast] at hasks
    exact ⟨option, arg, n, hlast, hn, (option.asks_seconds_iff hn).mp hasks⟩
  · obtain ⟨option, arg, n, hlast, hn, hrange⟩ := h
    refine ⟨option, arg, n, hlast, hn, ?_⟩
    rw [setOptions_of_getLast hlast]
    exact (option.asks_seconds_iff hn).mpr hrange

/-- **Expiry options are honoured** by a `SET` within the size limits if and only if the
table refuses the key, or the last option has a positive number in its range for an
argument.  The seconds computed from the options are those handed to `set`. -/
theorem set_expiry_honoured_iff (tables : CaseTables) (hashFn : Bytes → UInt64) (region : Arena)
    (calls : List Call) (val : RespValue) (key value : Bytes) (options : List Bytes)
    (clock : Nat → Clock)
    (hcmd : extractCommand tables val = .ok ⟨"SET", key :: value :: options⟩)
    (hk : key.length ≤ maxKeyLen) (hv : value.length ≤ maxValLen) :
    dispatchCommand tables hashFn (arenaAfter hashFn region calls) val clock =
      (replyOf (fun _ => Resp.ok) (MemLaneClient.set hashFn (arenaAfter hashFn region calls) key
          value (setOptions tables 0 options) (clock 0)).1,
        (MemLaneClient.set hashFn (arenaAfter hashFn region calls) key value
          (setOptions tables 0 options) (clock 0)).2) ∧
    (ExpiryHonoured tables hashFn (arenaAfter hashFn region calls) val options clock ↔
      Refuses hashFn (arenaAfter hashFn region calls) key (clock 0) ∨
        LastOptionReadable tables options) :=
  ⟨dispatchCommand_set hcmd,
    expiryHonoured_iff (TableInv.arenaAfter hashFn region calls) hcmd hk hv⟩

/-- One option `EX`. -/
theorem expiryOptions_ex (arg : Bytes) :
    expiryOptions tables [asBytes "EX", arg] = [(.ex, some arg)] := by
  have hex : expiryOption? tables (asBytes "EX") = some .ex := by
    rw [expiryOption?, fromUtf8Lossy_asBytes, toUppercase_eq_self (by decide), if_pos rfl]
  unfold expiryOptions
  rw [hex]
  rfl

/-- `SET 1 2 EX abc` on an empty table is answered with `OK`, and what it stores is
permanent. -/
theorem set_unreadable_expiry :
    ¬ ExpiryHonoured asciiTables siphash (createArena zeroedRegion)
        (request "SET" [[1], [2], asBytes "EX", asBytes "abc"]) [asBytes "EX", asBytes "abc"]
        (fun _ _ => 0) ∧
      (dispatchCommand asciiTables siphash (createArena zeroedRegion)
        (request "SET" [[1], [2], asBytes "EX", asBytes "abc"]) fun _ _ => 0).2.Stores
        [1] [2] 0 := by
  have hinv : TableInv siphash (createArena zeroedRegion) := .createArena zeroedRegion
  have hcmd : extractCommand asciiTables
      (request "SET" [[1], [2], asBytes "EX", asBytes "abc"]) =
        .ok ⟨"SET", [1] :: [2] :: [asBytes "EX", asBytes "abc"]⟩ :=
    extractCommand_request _ (by decide)
  have hnone : givenNumber (asBytes "abc") = none := by
    rw [givenNumber, fromUtf8Lossy_asBytes]
    decide
  have hlast : (expiryOptions asciiTables [asBytes "EX", asBytes "abc"]).getLast? =
      some (.ex, some (asBytes "abc")) := by
    rw [expiryOptions_ex]
    rfl
  constructor
  · rw [expiryHonoured_iff hinv hcmd (by decide) (by decide)]
    intro h
    rcases h with hrefuses | ⟨option, arg, n, hlast', hn, _⟩
    · exact absurd (hrefuses.occupied 0) (by decide)
    · cases hlast.symm.trans hlast'
      cases hnone.symm.trans hn
  · have hzero : setOptions asciiTables 0 [asBytes "EX", asBytes "abc"] = 0 := by
      rw [setOptions_of_getLast hlast, ExpiryOption.seconds, parseU64_fromUtf8Lossy, hnone]
      rfl
    have hok : (MemLaneClient.set siphash (createArena zeroedRegion) [1] [2] 0 fun _ => 0).1 =
        .ok true := by decide +kernel
    rw [dispatchCommand_set hcmd, hzero]
    exact (MemLaneClient.stores_of_set_ok hinv ⟨true, hok⟩).2

/-- `SET 1 2 EX 10` stores for ten seconds. -/
theorem set_expiry_honoured_iff_ten :
    dispatchCommand asciiTables siphash (arenaAfter siphash zeroedRegion [])
        (request "SET" [[1], [2], asBytes "EX", asBytes "10"]) (fun _ _ => 0) =
      (replyOf (fun _ => Resp.ok) (MemLaneClient.set siphash (arenaAfter siphash zeroedRegion [])
          [1] [2] (setOptions asciiTables 0 [asBytes "EX", asBytes "10"]) fun _ => 0).1,
        (MemLaneClient.set siphash (arenaAfter siphash zeroedRegion []) [1] [2]
          (setOptions asciiTables 0 [asBytes "EX", asBytes "10"]) fun _ => 0).2) ∧
    ExpiryHonoured asciiTables siphash (arenaAfter siphash zeroedRegion [])
      (request "SET" [[1], [2], asBytes "EX", asBytes "10"]) [asBytes "EX", asBytes "10"]
      (fun _ _ => 0) := by
  have hten : givenNumber (asBytes "10") = some 10 := by
    rw [givenNumber, fromUtf8Lossy_asBytes]
    decide
  have hrange : ExpiryOption.ex.InRange 10 := by
    rw [ExpiryOption.InRange]
    decide
  have hreadable : LastOptionReadable asciiTables [asBytes "EX", asBytes "10"] := by
    refine ⟨.ex, asBytes "10", 10, ?_, hten, by decide, hrange⟩
    rw [expiryOptions_ex]
    rfl
  exact (set_expiry_honoured_iff asciiTables siphash zeroedRegion [] _ [1] [2] _ (fun _ _ => 0)
    (extractCommand_request _ (by decide)) (by decide) (by decide)).imp_right
      fun h => h.mpr (.inr hreadable)

end MemLane
