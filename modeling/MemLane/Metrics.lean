import MemLane.Percentile
import MemLane.Resp
import MemLane.Run
import Mathlib.Algebra.BigOperators.Group.Finset.Basic
import Mathlib.Data.Finmap
import Mathlib.Data.List.DropRight

/-!
# The metrics aggregator

`Aggregator` of `server/ws_bridge.rs`: the latencies and the counts of a window, which
`drain` turns into a snapshot and resets.  A window is what has been recorded since the
last drain, and the snapshot depends on it as a multiset: what is counted and ranked
does not see the order of the events.

Percentages are exact rationals here where the code uses `f64`.  The start time of
a window is never read and is left out.
-/

namespace MemLane

structure MetricEvent where
  op : String
  latencyUs : UInt64

/-- `HashMap<String, u64>`. -/
abbrev Breakdown := Finmap fun _ : String => UInt64

structure MetricsSnapshot where
  opsPerSec : UInt64
  p50Us : UInt64
  p99Us : UInt64
  p999Us : UInt64
  usedSlots : UInt64
  totalSlots : UInt64
  fillPct : ℚ
  breakdown : Breakdown

/-- `percentile` of a sorted slice; 999 stands for 99.9. -/
def percentile (sorted : List UInt64) (n : Nat) : UInt64 :=
  if sorted = [] then 0
  else
    let pct : ℚ := if n = 999 then 999 / 10 else n
    let idx := (Percentile.roundHalfAway (pct / 100 * ((sorted.length - 1 : Nat) : ℚ))).toNat
    sorted.getD (min idx (sorted.length - 1)) 0

structure Aggregator where
  latencies : List UInt64
  breakdown : Breakdown

namespace Aggregator

def new : Aggregator := { latencies := [], breakdown := ∅ }

def record (agg : Aggregator) (event : MetricEvent) : Aggregator :=
  { latencies := agg.latencies ++ [event.latencyUs]
    breakdown := agg.breakdown.insert event.op ((agg.breakdown.lookup event.op).getD 0 + 1) }

/-- `drain`: the snapshot of the window, and the aggregator reset for the next one. -/
def drain (agg : Aggregator) (usedSlots totalSlots : UInt64) : MetricsSnapshot × Aggregator :=
  let latencies := Percentile.sorted agg.latencies
  ({ opsPerSec := UInt64.ofNat agg.latencies.length
     p50Us := percentile latencies 50
     p99Us := percentile latencies 99
     p999Us := percentile latencies 999
     usedSlots := usedSlots
     totalSlots := totalSlots
     fillPct := if totalSlots > 0 then usedSlots.toNat / totalSlots.toNat * 100 else 0
     breakdown := agg.breakdown },
   { latencies := [], breakdown := ∅ })

end Aggregator

/-- A call of the aggregator's task. -/
inductive MetricsCall
  | record (event : MetricEvent)
  | drain (usedSlots totalSlots : UInt64)

def MetricsCall.exec (agg : Aggregator) : MetricsCall → Option MetricsSnapshot × Aggregator
  | .record event => (none, agg.record event)
  | .drain usedSlots totalSlots =>
      let result := agg.drain usedSlots totalSlots
      (some result.1, result.2)

/-- The aggregator after a sequence of calls. -/
def aggregatorAfter (calls : List MetricsCall) : Aggregator :=
  Run.after MetricsCall.exec .new calls

/-! ## Windows -/

def MetricsCall.event? : MetricsCall → Option MetricEvent
  | .record event => some event
  | .drain _ _ => none

/-- The events recorded since the last drain. -/
def currentWindow (calls : List MetricsCall) : List MetricEvent :=
  (calls.rtakeWhile fun call => call.event?.isSome).filterMap MetricsCall.event?

theorem currentWindow_record (calls : List MetricsCall) (event : MetricEvent) :
    currentWindow (calls ++ [.record event]) = currentWindow calls ++ [event] := by
  rw [currentWindow, List.rtakeWhile_concat_pos _ _ _ rfl, List.filterMap_append]
  rfl

theorem currentWindow_drain (calls : List MetricsCall) (usedSlots totalSlots : UInt64) :
    currentWindow (calls ++ [.drain usedSlots totalSlots]) = [] := by
  rw [currentWindow, List.rtakeWhile_concat_neg _ _ _ Bool.false_ne_true]
  rfl

/-- The number of events of a window with this operation. -/
def countOp (events : List MetricEvent) (op : String) : Nat := (events.map MetricEvent.op).count op

/-- Both accumulators hold the window. -/
structure Accumulates (agg : Aggregator) (events : List MetricEvent) : Prop where
  latencies : agg.latencies = events.map MetricEvent.latencyUs
  breakdown : ∀ op, agg.breakdown.lookup op =
    if countOp events op = 0 then none else some (UInt64.ofNat (countOp events op))

theorem Accumulates.new : Accumulates .new [] where
  latencies := rfl
  breakdown := fun _ => rfl

theorem Accumulates.record {agg : Aggregator} {events : List MetricEvent}
    (h : Accumulates agg events) (event : MetricEvent) :
    Accumulates (agg.record event) (events ++ [event]) where
  latencies := by
    rw [Aggregator.record, h.latencies, List.map_append]
    rfl
  breakdown := by
    intro op
    have hcount : countOp (events ++ [event]) op =
        countOp events op + if event.op = op then 1 else 0 := by
      rw [countOp, List.map_append, List.count_append, List.map_singleton, List.count_singleton]
      simp only [beq_iff_eq]
      rfl
    by_cases hop : event.op = op
    · rw [hcount, if_pos hop, if_neg (Nat.succ_ne_zero _), Aggregator.record, hop,
        Finmap.lookup_insert, h.breakdown op, UInt64.ofNat_add]
      split
      · next hzero => rw [hzero]; rfl
      · rfl
    · rw [hcount, if_neg hop, Nat.add_zero, Aggregator.record,
        Finmap.lookup_insert_of_ne _ (Ne.symm hop), h.breakdown op]

/-- Step and run lemma: after any calls the accumulators hold the current window. -/
theorem accumulates_after (calls : List MetricsCall) :
    Accumulates (aggregatorAfter calls) (currentWindow calls) := by
  induction calls using List.reverseRecOn with
  | nil => exact .new
  | append_singleton calls call ih =>
      rw [aggregatorAfter, Run.after_append]
      cases call with
      | record event =>
          rw [currentWindow_record]
          exact ih.record event
      | drain usedSlots totalSlots =>
          rw [currentWindow_drain]
          exact .new

/-! ## Snapshots -/

/-- What a snapshot says about the events of its window. -/
structure Summarises (snapshot : MetricsSnapshot) (events : List MetricEvent) : Prop where
  ops : snapshot.opsPerSec.toNat = events.length
  breakdown : ∀ op, (snapshot.breakdown.lookup op).map UInt64.toNat =
    if countOp events op = 0 then none else some (countOp events op)
  total : (∑ op ∈ snapshot.breakdown.keys,
    ((snapshot.breakdown.lookup op).elim 0 UInt64.toNat)) = snapshot.opsPerSec.toNat
  ordered : snapshot.p50Us ≤ snapshot.p99Us ∧ snapshot.p99Us ≤ snapshot.p999Us
  occurs : events ≠ [] → ∀ p, p = snapshot.p50Us ∨ p = snapshot.p99Us ∨ p = snapshot.p999Us →
    ∃ event ∈ events, event.latencyUs = p

section Percentiles

variable {sample : List UInt64}

/-- The quantile that the argument of `percentile` stands for. -/
def quantile (n : Nat) : ℚ :=
  let pct : ℚ := if n = 999 then 999 / 10 else n
  pct / 100

/-- `percentile` is the value at the rank of its quantile. -/
theorem percentile_sorted (hne : sample ≠ []) (n : Nat) :
    percentile (Percentile.sorted sample) n =
      (Percentile.sorted sample).getD (Percentile.rank (quantile n) sample.length) 0 := by
  have hsorted : Percentile.sorted sample ≠ [] := by
    intro hnil
    have hlen := Percentile.length_sorted sample
    rw [hnil] at hlen
    exact hne (List.eq_nil_of_length_eq_zero hlen.symm)
  rw [percentile, if_neg hsorted]
  simp only [Percentile.length_sorted]
  rfl

theorem percentile_le {n n' : Nat} (hq : 0 ≤ quantile n) (hqq' : quantile n ≤ quantile n') :
    percentile (Percentile.sorted sample) n ≤ percentile (Percentile.sorted sample) n' := by
  by_cases hne : sample = []
  · rw [hne]
    exact UInt64.le_refl _
  · rw [percentile_sorted hne, percentile_sorted hne]
    exact Percentile.sorted_getD_le sample 0 (Percentile.rank_mono hq hqq' _)
      (Percentile.rank_lt (List.length_pos_iff.mpr hne))

theorem percentile_mem (hne : sample ≠ []) (n : Nat) :
    percentile (Percentile.sorted sample) n ∈ sample := by
  rw [percentile_sorted hne]
  exact Percentile.sorted_getD_mem sample 0 (Percentile.rank_lt (List.length_pos_iff.mpr hne))

end Percentiles

theorem sum_countOp (events : List MetricEvent) :
    (∑ op ∈ (events.map MetricEvent.op).toFinset, countOp events op) = events.length := by
  rw [← List.length_map (f := MetricEvent.op)]
  exact List.sum_toFinset_count_eq_length _

/-- The commands that the breakdown mentions are those of the window. -/
theorem Accumulates.keys {agg : Aggregator} {events : List MetricEvent}
    (h : Accumulates agg events) :
    agg.breakdown.keys = (events.map MetricEvent.op).toFinset := by
  ext op
  rw [Finmap.mem_keys, ← Finmap.lookup_isSome, h.breakdown op, List.mem_toFinset,
    ← List.count_pos_iff]
  split
  · next hzero => exact iff_of_false Bool.false_ne_true (Nat.not_lt.mpr hzero.le)
  · next hpos => exact iff_of_true rfl (Nat.pos_of_ne_zero hpos)

section Window

/-! A window that a `Vec` of latencies can hold. -/

variable {agg : Aggregator} {events : List MetricEvent} (hfits : events.length * 8 ≤ isizeMax)

include hfits

theorem length_lt_of_fits : events.length < 2 ^ 64 := by
  unfold isizeMax at hfits
  omega

theorem countOp_lt (op : String) : countOp events op < 2 ^ 64 := by
  have hlength := length_lt_of_fits hfits
  have hle : countOp events op ≤ (events.map MetricEvent.op).length := List.count_le_length
  rw [List.length_map] at hle
  omega

theorem Accumulates.lookup_toNat (h : Accumulates agg events) (op : String) :
    (agg.breakdown.lookup op).map UInt64.toNat =
      if countOp events op = 0 then none else some (countOp events op) := by
  rw [h.breakdown op]
  split
  · rfl
  · rw [Option.map_some, UInt64.toNat_ofNat_of_lt' (countOp_lt hfits op)]

/-- The breakdown adds up to the number of events. -/
theorem Accumulates.sum_breakdown (h : Accumulates agg events) :
    (∑ op ∈ agg.breakdown.keys, (agg.breakdown.lookup op).elim 0 UInt64.toNat) =
      events.length := by
  rw [h.keys, ← sum_countOp]
  apply Finset.sum_congr rfl
  intro op _
  rw [h.breakdown op]
  split
  · next hzero => exact hzero.symm
  · exact UInt64.toNat_ofNat_of_lt' (countOp_lt hfits op)

theorem Accumulates.summarises (h : Accumulates agg events) (usedSlots totalSlots : UInt64) :
    Summarises (agg.drain usedSlots totalSlots).1 events := by
  have hops : (UInt64.ofNat agg.latencies.length).toNat = events.length := by
    rw [h.latencies, List.length_map]
    exact UInt64.toNat_ofNat_of_lt' (length_lt_of_fits hfits)
  refine ⟨hops, h.lookup_toNat hfits, ?_, ⟨?_, ?_⟩, ?_⟩
  · exact (h.sum_breakdown hfits).trans hops.symm
  · exact percentile_le (by norm_num [quantile]) (by norm_num [quantile])
  · exact percentile_le (by norm_num [quantile]) (by norm_num [quantile])
  · intro hne p hp
    have hlatencies : agg.latencies ≠ [] := by
      rw [h.latencies]
      exact fun hnil => hne (List.map_eq_nil_iff.mp hnil)
    have hmem : p ∈ agg.latencies := by
      rcases hp with rfl | rfl | rfl
      · exact percentile_mem hlatencies 50
      · exact percentile_mem hlatencies 99
      · exact percentile_mem hlatencies 999
    rw [h.latencies] at hmem
    exact List.mem_map.mp hmem

end Window

/-- Windows with the same events, in whatever order, give the same snapshot. -/
theorem Accumulates.drain_eq_of_perm {agg agg' : Aggregator} {events events' : List MetricEvent}
    (h : Accumulates agg events) (h' : Accumulates agg' events') (hperm : events.Perm events')
    (usedSlots totalSlots : UInt64) :
    agg.drain usedSlots totalSlots = agg'.drain usedSlots totalSlots := by
  have hlatencies : agg.latencies.Perm agg'.latencies := by
    rw [h.latencies, h'.latencies]
    exact hperm.map _
  have hbreakdown : agg.breakdown = agg'.breakdown := by
    apply Finmap.ext_lookup
    intro op
    have hcount : countOp events op = countOp events' op := (hperm.map _).count_eq op
    rw [h.breakdown op, h'.breakdown op, hcount]
  rw [Aggregator.drain, Aggregator.drain, Percentile.sorted_eq_of_perm hlatencies,
    hlatencies.length_eq, hbreakdown]

/-- **Windows lose and duplicate nothing.**  In every interleaving of calls, the snapshot of
a drain summarises what has been recorded since the drain before it, and is the same for
every order of these events. -/
theorem snapshots_exact (calls : List MetricsCall) (usedSlots totalSlots : UInt64)
    (hfits : (currentWindow calls).length * 8 ≤ isizeMax) :
    Summarises ((aggregatorAfter calls).drain usedSlots totalSlots).1 (currentWindow calls) ∧
    ∀ calls', (currentWindow calls).Perm (currentWindow calls') →
      (aggregatorAfter calls').drain usedSlots totalSlots =
        (aggregatorAfter calls).drain usedSlots totalSlots := by
  have hafter := accumulates_after calls
  refine ⟨hafter.summarises hfits usedSlots totalSlots, ?_⟩
  intro calls' hperm
  exact (hafter.drain_eq_of_perm (accumulates_after calls') hperm usedSlots totalSlots).symm

/-- Two windows, the second with two events. -/
def twoWindows : List MetricsCall :=
  [.record ⟨"GET", 7⟩, .drain 1 65536, .record ⟨"SET", 9⟩, .record ⟨"GET", 4⟩]

theorem snapshots_exact_twoWindows :
    Summarises ((aggregatorAfter twoWindows).drain 2 65536).1 [⟨"SET", 9⟩, ⟨"GET", 4⟩] ∧
    ∀ calls', ([⟨"SET", 9⟩, ⟨"GET", 4⟩] : List MetricEvent).Perm (currentWindow calls') →
      (aggregatorAfter calls').drain 2 65536 = (aggregatorAfter twoWindows).drain 2 65536 :=
  snapshots_exact twoWindows 2 65536 (by decide)

end MemLane
