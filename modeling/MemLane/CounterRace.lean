import MemLane.ReadHistory

/-!
# Concurrent increments

Any number of clients increment one counter, each map operation being one atomic
step: `incr` is a `get` step and a `set` step, and other clients may move between
the two.

The increments are exact when every `set` step still finds under the key the
number its own `get` step read.  A `set` step that finds another number returns a
number that another client has returned already, or one that is no successor of
the start at all, so the condition is also necessary.
-/

namespace MemLane

/-- One call of `incr`: before its `get`, between `get` and `set`, finished. -/
inductive IncrThread
  | start
  | got (current : UInt64)
  | done (result : Except MemLaneError UInt64)
  deriving DecidableEq

/-- The next map operation of a call. -/
def IncrThread.step (hashFn : Bytes → UInt64) (key : Bytes) (arena : Arena) (clock : Clock) :
    IncrThread → Arena × IncrThread
  | .start =>
      let result := MemLaneClient.get hashFn arena key clock
      (result.2,
        match result.1 with
        | .error e => .done (.error e)
        | .ok stored => .got (MemLaneClient.counterValue stored))
  | .got current =>
      let result := MemLaneClient.storeCounter hashFn arena key (current + 1) clock
      (result.2, .done result.1)
  | .done result => (arena, .done result)

/-- A call that nobody interrupts is `incr`. -/
theorem incr_eq_steps (hashFn : Bytes → UInt64) (key : Bytes) (arena : Arena)
    (clock : Nat → Clock) :
    let first := IncrThread.step hashFn key arena (clock 0) .start
    IncrThread.step hashFn key first.1 (clock 1) first.2 =
      ((MemLaneClient.incr hashFn arena key clock).2,
        .done (MemLaneClient.incr hashFn arena key clock).1) := by
  simp only [IncrThread.step, MemLaneClient.incr]
  generalize MemLaneClient.get hashFn arena key (clock 0) = result
  obtain ⟨reply, arena'⟩ := result
  cases reply <;> rfl

/-- `m` calls of `incr` on one arena. -/
structure Counting (m : Nat) where
  arena : Arena
  thread : Fin m → IncrThread

variable {m n : Nat}

/-- One call moves, with the clock readings of its map operation. -/
def Counting.next (hashFn : Bytes → UInt64) (key : Bytes) (s : Counting m)
    (input : Fin m × Clock) : Counting m :=
  let result := (s.thread input.1).step hashFn key s.arena input.2
  { arena := result.1, thread := Function.update s.thread input.1 result.2 }

def countingStart (m : Nat) (arena : Arena) : Counting m := ⟨arena, fun _ => .start⟩

def countingAfter (hashFn : Bytes → UInt64) (key : Bytes) (s : Counting m)
    (schedule : List (Fin m × Clock)) : Counting m :=
  Run.final (Counting.next hashFn key) s schedule

/-- The counter stands at `n + m`, and the numbers `n + 1, …, n + m` have been
returned, each exactly once. -/
def CountedExactly (key : Bytes) (n : Nat) (s : Counting m) : Prop :=
  s.arena.Stores key (Decimal.numeral (n + m)) 0 ∧
    (∀ c, ∃ v, s.thread c = .done (.ok v) ∧ n < v.toNat ∧ v.toNat ≤ n + m) ∧
    ∀ r : Nat, n < r → r ≤ n + m → ∃! c, s.thread c = .done (.ok (UInt64.ofNat r))

/-- If the call is about to `set`, the key still holds the number its `get` read. -/
def FreshStep (key : Bytes) (s : Counting m) (c : Fin m) : Prop :=
  ∀ v, s.thread c = .got v → ∃ e, s.arena.Stores key (Decimal.numeral v.toNat) e

/-! ## The two map operations -/

theorem counterValue_numeral (h : n < 2 ^ 64) :
    MemLaneClient.counterValue (some (Decimal.numeral n)) = UInt64.ofNat n := by
  obtain ⟨s, hs, hbytes⟩ := exists_fromUtf8_of_ascii (Decimal.ascii_numeral n)
  simp only [MemLaneClient.counterValue, hs, Option.getD_some, parseU64, hbytes,
    Decimal.readNat_numeral, if_pos h]

/-- The numeral of a 64-bit number is an admissible value. -/
theorem length_numeral_toNat (n : UInt64) : (Decimal.numeral n.toNat).length ≤ maxValLen := by
  have hlt : n.toNat < 10 ^ 20 := lt_trans n.toNat_lt (by norm_num)
  exact (Decimal.length_numeral_le (by omega) hlt).trans (by decide)

section Steps

variable {hashFn : Bytes → UInt64} {arena : Arena} {key : Bytes} {w : Nat}

/-- The `get` step keeps the counter, and reads it or nothing. -/
theorem get_counter (hinv : TableInv hashFn arena)
    (hs : arena.Stores key (Decimal.numeral w) 0) (hw : w < 2 ^ 64) (clock : Clock) :
    TableInv hashFn (MemLaneClient.get hashFn arena key clock).2 ∧
      (MemLaneClient.get hashFn arena key clock).2.Stores key (Decimal.numeral w) 0 ∧
      ∃ stored, (MemLaneClient.get hashFn arena key clock).1 = .ok stored ∧
        (MemLaneClient.counterValue stored = 0 ∨
          MemLaneClient.counterValue stored = UInt64.ofNat w) := by
  have hk : ¬ key.length > maxKeyLen := not_lt.mpr hs.key_length
  simp only [MemLaneClient.get, if_neg hk]
  refine ⟨hinv.get key clock, ?_, ?_⟩
  · rcases (get_evicts hashFn arena key clock).stores_or_expired hs with h | hexp
    · exact h
    · exact (hexp.expired.1 rfl).elim
  · have hfound : ∀ v, (MemLane.get hashFn arena key clock).1 = .found v →
        v = Decimal.numeral w := by
      intro v hv
      obtain ⟨i, _, hocc, hkey, hvalue, _⟩ := get_found hv
      exact (hinv.stores_unique ⟨_, hocc, hkey, hvalue, rfl⟩ hs).1
    generalize (MemLane.get hashFn arena key clock).1 = r at hfound
    cases r with
    | found v =>
        obtain rfl := hfound v rfl
        exact ⟨_, rfl, .inr (counterValue_numeral hw)⟩
    | notFound | expired => exact ⟨none, rfl, .inl rfl⟩

/-- The `set` step on a stored counter succeeds and stores the new number. -/
theorem set_counter (hinv : TableInv hashFn arena) {value : Bytes}
    (hs : arena.Stores key value 0) (next : UInt64) (clock : Clock) :
    TableInv hashFn (MemLaneClient.storeCounter hashFn arena key next clock).2 ∧
      (MemLaneClient.storeCounter hashFn arena key next clock).2.Stores key
        (Decimal.numeral next.toNat) 0 ∧
      (MemLaneClient.storeCounter hashFn arena key next clock).1 = .ok next := by
  have hk := hs.key_length
  have hv := length_numeral_toNat next
  simp only [MemLaneClient.storeCounter, MemLaneClient.set, if_neg (not_lt.mpr hk),
    if_neg (not_lt.mpr hv)]
  have hset := hinv.set hk (Decimal.numeral next.toNat) 0 clock
  have heff := set_effect hinv key (Decimal.numeral next.toNat) 0 clock
  rw [ttlToExpiry_zero] at heff
  generalize MemLane.set hashFn arena key (Decimal.numeral next.toNat) 0 clock = res
    at hset heff ⊢
  obtain ⟨result, after⟩ := res
  have hself := heff.stores_self hk hv
  cases heff with
  | inserted hevicts habsent =>
      rcases hevicts.stores_or_expired hs with h | hexp
      · exact (habsent h.contains).elim
      · exact (hexp.expired.1 rfl).elim
  | updated => exact ⟨hset, hself (by simp), rfl⟩
  | full habsent => exact (habsent hs.contains).elim

end Steps

/-! ## The invariant -/

def IncrThread.finished : IncrThread → Bool
  | .done _ => true
  | _ => false

/-- The number of finished calls. -/
def Counting.finished (s : Counting m) : Nat :=
  (Finset.univ.filter fun c => (s.thread c).finished).card

/-- As long as every `set` step has been fresh: the counter has advanced once for
each finished call, and these have returned the numbers passed. -/
structure CountingInv (hashFn : Bytes → UInt64) (key : Bytes) (n : Nat) (s : Counting m) :
    Prop where
  inv : TableInv hashFn s.arena
  stored : s.arena.Stores key (Decimal.numeral (n + s.finished)) 0
  current : ∀ c v, s.thread c = .got v → v = 0 ∨ (n ≤ v.toNat ∧ v.toNat ≤ n + s.finished)
  result : ∀ c r, s.thread c = .done r →
    ∃ v, r = .ok v ∧ n < v.toNat ∧ v.toNat ≤ n + s.finished
  distinct : ∀ c d v, s.thread c = .done (.ok v) → s.thread d = .done (.ok v) → c = d
  covered : ∀ r : Nat, n < r → r ≤ n + s.finished →
    ∃ c, s.thread c = .done (.ok (UInt64.ofNat r))

/-- A number has been returned that should not have been: one that is no successor
of the start, or one that another call has returned. -/
def Miscounted (n : Nat) (s : Counting m) : Prop :=
  ∃ c v, s.thread c = .done (.ok v) ∧
    (v.toNat ≤ n ∨ ∃ d, d ≠ c ∧ s.thread d = .done (.ok v))

section Invariant

variable {hashFn : Bytes → UInt64} {key : Bytes} {s : Counting m} {c : Fin m}

theorem Counting.finished_le (s : Counting m) : s.finished ≤ m := by
  have h := Finset.card_le_univ (Finset.univ.filter fun c => (s.thread c).finished)
  rwa [Fintype.card_fin] at h

/-- An unfinished call leaves room for one more. -/
theorem Counting.finished_lt (h : (s.thread c).finished = false) : s.finished < m := by
  have hlt : s.finished < (Finset.univ : Finset (Fin m)).card := by
    refine Finset.card_lt_card (Finset.filter_ssubset.mpr ⟨c, Finset.mem_univ c, ?_⟩)
    rw [h]
    exact Bool.false_ne_true
  rwa [Finset.card_univ, Fintype.card_fin] at hlt

/-- Finishing a call adds one. -/
theorem Counting.finished_update {arena : Arena} {t : IncrThread}
    (h : (s.thread c).finished = false) :
    (⟨arena, Function.update s.thread c t⟩ : Counting m).finished =
      s.finished + if t.finished then 1 else 0 := by
  have hnot : c ∉ Finset.univ.filter fun c => (s.thread c).finished := by simp [h]
  cases ht : t.finished with
  | true =>
      have hset : (Finset.univ.filter fun d => (Function.update s.thread c t d).finished) =
          insert c (Finset.univ.filter fun d => (s.thread d).finished) := by
        ext d
        by_cases hd : d = c
        · subst hd
          simp [ht]
        · simp [hd]
      rw [if_pos rfl, Counting.finished, hset, Finset.card_insert_of_notMem hnot,
        Counting.finished]
  | false =>
      have hset : (Finset.univ.filter fun d => (Function.update s.thread c t d).finished) =
          Finset.univ.filter fun d => (s.thread d).finished := by
        ext d
        by_cases hd : d = c
        · subst hd
          simp [ht, h]
        · simp [hd]
      rw [if_neg Bool.false_ne_true, Counting.finished, hset, Counting.finished, Nat.add_zero]

theorem Counting.finished_eq (h : ∀ c, ∃ r, s.thread c = .done r) : s.finished = m := by
  have hall : (Finset.univ.filter fun c => (s.thread c).finished = true) = Finset.univ := by
    refine Finset.filter_true_of_mem fun c _ => ?_
    obtain ⟨r, hr⟩ := h c
    rw [hr]
    rfl
  rw [Counting.finished, hall, Finset.card_univ, Fintype.card_fin]

theorem CountingInv.start {arena : Arena} (hinv : TableInv hashFn arena)
    (hs : arena.Stores key (Decimal.numeral n) 0) :
    CountingInv hashFn key n (countingStart m arena) := by
  have hnone : (countingStart m arena).finished = 0 := by
    rw [Counting.finished, Finset.card_eq_zero, Finset.filter_eq_empty_iff]
    exact fun c _ => Bool.false_ne_true
  refine ⟨hinv, ?_, ?_, ?_, ?_, ?_⟩
  · rw [hnone]
    exact hs
  · exact fun c v h => by cases h
  · exact fun c r h => by cases h
  · exact fun c d v h => by cases h
  · intro r hlow hhigh
    omega

/-- A finished call stays as it is. -/
theorem Counting.next_of_done {r : Except MemLaneError UInt64} (hc : s.thread c = .done r)
    (clock : Clock) : s.next hashFn key (c, clock) = s := by
  simp only [Counting.next, hc, IncrThread.step]
  rw [← hc, Function.update_eq_self]

theorem Counting.next_other {d : Fin m} (hd : d ≠ c) (clock : Clock) :
    (s.next hashFn key (c, clock)).thread d = s.thread d :=
  Function.update_of_ne hd ..

/-- The `get` step of a call keeps the invariant. -/
theorem CountingInv.get_step (h : CountingInv hashFn key n s) (hbound : n + m < 2 ^ 63)
    (hc : s.thread c = .start) (clock : Clock) :
    CountingInv hashFn key n (s.next hashFn key (c, clock)) := by
  have hroom : s.finished < m := Counting.finished_lt (c := c) (by rw [hc]; rfl)
  obtain ⟨hinv, hs, stored, hreply, hvalue⟩ := get_counter h.inv h.stored (by omega) clock
  have hnext : s.next hashFn key (c, clock) =
      ⟨(MemLaneClient.get hashFn s.arena key clock).2,
        Function.update s.thread c (.got (MemLaneClient.counterValue stored))⟩ := by
    simp only [Counting.next, hc, IncrThread.step, hreply]
  rw [hnext]
  generalize (MemLaneClient.get hashFn s.arena key clock).2 = arena at hinv hs
  have hfin : (⟨arena, Function.update s.thread c
      (.got (MemLaneClient.counterValue stored))⟩ : Counting m).finished = s.finished :=
    Counting.finished_update (by rw [hc]; rfl)
  have hdone : ∀ d r, Function.update s.thread c
      (.got (MemLaneClient.counterValue stored)) d = .done r → s.thread d = .done r := by
    intro d r hd
    by_cases hdc : d = c
    · subst hdc
      simp at hd
    · simpa [hdc] using hd
  refine ⟨hinv, ?_, ?_, ?_, ?_, ?_⟩
  · rw [hfin]
    exact hs
  · intro d v hd
    rw [hfin]
    by_cases hdc : d = c
    · subst hdc
      obtain rfl : MemLaneClient.counterValue stored = v := by simpa using hd
      rcases hvalue with hzero | hw
      · exact .inl hzero
      · have hlt : n + s.finished < 2 ^ 64 := by omega
        have hnat : (MemLaneClient.counterValue stored).toNat = n + s.finished := by
          rw [hw, UInt64.toNat_ofNat_of_lt' hlt]
        exact .inr (by omega)
    · exact h.current d v (by simpa [hdc] using hd)
  · intro d r hd
    rw [hfin]
    exact h.result d r (hdone d r hd)
  · exact fun d d' v hd hd' => h.distinct d d' v (hdone d _ hd) (hdone d' _ hd')
  · intro r hlow hhigh
    rw [hfin] at hhigh
    obtain ⟨d, hd⟩ := h.covered r hlow hhigh
    have hdc : d ≠ c := by
      intro heq
      rw [heq, hc] at hd
      cases hd
    exact ⟨d, by simpa [hdc] using hd⟩

/-- The `set` step of a call stores and returns the successor of what it read. -/
theorem Counting.next_of_got (h : CountingInv hashFn key n s) {v : UInt64}
    (hc : s.thread c = .got v) (clock : Clock) :
    ∃ arena, s.next hashFn key (c, clock) =
        ⟨arena, Function.update s.thread c (.done (.ok (v + 1)))⟩ ∧
      TableInv hashFn arena ∧ arena.Stores key (Decimal.numeral (v + 1).toNat) 0 := by
  obtain ⟨hinv, hs, hreply⟩ := set_counter h.inv h.stored (v + 1) clock
  refine ⟨_, ?_, hinv, hs⟩
  simp only [Counting.next, hc, IncrThread.step, hreply]

/-- A number that a call has read can be stepped as long as `n + m` is below `2 ^ 63`. -/
theorem CountingInv.succ_toNat (h : CountingInv hashFn key n s) (hbound : n + m < 2 ^ 63)
    {v : UInt64} (hc : s.thread c = .got v) : (v + 1).toNat = v.toNat + 1 := by
  have hroom := s.finished_le
  have hlt : v.toNat + 1 < 2 ^ 64 := by
    rcases h.current c v hc with hzero | hrange
    · rw [hzero]
      decide
    · omega
  rw [UInt64.toNat_add, UInt64.toNat_one, Nat.mod_eq_of_lt hlt]

/-- A fresh `set` step keeps the invariant. -/
theorem CountingInv.set_step (h : CountingInv hashFn key n s) (hbound : n + m < 2 ^ 63)
    {v : UInt64} (hc : s.thread c = .got v) (hfresh : FreshStep key s c) (clock : Clock) :
    CountingInv hashFn key n (s.next hashFn key (c, clock)) := by
  obtain ⟨e, hread⟩ := hfresh v hc
  have hv : v.toNat = n + s.finished :=
    Decimal.numeral_injective (h.inv.stores_unique hread h.stored).1
  have hsucc := h.succ_toNat hbound hc
  obtain ⟨arena, hnext, hinv, hs⟩ := Counting.next_of_got h hc clock
  rw [hnext]
  have hfin : (⟨arena, Function.update s.thread c (.done (.ok (v + 1)))⟩ : Counting m).finished =
      s.finished + 1 := Counting.finished_update (by rw [hc]; rfl)
  have hcases : ∀ d r, Function.update s.thread c (.done (.ok (v + 1))) d = .done r →
      (d = c ∧ r = .ok (v + 1)) ∨ (d ≠ c ∧ s.thread d = .done r) := by
    intro d r hd
    by_cases hdc : d = c
    · subst hdc
      rw [Function.update_self] at hd
      exact .inl ⟨rfl, (IncrThread.done.inj hd).symm⟩
    · exact .inr ⟨hdc, by simpa [hdc] using hd⟩
  have hold : ∀ d r, s.thread d = .done r → ∃ w, r = .ok w ∧ w ≠ v + 1 := by
    intro d r hd
    obtain ⟨w, hw, _, hhigh⟩ := h.result d r hd
    refine ⟨w, hw, fun heq => ?_⟩
    rw [heq, hsucc] at hhigh
    omega
  refine ⟨hinv, ?_, ?_, ?_, ?_, ?_⟩
  · rw [hfin, ← Nat.add_assoc, ← hv, ← hsucc]
    exact hs
  · intro d w hd
    rw [hfin]
    have hdc : d ≠ c := by
      intro heq
      subst heq
      simp at hd
    rcases h.current d w (by simpa [hdc] using hd) with hzero | hrange
    · exact .inl hzero
    · exact .inr (by omega)
  · intro d r hd
    rw [hfin]
    rcases hcases d r hd with ⟨_, rfl⟩ | ⟨_, hd'⟩
    · exact ⟨v + 1, rfl, by omega, by omega⟩
    · obtain ⟨w, hw, hlow, hhigh⟩ := h.result d r hd'
      exact ⟨w, hw, hlow, by omega⟩
  · intro d d' w hd hd'
    rcases hcases d _ hd with ⟨rfl, hw⟩ | ⟨_, hd₁⟩
    · rcases hcases d' _ hd' with ⟨rfl, _⟩ | ⟨_, hd₂⟩
      · rfl
      · obtain ⟨w', hw', hne⟩ := hold d' _ hd₂
        exact (hne (Except.ok.inj (hw'.symm.trans hw))).elim
    · rcases hcases d' _ hd' with ⟨rfl, hw⟩ | ⟨_, hd₂⟩
      · obtain ⟨w', hw', hne⟩ := hold d _ hd₁
        exact (hne (Except.ok.inj (hw'.symm.trans hw))).elim
      · exact h.distinct d d' w hd₁ hd₂
  · intro r hlow hhigh
    rw [hfin] at hhigh
    by_cases hr : r = (v + 1).toNat
    · refine ⟨c, ?_⟩
      rw [hr, UInt64.ofNat_toNat]
      exact Function.update_self ..
    · obtain ⟨d, hd⟩ := h.covered r hlow (by omega)
      have hdc : d ≠ c := by
        intro heq
        rw [heq, hc] at hd
        cases hd
      exact ⟨d, by simpa [hdc] using hd⟩

/-- A stale `set` step returns a number it should not. -/
theorem CountingInv.stale_step (h : CountingInv hashFn key n s) (hbound : n + m < 2 ^ 63)
    (hstale : ¬ FreshStep key s c) (clock : Clock) :
    Miscounted n (s.next hashFn key (c, clock)) := by
  simp only [FreshStep, not_forall] at hstale
  obtain ⟨v, hc, hne⟩ := hstale
  have hsucc := h.succ_toNat hbound hc
  obtain ⟨arena, hnext, -, -⟩ := Counting.next_of_got h hc clock
  have hv : v.toNat ≠ n + s.finished := by
    intro heq
    exact hne ⟨0, heq ▸ h.stored⟩
  rw [hnext]
  refine ⟨c, v + 1, Function.update_self .., ?_⟩
  by_cases hlow : n ≤ v.toNat
  · -- The number read is one that the counter has left: its successor is taken.
    have hhigh : v.toNat + 1 ≤ n + s.finished := by
      rcases h.current c v hc with hzero | hrange
      · rw [hzero] at hlow hv ⊢
        simp only [UInt64.toNat_zero] at hlow hv ⊢
        omega
      · omega
    obtain ⟨d, hd⟩ := h.covered (v.toNat + 1) (by omega) hhigh
    have hdc : d ≠ c := by
      intro heq
      rw [heq, hc] at hd
      cases hd
    refine .inr ⟨d, hdc, ?_⟩
    rw [← hsucc, UInt64.ofNat_toNat] at hd
    simpa [hdc] using hd
  · exact .inl (by omega)

/-- Once returned, a wrong number stays. -/
theorem Miscounted.step (h : Miscounted n s) (c : Fin m) (clock : Clock) :
    Miscounted n (s.next hashFn key (c, clock)) := by
  have hkeep : ∀ d r, s.thread d = .done r →
      (s.next hashFn key (c, clock)).thread d = .done r := by
    intro d r hd
    by_cases hdc : d = c
    · subst hdc
      rw [Counting.next_of_done hd]
      exact hd
    · rw [Counting.next_other hdc]
      exact hd
  obtain ⟨d, v, hd, hbad⟩ := h
  refine ⟨d, v, hkeep d _ hd, hbad.imp_right fun hdup => ?_⟩
  obtain ⟨d', hne, hd'⟩ := hdup
  exact ⟨d', hne, hkeep d' _ hd'⟩

/-- One step: fresh steps keep the invariant, and a stale one spoils the count. -/
theorem CountingInv.step (h : CountingInv hashFn key n s) (hbound : n + m < 2 ^ 63)
    (input : Fin m × Clock) :
    (FreshStep key s input.1 → CountingInv hashFn key n (s.next hashFn key input)) ∧
      (¬ FreshStep key s input.1 → Miscounted n (s.next hashFn key input)) := by
  obtain ⟨c, clock⟩ := input
  refine ⟨fun hfresh => ?_, fun hstale => h.stale_step hbound hstale clock⟩
  cases hc : s.thread c with
  | start => exact h.get_step hbound hc clock
  | got v => exact h.set_step hbound hc hfresh clock
  | done r =>
      rw [Counting.next_of_done hc]
      exact h

end Invariant

/-! ## Whole runs -/

/-- Every `set` step of the run is fresh. -/
def FreshRun (hashFn : Bytes → UInt64) (key : Bytes) (s : Counting m)
    (schedule : List (Fin m × Clock)) : Prop :=
  Run.Along (Counting.next hashFn key) (fun s input => FreshStep key s input.1) s schedule

section Runs

variable {hashFn : Bytes → UInt64} {key : Bytes} {s : Counting m}

theorem Miscounted.run (h : Miscounted n s) (schedule : List (Fin m × Clock)) :
    Miscounted n (countingAfter hashFn key s schedule) :=
  Run.invariant_all (Miscounted n) (fun _ input hs => hs.step input.1 input.2) h schedule

/-- A fresh run keeps the invariant to the end, and any other run miscounts. -/
theorem CountingInv.run (h : CountingInv hashFn key n s) (hbound : n + m < 2 ^ 63)
    (schedule : List (Fin m × Clock)) :
    (FreshRun hashFn key s schedule →
      CountingInv hashFn key n (countingAfter hashFn key s schedule)) ∧
    (¬ FreshRun hashFn key s schedule → Miscounted n (countingAfter hashFn key s schedule)) := by
  induction schedule generalizing s with
  | nil => exact ⟨fun _ => h, fun hnot => (hnot trivial).elim⟩
  | cons input schedule ih =>
      obtain ⟨hgood, hbad⟩ := h.step hbound input
      by_cases hfresh : FreshStep key s input.1
      · obtain ⟨hinv, hmis⟩ := ih (hgood hfresh)
        exact ⟨fun hrun => hinv hrun.2, fun hnot => hmis fun hrest => hnot ⟨hfresh, hrest⟩⟩
      · exact ⟨fun hrun => (hfresh hrun.1).elim, fun _ => (hbad hfresh).run schedule⟩

/-- When all calls have finished, the invariant is exactness. -/
theorem CountingInv.exact (h : CountingInv hashFn key n s)
    (hdone : ∀ c, ∃ r, s.thread c = .done r) : CountedExactly key n s := by
  have hfin := Counting.finished_eq hdone
  have hstored := h.stored
  rw [hfin] at hstored
  refine ⟨hstored, fun c => ?_, fun r hlow hhigh => ?_⟩
  · obtain ⟨r, hr⟩ := hdone c
    obtain ⟨v, rfl, hlow, hhigh⟩ := h.result c r hr
    exact ⟨v, hr, hlow, by omega⟩
  · obtain ⟨c, hc⟩ := h.covered r hlow (by omega)
    exact ⟨c, hc, fun d hd => h.distinct d c _ hd hc⟩

/-- A miscount is not exact. -/
theorem Miscounted.not_exact (h : Miscounted n s) : ¬ CountedExactly key n s := by
  intro hexact
  obtain ⟨c, v, hc, hbad⟩ := h
  obtain ⟨w, hw, hlow, hhigh⟩ := hexact.2.1 c
  obtain rfl : v = w := Except.ok.inj (IncrThread.done.inj (hc.symm.trans hw))
  rcases hbad with hle | ⟨d, hdc, hd⟩
  · omega
  · obtain ⟨_, _, hunique⟩ := hexact.2.2 v.toNat hlow hhigh
    rw [UInt64.ofNat_toNat] at hunique
    exact hdc ((hunique d hd).trans (hunique c hc).symm)

end Runs

/-- **Concurrent increments, exactly.**  Let `m` calls of `incr` on a key that holds
the numeral of `n`, without expiry, all finish, in any interleaving of their map
operations and with any readings of the clock.  Then the counter stands at
`n + m` and the calls have returned `n + 1, …, n + m`, each exactly once, if and
only if every `set` step found the key holding the number its call had read. -/
theorem concurrent_incr_exact_iff (hashFn : Bytes → UInt64) (arena : Arena)
    (hinv : TableInv hashFn arena) (key : Bytes) (n m : Nat)
    (hs : arena.Stores key (Decimal.numeral n) 0) (hbound : n + m < 2 ^ 63)
    (schedule : List (Fin m × Clock))
    (hdone : ∀ c, ∃ r, (countingAfter hashFn key (countingStart m arena) schedule).thread c =
      .done r) :
    CountedExactly key n (countingAfter hashFn key (countingStart m arena) schedule) ↔
      FreshRun hashFn key (countingStart m arena) schedule := by
  obtain ⟨hgood, hbad⟩ := (CountingInv.start hinv hs).run hbound schedule
  constructor
  · intro hexact
    by_contra hstale
    exact (hbad hstale).not_exact hexact
  · exact fun hfresh => (hgood hfresh).exact hdone

/-! ## A lost increment -/

/-- An arena with a counter that stands at 5. -/
def counterArena : Arena := arenaAfter siphash zeroedRegion [⟨.set [99] [53] 0, fun _ => 0⟩]

theorem counterArena_stores : counterArena.Stores [99] (Decimal.numeral 5) 0 :=
  ⟨probeIndex (siphash [99]) 0, by decide +kernel⟩

/-- Two calls read 5 before either stores: both return 6. -/
theorem concurrent_incr_loses_one :
    let final := countingAfter siphash [99] (countingStart 2 counterArena)
      [(0, fun _ => 0), (1, fun _ => 0), (0, fun _ => 0), (1, fun _ => 0)]
    (∀ c, final.thread c = .done (.ok 6)) ∧ ¬ CountedExactly [99] 5 final := by
  intro final
  have hdone : ∀ c, final.thread c = .done (.ok 6) := by
    decide +kernel
  refine ⟨hdone, fun hexact => ?_⟩
  obtain ⟨c, hc, hunique⟩ := hexact.2.2 6 (by decide) (by decide)
  have h01 : (0 : Fin 2) = 1 := (hunique 0 (hdone 0)).trans (hunique 1 (hdone 1)).symm
  exact absurd h01 (by decide)

/-- The equivalence when the second call starts after the first has finished. -/
theorem concurrent_incr_exact_iff_serial :
    CountedExactly [99] 5 (countingAfter siphash [99] (countingStart 2 counterArena)
        [(0, fun _ => 0), (0, fun _ => 0), (1, fun _ => 0), (1, fun _ => 0)]) ↔
      FreshRun siphash [99] (countingStart 2 counterArena)
        [(0, fun _ => 0), (0, fun _ => 0), (1, fun _ => 0), (1, fun _ => 0)] := by
  refine concurrent_incr_exact_iff siphash counterArena (.arenaAfter _ _ _) [99] 5 2
    counterArena_stores (by decide) _ fun c => ?_
  match c with
  | 0 => exact ⟨.ok 6, by decide +kernel⟩
  | 1 => exact ⟨.ok 7, by decide +kernel⟩

end MemLane
