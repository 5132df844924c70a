import MemLane.AcceptedFrames

/-!
# When the parser panics

The lengths and counts of a header come from the wire and may be any `i64`.  `parse_array`
reserves room for its count before it has seen an item, and `parse_bulk_string` adds its
length to the length of the header.

`Oversized` says of a buffer, without the parser, that one of the two asks for too much.
A buffer that is oversized panics, and no other does: all other slices are in bounds and
all other sums fit in a `usize`.
-/

namespace MemLane

/-- The buffer begins with the header of an array whose items have no room in memory, or with
an array in which this is so of an item behind accepted ones.  The header of a bulk string
asks for too much only if it fills the address space by itself: then the end of the payload
wraps around. -/
inductive Oversized (elemSize : Nat) : Bytes → Prop
  | count {s : String} {count : Int64} {rest : Bytes} (hline : findCrlf (asBytes s) = none)
      (hparse : parseI64 s = some count) (halloc : isizeMax < count.toInt.toNat * elemSize) :
      Oversized elemSize (42 :: asBytes s ++ crlf ++ rest)
  | item {s : String} {count : Int64} {frames : List (Bytes × RespValue)} {rest : Bytes}
      (hline : findCrlf (asBytes s) = none) (hparse : parseI64 s = some count)
      (hframes : ∀ frame ∈ frames, Accepted elemSize frame.1 frame.2)
      (hmore : frames.length < count.toInt.toNat) (hrest : Oversized elemSize rest) :
      Oversized elemSize (42 :: asBytes s ++ crlf ++ (frames.flatMap Prod.fst ++ rest))
  | header {s : String} (hline : findCrlf (asBytes s) = none)
      (hparse : parseI64 s = some Int64.maxValue)
      (hfull : (36 :: asBytes s ++ crlf).length = isizeMax) :
      Oversized elemSize (36 :: asBytes s ++ crlf)

variable {elemSize : Nat} {buf : Bytes}

/-! ## An oversized buffer panics -/

theorem not_neg_of_toNat_pos {n : Int64} (h : 0 < n.toInt.toNat) : ¬ n < 0 := by
  rw [Int64.lt_iff_toInt_lt, Int64.toInt_zero]
  omega

theorem parseArray_of_overflow {parseOne : Bytes → Parsed} {s : String} {count : Int64}
    {rest : Bytes} (hline : findCrlf (asBytes s) = none) (hparse : parseI64 s = some count)
    (halloc : isizeMax < count.toInt.toNat * elemSize)
    (hlen : (42 :: asBytes s ++ crlf ++ rest).length ≤ isizeMax) :
    parseArray elemSize parseOne (42 :: asBytes s ++ crlf ++ rest) = .error .panic := by
  have hneg : ¬ count < 0 := by
    apply not_neg_of_toNat_pos
    exact Nat.pos_of_mul_pos_right (Nat.zero_lt_of_lt halloc)
  rw [parseArray, withLine_append (by decide) hline hlen, hparse]
  simp only [if_neg hneg, if_pos halloc]

/-- The loop of `parse_array` stops at the first item that panics. -/
theorem parseArray_of_item {s : String} {count : Int64} {frames : List (Bytes × RespValue)}
    {rest : Bytes} (hline : findCrlf (asBytes s) = none) (hparse : parseI64 s = some count)
    (hframes : ∀ frame ∈ frames, Accepted elemSize frame.1 frame.2)
    (hmore : frames.length < count.toInt.toNat)
    (hlen : (42 :: asBytes s ++ crlf ++ (frames.flatMap Prod.fst ++ rest)).length ≤ isizeMax)
    (hrest : parse elemSize rest = .error .panic) :
    parseArray elemSize (parse elemSize)
      (42 :: asBytes s ++ crlf ++ (frames.flatMap Prod.fst ++ rest)) = .error .panic := by
  by_cases halloc : isizeMax < count.toInt.toNat * elemSize
  · exact parseArray_of_overflow hline hparse halloc hlen
  have hneg : ¬ count < 0 := not_neg_of_toNat_pos (Nat.zero_lt_of_lt hmore)
  obtain ⟨left, hleft⟩ := Nat.exists_eq_add_of_lt hmore
  rw [parseArray, withLine_append (by decide) hline hlen, hparse]
  simp only [if_neg hneg, if_neg halloc]
  rw [← List.append_assoc] at hlen ⊢
  have hskip := parseItems_skip (fun frame hmem => (hframes frame hmem).readsAs)
    (42 :: asBytes s ++ crlf) rest (left + 1) [] hlen
  rw [length_line] at hskip
  rw [hleft, Nat.add_assoc, hskip, parseItems, sliceFrom_append]
  simp only [hrest]

theorem parseBulkString_of_full {s : String} (hline : findCrlf (asBytes s) = none)
    (hparse : parseI64 s = some Int64.maxValue)
    (hfull : (36 :: asBytes s ++ crlf).length = isizeMax) :
    parseBulkString (36 :: asBytes s ++ crlf) = .error .panic := by
  have hlen : (36 :: asBytes s ++ crlf ++ []).length ≤ isizeMax := by
    rw [List.append_nil, hfull]
  have hread := parseBulkString_line hline hparse (by decide) hlen
  have hwrap : 2 ^ 64 ≤ (asBytes s).length + 3 + Int64.maxValue.toInt.toNat + 2 := by
    rw [← length_line 36, hfull]
    decide
  rwa [if_pos hwrap, List.append_nil] at hread

theorem Oversized.parse_panic (h : Oversized elemSize buf) (hlen : buf.length ≤ isizeMax) :
    parse elemSize buf = .error .panic := by
  induction h with
  | count hline hparse halloc =>
      rw [parse_eq elemSize hlen]
      exact parseArray_of_overflow hline hparse halloc hlen
  | item hline hparse hframes hmore _ ih =>
      rw [parse_eq elemSize hlen]
      refine parseArray_of_item hline hparse hframes hmore hlen (ih ?_)
      simp only [List.length_append] at hlen
      omega
  | header hline hparse hfull =>
      rw [parse_eq elemSize hlen]
      exact parseBulkString_of_full hline hparse hfull

/-! ## No other buffer does -/

/-- The sum for the end of the payload and CR LF wraps only where the header is the whole
buffer. -/
theorem full_of_wrap {s : String} {len : Int64} {rest : Bytes}
    (hlen : (36 :: asBytes s ++ crlf ++ rest).length ≤ isizeMax)
    (hwrap : 2 ^ 64 ≤ (asBytes s).length + 3 + len.toInt.toNat + 2) :
    rest = [] ∧ (36 :: asBytes s ++ crlf).length = isizeMax ∧ len = Int64.maxValue := by
  have hmax := len.toInt_lt
  rw [List.length_append, length_line] at hlen
  rw [length_line]
  unfold isizeMax at hlen ⊢
  have hlast : len.toInt = Int64.maxValue.toInt := by
    rw [Int64.toInt_maxValue]
    omega
  exact ⟨List.length_eq_zero_iff.mp (by omega), by omega, Int64.toInt_inj.mp hlast⟩

theorem oversized_of_parseBulkString (hhead : buf.head? = some 36) (hlen : buf.length ≤ isizeMax)
    (h : parseBulkString buf = .error .panic) : Oversized elemSize buf := by
  obtain ⟨s, rest, rfl, hline, hread⟩ := withLine_panic hhead (by decide) hlen h
  split at hread
  · cases hread
  · next len hparse =>
      split at hread
      · cases hread
      · next hneg =>
          rw [parseBulkString_line hline hparse hneg hlen] at h
          split at h
          · next hwrap =>
              obtain ⟨rfl, hfull, rfl⟩ := full_of_wrap hlen hwrap
              rw [List.append_nil]
              exact .header hline hparse hfull
          · split at h
            · cases h
            · cases h

/-- The loop of `parse_array` panics in an item, behind items that are accepted. -/
theorem parseItems_panic (hlen : buf.length ≤ isizeMax) {count offset : Nat}
    {done : List RespValue} (hoffset : offset ≤ buf.length)
    (h : parseItems (parse elemSize) buf count offset done = .error .panic) :
    ∃ (frames : List (Bytes × RespValue)) (rest : Bytes), frames.length < count ∧
      (∀ frame ∈ frames, Accepted elemSize frame.1 frame.2) ∧
      buf.drop offset = frames.flatMap Prod.fst ++ rest ∧ parse elemSize rest = .error .panic := by
  induction count generalizing offset done with
  | zero => cases h
  | succ count ih =>
      rw [parseItems, sliceFrom, if_pos hoffset] at h
      simp only at h
      split at h
      · next e hpanic =>
          obtain rfl := Except.error.inj h
          refine ⟨[], buf.drop offset, Nat.succ_pos _, ?_, rfl, hpanic⟩
          intro frame hframe
          exact absurd hframe List.not_mem_nil
      · cases h
      · next val consumed hval =>
          have hdrop : (buf.drop offset).length = buf.length - offset := List.length_drop
          have hfront := parse_accepted elemSize (by omega) val consumed hval
          obtain ⟨hadd, hle, used, hsplit, rfl, haccepted⟩ := hfront.next hlen hoffset
          rw [hadd] at h
          obtain ⟨frames, rest, hmore, hframes, hrest, hpanic⟩ := ih hle h
          refine ⟨(used, val) :: frames, rest, Nat.succ_lt_succ hmore, ?_, ?_, hpanic⟩
          · exact List.forall_mem_cons.mpr ⟨haccepted, hframes⟩
          · rw [hsplit, hrest, List.flatMap_cons, List.append_assoc]

theorem oversized_of_parseArray (hhead : buf.head? = some 42) (hlen : buf.length ≤ isizeMax)
    (hone : ∀ rest : Bytes, rest.length < buf.length →
      parse elemSize rest = .error .panic → Oversized elemSize rest)
    (h : parseArray elemSize (parse elemSize) buf = .error .panic) : Oversized elemSize buf := by
  obtain ⟨s, rest, heq, hline, hread⟩ := withLine_panic hhead (by decide) hlen h
  have hheader := length_line 42 (asBytes s)
  have hsize : buf.length = (asBytes s).length + 3 + rest.length := by
    rw [heq, List.length_append, hheader]
  split at hread
  · cases hread
  · next count hparse =>
      split at hread
      · cases hread
      · next hneg =>
          simp only at hread
          split at hread
          · next halloc =>
              rw [heq]
              exact .count hline hparse halloc
          · obtain ⟨frames, back, hmore, hframes, hdrop, hpanic⟩ :=
              parseItems_panic hlen (by omega) hread
            have hrest : rest = frames.flatMap Prod.fst ++ back := by
              rw [← hdrop, heq, ← hheader, List.drop_left]
            have hshorter : back.length < buf.length := by
              rw [hsize, hrest, List.length_append]
              omega
            rw [heq, hrest]
            exact .item hline hparse hframes hmore (hone back hshorter hpanic)

theorem oversized_of_parse_panic (hlen : buf.length ≤ isizeMax)
    (h : parse elemSize buf = .error .panic) : Oversized elemSize buf := by
  induction hsize : buf.length using Nat.strongRecOn generalizing buf with
  | ind size ih =>
      subst hsize
      have hone : ∀ rest : Bytes, rest.length < buf.length →
          parse elemSize rest = .error .panic → Oversized elemSize rest :=
        fun rest hrest hpanic => ih rest.length hrest (by omega) hpanic rfl
      rw [parse_eq elemSize hlen] at h
      unfold parseBody at h
      split at h
      · cases h
      · next hhead =>
          obtain ⟨_, _, _, _, hread⟩ := withLine_panic hhead (by decide) hlen h
          cases hread
      · next hhead =>
          obtain ⟨_, _, _, _, hread⟩ := withLine_panic hhead (by decide) hlen h
          cases hread
      · next hhead =>
          obtain ⟨_, _, _, _, hread⟩ := withLine_panic hhead (by decide) hlen h
          split at hread
          · cases hread
          · cases hread
      · next hhead => exact oversized_of_parseBulkString hhead hlen h
      · next hhead => exact oversized_of_parseArray hhead hlen hone h
      · cases h

/-- Every call of the parser is on the buffer from some position on.  Its sums fit in a
`usize`: the end of a payload and CR LF, and the position behind a value. -/
def SumsFit (elemSize : Nat) (buf : Bytes) : Prop :=
  ∀ offset, offset ≤ buf.length →
    (∀ line headerLen len, (buf.drop offset).head? = some 36 →
      parseLine (buf.drop offset) = .ok (line, headerLen) → parseI64 line = some len →
        headerLen + len.toInt.toNat + 2 < 2 ^ 64) ∧
    (∀ v consumed, parse elemSize (buf.drop offset) = .ok (some (v, consumed)) →
      offset + consumed < 2 ^ 64)

theorem sumsFit_of_not_oversized (hlen : buf.length ≤ isizeMax) (h : ¬ Oversized elemSize buf) :
    SumsFit elemSize buf := by
  intro offset hoffset
  have hdrop : (buf.drop offset).length = buf.length - offset := List.length_drop
  constructor
  · intro line headerLen len hhead hline hparse
    obtain ⟨rest, heq, hcrlf, rfl⟩ := parseLine_ok hhead (by decide) (by omega) hline
    have hsuffix : (36 :: asBytes line ++ crlf ++ rest).length ≤ isizeMax := by
      rw [← heq]
      omega
    by_contra hwrap
    obtain ⟨rfl, hfull, rfl⟩ := full_of_wrap hsuffix (Nat.not_lt.mp hwrap)
    rw [List.append_nil] at heq
    have hzero : offset = 0 := by
      rw [← heq, hdrop] at hfull
      unfold isizeMax at hfull hlen
      omega
    rw [hzero, List.drop_zero] at heq
    rw [heq] at h
    exact h (.header hcrlf hparse hfull)
  · intro v consumed hval
    have hfront := parse_accepted elemSize (by omega) v consumed hval
    have hle := (hfront.next hlen hoffset).2.1
    unfold isizeMax at hlen
    omega

/-- The parser returns, and none of its sums overflows, exactly for the buffers that are not
oversized. -/
theorem parse_never_panics_iff (elemSize : Nat) {buf : Bytes} (hlen : buf.length ≤ isizeMax) :
    (parse elemSize buf ≠ .error .panic ∧ SumsFit elemSize buf) ↔ ¬ Oversized elemSize buf := by
  constructor
  · intro hreturns hover
    exact hreturns.1 (hover.parse_panic hlen)
  · intro hover
    refine ⟨?_, sumsFit_of_not_oversized hlen hover⟩
    intro hpanic
    exact hover (oversized_of_parse_panic hlen hpanic)

/-- An array of one item that has not arrived. -/
theorem parse_never_panics_iff_header :
    parse 24 [42, 49, 13, 10] ≠ .error .panic ∧ SumsFit 24 [42, 49, 13, 10] := by
  have hlen : ([42, 49, 13, 10] : Bytes).length ≤ isizeMax := by decide
  have hwaits : parse 24 [42, 49, 13, 10] = .ok none := rfl
  refine (parse_never_panics_iff 24 hlen).mpr fun hover => ?_
  rw [hover.parse_panic hlen] at hwaits
  cases hwaits

/-- The header `*9223372036854775807` panics before an item has arrived. -/
theorem parse_panics_on_count :
    ¬ ∀ (elemSize : Nat) (buf : Bytes), 24 ≤ elemSize → buf.length ≤ isizeMax →
      parse elemSize buf ≠ .error .panic ∧ SumsFit elemSize buf := by
  intro h
  exact (h 24 [42, 57, 50, 50, 51, 51, 55, 50, 48, 51, 54, 56, 53, 52, 55, 55, 53, 56, 48, 55, 13,
    10] (Nat.le_refl _) (by decide)).1 rfl

end MemLane
