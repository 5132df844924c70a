import MemLane.Resp
import Mathlib.Data.List.Infix

/-!
# Header lines

Every frame begins with a header line.  The parser finds its end at the first CR LF, and
hands its text to the function of the type byte with the offset behind it.

No slice is longer than `isizeMax` bytes, so the offset does not wrap.  The end of the payload
of a bulk string does in one case: where the header fills a slice of that length.
-/

namespace MemLane

/-! ## The end of a line -/

/-- The first CR LF behind a line without one is the one that ends it. -/
theorem findCrlf_append {line : Bytes} (rest : Bytes) (hline : findCrlf line = none) :
    findCrlf (line ++ crlf ++ rest) = some line.length := by
  induction line with
  | nil => rfl
  | cons b line ih =>
      unfold findCrlf at hline
      split at hline
      · cases hline
      · next hne =>
          have hhead : ¬ (b = 13 ∧ (line ++ crlf ++ rest).head? = some 10) := by
            intro h
            apply hne
            cases line with
            | nil => cases h.2
            | cons c line => exact h
          rw [List.cons_append, List.cons_append, findCrlf, if_neg hhead,
            ih (Option.map_eq_none_iff.mp hline)]
          rfl

/-- What stands before the first CR LF has none. -/
theorem findCrlf_some {buf : Bytes} {pos : Nat} (h : findCrlf buf = some pos) :
    ∃ line rest, buf = line ++ crlf ++ rest ∧ line.length = pos ∧ findCrlf line = none := by
  induction buf generalizing pos with
  | nil => cases h
  | cons b buf ih =>
      unfold findCrlf at h
      split at h
      · next hcr =>
          obtain rfl := Option.some.inj h
          cases buf with
          | nil => cases hcr.2
          | cons c rest =>
              obtain rfl := hcr.1
              obtain rfl := Option.some.inj hcr.2
              exact ⟨[], rest, rfl, rfl, rfl⟩
      · next hne =>
          obtain ⟨pos, hpos, rfl⟩ := Option.map_eq_some_iff.mp h
          obtain ⟨line, rest, rfl, rfl, hline⟩ := ih hpos
          refine ⟨b :: line, rest, rfl, rfl, ?_⟩
          have hhead : ¬ (b = 13 ∧ line.head? = some 10) := by
            intro h
            apply hne
            cases line with
            | nil => cases h.2
            | cons c line => exact h
          rw [findCrlf, if_neg hhead, hline]
          rfl

theorem findCrlf_eq_none_iff {line : Bytes} : findCrlf line = none ↔ ¬ crlf <:+: line := by
  constructor
  · intro hline hsub
    obtain ⟨front, back, rfl⟩ := hsub
    induction front with
    | nil => cases hline
    | cons b front ih =>
        rw [List.cons_append, List.cons_append, findCrlf] at hline
        split at hline
        · cases hline
        · exact ih (Option.map_eq_none_iff.mp hline)
  · intro hsub
    cases hfind : findCrlf line with
    | none => rfl
    | some pos =>
        obtain ⟨front, back, rfl, _, _⟩ := findCrlf_some hfind
        exact absurd ⟨front, back, rfl⟩ hsub

theorem findCrlf_eq_none_of_not_mem {line : Bytes} (h : 13 ∉ line) : findCrlf line = none := by
  rw [findCrlf_eq_none_iff]
  intro hsub
  exact h (hsub.subset List.mem_cons_self)

theorem findCrlf_cons {b : UInt8} {line : Bytes} (hb : b ≠ 13) (hline : findCrlf line = none) :
    findCrlf (b :: line) = none := by
  rw [findCrlf, if_neg (fun h => hb h.1), hline]
  rfl

/-- Numerals contain no control bytes. -/
theorem findCrlf_intNumeral (z : Int) : findCrlf (Decimal.intNumeral z) = none := by
  apply findCrlf_eq_none_of_not_mem
  intro hmem
  rcases Decimal.mem_intNumeral hmem with h | h
  · cases h
  · cases h

/-! ## Header lines -/

theorem usizeAdd_eq {a b : Nat} (h : a + b < 2 ^ 64) : usizeAdd a b = a + b := Nat.mod_eq_of_lt h

theorem slice_append (front middle back : Bytes) :
    slice (front ++ middle ++ back) front.length (front.length + middle.length) = .ok middle := by
  have hle : front.length + middle.length ≤ (front ++ middle ++ back).length := by
    rw [List.length_append, List.length_append]
    omega
  rw [slice, if_pos ⟨Nat.le_add_right _ _, hle⟩, ← List.length_append, List.take_left,
    List.drop_left]

theorem sliceFrom_append (front back : Bytes) :
    sliceFrom (front ++ back) front.length = .ok back := by
  have hle : front.length ≤ (front ++ back).length := by
    rw [List.length_append]
    exact Nat.le_add_right _ _
  rw [sliceFrom, if_pos hle, List.drop_left]

theorem length_line (tag : UInt8) (line : Bytes) :
    (tag :: line ++ crlf).length = line.length + 3 := by
  rw [List.length_append, List.length_cons]
  rfl

/-- The slice taken by `parse_line`. -/
theorem slice_line (tag : UInt8) (line rest : Bytes) :
    slice (tag :: line ++ crlf ++ rest) 1 (tag :: line).length = .ok line := by
  have h := slice_append [tag] line (crlf ++ rest)
  rw [List.length_singleton, Nat.add_comm 1] at h
  rw [List.length_cons, ← h, List.append_assoc (tag :: line)]
  rfl

theorem usizeAdd_line {tag : UInt8} {line rest : Bytes}
    (hlen : (tag :: line ++ crlf ++ rest).length ≤ isizeMax) :
    usizeAdd (tag :: line).length 2 = line.length + 3 := by
  rw [List.length_append, List.length_append, List.length_cons] at hlen
  rw [List.length_cons, usizeAdd_eq]
  unfold isizeMax at hlen
  omega

theorem parseLine_append {tag : UInt8} {s : String} {rest : Bytes} (htag : tag ≠ 13)
    (hline : findCrlf (asBytes s) = none)
    (hlen : (tag :: asBytes s ++ crlf ++ rest).length ≤ isizeMax) :
    parseLine (tag :: asBytes s ++ crlf ++ rest) = .ok (s, (asBytes s).length + 3) := by
  have hfind := findCrlf_append rest (findCrlf_cons htag hline)
  simp only [parseLine, hfind, slice_line, fromUtf8_asBytes, usizeAdd_line hlen]

/-- `parse_line` returns an error, or the text of a line that ends at the first CR LF. -/
theorem parseLine_cases {buf : Bytes} {tag : UInt8} (hhead : buf.head? = some tag)
    (htag : tag ≠ 13) :
    parseLine buf = .error (.err .incomplete) ∨
      parseLine buf = .error (.protocol "Non-UTF8 line") ∨
      ∃ s rest, buf = tag :: asBytes s ++ crlf ++ rest ∧ findCrlf (asBytes s) = none := by
  cases hfind : findCrlf buf with
  | none =>
      left
      rw [parseLine, hfind]
  | some pos =>
      right
      obtain ⟨line, rest, rfl, rfl, hline⟩ := findCrlf_some hfind
      cases line with
      | nil => exact absurd (Option.some.inj hhead).symm htag
      | cons b line =>
          obtain rfl := Option.some.inj hhead
          cases hutf : fromUtf8 line with
          | none =>
              left
              simp only [parseLine, hfind, slice_line, hutf]
          | some s =>
              right
              obtain rfl := fromUtf8_eq_some_iff.mp hutf
              refine ⟨s, rest, rfl, ?_⟩
              rw [findCrlf] at hline
              split at hline
              · cases hline
              · exact Option.map_eq_none_iff.mp hline

/-- The line that `parse_line` returns is followed by the first CR LF. -/
theorem parseLine_ok {buf : Bytes} {s : String} {consumed : Nat} {tag : UInt8}
    (hhead : buf.head? = some tag) (htag : tag ≠ 13) (hlen : buf.length ≤ isizeMax)
    (h : parseLine buf = .ok (s, consumed)) :
    ∃ rest, buf = tag :: asBytes s ++ crlf ++ rest ∧ findCrlf (asBytes s) = none ∧
      consumed = (asBytes s).length + 3 := by
  rcases parseLine_cases hhead htag with herror | herror | ⟨t, rest, rfl, hline⟩
  · cases herror.symm.trans h
  · cases herror.symm.trans h
  · cases (parseLine_append htag hline hlen).symm.trans h
    exact ⟨rest, rfl, hline, rfl⟩

/-- A typed parser reads the line that ends at the first CR LF. -/
theorem withLine_append {tag : UInt8} {s : String} {rest : Bytes} (htag : tag ≠ 13)
    (hline : findCrlf (asBytes s) = none)
    (hlen : (tag :: asBytes s ++ crlf ++ rest).length ≤ isizeMax) (f : String → Nat → Parsed) :
    withLine (tag :: asBytes s ++ crlf ++ rest) f = f s ((asBytes s).length + 3) := by
  rw [withLine, parseLine_append htag hline hlen]

/-- What a typed parser has seen, unless it waits for a line or rejects its text. -/
theorem withLine_eq {buf : Bytes} {f : String → Nat → Parsed} {out : Parsed} {tag : UInt8}
    (hhead : buf.head? = some tag) (htag : tag ≠ 13) (hlen : buf.length ≤ isizeMax)
    (h : withLine buf f = out) (hmore : out ≠ .ok none)
    (htext : out ≠ .error (.protocol "Non-UTF8 line")) :
    ∃ s rest, buf = tag :: asBytes s ++ crlf ++ rest ∧ findCrlf (asBytes s) = none ∧
      f s ((asBytes s).length + 3) = out := by
  rcases parseLine_cases hhead htag with herror | herror | ⟨s, rest, rfl, hline⟩
  · rw [withLine, herror] at h
    exact absurd h.symm hmore
  · rw [withLine, herror] at h
    exact absurd h.symm htext
  · rw [withLine_append htag hline hlen] at h
    exact ⟨s, rest, rfl, hline, h⟩

/-- What a typed parser has seen when it returns a value. -/
theorem withLine_some {buf : Bytes} {f : String → Nat → Parsed} {out : RespValue × Nat}
    {tag : UInt8} (hhead : buf.head? = some tag) (htag : tag ≠ 13) (hlen : buf.length ≤ isizeMax)
    (h : withLine buf f = .ok (some out)) :
    ∃ s rest, buf = tag :: asBytes s ++ crlf ++ rest ∧ findCrlf (asBytes s) = none ∧
      f s ((asBytes s).length + 3) = .ok (some out) := by
  apply withLine_eq hhead htag hlen h
  · intro hmore
    cases hmore
  · intro htext
    cases htext

/-- What a typed parser has seen when it panics. -/
theorem withLine_panic {buf : Bytes} {f : String → Nat → Parsed} {tag : UInt8}
    (hhead : buf.head? = some tag) (htag : tag ≠ 13) (hlen : buf.length ≤ isizeMax)
    (h : withLine buf f = .error .panic) :
    ∃ s rest, buf = tag :: asBytes s ++ crlf ++ rest ∧ findCrlf (asBytes s) = none ∧
      f s ((asBytes s).length + 3) = .error .panic := by
  apply withLine_eq hhead htag hlen h
  · intro hmore
    cases hmore
  · intro htext
    cases htext

/-! ## Lengths -/

/-- A length below `2 ^ 63` survives the detour over `i64`. -/
theorem ofInt_length {n : Nat} (h : n < 2 ^ 63) :
    ¬ Int64.ofInt n < 0 ∧ (Int64.ofInt n).toInt.toNat = n := by
  have hz : (Int64.ofInt n).toInt = n := Int64.toInt_ofInt_of_le (by omega) (by omega)
  constructor
  · rw [Int64.lt_iff_toInt_lt, hz, Int64.toInt_zero]
    omega
  · rw [hz, Int.toNat_natCast]

/-- `parse_bulk_string` behind a header line with a length. -/
theorem parseBulkString_line {s : String} {len : Int64} {rest : Bytes}
    (hline : findCrlf (asBytes s) = none) (hparse : parseI64 s = some len) (hneg : ¬ len < 0)
    (hlen : (36 :: asBytes s ++ crlf ++ rest).length ≤ isizeMax) :
    parseBulkString (36 :: asBytes s ++ crlf ++ rest) =
      if 2 ^ 64 ≤ (asBytes s).length + 3 + len.toInt.toNat + 2 then .error .panic
      else if rest.length < len.toInt.toNat + 2 then .ok none
      else .ok (some (.bulkString (rest.take len.toInt.toNat),
        (asBytes s).length + 3 + len.toInt.toNat + 2)) := by
  have hheader := length_line 36 (asBytes s)
  have hsize : (36 :: asBytes s ++ crlf ++ rest).length = (asBytes s).length + 3 + rest.length := by
    rw [List.length_append, hheader]
  have hmax := len.toInt_lt
  have hsmall : len.toInt.toNat < 2 ^ 63 := by omega
  rw [parseBulkString, withLine_append (by decide) hline hlen, hparse]
  simp only [if_neg hneg, hsize]
  rw [hsize] at hlen
  generalize len.toInt.toNat = size at hsmall ⊢
  unfold isizeMax at hlen
  have hadd : usizeAdd ((asBytes s).length + 3) size = (asBytes s).length + 3 + size :=
    usizeAdd_eq (by omega)
  rw [hadd]
  by_cases hwrap : 2 ^ 64 ≤ (asBytes s).length + 3 + size + 2
  · -- the sum for the whole frame is 0, and the slice ends behind the buffer
    have hsum : (asBytes s).length + 3 + size + 2 = 2 ^ 64 := by omega
    have hzero : usizeAdd ((asBytes s).length + 3 + size) 2 = 0 := by
      rw [usizeAdd, hsum, Nat.mod_self]
    rw [if_pos hwrap, hzero, if_neg (Nat.not_lt_zero _), slice, if_neg (by rw [hsize]; omega)]
  · rw [if_neg hwrap, usizeAdd_eq (by omega)]
    by_cases hshort : rest.length < size + 2
    · rw [if_pos hshort, if_pos (by omega)]
    · have hslice := slice_append (36 :: asBytes s ++ crlf) (rest.take size) (rest.drop size)
      rw [List.append_assoc, List.take_append_drop, hheader, List.length_take,
        Nat.min_eq_left (by omega)] at hslice
      rw [if_neg hshort, if_neg (by omega), hslice]

end MemLane
