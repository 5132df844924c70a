import MemLane.AcceptedFrames
import Mathlib.Algebra.Order.BigOperators.Group.List

/-!
# Encoding and parsing RESP values

Every encoding is a header line, CR LF and a payload.  The parser finds the end
of the header at the first CR LF, so a value is read back exactly when its texts
contain none; bulk payloads are skipped by their length and may contain anything.

Both directions go over the strings that the parser accepts: an encoding is one of them,
and none of them is shorter than the encoding of its value.
-/

namespace MemLane

variable {elemSize : Nat}

/-! ## Values -/

/-- The values directly inside a value. -/
def RespValue.items : RespValue → List RespValue
  | .array items => items
  | _ => []

/-- Induction over a value from the values directly inside it. -/
@[elab_as_elim] theorem RespValue.induction {motive : RespValue → Prop}
    (step : ∀ v, (∀ w ∈ v.items, motive w) → motive v) (v : RespValue) : motive v := by
  apply RespValue.rec (motive_1 := motive) (motive_2 := fun items => ∀ w ∈ items, motive w)
  · intro text
    exact step _ fun w hw => absurd hw List.not_mem_nil
  · intro text
    exact step _ fun w hw => absurd hw List.not_mem_nil
  · intro n
    exact step _ fun w hw => absurd hw List.not_mem_nil
  · intro data
    exact step _ fun w hw => absurd hw List.not_mem_nil
  · exact step _ fun w hw => absurd hw List.not_mem_nil
  · intro items ih
    exact step (.array items) ih
  · intro w hw
    exact absurd hw List.not_mem_nil
  · intro item items hitem hitems w hw
    rcases List.mem_cons.mp hw with rfl | hmem
    · exact hitem
    · exact hitems w hmem

/-- A property of a value and of every value nested in it. -/
inductive RespValue.Every (P : RespValue → Prop) : RespValue → Prop
  | mk {v : RespValue} (here : P v) (inside : ∀ w ∈ v.items, RespValue.Every P w) :
      RespValue.Every P v

/-- A `SimpleString` or `Error` text has no CR LF. -/
def RespValue.LineText : RespValue → Prop
  | .simpleString text => ¬ crlf <:+: asBytes text
  | .error text => ¬ crlf <:+: asBytes text
  | _ => True

/-- No text in the value contains CR LF. -/
def RespValue.CrlfFree (v : RespValue) : Prop := v.Every RespValue.LineText

/-- The `Vec`s of the value respect the bound of the allocator. -/
def RespValue.Allocated (elemSize : Nat) (v : RespValue) : Prop :=
  v.Every fun w => w.items.length * elemSize ≤ isizeMax

/-! ## Encodings -/

theorem encodeItems_eq_of {items : List RespValue}
    (h : ∀ w ∈ items, ∀ buf, encode w buf = buf ++ encodeToVec w) :
    ∀ buf, encodeItems items buf = buf ++ items.flatMap encodeToVec := by
  induction items with
  | nil =>
      intro buf
      rw [encodeItems, List.flatMap_nil, List.append_nil]
  | cons item items ih =>
      intro buf
      rw [encodeItems, h item List.mem_cons_self, ih fun w hw => h w (List.mem_cons_of_mem _ hw),
        List.flatMap_cons, List.append_assoc]

/-- `encode` appends. -/
theorem encode_eq (v : RespValue) : ∀ buf, encode v buf = buf ++ encodeToVec v := by
  induction v using RespValue.induction with
  | step v ih =>
      intro buf
      cases v with
      | array items =>
          have hitems : ∀ buf, encodeItems items buf = buf ++ items.flatMap encodeToVec :=
            encodeItems_eq_of ih
          unfold encodeToVec
          rw [encode, encode, hitems, hitems]
          simp only [List.append_assoc, List.nil_append]
      | _ =>
          unfold encodeToVec
          simp only [encode, List.append_assoc, List.nil_append]

theorem encodeItems_eq (items : List RespValue) :
    ∀ buf, encodeItems items buf = buf ++ items.flatMap encodeToVec :=
  encodeItems_eq_of fun w _ => encode_eq w

theorem encodeToVec_integer (n : Int64) :
    encodeToVec (.integer n) = 58 :: Decimal.intNumeral n.toInt ++ crlf := rfl

theorem encodeToVec_bulkString (data : Bytes) :
    encodeToVec (.bulkString data) =
      36 :: Decimal.intNumeral data.length ++ crlf ++ (data ++ crlf) := by
  rw [Decimal.intNumeral_natCast, ← List.append_assoc]
  rfl

theorem length_encodeToVec_bulkString (data : Bytes) :
    (encodeToVec (.bulkString data)).length =
      (Decimal.intNumeral data.length).length + 3 + data.length + 2 := by
  rw [encodeToVec_bulkString, List.length_append, length_line, List.length_append]
  rfl

theorem encodeToVec_nil : encodeToVec .nil = 36 :: Decimal.intNumeral (-1) ++ crlf := by
  decide

theorem encodeToVec_array (items : List RespValue) :
    encodeToVec (.array items) =
      42 :: Decimal.intNumeral items.length ++ crlf ++ items.flatMap encodeToVec := by
  rw [Decimal.intNumeral_natCast]
  unfold encodeToVec
  rw [encode, encodeItems_eq]
  rfl

theorem encodeToVec_ne_nil (v : RespValue) : encodeToVec v ≠ [] := by
  cases v with
  | array items =>
      rw [encodeToVec_array]
      exact List.cons_ne_nil _ _
  | _ => exact List.cons_ne_nil _ _

/-- Every encoding has at least one byte. -/
theorem length_le_flatMap_encodeToVec (items : List RespValue) :
    items.length ≤ (items.flatMap encodeToVec).length := by
  induction items with
  | nil => exact Nat.le_refl _
  | cons item items ih =>
      have hpos := List.length_pos_iff.mpr (encodeToVec_ne_nil item)
      rw [List.flatMap_cons, List.length_append, List.length_cons]
      omega

/-! ## Numerals -/

/-- The reading is in range, and no shorter than the numeral of its value. -/
theorem parseI64_some {s : String} {n : Int64} (h : parseI64 s = some n) :
    (Decimal.intNumeral n.toInt).length ≤ (asBytes s).length := by
  unfold parseI64 at h
  split at h
  · next z hread =>
      split at h
      · next hrange =>
          obtain rfl := Option.some.inj h
          rw [Int64.toInt_ofInt_of_le hrange.1 hrange.2]
          exact Decimal.length_intNumeral_le_of_readInt hread
      · cases h
  · cases h

/-- The line of a numeral in range. -/
theorem exists_intNumeral {z : Int} (hlo : -2 ^ 63 ≤ z) (hhi : z < 2 ^ 63) :
    ∃ s : String, asBytes s = Decimal.intNumeral z ∧ findCrlf (asBytes s) = none ∧
      parseI64 s = some (Int64.ofInt z) := by
  have hascii : ∀ b ∈ Decimal.intNumeral z, b < 128 := by
    intro b hb
    rcases Decimal.mem_intNumeral hb with rfl | hdigit
    · decide
    · exact Decimal.lt_of_isDigit hdigit
  obtain ⟨s, _, hs⟩ := exists_fromUtf8_of_ascii hascii
  refine ⟨s, hs, ?_, ?_⟩
  · rw [hs]
    exact findCrlf_intNumeral z
  · unfold parseI64
    rw [hs, Decimal.readInt_intNumeral]
    exact if_pos ⟨hlo, hhi⟩

/-! ## Reading an encoding back -/

/-- An item takes at least four bytes less than the array around it. -/
theorem length_encodeToVec_lt {v w : RespValue} (h : w ∈ v.items) :
    (encodeToVec w).length < (encodeToVec v).length := by
  cases v with
  | array items =>
      have hle : (encodeToVec w).length ≤ (items.flatMap encodeToVec).length := by
        rw [List.flatMap_def]
        exact (List.sublist_flatten_of_mem (List.mem_map_of_mem h)).length_le
      rw [encodeToVec_array, List.length_append, length_line]
      omega
  | _ => exact absurd h List.not_mem_nil

theorem accepted_bulkString {data : Bytes}
    (hlen : (encodeToVec (.bulkString data)).length ≤ isizeMax) :
    Accepted elemSize (encodeToVec (.bulkString data)) (.bulkString data) := by
  have hlt : data.length < 2 ^ 63 := by
    rw [length_encodeToVec_bulkString] at hlen
    unfold isizeMax at hlen
    omega
  obtain ⟨hneg, hcast⟩ := ofInt_length hlt
  obtain ⟨s, hs, hline, hparse⟩ := exists_intNumeral (by omega : -2 ^ 63 ≤ (data.length : Int))
    (by omega)
  rw [encodeToVec_bulkString, ← hs]
  exact .bulkString hline hparse hneg hcast.symm rfl

theorem accepted_array {items : List RespValue}
    (hitems : ∀ w ∈ items, Accepted elemSize (encodeToVec w) w)
    (halloc : items.length * elemSize ≤ isizeMax)
    (hlen : (encodeToVec (.array items)).length ≤ isizeMax) :
    Accepted elemSize (encodeToVec (.array items)) (.array items) := by
  have hcount := length_le_flatMap_encodeToVec items
  have hlt : items.length < 2 ^ 63 := by
    rw [encodeToVec_array, List.length_append] at hlen
    unfold isizeMax at hlen
    omega
  obtain ⟨hneg, hcast⟩ := ofInt_length hlt
  obtain ⟨s, hs, hline, hparse⟩ := exists_intNumeral (by omega : -2 ^ 63 ≤ (items.length : Int))
    (by omega)
  have hfst : (items.map fun w => (encodeToVec w, w)).flatMap Prod.fst =
      items.flatMap encodeToVec := List.flatMap_map _ _ _
  have hsnd : (items.map fun w => (encodeToVec w, w)).map Prod.snd = items := by
    rw [List.map_map]
    exact List.map_id items
  have harray : Accepted elemSize
      (42 :: asBytes s ++ crlf ++ (items.map fun w => (encodeToVec w, w)).flatMap Prod.fst)
      (.array ((items.map fun w => (encodeToVec w, w)).map Prod.snd)) := by
    apply Accepted.array hline hparse hneg
    · rw [List.length_map, hcast]
    · rw [List.length_map]
      exact halloc
    · intro frame hframe
      obtain ⟨w, hw, rfl⟩ := List.mem_map.mp hframe
      exact hitems w hw
  rwa [hfst, hsnd, hs, ← encodeToVec_array] at harray

/-- An encoding is accepted as its value. -/
theorem accepted_encodeToVec {v : RespValue} (hfree : v.CrlfFree) (halloc : v.Allocated elemSize)
    (hlen : (encodeToVec v).length ≤ isizeMax) : Accepted elemSize (encodeToVec v) v := by
  induction v using RespValue.induction with
  | step v ih =>
      obtain ⟨htext, htexts⟩ := hfree
      obtain ⟨hfits, hinside⟩ := halloc
      cases v with
      | simpleString text => exact .simpleString (findCrlf_eq_none_iff.mpr htext)
      | error text => exact .error (findCrlf_eq_none_iff.mpr htext)
      | integer n =>
          obtain ⟨s, hs, hline, hparse⟩ := exists_intNumeral n.le_toInt n.toInt_lt
          rw [Int64.ofInt_toInt] at hparse
          rw [encodeToVec_integer, ← hs]
          exact .integer hline hparse
      | bulkString data => exact accepted_bulkString hlen
      | nil =>
          obtain ⟨s, hs, hline, hparse⟩ := exists_intNumeral (by decide : -2 ^ 63 ≤ (-1 : Int))
            (by decide)
          rw [encodeToVec_nil, ← hs]
          exact .nilBulkString hline hparse (by decide)
      | array items =>
          refine accepted_array (fun w hw => ?_) hfits hlen
          have hlt : (encodeToVec w).length < (encodeToVec (.array items)).length :=
            length_encodeToVec_lt hw
          exact ih w hw (htexts w hw) (hinside w hw) (by omega)

/-- The parser reads the encoding of `v`, whatever follows it. -/
def ReadsBack (parseOne : Bytes → Parsed) (v : RespValue) : Prop :=
  ∀ rest : Bytes, (encodeToVec v ++ rest).length ≤ isizeMax →
    parseOne (encodeToVec v ++ rest) = .ok (some (v, (encodeToVec v).length))

/-- `parse` reads an encoding back, whatever follows it. -/
theorem parse_encode {v : RespValue} (hfree : v.CrlfFree) (halloc : v.Allocated elemSize) :
    ReadsBack (parse elemSize) v := by
  intro rest hlen
  have hle := hlen
  rw [List.length_append] at hle
  exact (accepted_encodeToVec hfree halloc (by omega)).readsAs rest hlen

theorem parse_nil (elemSize : Nat) : parse elemSize [] = .ok none := rfl

/-- The loop of `parse_all`, with `front` behind it and `done` read. -/
theorem parseAllLoop_encode {vs : List RespValue}
    (hread : ∀ v ∈ vs, ReadsBack (parse elemSize) v) (front : Bytes) (done : List RespValue)
    {left : Nat} (hleft : vs.length < left)
    (hlen : (front ++ vs.flatMap encodeToVec).length ≤ isizeMax) :
    parseAllLoop elemSize (front ++ vs.flatMap encodeToVec) left front.length done =
      .ok (done ++ vs, front.length + (vs.flatMap encodeToVec).length) := by
  induction vs generalizing front done left with
  | nil =>
      cases left with
      | zero => cases hleft
      | succ left =>
          rw [List.flatMap_nil, parseAllLoop, sliceFrom_append]
          simp only [parse_nil]
          rw [List.append_nil]
          rfl
  | cons v vs ih =>
      cases left with
      | zero => cases hleft
      | succ left =>
          rw [List.flatMap_cons, ← List.append_assoc] at hlen
          have hitem : parse elemSize (encodeToVec v ++ vs.flatMap encodeToVec) =
              .ok (some (v, (encodeToVec v).length)) := by
            apply hread v List.mem_cons_self
            simp only [List.length_append] at hlen ⊢
            omega
          have hadd : usizeAdd front.length (encodeToVec v).length =
              (front ++ encodeToVec v).length := by
            rw [List.length_append, usizeAdd_eq]
            simp only [List.length_append] at hlen
            unfold isizeMax at hlen
            omega
          have hrest := ih (fun w hw => hread w (List.mem_cons_of_mem _ hw))
            (front ++ encodeToVec v) (done ++ [v]) (Nat.lt_of_succ_lt_succ hleft) hlen
          rw [List.flatMap_cons, parseAllLoop, sliceFrom_append]
          simp only [hitem, hadd]
          rw [← List.append_assoc, hrest, List.append_assoc, List.singleton_append,
            List.length_append, List.length_append, Nat.add_assoc]

/-- `parse_all` of concatenated encodings returns the values in order. -/
theorem parseAll_encode {vs : List RespValue} (hfree : ∀ v ∈ vs, v.CrlfFree)
    (halloc : ∀ v ∈ vs, v.Allocated elemSize)
    (hlen : (vs.flatMap encodeToVec).length ≤ isizeMax) :
    parseAll elemSize (vs.flatMap encodeToVec) = .ok (vs, (vs.flatMap encodeToVec).length) := by
  have hbound := length_le_flatMap_encodeToVec vs
  have hloop := parseAllLoop_encode (fun v hv => parse_encode (hfree v hv) (halloc v hv)) []
    [] (Nat.lt_succ_of_le hbound) hlen
  rw [List.nil_append, List.nil_append, List.length_nil, Nat.zero_add] at hloop
  exact hloop

/-! ## What the parser returns -/

/-- A value with nothing inside. -/
theorem RespValue.Every.leaf {P : RespValue → Prop} {v : RespValue} (h : P v)
    (hitems : v.items = []) : v.Every P := by
  apply RespValue.Every.mk h
  intro w hw
  rw [hitems] at hw
  exact absurd hw List.not_mem_nil

theorem RespValue.allocated_leaf {v : RespValue} (hitems : v.items = []) :
    v.Allocated elemSize := by
  refine RespValue.Every.leaf ?_ hitems
  rw [hitems, List.length_nil, Nat.zero_mul]
  exact Nat.zero_le _

/-- What holds of a value read from `size` bytes, of which `consumed` were used. -/
structure ReadFrom (elemSize size : Nat) (v : RespValue) (consumed : Nat) : Prop where
  crlfFree : v.CrlfFree
  allocated : v.Allocated elemSize
  encoding_le : (encodeToVec v).length ≤ consumed
  consumed_le : consumed ≤ size
  consumed_pos : 0 < consumed

/-- A parser that reads nothing but such values. -/
def ReadsSound (elemSize : Nat) (parseOne : Bytes → Parsed) : Prop :=
  ∀ (buf : Bytes) (v : RespValue) (consumed : Nat), buf.length ≤ isizeMax →
    parseOne buf = .ok (some (v, consumed)) → ReadFrom elemSize buf.length v consumed

theorem Accepted.crlfFree {used : Bytes} {v : RespValue} (h : Accepted elemSize used v) :
    v.CrlfFree := by
  induction h with
  | simpleString hline => exact .leaf (findCrlf_eq_none_iff.mp hline) rfl
  | error hline => exact .leaf (findCrlf_eq_none_iff.mp hline) rfl
  | array _ _ _ _ _ _ ih =>
      refine ⟨trivial, fun w hw => ?_⟩
      obtain ⟨frame, hframe, rfl⟩ := List.mem_map.mp hw
      exact ih frame hframe
  | _ => exact .leaf trivial rfl

theorem Accepted.allocated {used : Bytes} {v : RespValue} (h : Accepted elemSize used v) :
    v.Allocated elemSize := by
  induction h with
  | @array s count frames hline hparse hneg hcount halloc hframes ih =>
      refine ⟨?_, fun w hw => ?_⟩
      · rw [RespValue.items, List.length_map]
        exact halloc
      · obtain ⟨frame, hframe, rfl⟩ := List.mem_map.mp hw
        exact ih frame hframe
  | _ => exact RespValue.allocated_leaf rfl

/-- A negative length is written in two bytes at least. -/
theorem two_le_of_neg {s : String} {len : Int64} (hparse : parseI64 s = some len)
    (hneg : len < 0) : 2 ≤ (asBytes s).length := by
  rw [Int64.lt_iff_toInt_lt, Int64.toInt_zero] at hneg
  exact (Decimal.two_le_length_intNumeral hneg).trans (parseI64_some hparse)

/-- A length that is not negative is written in no less than its numeral. -/
theorem length_intNumeral_le {s : String} {len : Int64} {n : Nat} (hparse : parseI64 s = some len)
    (hneg : ¬ len < 0) (hn : n = len.toInt.toNat) :
    (Decimal.intNumeral n).length ≤ (asBytes s).length := by
  rw [Int64.lt_iff_toInt_lt, Int64.toInt_zero] at hneg
  have hlen : (n : Int) = len.toInt := by omega
  rw [hlen]
  exact parseI64_some hparse

/-- No accepted string is shorter than the encoding of its value. -/
theorem Accepted.encoding_le {used : Bytes} {v : RespValue} (h : Accepted elemSize used v) :
    (encodeToVec v).length ≤ used.length := by
  induction h with
  | simpleString => exact Nat.le_refl _
  | error => exact Nat.le_refl _
  | integer hline hparse =>
      rw [encodeToVec_integer, length_line, length_line]
      exact Nat.add_le_add_right (parseI64_some hparse) 3
  | nilBulkString hline hparse hneg =>
      rw [length_line]
      exact Nat.add_le_add_right (two_le_of_neg hparse hneg) 3
  | nilArray hline hparse hneg =>
      rw [length_line]
      exact Nat.add_le_add_right (two_le_of_neg hparse hneg) 3
  | bulkString hline hparse hneg hdata htrailer =>
      have hnumeral := length_intNumeral_le hparse hneg hdata
      rw [length_encodeToVec_bulkString, List.length_append, length_line, List.length_append,
        htrailer]
      omega
  | @array s count frames hline hparse hneg hcount halloc hframes ih =>
      have hnumeral := length_intNumeral_le hparse hneg hcount
      have hitems : ((frames.map Prod.snd).flatMap encodeToVec).length ≤
          (frames.flatMap Prod.fst).length := by
        rw [List.flatMap_map, List.length_flatMap, List.length_flatMap]
        exact List.sum_le_sum ih
      rw [encodeToVec_array, List.length_append, length_line, List.length_map, List.length_append,
        length_line]
      omega

/-- A value that `parse` returns is free of CR LF, and encodes no longer than what it
was read from. -/
theorem parse_sound (elemSize : Nat) : ReadsSound elemSize (parse elemSize) := by
  intro buf v consumed hlen h
  obtain ⟨used, rest, rfl, rfl, haccepted⟩ := parse_accepted elemSize hlen v consumed h
  refine ⟨haccepted.crlfFree, haccepted.allocated, haccepted.encoding_le, ?_, ?_⟩
  · rw [List.length_append]
    exact Nat.le_add_right _ _
  · exact Nat.lt_of_lt_of_le (by decide) haccepted.three_le_length

/-- Values whose texts are free of CR LF are read back from their encoding, alone or
in sequence, and `parse` returns no other values. -/
theorem resp_round_trip (elemSize : Nat) :
    (∀ (v : RespValue) (rest : Bytes), v.CrlfFree → v.Allocated elemSize →
      (encodeToVec v ++ rest).length ≤ isizeMax →
        parse elemSize (encodeToVec v ++ rest) = .ok (some (v, (encodeToVec v).length))) ∧
    (∀ vs : List RespValue, (∀ v ∈ vs, v.CrlfFree) → (∀ v ∈ vs, v.Allocated elemSize) →
      (vs.flatMap encodeToVec).length ≤ isizeMax →
        parseAll elemSize (vs.flatMap encodeToVec) =
          .ok (vs, (vs.flatMap encodeToVec).length)) ∧
    (∀ (buf : Bytes) (v : RespValue) (consumed : Nat), buf.length ≤ isizeMax →
      parse elemSize buf = .ok (some (v, consumed)) →
        v.CrlfFree ∧ v.Allocated elemSize ∧
          parse elemSize (encodeToVec v) = .ok (some (v, (encodeToVec v).length))) := by
  refine ⟨?_, ?_, ?_⟩
  · intro v rest hfree halloc hlen
    exact parse_encode hfree halloc rest hlen
  · intro vs hfree halloc hlen
    exact parseAll_encode hfree halloc hlen
  · intro buf v consumed hlen hparse
    have hread := parse_sound elemSize buf v consumed hlen hparse
    refine ⟨hread.crlfFree, hread.allocated, ?_⟩
    have hback := parse_encode hread.crlfFree hread.allocated []
    rw [List.append_nil] at hback
    exact hback (hread.encoding_le.trans (hread.consumed_le.trans hlen))

/-- Empty and nil, a payload with CR LF, the least integer and a text that ends in a lone
CR, with another frame behind them; two frames in sequence; a length with a plus sign. -/
theorem resp_round_trip_mixed :
    parse 32 (encodeToVec (.array [.bulkString [], .nil, .bulkString [13, 10, 42],
        .integer Int64.minValue, .simpleString "a\r"]) ++ [43, 13, 10]) =
      .ok (some (.array [.bulkString [], .nil, .bulkString [13, 10, 42],
        .integer Int64.minValue, .simpleString "a\r"], 52)) ∧
    parseAll 32 ([RespValue.nil, .integer 7].flatMap encodeToVec) =
      .ok ([.nil, .integer 7], 9) ∧
    parse 32 (encodeToVec (.bulkString [65])) = .ok (some (.bulkString [65], 7)) := by
  refine ⟨?_, ?_, ?_⟩
  · have hfree : RespValue.CrlfFree (.array [.bulkString [], .nil, .bulkString [13, 10, 42],
        .integer Int64.minValue, .simpleString "a\r"]) := by
      refine ⟨trivial, ?_⟩
      intro w hw
      simp only [RespValue.items, List.mem_cons, List.not_mem_nil, or_false] at hw
      rcases hw with rfl | rfl | rfl | rfl | rfl
      · exact .leaf trivial rfl
      · exact .leaf trivial rfl
      · exact .leaf trivial rfl
      · exact .leaf trivial rfl
      · refine .leaf (?_ : ¬ crlf <:+: asBytes "a\r") rfl
        decide
    have halloc : RespValue.Allocated 32 (.array [.bulkString [], .nil, .bulkString [13, 10, 42],
        .integer Int64.minValue, .simpleString "a\r"]) := by
      refine ⟨by decide, ?_⟩
      intro w hw
      simp only [RespValue.items, List.mem_cons, List.not_mem_nil, or_false] at hw
      rcases hw with rfl | rfl | rfl | rfl | rfl <;> exact RespValue.allocated_leaf rfl
    exact (resp_round_trip 32).1 _ [43, 13, 10] hfree halloc (by decide +kernel)
  · apply (resp_round_trip 32).2.1 [RespValue.nil, .integer 7]
    · intro v hv
      simp only [List.mem_cons, List.not_mem_nil, or_false] at hv
      rcases hv with rfl | rfl <;> exact .leaf trivial rfl
    · intro v hv
      simp only [List.mem_cons, List.not_mem_nil, or_false] at hv
      rcases hv with rfl | rfl <;> exact RespValue.allocated_leaf rfl
    · decide +kernel
  · exact ((resp_round_trip 32).2.2 [36, 43, 49, 13, 10, 65, 13, 10] (.bulkString [65]) 8
      (by decide) rfl).2.2

end MemLane
