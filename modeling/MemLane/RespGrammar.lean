import MemLane.AcceptedFrames

/-!
# The documented grammar

`Frame` is the grammar that the module documentation of `resp.rs` gives for RESP2.  The
parser accepts more (`Accepted`): `parse_bulk_string` skips the two bytes behind a payload
without looking at them, every negative length means nil, and a length may have a sign.

`Loose` says where a buffer leaves the grammar.  What the parser accepts is a frame exactly
if the buffer is not loose.
-/

namespace MemLane

/-- The frames of RESP2 with the values that they denote. -/
inductive Frame : Bytes → RespValue → Prop
  | simpleString {s : String} (hline : ¬ crlf <:+: asBytes s) :
      Frame (43 :: asBytes s ++ crlf) (.simpleString s)
  | error {s : String} (hline : ¬ crlf <:+: asBytes s) :
      Frame (45 :: asBytes s ++ crlf) (.error s)
  | integer {s : String} {n : Int64} (hline : ¬ crlf <:+: asBytes s)
      (hparse : parseI64 s = some n) : Frame (58 :: asBytes s ++ crlf) (.integer n)
  | bulkString {s : String} {data : Bytes}
      (hlength : Decimal.readDigits (asBytes s) = some data.length) :
      Frame (36 :: asBytes s ++ crlf ++ (data ++ crlf)) (.bulkString data)
  | nilBulkString : Frame (36 :: asBytes "-1" ++ crlf) .nil
  | array {s : String} {frames : List (Bytes × RespValue)}
      (hcount : Decimal.readDigits (asBytes s) = some frames.length)
      (hframes : ∀ frame ∈ frames, Frame frame.1 frame.2) :
      Frame (42 :: asBytes s ++ crlf ++ frames.flatMap Prod.fst) (.array (frames.map Prod.snd))
  | nilArray : Frame (42 :: asBytes "-1" ++ crlf) .nil

/-- The lengths of the grammar: digits, or exactly `-1`. -/
def PlainLength (s : String) : Prop := s = "-1" ∨ ∃ n, Decimal.readDigits (asBytes s) = some n

/-- The buffer begins with a length that is not plain, with a payload that is not followed by
CR LF, or with an array in which this is so of an item behind well-formed ones. -/
inductive Loose : Bytes → Prop
  | length {tag : UInt8} {s : String} {rest : Bytes} (htag : tag = 36 ∨ tag = 42)
      (hline : ¬ crlf <:+: asBytes s) (hlength : ¬ PlainLength s) :
      Loose (tag :: asBytes s ++ crlf ++ rest)
  | payload {s : String} {data rest : Bytes}
      (hlength : Decimal.readDigits (asBytes s) = some data.length) (hrest : ¬ crlf <+: rest) :
      Loose (36 :: asBytes s ++ crlf ++ (data ++ rest))
  | item {s : String} {count : Nat} {frames : List (Bytes × RespValue)} {rest : Bytes}
      (hcount : Decimal.readDigits (asBytes s) = some count)
      (hframes : ∀ frame ∈ frames, Frame frame.1 frame.2) (hmore : frames.length < count)
      (hrest : Loose rest) :
      Loose (42 :: asBytes s ++ crlf ++ (frames.flatMap Prod.fst ++ rest))

variable {elemSize : Nat}

/-! ## Lines and lengths -/

theorem findCrlf_of_readDigits {line : Bytes} {n : Nat}
    (h : Decimal.readDigits line = some n) : findCrlf line = none := by
  apply findCrlf_eq_none_of_not_mem
  intro hmem
  exact absurd ((Decimal.isDigit_of_readDigits h).2 13 hmem) (by decide)

theorem PlainLength.findCrlf {s : String} (h : PlainLength s) : findCrlf (asBytes s) = none := by
  cases h with
  | inl hnil =>
      rw [hnil]
      rfl
  | inr hdigits =>
      obtain ⟨n, hn⟩ := hdigits
      exact findCrlf_of_readDigits hn

/-- A buffer has one first line. -/
theorem line_inj {tag tag' : UInt8} {s s' : String} {rest rest' : Bytes}
    (hline : findCrlf (asBytes s) = none) (hline' : findCrlf (asBytes s') = none)
    (h : tag :: asBytes s ++ crlf ++ rest = tag' :: asBytes s' ++ crlf ++ rest') :
    tag = tag' ∧ s = s' ∧ rest = rest' := by
  simp only [List.cons_append] at h
  obtain ⟨htag, hbody⟩ := List.cons.inj h
  have hfind := findCrlf_append rest hline
  rw [hbody, findCrlf_append rest' hline'] at hfind
  have hlength := Option.some.inj hfind
  simp only [List.append_assoc] at hbody
  obtain ⟨hs, hrest⟩ := List.append_inj hbody hlength.symm
  exact ⟨htag, asBytes_injective hs, List.append_cancel_left hrest⟩

/-- Digits in range are the number that they denote. -/
theorem parseI64_of_readDigits {s : String} {n : Nat}
    (h : Decimal.readDigits (asBytes s) = some n) (hn : n < 2 ^ 63) :
    parseI64 s = some (Int64.ofInt n) := by
  unfold parseI64
  rw [Decimal.readInt_of_readDigits h]
  exact if_pos ⟨by omega, by omega⟩

/-- Digits that parse are not negative. -/
theorem toInt_of_readDigits {s : String} {n : Nat} {len : Int64}
    (h : Decimal.readDigits (asBytes s) = some n) (hparse : parseI64 s = some len) :
    len.toInt = n := by
  unfold parseI64 at hparse
  rw [Decimal.readInt_of_readDigits h] at hparse
  simp only at hparse
  split at hparse
  · next hrange =>
      obtain rfl := Option.some.inj hparse
      exact Int64.toInt_ofInt_of_le hrange.1 hrange.2
  · cases hparse

theorem parseI64_nil : parseI64 "-1" = some (-1) := rfl

/-! ## Frames are accepted

The capacity that `parse_array` reserves is no concern of the grammar, so frames are
compared with the parser for items of size 0. -/

theorem three_mul_length_le_flatMap {frames : List (Bytes × RespValue)}
    (h : ∀ frame ∈ frames, 3 ≤ frame.1.length) :
    3 * frames.length ≤ (frames.flatMap Prod.fst).length := by
  induction frames with
  | nil => exact Nat.le_refl _
  | cons frame frames ih =>
      have hframe := h frame List.mem_cons_self
      have hrest := ih fun w hw => h w (List.mem_cons_of_mem _ hw)
      rw [List.length_cons, List.flatMap_cons, List.length_append]
      omega

theorem length_le_flatMap {frames : List (Bytes × RespValue)} {frame : Bytes × RespValue}
    (h : frame ∈ frames) : frame.1.length ≤ (frames.flatMap Prod.fst).length := by
  obtain ⟨front, back, rfl⟩ := List.append_of_mem h
  rw [List.flatMap_append, List.flatMap_cons, List.length_append, List.length_append]
  omega

theorem Frame.accepted {used : Bytes} {v : RespValue} (h : Frame used v)
    (hlen : used.length ≤ isizeMax) : Accepted 0 used v := by
  induction h with
  | simpleString hline => exact .simpleString (findCrlf_eq_none_iff.mpr hline)
  | error hline => exact .error (findCrlf_eq_none_iff.mpr hline)
  | integer hline hparse => exact .integer (findCrlf_eq_none_iff.mpr hline) hparse
  | @bulkString s data hlength =>
      have hdata : data.length < 2 ^ 63 := by
        simp only [List.length_append] at hlen
        unfold isizeMax at hlen
        omega
      obtain ⟨hneg, hcast⟩ := ofInt_length hdata
      exact .bulkString (findCrlf_of_readDigits hlength) (parseI64_of_readDigits hlength hdata) hneg
        hcast.symm rfl
  | nilBulkString => exact .nilBulkString rfl parseI64_nil (by decide)
  | @array s frames hcount hframes ih =>
      rw [List.length_append] at hlen
      have hitems : ∀ frame ∈ frames, Accepted 0 frame.1 frame.2 := by
        intro frame hmem
        have hle := length_le_flatMap hmem
        exact ih frame hmem (by omega)
      have hframes : frames.length < 2 ^ 63 := by
        have hlong := three_mul_length_le_flatMap fun w hw => (hitems w hw).three_le_length
        unfold isizeMax at hlen
        omega
      obtain ⟨hneg, hcast⟩ := ofInt_length hframes
      exact .array (findCrlf_of_readDigits hcount) (parseI64_of_readDigits hcount hframes) hneg
        hcast.symm (Nat.zero_le _) hitems
  | nilArray => exact .nilArray rfl parseI64_nil (by decide)

/-- A buffer begins with at most one frame. -/
theorem Frame.inj {used used' rest rest' : Bytes} {v v' : RespValue} (h : Frame used v)
    (h' : Frame used' v') (heq : used ++ rest = used' ++ rest')
    (hlen : (used ++ rest).length ≤ isizeMax) : used = used' ∧ v = v' ∧ rest = rest' := by
  have hlen' := hlen
  rw [heq] at hlen'
  have hle := hlen
  have hle' := hlen'
  rw [List.length_append] at hle hle'
  have hread := (h.accepted (by omega)).readsAs rest hlen
  have hread' := (h'.accepted (by omega)).readsAs rest' hlen'
  rw [heq, hread'] at hread
  obtain ⟨hv, hsame⟩ := Prod.mk.inj (Option.some.inj (Except.ok.inj hread))
  obtain ⟨hused, hrest⟩ := List.append_inj heq hsame.symm
  exact ⟨hused, hv.symm, hrest⟩

/-- Of two ways to cut a buffer into frames, one continues the other. -/
theorem frames_prefix {frames frames' : List (Bytes × RespValue)} {rest rest' : Bytes}
    (hframes : ∀ frame ∈ frames, Frame frame.1 frame.2)
    (hframes' : ∀ frame ∈ frames', Frame frame.1 frame.2)
    (hmore : frames'.length < frames.length)
    (heq : frames.flatMap Prod.fst ++ rest = frames'.flatMap Prod.fst ++ rest')
    (hlen : (frames.flatMap Prod.fst ++ rest).length ≤ isizeMax) :
    ∃ frame ∈ frames, ∃ ext, rest' = frame.1 ++ ext := by
  induction frames' generalizing frames with
  | nil =>
      cases frames with
      | nil => cases hmore
      | cons frame frames =>
          refine ⟨frame, List.mem_cons_self, frames.flatMap Prod.fst ++ rest, ?_⟩
          rw [← List.append_assoc, ← List.flatMap_cons, heq]
          rfl
  | cons frame' frames' ih =>
      cases frames with
      | nil => cases hmore
      | cons frame frames =>
          rw [List.flatMap_cons, List.flatMap_cons, List.append_assoc, List.append_assoc] at heq
          rw [List.flatMap_cons, List.append_assoc] at hlen
          obtain ⟨_, _, hrest⟩ := (hframes frame List.mem_cons_self).inj
            (hframes' frame' List.mem_cons_self) heq hlen
          have hshorter : (frames.flatMap Prod.fst ++ rest).length ≤ isizeMax := by
            rw [List.length_append] at hlen
            omega
          obtain ⟨next, hmem, hnext⟩ := ih (fun w hw => hframes w (List.mem_cons_of_mem _ hw))
            (fun w hw => hframes' w (List.mem_cons_of_mem _ hw))
            (Nat.lt_of_succ_lt_succ hmore) hrest hshorter
          exact ⟨next, List.mem_cons_of_mem _ hmem, hnext⟩

/-! ## Frames are not loose -/

/-- What is loose about a buffer with the given first line. -/
theorem Loose.of_line {tag : UInt8} {s : String} {rest : Bytes}
    (hline : findCrlf (asBytes s) = none) (h : Loose (tag :: asBytes s ++ crlf ++ rest)) :
    (tag = 36 ∨ tag = 42) ∧ ¬ PlainLength s ∨
    (∃ data back, Decimal.readDigits (asBytes s) = some data.length ∧ ¬ crlf <+: back ∧
      tag = 36 ∧ rest = data ++ back) ∨
    (∃ (count : Nat) (frames : List (Bytes × RespValue)) (back : Bytes),
      Decimal.readDigits (asBytes s) = some count ∧
      (∀ frame ∈ frames, Frame frame.1 frame.2) ∧ frames.length < count ∧ Loose back ∧
      tag = 42 ∧ rest = frames.flatMap Prod.fst ++ back) := by
  generalize hbuf : tag :: asBytes s ++ crlf ++ rest = buf at h
  cases h with
  | length htag hline' hlength =>
      obtain ⟨rfl, rfl, rfl⟩ := line_inj hline (findCrlf_eq_none_iff.mpr hline') hbuf
      exact .inl ⟨htag, hlength⟩
  | payload hlength hrest =>
      obtain ⟨rfl, rfl, rfl⟩ := line_inj hline (findCrlf_of_readDigits hlength) hbuf
      exact .inr (.inl ⟨_, _, hlength, hrest, rfl, rfl⟩)
  | item hcount hframes hmore hrest =>
      obtain ⟨rfl, rfl, rfl⟩ := line_inj hline (findCrlf_of_readDigits hcount) hbuf
      exact .inr (.inr ⟨_, _, _, hcount, hframes, hmore, hrest, rfl, rfl⟩)

/-- A line that is no length is not loose. -/
theorem not_loose_line {tag : UInt8} {s : String} {rest : Bytes} (hbulk : tag ≠ 36)
    (harray : tag ≠ 42) (hline : findCrlf (asBytes s) = none) :
    ¬ Loose (tag :: asBytes s ++ crlf ++ rest) := by
  intro h
  rcases h.of_line hline with ⟨htag, _⟩ | ⟨_, _, _, _, htag, _⟩ | ⟨_, _, _, _, _, _, _, htag, _⟩
  · exact htag.elim hbulk harray
  · exact hbulk htag
  · exact harray htag

theorem readDigits_nil : Decimal.readDigits (asBytes "-1") = none := rfl

/-- Nor is the length of nil. -/
theorem not_loose_nil {tag : UInt8} {rest : Bytes} :
    ¬ Loose (tag :: asBytes "-1" ++ crlf ++ rest) := by
  intro h
  obtain ⟨_, hlength⟩ | ⟨data, _, hdigits, _⟩ | ⟨count, _, _, hdigits, _⟩ :=
    h.of_line (PlainLength.findCrlf (.inl rfl))
  · exact hlength (.inl rfl)
  · cases readDigits_nil.symm.trans hdigits
  · cases readDigits_nil.symm.trans hdigits

theorem Frame.not_loose {used : Bytes} {v : RespValue} (h : Frame used v) {rest : Bytes}
    (hlen : (used ++ rest).length ≤ isizeMax) : ¬ Loose (used ++ rest) := by
  induction h generalizing rest with
  | simpleString hline =>
      exact not_loose_line (by decide) (by decide) (findCrlf_eq_none_iff.mpr hline)
  | error hline => exact not_loose_line (by decide) (by decide) (findCrlf_eq_none_iff.mpr hline)
  | integer hline _ => exact not_loose_line (by decide) (by decide) (findCrlf_eq_none_iff.mpr hline)
  | nilBulkString => exact not_loose_nil
  | nilArray => exact not_loose_nil
  | @bulkString s data hlength =>
      intro hloose
      rw [List.append_assoc] at hloose
      obtain ⟨_, hplain⟩ | ⟨data', back, hdigits, hback, _, heq⟩ | ⟨_, _, _, _, _, _, _, htag, _⟩ :=
        hloose.of_line (findCrlf_of_readDigits hlength)
      · exact hplain (.inr ⟨_, hlength⟩)
      · have hsame : data.length = data'.length := Option.some.inj (hlength.symm.trans hdigits)
        rw [List.append_assoc] at heq
        obtain ⟨_, hrest⟩ := List.append_inj heq hsame
        exact hback ⟨rest, hrest⟩
      · cases htag
  | @array s frames hcount hframes ih =>
      intro hloose
      rw [List.append_assoc] at hloose hlen
      have hitems : (frames.flatMap Prod.fst ++ rest).length ≤ isizeMax := by
        rw [List.length_append] at hlen
        omega
      obtain ⟨_, hplain⟩ | ⟨_, _, _, _, htag, _⟩ |
          ⟨count, frames', back, hdigits, hframes', hmore, hback, _, heq⟩ :=
        hloose.of_line (findCrlf_of_readDigits hcount)
      · exact hplain (.inr ⟨_, hcount⟩)
      · cases htag
      · obtain rfl := Option.some.inj (hcount.symm.trans hdigits)
        obtain ⟨frame, hmem, ext, rfl⟩ := frames_prefix hframes hframes' hmore heq hitems
        rw [heq, List.length_append] at hitems
        exact ih frame hmem (by omega) hback

/-! ## What is accepted is a frame or loose -/

/-- The first element that misses `P`. -/
theorem forall_mem_or_first {α : Type} {P Q : α → Prop} {l : List α}
    (h : ∀ x ∈ l, P x ∨ Q x) :
    (∀ x ∈ l, P x) ∨ ∃ front x back, l = front ++ x :: back ∧ (∀ y ∈ front, P y) ∧ Q x := by
  induction l with
  | nil => exact .inl fun x hx => absurd hx List.not_mem_nil
  | cons a l ih =>
      cases h a List.mem_cons_self with
      | inr hq => exact .inr ⟨[], a, l, rfl, fun y hy => absurd hy List.not_mem_nil, hq⟩
      | inl hp =>
          obtain hall | ⟨front, x, back, rfl, hfront, hx⟩ :=
            ih fun x hx => h x (List.mem_cons_of_mem _ hx)
          · exact .inl (List.forall_mem_cons.mpr ⟨hp, hall⟩)
          · exact .inr ⟨a :: front, x, back, rfl, List.forall_mem_cons.mpr ⟨hp, hfront⟩, hx⟩

/-- A negative length is `-1` or not plain. -/
theorem eq_nil_of_plainLength {s : String} {len : Int64} (hparse : parseI64 s = some len)
    (hneg : len < 0) (hplain : PlainLength s) : s = "-1" := by
  cases hplain with
  | inl hnil => exact hnil
  | inr hdigits =>
      obtain ⟨n, hn⟩ := hdigits
      have hvalue := toInt_of_readDigits hn hparse
      rw [Int64.lt_iff_toInt_lt, hvalue, Int64.toInt_zero] at hneg
      omega

/-- A plain length that is not negative is written in digits. -/
theorem readDigits_of_plainLength {s : String} {len : Int64} (hparse : parseI64 s = some len)
    (hneg : ¬ len < 0) (hplain : PlainLength s) :
    Decimal.readDigits (asBytes s) = some len.toInt.toNat := by
  cases hplain with
  | inl hnil =>
      rw [hnil, parseI64_nil] at hparse
      obtain rfl := Option.some.inj hparse
      exact absurd (by decide) hneg
  | inr hdigits =>
      obtain ⟨n, hn⟩ := hdigits
      rw [toInt_of_readDigits hn hparse, Int.toNat_natCast]
      exact hn

theorem loose_or_plainLength {tag : UInt8} {s : String} (htag : tag = 36 ∨ tag = 42)
    (hline : findCrlf (asBytes s) = none) :
    PlainLength s ∨ ∀ rest, Loose (tag :: asBytes s ++ crlf ++ rest) := by
  by_cases hplain : PlainLength s
  · exact .inl hplain
  · exact .inr fun rest => .length htag (findCrlf_eq_none_iff.mp hline) hplain

theorem Accepted.frame_or_loose {used : Bytes} {v : RespValue} (h : Accepted elemSize used v) :
    Frame used v ∨ ∀ rest, Loose (used ++ rest) := by
  induction h with
  | simpleString hline => exact .inl (.simpleString (findCrlf_eq_none_iff.mp hline))
  | error hline => exact .inl (.error (findCrlf_eq_none_iff.mp hline))
  | integer hline hparse => exact .inl (.integer (findCrlf_eq_none_iff.mp hline) hparse)
  | nilBulkString hline hparse hneg =>
      rcases loose_or_plainLength (.inl rfl) hline with hplain | hloose
      · obtain rfl := eq_nil_of_plainLength hparse hneg hplain
        exact .inl .nilBulkString
      · exact .inr hloose
  | nilArray hline hparse hneg =>
      rcases loose_or_plainLength (.inr rfl) hline with hplain | hloose
      · obtain rfl := eq_nil_of_plainLength hparse hneg hplain
        exact .inl .nilArray
      · exact .inr hloose
  | @bulkString s len data trailer hline hparse hneg hdata htrailer =>
      rcases loose_or_plainLength (.inl rfl) hline with hplain | hloose
      · have hdigits := readDigits_of_plainLength hparse hneg hplain
        rw [← hdata] at hdigits
        by_cases hend : trailer = crlf
        · rw [hend]
          exact .inl (.bulkString hdigits)
        · right
          intro rest
          rw [List.append_assoc (36 :: asBytes s ++ crlf), List.append_assoc data]
          apply Loose.payload hdigits
          intro hcrlf
          obtain ⟨ext, hext⟩ := hcrlf
          exact hend (List.append_inj hext.symm htrailer).1
      · right
        intro rest
        rw [List.append_assoc]
        exact hloose _
  | @array s count frames hline hparse hneg hcount halloc hframes ih =>
      rcases loose_or_plainLength (.inr rfl) hline with hplain | hloose
      · have hdigits := readDigits_of_plainLength hparse hneg hplain
        rcases forall_mem_or_first ih with hall | ⟨front, frame, back, rfl, hfront, hloose⟩
        · rw [← hcount] at hdigits
          exact .inl (.array hdigits hall)
        · right
          intro rest
          have hmore : front.length < count.toInt.toNat := by
            rw [← hcount, List.length_append, List.length_cons]
            omega
          rw [List.append_assoc (42 :: asBytes s ++ crlf), List.flatMap_append, List.flatMap_cons,
            List.append_assoc (front.flatMap Prod.fst), List.append_assoc frame.1]
          exact .item hdigits hfront hmore (hloose _)
      · right
        intro rest
        rw [List.append_assoc]
        exact hloose _

/-- What `parse` returns is a frame of the documented grammar, denoting the value, exactly if
the buffer is not loose. -/
theorem parse_frame_iff (elemSize : Nat) {buf : Bytes} {v : RespValue} {n : Nat}
    (hlen : buf.length ≤ isizeMax) (h : parse elemSize buf = .ok (some (v, n))) :
    Frame (buf.take n) v ↔ ¬ Loose buf := by
  obtain ⟨used, rest, rfl, rfl, haccepted⟩ := parse_accepted elemSize hlen v n h
  rw [List.take_left]
  constructor
  · intro hframe
    exact hframe.not_loose hlen
  · intro hloose
    exact haccepted.frame_or_loose.resolve_right fun hall => hloose (hall rest)

/-- `*1 $3 abc` is a frame, and its buffer is not loose. -/
theorem parse_frame_iff_array :
    ¬ Loose [42, 49, 13, 10, 36, 51, 13, 10, 97, 98, 99, 13, 10, 43] := by
  have hitem : Frame [36, 51, 13, 10, 97, 98, 99, 13, 10] (.bulkString [97, 98, 99]) :=
    @Frame.bulkString "3" [97, 98, 99] (by decide)
  have hframe : Frame [42, 49, 13, 10, 36, 51, 13, 10, 97, 98, 99, 13, 10]
      (.array [.bulkString [97, 98, 99]]) := by
    refine @Frame.array "1" [([36, 51, 13, 10, 97, 98, 99, 13, 10], .bulkString [97, 98, 99])]
      (by decide) ?_
    intro frame hmem
    obtain rfl := List.mem_singleton.mp hmem
    exact hitem
  have hparse : parse 32 [42, 49, 13, 10, 36, 51, 13, 10, 97, 98, 99, 13, 10, 43] =
      .ok (some (.array [.bulkString [97, 98, 99]], 13)) := rfl
  exact (parse_frame_iff 32 (by decide) hparse).mp hframe

/-- Every bulk string of the grammar ends in CR LF. -/
theorem Frame.crlf_suffix {used data : Bytes} (h : Frame used (.bulkString data)) :
    crlf <:+ used := by
  cases h with
  | bulkString => exact ⟨_, List.append_assoc _ _ _⟩

/-- `$3 abcXY` is taken for a bulk string, with the bytes `XY` in the place of CR LF. -/
theorem unterminated_payload_accepted :
    ¬ ∀ (buf : Bytes) (v : RespValue) (n : Nat),
      parse 32 buf = .ok (some (v, n)) → Frame (buf.take n) v := by
  intro h
  have hframe := h [36, 51, 13, 10, 97, 98, 99, 88, 89] (.bulkString [97, 98, 99]) 9 rfl
  exact absurd hframe.crlf_suffix (by decide)

end MemLane
