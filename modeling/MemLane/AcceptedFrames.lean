import MemLane.HeaderLines

/-!
# What the parser accepts

`Accepted` is the set of byte strings that `parse` takes for a frame, each with its
value.  The parser looks at nothing behind the frame that it returns.

The accepted strings are more than the frames of RESP: a length may have a sign, every
negative length stands for nil, and the two bytes behind a payload may be any.

Two facts that the language provides are hypotheses: no buffer is longer than
`isizeMax` bytes, and no `Vec` occupies more than that.  The size of the call
stack is not modelled.
-/

namespace MemLane

/-- The byte strings that the parser takes for a frame. -/
inductive Accepted (elemSize : Nat) : Bytes → RespValue → Prop
  | simpleString {s : String} (hline : findCrlf (asBytes s) = none) :
      Accepted elemSize (43 :: asBytes s ++ crlf) (.simpleString s)
  | error {s : String} (hline : findCrlf (asBytes s) = none) :
      Accepted elemSize (45 :: asBytes s ++ crlf) (.error s)
  | integer {s : String} {n : Int64} (hline : findCrlf (asBytes s) = none)
      (hparse : parseI64 s = some n) : Accepted elemSize (58 :: asBytes s ++ crlf) (.integer n)
  | nilBulkString {s : String} {len : Int64} (hline : findCrlf (asBytes s) = none)
      (hparse : parseI64 s = some len) (hneg : len < 0) :
      Accepted elemSize (36 :: asBytes s ++ crlf) .nil
  | bulkString {s : String} {len : Int64} {data trailer : Bytes}
      (hline : findCrlf (asBytes s) = none) (hparse : parseI64 s = some len) (hneg : ¬ len < 0)
      (hdata : data.length = len.toInt.toNat) (htrailer : trailer.length = 2) :
      Accepted elemSize (36 :: asBytes s ++ crlf ++ (data ++ trailer)) (.bulkString data)
  | nilArray {s : String} {count : Int64} (hline : findCrlf (asBytes s) = none)
      (hparse : parseI64 s = some count) (hneg : count < 0) :
      Accepted elemSize (42 :: asBytes s ++ crlf) .nil
  | array {s : String} {count : Int64} {frames : List (Bytes × RespValue)}
      (hline : findCrlf (asBytes s) = none) (hparse : parseI64 s = some count)
      (hneg : ¬ count < 0) (hcount : frames.length = count.toInt.toNat)
      (halloc : frames.length * elemSize ≤ isizeMax)
      (hframes : ∀ frame ∈ frames, Accepted elemSize frame.1 frame.2) :
      Accepted elemSize (42 :: asBytes s ++ crlf ++ frames.flatMap Prod.fst)
        (.array (frames.map Prod.snd))

/-- The parser reads `v` from the bytes `used`, whatever follows them. -/
def ReadsAs (parseOne : Bytes → Parsed) (used : Bytes) (v : RespValue) : Prop :=
  ∀ rest : Bytes, (used ++ rest).length ≤ isizeMax →
    parseOne (used ++ rest) = .ok (some (v, used.length))

variable {elemSize : Nat}

/-! ## What is read is accepted -/

/-- The front of the buffer is accepted as `v`, and `n` bytes long. -/
def AcceptsFront (elemSize : Nat) (buf : Bytes) (v : RespValue) (n : Nat) : Prop :=
  ∃ used rest, buf = used ++ rest ∧ used.length = n ∧ Accepted elemSize used v

/-- Everything that the parser returns for the buffer is accepted. -/
def ReadsAccepted (elemSize : Nat) (parseOne : Bytes → Parsed) (buf : Bytes) : Prop :=
  ∀ v n, parseOne buf = .ok (some (v, n)) → AcceptsFront elemSize buf v n

theorem exists_append_of_le {n : Nat} {buf : Bytes} (h : n ≤ buf.length) :
    ∃ front back, buf = front ++ back ∧ front.length = n :=
  ⟨buf.take n, buf.drop n, (List.take_append_drop n buf).symm, List.length_take_of_le h⟩

/-- The shortest frames are a tag and CR LF. -/
theorem Accepted.three_le_length {used : Bytes} {v : RespValue} (h : Accepted elemSize used v) :
    3 ≤ used.length := by
  cases h with
  | bulkString =>
      rw [List.length_append, length_line]
      omega
  | array =>
      rw [List.length_append, length_line]
      omega
  | _ =>
      rw [length_line]
      omega

theorem parseBulkString_accepted {buf : Bytes} (hhead : buf.head? = some 36)
    (hlen : buf.length ≤ isizeMax) : ReadsAccepted elemSize parseBulkString buf := by
  intro v n h
  obtain ⟨s, rest, rfl, hline, hread⟩ := withLine_some hhead (by decide) hlen h
  split at hread
  · cases hread
  · next len hparse =>
      split at hread
      · next hneg =>
          cases hread
          exact ⟨_, rest, rfl, length_line _ _, .nilBulkString hline hparse hneg⟩
      · next hneg =>
          rw [parseBulkString_line hline hparse hneg hlen] at h
          split at h
          · cases h
          · split at h
            · cases h
            · next hcomplete =>
                cases h
                obtain ⟨data, more, rfl, hdata⟩ :=
                  exists_append_of_le (by omega : len.toInt.toNat ≤ rest.length)
                have hmore : 2 ≤ more.length := by
                  rw [List.length_append] at hcomplete
                  omega
                obtain ⟨trailer, back, rfl, htrailer⟩ := exists_append_of_le hmore
                rw [← hdata, List.take_left]
                refine ⟨_, back, ?_, ?_, .bulkString hline hparse hneg hdata htrailer⟩
                · simp only [List.append_assoc]
                · rw [List.length_append, length_line, List.length_append, htrailer,
                    Nat.add_assoc _ data.length]

/-- Behind an accepted item the loop of `parse_array` is further on in the buffer. -/
theorem AcceptsFront.next {buf : Bytes} {v : RespValue} {offset n : Nat}
    (h : AcceptsFront elemSize (buf.drop offset) v n) (hlen : buf.length ≤ isizeMax)
    (hoffset : offset ≤ buf.length) :
    usizeAdd offset n = offset + n ∧ offset + n ≤ buf.length ∧
      ∃ used, buf.drop offset = used ++ buf.drop (offset + n) ∧ used.length = n ∧
        Accepted elemSize used v := by
  obtain ⟨used, back, hsplit, rfl, haccepted⟩ := h
  have hback := congrArg List.length hsplit
  rw [List.length_append, List.length_drop] at hback
  have hadd : usizeAdd offset used.length = offset + used.length := by
    rw [usizeAdd_eq]
    unfold isizeMax at hlen
    omega
  have hnext : buf.drop (offset + used.length) = back := by
    rw [← List.drop_drop, hsplit, List.drop_left]
  refine ⟨hadd, by omega, used, ?_, rfl, haccepted⟩
  rw [hnext, hsplit]

/-- The loop of `parse_array` returns an array of frames that follow each other. -/
theorem parseItems_accepted {parseOne : Bytes → Parsed} {buf : Bytes}
    (hlen : buf.length ≤ isizeMax)
    (hone : ∀ rest : Bytes, rest.length < buf.length → ReadsAccepted elemSize parseOne rest)
    {count offset n : Nat} {done : List RespValue} {v : RespValue} (hpos : 0 < offset)
    (hoffset : offset ≤ buf.length)
    (h : parseItems parseOne buf count offset done = .ok (some (v, n))) :
    ∃ (frames : List (Bytes × RespValue)) (rest : Bytes), frames.length = count ∧
      (∀ frame ∈ frames, Accepted elemSize frame.1 frame.2) ∧
      v = .array (done ++ frames.map Prod.snd) ∧
      buf.drop offset = frames.flatMap Prod.fst ++ rest ∧
      n = offset + (frames.flatMap Prod.fst).length := by
  induction count generalizing offset done with
  | zero =>
      cases h
      refine ⟨[], buf.drop _, rfl, ?_, by rw [List.map_nil, List.append_nil], rfl, rfl⟩
      intro frame hframe
      exact absurd hframe List.not_mem_nil
  | succ count ih =>
      rw [parseItems, sliceFrom, if_pos hoffset] at h
      simp only at h
      split at h
      · cases h
      · cases h
      · next val consumed hval =>
          have hdrop : (buf.drop offset).length = buf.length - offset := List.length_drop
          have hfront := hone _ (by omega) val consumed hval
          obtain ⟨hadd, hle, used, hsplit, rfl, haccepted⟩ := hfront.next hlen hoffset
          rw [hadd] at h
          obtain ⟨frames, rest, rfl, hframes, rfl, hrest, hn⟩ := ih (by omega) hle h
          refine ⟨(used, val) :: frames, rest, rfl, ?_, ?_, ?_, ?_⟩
          · intro frame hframe
            rcases List.mem_cons.mp hframe with rfl | hmem
            · exact haccepted
            · exact hframes frame hmem
          · rw [List.append_assoc, List.singleton_append, List.map_cons]
          · rw [hsplit, hrest, List.flatMap_cons, List.append_assoc]
          · rw [hn, List.flatMap_cons, List.length_append, Nat.add_assoc]

theorem parseArray_accepted {parseOne : Bytes → Parsed} {buf : Bytes}
    (hhead : buf.head? = some 42) (hlen : buf.length ≤ isizeMax)
    (hone : ∀ rest : Bytes, rest.length < buf.length → ReadsAccepted elemSize parseOne rest) :
    ReadsAccepted elemSize (parseArray elemSize parseOne) buf := by
  intro v n h
  obtain ⟨s, rest, heq, hline, hread⟩ := withLine_some hhead (by decide) hlen h
  have hheader := length_line 42 (asBytes s)
  have hsize : buf.length = (asBytes s).length + 3 + rest.length := by
    rw [heq, List.length_append, hheader]
  split at hread
  · cases hread
  · next count hparse =>
      split at hread
      · next hneg =>
          cases hread
          exact ⟨_, rest, heq, hheader, .nilArray hline hparse hneg⟩
      · next hneg =>
          simp only at hread
          split at hread
          · cases hread
          · next hcap =>
              have hpos : 0 < (asBytes s).length + 3 := Nat.succ_pos _
              obtain ⟨frames, back, hcount, hframes, rfl, hdrop, hn⟩ :=
                parseItems_accepted hlen hone hpos (by omega) hread
              have hrest : rest = frames.flatMap Prod.fst ++ back := by
                rw [← hdrop, heq, ← hheader, List.drop_left]
              rw [List.nil_append]
              refine ⟨_, back, ?_, ?_, .array hline hparse hneg hcount ?_ hframes⟩
              · rw [heq, hrest, ← List.append_assoc]
              · rw [List.length_append, hheader, hn]
              · rw [hcount]
                exact Nat.not_lt.mp hcap

/-- One level of the parser returns what is accepted if the level below does. -/
theorem parseBody_accepted {parseOne : Bytes → Parsed} {buf : Bytes} (hlen : buf.length ≤ isizeMax)
    (hone : ∀ rest : Bytes, rest.length < buf.length → ReadsAccepted elemSize parseOne rest) :
    ReadsAccepted elemSize (parseBody elemSize parseOne) buf := by
  intro v n h
  unfold parseBody at h
  split at h
  · cases h
  · next hhead =>
      obtain ⟨s, rest, rfl, hline, hread⟩ := withLine_some hhead (by decide) hlen h
      cases hread
      exact ⟨_, rest, rfl, length_line _ _, .simpleString hline⟩
  · next hhead =>
      obtain ⟨s, rest, rfl, hline, hread⟩ := withLine_some hhead (by decide) hlen h
      cases hread
      exact ⟨_, rest, rfl, length_line _ _, .error hline⟩
  · next hhead =>
      obtain ⟨s, rest, rfl, hline, hread⟩ := withLine_some hhead (by decide) hlen h
      split at hread
      · cases hread
      · next m hparse =>
          cases hread
          exact ⟨_, rest, rfl, length_line _ _, .integer hline hparse⟩
  · next hhead => exact parseBulkString_accepted hhead hlen v n h
  · next hhead => exact parseArray_accepted hhead hlen hone v n h
  · cases h

theorem parseAt_accepted (elemSize depth : Nat) {buf : Bytes} (hlen : buf.length ≤ isizeMax) :
    ReadsAccepted elemSize (parseAt elemSize depth) buf := by
  induction depth generalizing buf with
  | zero =>
      intro v n h
      cases h
  | succ depth ih =>
      apply parseBody_accepted hlen
      intro rest hrest
      exact ih (by omega)

/-- Whatever `parse` returns a value for begins with an accepted string. -/
theorem parse_accepted (elemSize : Nat) {buf : Bytes} (hlen : buf.length ≤ isizeMax) :
    ReadsAccepted elemSize (parse elemSize) buf := parseAt_accepted elemSize (buf.length + 1) hlen

/-! ## The recursion of the source -/

theorem parseItems_congr {f g : Bytes → Parsed} {buf : Bytes} (hlen : buf.length ≤ isizeMax)
    (hf : ∀ rest : Bytes, rest.length < buf.length → ReadsAccepted elemSize f rest)
    (hfg : ∀ rest : Bytes, rest.length < buf.length → f rest = g rest)
    {count offset : Nat} (hpos : 0 < offset) (done : List RespValue) :
    parseItems f buf count offset done = parseItems g buf count offset done := by
  induction count generalizing offset done with
  | zero => rfl
  | succ count ih =>
      by_cases hoffset : offset ≤ buf.length
      · have hrest : (buf.drop offset).length = buf.length - offset := List.length_drop
        rw [parseItems, parseItems, sliceFrom, if_pos hoffset]
        simp only [← hfg (buf.drop offset) (by omega)]
        cases hone : f (buf.drop offset) with
        | error e => rfl
        | ok out =>
            cases out with
            | none => rfl
            | some out =>
                obtain ⟨val, consumed⟩ := out
                have hfront := hf _ (by omega) val consumed hone
                obtain ⟨hadd, _⟩ := hfront.next hlen hoffset
                apply ih
                omega
      · rw [parseItems, parseItems, sliceFrom, if_neg hoffset]

/-- The parser calls itself on shorter buffers only. -/
theorem parseBody_congr {f g : Bytes → Parsed} {buf : Bytes} (hlen : buf.length ≤ isizeMax)
    (hf : ∀ rest : Bytes, rest.length < buf.length → ReadsAccepted elemSize f rest)
    (hfg : ∀ rest : Bytes, rest.length < buf.length → f rest = g rest) :
    parseBody elemSize f buf = parseBody elemSize g buf := by
  unfold parseBody
  split
  · rfl
  · rfl
  · rfl
  · rfl
  · rfl
  · next hhead =>
      unfold parseArray withLine
      split
      · rfl
      · rfl
      · next line consumed hparse =>
          obtain ⟨rest, _, _, hconsumed⟩ := parseLine_ok hhead (by decide) hlen hparse
          have hpos : 0 < consumed := by omega
          simp only [parseItems_congr hlen hf hfg hpos]
  · rfl

theorem parseAt_stable (elemSize : Nat) {depth depth' : Nat} {buf : Bytes}
    (hlen : buf.length ≤ isizeMax) (h : buf.length < depth) (h' : buf.length < depth') :
    parseAt elemSize depth buf = parseAt elemSize depth' buf := by
  induction depth generalizing depth' buf with
  | zero => omega
  | succ depth ih =>
      cases depth' with
      | zero => omega
      | succ depth' =>
          refine parseBody_congr hlen (fun rest hrest => ?_) (fun rest hrest => ?_)
          · exact parseAt_accepted elemSize depth (by omega)
          · exact ih (by omega) (by omega) (by omega)

/-- `parse` is the recursive function of the source: its depth is never used up. -/
theorem parse_eq (elemSize : Nat) {buf : Bytes} (hlen : buf.length ≤ isizeMax) :
    parse elemSize buf = parseBody elemSize (parse elemSize) buf := by
  refine parseBody_congr hlen (fun rest hrest => ?_) (fun rest hrest => ?_)
  · exact parseAt_accepted elemSize buf.length (by omega)
  · exact parseAt_stable elemSize (by omega) hrest (Nat.lt_succ_self _)

/-! ## What is accepted is read -/

/-- A result that depends on the header line alone. -/
theorem withLine_readsAs {tag : UInt8} {s : String} {rest : Bytes} {v : RespValue}
    {f : String → Nat → Parsed} (htag : tag ≠ 13) (hline : findCrlf (asBytes s) = none)
    (hlen : (tag :: asBytes s ++ crlf ++ rest).length ≤ isizeMax)
    (hf : f s ((asBytes s).length + 3) = .ok (some (v, (asBytes s).length + 3))) :
    withLine (tag :: asBytes s ++ crlf ++ rest) f =
      .ok (some (v, (tag :: asBytes s ++ crlf).length)) := by
  rw [withLine_append htag hline hlen, length_line]
  exact hf

theorem parseBulkString_readsAs {s : String} {len : Int64} {data trailer : Bytes}
    (hline : findCrlf (asBytes s) = none) (hparse : parseI64 s = some len) (hneg : ¬ len < 0)
    (hdata : data.length = len.toInt.toNat) (htrailer : trailer.length = 2) :
    ReadsAs parseBulkString (36 :: asBytes s ++ crlf ++ (data ++ trailer)) (.bulkString data) := by
  intro rest hlen
  have hsize : (36 :: asBytes s ++ crlf ++ (data ++ trailer)).length =
      (asBytes s).length + 3 + data.length + 2 := by
    rw [List.length_append, length_line, List.length_append, htrailer, Nat.add_assoc _ data.length]
  have hbound := hlen
  rw [List.length_append, hsize] at hbound
  unfold isizeMax at hbound
  have hcomplete : ¬ (data ++ (trailer ++ rest)).length < data.length + 2 := by
    rw [List.length_append, List.length_append]
    omega
  rw [hsize]
  rw [List.append_assoc (36 :: asBytes s ++ crlf), List.append_assoc data] at hlen ⊢
  rw [parseBulkString_line hline hparse hneg hlen, ← hdata, if_neg (by omega), if_neg hcomplete,
    List.take_left]

/-- The loop of `parse_array` takes frames that are each read off its count; `front` is behind
them. -/
theorem parseItems_skip {parseOne : Bytes → Parsed} {frames : List (Bytes × RespValue)}
    (hone : ∀ frame ∈ frames, ReadsAs parseOne frame.1 frame.2) (front rest : Bytes) (left : Nat)
    (done : List RespValue) (hlen : (front ++ frames.flatMap Prod.fst ++ rest).length ≤ isizeMax) :
    parseItems parseOne (front ++ frames.flatMap Prod.fst ++ rest) (frames.length + left)
        front.length done =
      parseItems parseOne (front ++ frames.flatMap Prod.fst ++ rest) left
        (front ++ frames.flatMap Prod.fst).length (done ++ frames.map Prod.snd) := by
  induction frames generalizing front done with
  | nil =>
      rw [List.map_nil, List.append_nil, List.flatMap_nil, List.append_nil, List.length_nil,
        Nat.zero_add]
  | cons frame frames ih =>
      obtain ⟨used, v⟩ := frame
      have hsplit : front ++ ((used, v) :: frames).flatMap Prod.fst =
          front ++ used ++ frames.flatMap Prod.fst := by
        rw [List.flatMap_cons, List.append_assoc]
      rw [hsplit] at hlen ⊢
      have hitem : parseOne (used ++ (frames.flatMap Prod.fst ++ rest)) =
          .ok (some (v, used.length)) := by
        apply hone (used, v) List.mem_cons_self
        simp only [List.length_append] at hlen ⊢
        omega
      have hadd : usizeAdd front.length used.length = (front ++ used).length := by
        rw [List.length_append, usizeAdd_eq]
        simp only [List.length_append] at hlen
        unfold isizeMax at hlen
        omega
      have hfrom := sliceFrom_append front (used ++ (frames.flatMap Prod.fst ++ rest))
      have hrest := ih (fun w hw => hone w (List.mem_cons_of_mem _ hw)) (front ++ used)
        (done ++ [v]) hlen
      rw [List.length_cons, Nat.add_right_comm, parseItems]
      simp only [List.append_assoc] at hfrom hrest hitem ⊢
      simp only [hfrom, hitem]
      rw [hadd, hrest, List.map_cons, List.singleton_append]

/-- The loop returns when its count is used up. -/
theorem parseItems_readsAs {parseOne : Bytes → Parsed} {frames : List (Bytes × RespValue)}
    (hone : ∀ frame ∈ frames, ReadsAs parseOne frame.1 frame.2) (front rest : Bytes)
    (done : List RespValue) (hlen : (front ++ frames.flatMap Prod.fst ++ rest).length ≤ isizeMax) :
    parseItems parseOne (front ++ frames.flatMap Prod.fst ++ rest) frames.length front.length done =
      .ok (some (.array (done ++ frames.map Prod.snd),
        front.length + (frames.flatMap Prod.fst).length)) := by
  have hskip := parseItems_skip hone front rest 0 done hlen
  rw [Nat.add_zero, List.length_append] at hskip
  rw [hskip, parseItems]

theorem parseArray_readsAs {parseOne : Bytes → Parsed} {s : String} {count : Int64}
    {frames : List (Bytes × RespValue)} (hline : findCrlf (asBytes s) = none)
    (hparse : parseI64 s = some count) (hneg : ¬ count < 0)
    (hcount : frames.length = count.toInt.toNat) (halloc : frames.length * elemSize ≤ isizeMax)
    (hone : ∀ frame ∈ frames, ReadsAs parseOne frame.1 frame.2) :
    ReadsAs (parseArray elemSize parseOne) (42 :: asBytes s ++ crlf ++ frames.flatMap Prod.fst)
      (.array (frames.map Prod.snd)) := by
  intro rest hlen
  have hheader := length_line 42 (asBytes s)
  have hloop := parseItems_readsAs hone (42 :: asBytes s ++ crlf) rest [] hlen
  rw [hheader, List.append_assoc, List.nil_append] at hloop
  rw [List.append_assoc] at hlen
  rw [List.append_assoc, parseArray, withLine_append (by decide) hline hlen, hparse]
  simp only [if_neg hneg, ← hcount, if_neg (Nat.not_lt.mpr halloc), hloop]
  rw [List.length_append, hheader]

/-- An accepted string is read as its value. -/
theorem Accepted.readsAs {used : Bytes} {v : RespValue} (h : Accepted elemSize used v) :
    ReadsAs (parse elemSize) used v := by
  induction h with
  | simpleString hline =>
      intro rest hlen
      rw [parse_eq elemSize hlen]
      exact withLine_readsAs (by decide) hline hlen rfl
  | error hline =>
      intro rest hlen
      rw [parse_eq elemSize hlen]
      exact withLine_readsAs (by decide) hline hlen rfl
  | integer hline hparse =>
      intro rest hlen
      rw [parse_eq elemSize hlen]
      apply withLine_readsAs (by decide) hline hlen
      rw [hparse]
  | nilBulkString hline hparse hneg =>
      intro rest hlen
      rw [parse_eq elemSize hlen]
      apply withLine_readsAs (by decide) hline hlen
      simp only [hparse, if_pos hneg]
  | bulkString hline hparse hneg hdata htrailer =>
      intro rest hlen
      rw [parse_eq elemSize hlen]
      exact parseBulkString_readsAs hline hparse hneg hdata htrailer rest hlen
  | nilArray hline hparse hneg =>
      intro rest hlen
      rw [parse_eq elemSize hlen]
      apply withLine_readsAs (by decide) hline hlen
      simp only [hparse, if_pos hneg]
  | array hline hparse hneg hcount halloc hframes ih =>
      intro rest hlen
      rw [parse_eq elemSize hlen]
      exact parseArray_readsAs hline hparse hneg hcount halloc ih rest hlen

/-- `parse` returns a value exactly for the buffers that begin with an accepted string. -/
theorem parse_eq_some_iff {buf : Bytes} (hlen : buf.length ≤ isizeMax) {v : RespValue} {n : Nat} :
    parse elemSize buf = .ok (some (v, n)) ↔ AcceptsFront elemSize buf v n := by
  constructor
  · intro h
    exact parse_accepted elemSize hlen v n h
  · intro h
    obtain ⟨used, rest, rfl, rfl, haccepted⟩ := h
    exact haccepted.readsAs rest hlen

end MemLane
