import MemLane.AcceptedFrames
import MemLane.Framing

/-!
# More input

The parser looks at nothing behind the frame that it returns, and a buffer in which it has
found an error keeps it whatever is appended.  So more input changes no result but
`Ok(None)`, and draining a stream does not depend on the pieces in which it arrives.
-/

namespace MemLane

variable {elemSize : Nat}

/-! ## Values stay -/

/-- More input does not change a value that was returned. -/
theorem parse_append_some {buf ext : Bytes} {v : RespValue} {n : Nat}
    (hlen : (buf ++ ext).length ≤ isizeMax) (h : parse elemSize buf = .ok (some (v, n))) :
    parse elemSize (buf ++ ext) = .ok (some (v, n)) := by
  rw [List.length_append] at hlen
  obtain ⟨used, rest, rfl, rfl, haccepted⟩ := parse_accepted elemSize (by omega) v n h
  rw [List.append_assoc]
  apply haccepted.readsAs
  simp only [List.length_append] at hlen ⊢
  omega

/-! ## Errors stay -/

/-- More input behind a line that is complete does not change the line. -/
theorem findCrlf_append_some {buf : Bytes} {pos : Nat} (h : findCrlf buf = some pos)
    (ext : Bytes) : findCrlf (buf ++ ext) = some pos := by
  obtain ⟨line, rest, rfl, rfl, hline⟩ := findCrlf_some h
  rw [List.append_assoc]
  exact findCrlf_append (rest ++ ext) hline

theorem slice_append_right {buf : Bytes} {lo hi : Nat} (hhi : hi ≤ buf.length) (ext : Bytes) :
    slice (buf ++ ext) lo hi = slice buf lo hi := by
  have hhi' : hi ≤ (buf ++ ext).length := by
    rw [List.length_append]
    omega
  rw [slice, slice, List.take_append_of_le_length hhi]
  by_cases hlo : lo ≤ hi
  · rw [if_pos ⟨hlo, hhi'⟩, if_pos ⟨hlo, hhi⟩]
  · rw [if_neg (fun h => hlo h.1), if_neg (fun h => hlo h.1)]

theorem parseLine_append_right {buf : Bytes} (h : parseLine buf ≠ .error (.err .incomplete))
    (ext : Bytes) : parseLine (buf ++ ext) = parseLine buf := by
  cases hfind : findCrlf buf with
  | none => exact absurd (by rw [parseLine, hfind]) h
  | some pos =>
      have hpos : pos ≤ buf.length := by
        obtain ⟨line, rest, rfl, rfl, _⟩ := findCrlf_some hfind
        simp only [List.length_append]
        omega
      rw [parseLine, parseLine, hfind, findCrlf_append_some hfind]
      simp only [slice_append_right hpos]

/-- An error of a typed parser, found in the line or behind it. -/
theorem withLine_append_error {buf ext : Bytes} {f g : String → Nat → Parsed} {fault : Fault}
    (hfg : ∀ line consumed, parseLine buf = .ok (line, consumed) →
      f line consumed = .error fault → g line consumed = .error fault)
    (h : withLine buf f = .error fault) : withLine (buf ++ ext) g = .error fault := by
  unfold withLine at h
  cases hline : parseLine buf with
  | error e =>
      have hcomplete : parseLine buf ≠ .error (.err .incomplete) := by
        intro hincomplete
        rw [hincomplete] at h
        cases h
      rw [withLine, parseLine_append_right hcomplete, hline]
      rw [hline] at h
      cases e with
      | panic => exact h
      | err e =>
          cases e with
          | incomplete => cases h
          | protocol msg => exact h
  | ok found =>
      obtain ⟨line, consumed⟩ := found
      have hcomplete : parseLine buf ≠ .error (.err .incomplete) := by
        rw [hline]
        intro hincomplete
        cases hincomplete
      rw [withLine, parseLine_append_right hcomplete, hline]
      rw [hline] at h
      exact hfg line consumed hline h

/-- A `BulkString` in range fails in its header line only. -/
theorem parseBulkString_append_error {buf ext : Bytes} {fault : Fault}
    (hhead : buf.head? = some 36) (hlen : (buf ++ ext).length ≤ isizeMax) (hext : ext ≠ [])
    (h : parseBulkString buf = .error fault) : parseBulkString (buf ++ ext) = .error fault := by
  have hpos := List.length_pos_iff.mpr hext
  rw [List.length_append] at hlen
  refine withLine_append_error ?_ h
  intro line consumed hline hfail
  obtain ⟨rest, rfl, hcrlf, rfl⟩ := parseLine_ok hhead (by decide) (by omega) hline
  split at hfail
  · exact hfail
  · next len hparse =>
      split at hfail
      · cases hfail
      · next hneg =>
          exfalso
          rw [parseBulkString_line hcrlf hparse hneg (by omega)] at h
          have hsize : (36 :: asBytes line ++ crlf ++ rest).length =
              (asBytes line).length + 3 + rest.length := by
            rw [List.length_append, length_line]
          have hmax := len.toInt_lt
          unfold isizeMax at hlen
          -- something follows the buffer, so the sum for the payload and CR LF does not wrap
          rw [if_neg (by omega)] at h
          split at h
          · cases h
          · cases h

/-- An error in an item is found again, behind the same items. -/
theorem parseItems_append_error {buf ext : Bytes} {fault : Fault}
    (hlen : (buf ++ ext).length ≤ isizeMax)
    (hone : ∀ rest : Bytes, rest.length < buf.length →
      parse elemSize rest = .error fault → parse elemSize (rest ++ ext) = .error fault)
    {count offset : Nat} {done : List RespValue} (hpos : 0 < offset)
    (hoffset : offset ≤ buf.length)
    (h : parseItems (parse elemSize) buf count offset done = .error fault) :
    parseItems (parse elemSize) (buf ++ ext) count offset done = .error fault := by
  have hbound := hlen
  rw [List.length_append] at hbound
  induction count generalizing offset done with
  | zero => cases h
  | succ count ih =>
      have hdrop : (buf.drop offset).length = buf.length - offset := List.length_drop
      have hoffset' : offset ≤ (buf ++ ext).length := by
        rw [List.length_append]
        omega
      rw [parseItems, sliceFrom, if_pos hoffset] at h
      rw [parseItems, sliceFrom, if_pos hoffset', List.drop_append_of_le_length hoffset]
      simp only at h ⊢
      split at h
      · next e hval =>
          cases h
          rw [hone _ (by omega) hval]
      · cases h
      · next val consumed hval =>
          have hfront := parse_accepted elemSize (by omega) val consumed hval
          obtain ⟨hadd, hle, _⟩ := hfront.next (by omega) hoffset
          have hlonger : (buf.drop offset ++ ext).length ≤ isizeMax := by
            rw [List.length_append]
            omega
          rw [hadd] at h
          rw [parse_append_some hlonger hval]
          simp only [hadd]
          exact ih (by omega) (by omega) h

theorem parseArray_append_error {buf ext : Bytes} {fault : Fault}
    (hhead : buf.head? = some 42) (hlen : (buf ++ ext).length ≤ isizeMax)
    (hone : ∀ rest : Bytes, rest.length < buf.length →
      parse elemSize rest = .error fault → parse elemSize (rest ++ ext) = .error fault)
    (h : parseArray elemSize (parse elemSize) buf = .error fault) :
    parseArray elemSize (parse elemSize) (buf ++ ext) = .error fault := by
  refine withLine_append_error ?_ h
  intro line consumed hline hfail
  have hbuf : buf.length ≤ isizeMax := by
    rw [List.length_append] at hlen
    omega
  obtain ⟨rest, heq, _, rfl⟩ := parseLine_ok hhead (by decide) hbuf hline
  have hsize : buf.length = (asBytes line).length + 3 + rest.length := by
    rw [heq, List.length_append, length_line]
  split at hfail
  · exact hfail
  · next count hparse =>
      split at hfail
      · cases hfail
      · next hneg =>
          rw [if_neg hneg]
          simp only at hfail ⊢
          split at hfail
          · next hcap =>
              rw [if_pos hcap]
              exact hfail
          · next hcap =>
              rw [if_neg hcap]
              have hpos : 0 < (asBytes line).length + 3 := Nat.succ_pos _
              exact parseItems_append_error hlen hone hpos (by omega) hfail

/-- More input does not change an error, nor a panic. -/
theorem parse_append_error {buf ext : Bytes} {fault : Fault}
    (hlen : (buf ++ ext).length ≤ isizeMax) (h : parse elemSize buf = .error fault) :
    parse elemSize (buf ++ ext) = .error fault := by
  by_cases hext : ext = []
  · rw [hext, List.append_nil]
    exact h
  induction hsize : buf.length using Nat.strongRecOn generalizing buf with
  | ind size ih =>
      subst hsize
      have hbound := hlen
      rw [List.length_append] at hbound
      have hone : ∀ rest : Bytes, rest.length < buf.length →
          parse elemSize rest = .error fault → parse elemSize (rest ++ ext) = .error fault := by
        intro rest hrest hfail
        apply ih rest.length hrest ?_ hfail rfl
        rw [List.length_append]
        omega
      rw [parse_eq elemSize (by omega)] at h
      rw [parse_eq elemSize hlen]
      cases buf with
      | nil => cases h
      | cons tag body =>
          unfold parseBody at h ⊢
          rw [List.cons_append, List.head?_cons]
          rw [List.head?_cons] at h
          split at h
          · cases h
          · next hhead =>
              obtain rfl := Option.some.inj hhead
              exact withLine_append_error (fun _ _ _ hfail => hfail) h
          · next hhead =>
              obtain rfl := Option.some.inj hhead
              exact withLine_append_error (fun _ _ _ hfail => hfail) h
          · next hhead =>
              obtain rfl := Option.some.inj hhead
              exact withLine_append_error (fun _ _ _ hfail => hfail) h
          · next hhead =>
              obtain rfl := Option.some.inj hhead
              exact parseBulkString_append_error rfl hlen hext h
          · next hhead =>
              obtain rfl := Option.some.inj hhead
              exact parseArray_append_error rfl hlen hone h
          · exact h

/-! ## Streams

A stream may be longer than a buffer.  What `parse` finds in the part that a buffer can
hold is stable without a bound. -/

/-- `parse` on the part of the input that a buffer can hold. -/
def parseFront (elemSize : Nat) (buf : Bytes) : Parsed := parse elemSize (buf.take isizeMax)

theorem parseFront_eq (elemSize : Nat) {buf : Bytes} (hlen : buf.length ≤ isizeMax) :
    parseFront elemSize buf = parse elemSize buf := by
  rw [parseFront, List.take_of_length_le hlen]

theorem length_take_isizeMax (buf : Bytes) : (buf.take isizeMax).length ≤ isizeMax := by
  rw [List.length_take]
  exact Nat.min_le_left _ _

theorem parseFront_stable (elemSize : Nat) : Framing.Stable (parseFront elemSize) where
  pos := by
    intro buf v n h
    obtain ⟨used, _, _, rfl, haccepted⟩ := parse_accepted elemSize (length_take_isizeMax _) v n h
    exact Nat.lt_of_lt_of_le (by decide) haccepted.three_le_length
  le := by
    intro buf v n h
    obtain ⟨used, back, hsplit, rfl, _⟩ := parse_accepted elemSize (length_take_isizeMax _) v n h
    have hle := congrArg List.length hsplit
    rw [List.length_take, List.length_append] at hle
    omega
  item := by
    intro buf v n h ext
    have hlen := length_take_isizeMax (buf ++ ext)
    rw [parseFront, List.take_append] at *
    exact parse_append_some hlen h
  error := by
    intro buf e h ext
    have hlen := length_take_isizeMax (buf ++ ext)
    rw [parseFront, List.take_append] at *
    exact parse_append_error hlen h

end MemLane
