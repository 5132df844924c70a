import MemLane.SipHash
import MemLane.SipReference

/-!
# `siphash` is SipHash-1-3

The program's `siphash` against the reference of `Sip`.  Three things differ: the program
runs the two halves of a round one after the other, it never builds the padded message
but assembles the last word from the remaining bytes by shifts, and it works on machine
words.  Each is compared by itself, and the theorem is the fold over the words.
-/

namespace MemLane

/-! ## Rounds -/

/-- The lanes of the program's state. -/
def SipState.lanes (s : SipState) : Sip.Lanes :=
  ⟨s.v0.toBitVec, s.v1.toBitVec, s.v2.toBitVec, s.v3.toBitVec⟩

theorem rotateLeft_toBitVec (x : UInt64) {k : UInt64} (hpos : 0 < k.toNat) (hlt : k.toNat < 64) :
    (rotateLeft x k).toBitVec = x.toBitVec.rotateLeft k.toNat := by
  have hle : k ≤ 64 := UInt64.le_iff_toNat_le.mpr hlt.le
  have hback : (64 - k).toNat = 64 - k.toNat := UInt64.toNat_sub_of_le 64 k hle
  have hleft : (k.toBitVec % 64).toNat = k.toNat := Nat.mod_eq_of_lt hlt
  have hright : ((64 - k).toBitVec % 64).toNat = 64 - k.toNat := by
    have hmod : ((64 - k).toBitVec % 64).toNat = (64 - k).toNat % 64 := rfl
    rw [hmod, hback]
    exact Nat.mod_eq_of_lt (by omega)
  rw [rotateLeft, UInt64.toBitVec_or, UInt64.toBitVec_shiftLeft, UInt64.toBitVec_shiftRight,
    BitVec.shiftLeft_eq', BitVec.ushiftRight_eq', hleft, hright, BitVec.rotateLeft_def,
    Nat.mod_eq_of_lt hlt]

/-- The halves of a round do not meet before the last four operations. -/
theorem sipRound_lanes (s : SipState) : (sipRound s).lanes = Sip.round s.lanes := by
  have h13 := fun x => rotateLeft_toBitVec x (k := 13) (by decide) (by decide)
  have h16 := fun x => rotateLeft_toBitVec x (k := 16) (by decide) (by decide)
  have h17 := fun x => rotateLeft_toBitVec x (k := 17) (by decide) (by decide)
  have h21 := fun x => rotateLeft_toBitVec x (k := 21) (by decide) (by decide)
  have h32 := fun x => rotateLeft_toBitVec x (k := 32) (by decide) (by decide)
  simp only [SipState.lanes, sipRound, UInt64.toBitVec_add, UInt64.toBitVec_xor, h13, h16, h17, h21,
    h32]
  rfl

theorem sipInit_lanes :
    sipInit.lanes = Sip.init 0x736f6d6570736575 0x646f72616e646f6d := rfl

theorem sipCompress_lanes (s : SipState) (m : UInt64) :
    (sipCompress s m).lanes = Sip.compress 1 s.lanes m.toBitVec := by
  have hround := sipRound_lanes { s with v3 := s.v3 ^^^ m }
  have hlanes : (sipCompress s m).lanes =
      { (sipRound { s with v3 := s.v3 ^^^ m }).lanes with
        v0 := (sipRound { s with v3 := s.v3 ^^^ m }).lanes.v0 ^^^ m.toBitVec } := rfl
  rw [hlanes, hround]
  rfl

/-- The last steps of `siphash`, from the state behind the last word. -/
theorem finish_lanes (s : SipState) :
    let f := sipRound (sipRound (sipRound { s with v2 := s.v2 ^^^ 0xff }))
    (f.v0 ^^^ f.v1 ^^^ f.v2 ^^^ f.v3).toBitVec = Sip.finish 3 s.lanes := by
  intro f
  have hf : f.lanes = Sip.rounds 3 { s.lanes with v2 := s.lanes.v2 ^^^ 0xff } := by
    rw [sipRound_lanes, sipRound_lanes, sipRound_lanes]
    rfl
  have hxor : (f.v0 ^^^ f.v1 ^^^ f.v2 ^^^ f.v3).toBitVec =
      f.lanes.v0 ^^^ f.lanes.v1 ^^^ f.lanes.v2 ^^^ f.lanes.v3 := rfl
  rw [hxor, hf]
  rfl

theorem foldl_sipCompress_lanes (ms : List UInt64) (s : SipState) :
    (ms.foldl sipCompress s).lanes =
      (ms.map UInt64.toBitVec).foldl (Sip.compress 1) s.lanes := by
  induction ms generalizing s with
  | nil => rfl
  | cons m ms ih => rw [List.foldl_cons, ih, sipCompress_lanes, List.map_cons, List.foldl_cons]

/-! ## Words -/

theorem ofNat_shiftLeft (n k : Nat) : BitVec.ofNat 64 n <<< k = BitVec.ofNat 64 (n <<< k) := by
  apply BitVec.eq_of_toNat_eq
  rw [BitVec.toNat_shiftLeft, BitVec.toNat_ofNat, BitVec.toNat_ofNat, Nat.shiftLeft_eq,
    Nat.shiftLeft_eq, Nat.mod_mul_mod]

theorem toUInt64_toBitVec (b : UInt8) : b.toUInt64.toBitVec = BitVec.ofNat 64 b.toNat := by
  have hb : b.toNat < 2 ^ 8 := b.toNat_lt
  apply BitVec.eq_of_toNat_eq
  rw [BitVec.toNat_ofNat, Nat.mod_eq_of_lt (by omega)]
  rfl

/-- Shifting a number up and joining a byte is one step of the little-endian value. -/
theorem ofNat_step (b : UInt8) (n : Nat) :
    BitVec.ofNat 64 n <<< 8 ||| b.toUInt64.toBitVec = BitVec.ofNat 64 (b.toNat + 256 * n) := by
  have hb : b.toNat < 2 ^ 8 := b.toNat_lt
  have hjoin : b.toNat + 256 * n = n <<< 8 ||| b.toNat := by
    rw [← Nat.shiftLeft_add_eq_or_of_lt hb, Nat.shiftLeft_eq]
    omega
  rw [hjoin, BitVec.ofNat_or, ofNat_shiftLeft, toUInt64_toBitVec]

theorem fromLeBytes_toBitVec (bytes : Bytes) :
    (fromLeBytes bytes).toBitVec = Sip.word bytes := by
  induction bytes with
  | nil => rfl
  | cons b bytes ih =>
      have hstep : (fromLeBytes (b :: bytes)).toBitVec =
          (fromLeBytes bytes).toBitVec <<< 8 ||| b.toUInt64.toBitVec := rfl
      rw [hstep, ih, Sip.word, ofNat_step]
      rfl

/-- A byte in its place within the last word. -/
theorem byteShift_toBitVec (b : UInt8) {i : Nat} (hi : i < 8) :
    (b.toUInt64 <<< UInt64.ofNat (i * 8)).toBitVec = b.toUInt64.toBitVec <<< (8 * i) := by
  have hlt : i * 8 < 2 ^ 64 := by omega
  have hamount : ((UInt64.ofNat (i * 8)).toBitVec % 64).toNat = 8 * i := by
    have hmod : ((UInt64.ofNat (i * 8)).toBitVec % 64).toNat =
        (UInt64.ofNat (i * 8)).toNat % 64 := rfl
    rw [hmod, UInt64.toNat_ofNat_of_lt' hlt]
    omega
  rw [UInt64.toBitVec_shiftLeft, BitVec.shiftLeft_eq', hamount]

/-- The loop over the remaining bytes joins their value to the word, `i` bytes up. -/
theorem foldl_lastWord (rest : Bytes) (acc : UInt64) {i : Nat} (hi : i + rest.length ≤ 8) :
    ((rest.zipIdx i).foldl
        (fun last (byte, i) => last ||| (byte.toUInt64 <<< UInt64.ofNat (i * 8))) acc).toBitVec =
      acc.toBitVec ||| BitVec.ofNat 64 (Sip.ofBytes rest) <<< (8 * i) := by
  induction rest generalizing acc i with
  | nil => rw [List.zipIdx_nil, List.foldl_nil, Sip.ofBytes, BitVec.zero_shiftLeft, BitVec.or_zero]
  | cons b rest ih =>
      rw [List.length_cons] at hi
      rw [List.zipIdx_cons, List.foldl_cons, ih _ (by omega), UInt64.toBitVec_or,
        byteShift_toBitVec b (by omega), Sip.ofBytes, ← ofNat_step, BitVec.shiftLeft_or_distrib,
        ← BitVec.shiftLeft_add, BitVec.or_assoc, Nat.mul_add, Nat.add_comm (8 * i),
        BitVec.or_comm (b.toUInt64.toBitVec <<< (8 * i))]

/-- The length byte stands on top. -/
theorem lengthByte_toBitVec (len : Nat) :
    ((UInt64.ofNat len &&& 0xff) <<< 56).toBitVec = BitVec.ofNat 64 ((len % 256) <<< 56) := by
  have hlow : (UInt64.ofNat len &&& 0xff).toBitVec = BitVec.ofNat 64 (len % 256) := by
    apply BitVec.eq_of_toNat_eq
    have hand : (UInt64.ofNat len &&& 0xff).toBitVec.toNat = len % 2 ^ 64 &&& 2 ^ 8 - 1 := rfl
    rw [hand, Nat.and_two_pow_sub_one_eq_mod, BitVec.toNat_ofNat]
    omega
  rw [UInt64.toBitVec_shiftLeft, hlow, ← ofNat_shiftLeft]
  rfl

/-- The word that the program assembles is the last one of the padded message. -/
theorem sipLastWord_toBitVec {len : Nat} {rest : Bytes} (hrest : rest.length = len % 8) :
    (sipLastWord len rest).toBitVec = Sip.word (rest ++ Sip.padding len) := by
  have hvalue : Sip.ofBytes (rest ++ Sip.padding len) =
      (len % 256) <<< 56 ||| Sip.ofBytes rest := by
    have hlt : Sip.ofBytes rest < 2 ^ 56 := by
      have hbound := Sip.ofBytes_lt rest
      have hpow : 256 ^ rest.length ≤ 256 ^ 7 := Nat.pow_le_pow_right (by omega) (by omega)
      omega
    have htop : Sip.ofBytes (Sip.padding len) = 256 ^ (7 - len % 8) * (len % 256) := by
      have hbyte : len % 256 < 2 ^ 8 := Nat.mod_lt _ (by omega)
      rw [Sip.padding, Sip.ofBytes_append, Sip.ofBytes_replicate_zero, List.length_replicate,
        Sip.ofBytes, Sip.ofBytes, UInt8.toNat_ofNat_of_lt' hbyte, Nat.mul_zero, Nat.add_zero,
        Nat.zero_add]
    rw [← Nat.shiftLeft_add_eq_or_of_lt hlt, Sip.ofBytes_append, htop, ← Nat.mul_assoc,
      ← Nat.pow_add, hrest, Nat.shiftLeft_eq]
    have hexp : len % 8 + (7 - len % 8) = 7 := by omega
    rw [hexp]
    omega
  rw [sipLastWord, foldl_lastWord rest _ (by omega), lengthByte_toBitVec, Sip.word, hvalue,
    BitVec.ofNat_or, Nat.mul_zero, BitVec.shiftLeft_zero]

/-! ## The message -/

/-- Behind whole chunks and a remainder, whatever fills the last word. -/
theorem words_chunksExact (data : Bytes) {tail : Bytes}
    (htail : ((chunksExact data).2 ++ tail).length = 8) :
    Sip.words (data ++ tail) =
      (chunksExact data).1.map Sip.word ++ [Sip.word ((chunksExact data).2 ++ tail)] := by
  fun_induction chunksExact data with
  | case1 b0 b1 b2 b3 b4 b5 b6 b7 rest chunks remainder hrest ih =>
      rw [hrest] at ih
      exact congrArg (Sip.word [b0, b1, b2, b3, b4, b5, b6, b7] :: ·) (ih htail)
  | case2 remainder => exact Sip.words_of_length _ htail

/-- Fewer than eight bytes remain. -/
theorem length_remainder (data : Bytes) : (chunksExact data).2.length = data.length % 8 := by
  fun_induction chunksExact data with
  | case1 b0 b1 b2 b3 b4 b5 b6 b7 rest chunks remainder hrest ih =>
      rw [hrest] at ih
      have hlen : remainder.length = rest.length % 8 := ih
      simp only [List.length_cons]
      omega
  | case2 remainder hshort =>
      match remainder, hshort with
      | [], _ | [_], _ | [_, _], _ | [_, _, _], _ | [_, _, _, _], _ | [_, _, _, _, _], _
      | [_, _, _, _, _, _], _ | [_, _, _, _, _, _, _], _ => rfl
      | b0 :: b1 :: b2 :: b3 :: b4 :: b5 :: b6 :: b7 :: rest, hshort =>
          exact absurd rfl (hshort b0 b1 b2 b3 b4 b5 b6 b7 rest)

/-- **`siphash` is SipHash-1-3** under the key that the code fixes, on messages of every
length. -/
theorem siphash_eq_reference (data : Bytes) :
    (siphash data).toBitVec = Sip.hash 1 3 0x736f6d6570736575 0x646f72616e646f6d data := by
  have hrest := length_remainder data
  have htail : ((chunksExact data).2 ++ Sip.padding data.length).length = 8 := by
    rw [List.length_append, hrest, Sip.length_padding]
    omega
  have hlast := sipLastWord_toBitVec hrest
  rw [Sip.hash, words_chunksExact data htail, List.foldl_append, ← hlast]
  unfold siphash
  generalize chunksExact data = split
  obtain ⟨chunks, remainder⟩ := split
  have hchunks : chunks.map Sip.word = (chunks.map fromLeBytes).map UInt64.toBitVec := by
    rw [List.map_map]
    exact List.map_congr_left fun chunk _ => (fromLeBytes_toBitVec chunk).symm
  rw [hchunks, ← sipInit_lanes, ← foldl_sipCompress_lanes, List.foldl_map, List.foldl_cons,
    List.foldl_nil, ← sipCompress_lanes]
  exact finish_lanes _

end MemLane
