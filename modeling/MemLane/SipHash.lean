import MemLane.Slot

/-!
# SipHash as the program computes it

`sip_round` and `siphash` of `hashmap.rs`, statement by statement.  The map
operations take the fingerprint function as a parameter; this is the one the
program runs with.
-/

namespace MemLane

/-- The four lanes `v0`, `v1`, `v2`, `v3`. -/
structure SipState where
  v0 : UInt64
  v1 : UInt64
  v2 : UInt64
  v3 : UInt64

/-- `u64::rotate_left`, for `0 < k < 64`. -/
def rotateLeft (x k : UInt64) : UInt64 := (x <<< k) ||| (x >>> (64 - k))

def sipRound (s : SipState) : SipState :=
  let v0 := s.v0 + s.v1
  let v1 := rotateLeft s.v1 13
  let v1 := v1 ^^^ v0
  let v0 := rotateLeft v0 32
  let v2 := s.v2 + s.v3
  let v3 := rotateLeft s.v3 16
  let v3 := v3 ^^^ v2
  let v0 := v0 + v3
  let v3 := rotateLeft v3 21
  let v3 := v3 ^^^ v0
  let v2 := v2 + v1
  let v1 := rotateLeft v1 17
  let v1 := v1 ^^^ v2
  let v2 := rotateLeft v2 32
  ⟨v0, v1, v2, v3⟩

/-- `u64::from_le_bytes`. -/
def fromLeBytes (bytes : Bytes) : UInt64 :=
  bytes.foldr (fun b acc => (acc <<< 8) ||| b.toUInt64) 0

/-- `data.chunks_exact(8)`: the whole chunks, and the remainder. -/
def chunksExact : Bytes → List Bytes × Bytes
  | b0 :: b1 :: b2 :: b3 :: b4 :: b5 :: b6 :: b7 :: rest =>
      let (chunks, remainder) := chunksExact rest
      ([b0, b1, b2, b3, b4, b5, b6, b7] :: chunks, remainder)
  | remainder => ([], remainder)

/-- Fold one message word into the state. -/
def sipCompress (s : SipState) (m : UInt64) : SipState :=
  let s := sipRound { s with v3 := s.v3 ^^^ m }
  { s with v0 := s.v0 ^^^ m }

/-- The last word: the remaining bytes, with the length in the top byte. -/
def sipLastWord (len : Nat) (remainder : Bytes) : UInt64 :=
  remainder.zipIdx.foldl (fun last (byte, i) => last ||| (byte.toUInt64 <<< UInt64.ofNat (i * 8)))
    ((UInt64.ofNat len &&& 0xff) <<< 56)

def sipInit : SipState :=
  let k0 : UInt64 := 0x736f6d6570736575
  let k1 : UInt64 := 0x646f72616e646f6d
  { v0 := k0 ^^^ 0x736f6d6570736575
    v1 := k1 ^^^ 0x646f72616e646f6d
    v2 := k0 ^^^ 0x6c7967656e657261
    v3 := k1 ^^^ 0x7465646279746573 }

def siphash (data : Bytes) : UInt64 :=
  let (chunks, remainder) := chunksExact data
  let s := chunks.foldl (fun s chunk => sipCompress s (fromLeBytes chunk)) sipInit
  let s := sipCompress s (sipLastWord data.length remainder)
  let s := { s with v2 := s.v2 ^^^ 0xff }
  let s := sipRound (sipRound (sipRound s))
  s.v0 ^^^ s.v1 ^^^ s.v2 ^^^ s.v3

end MemLane
