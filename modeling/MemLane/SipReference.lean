import Mathlib.Algebra.Group.Nat.Defs
import Mathlib.Data.List.Basic

/-!
# SipHash

The pseudorandom function SipHash-c-d on byte strings, over 64-bit vectors.  A message
is padded with zero bytes to seven modulo eight, its length modulo 256 is appended as
the last byte, and the result is read as little-endian words.  Each word is
compressed with `c` rounds; `d` rounds finish.

The round is the published one, with its two halves interleaved.
-/

namespace Sip

/-- The four lanes of the state. -/
structure Lanes where
  v0 : BitVec 64
  v1 : BitVec 64
  v2 : BitVec 64
  v3 : BitVec 64

/-- `SipRound`, in the published order of its fourteen operations. -/
def round (v : Lanes) : Lanes :=
  let v0 := v.v0 + v.v1
  let v2 := v.v2 + v.v3
  let v1 := v.v1.rotateLeft 13
  let v3 := v.v3.rotateLeft 16
  let v1 := v1 ^^^ v0
  let v3 := v3 ^^^ v2
  let v0 := v0.rotateLeft 32
  let v2 := v2 + v1
  let v0 := v0 + v3
  let v1 := v1.rotateLeft 17
  let v3 := v3.rotateLeft 21
  let v1 := v1 ^^^ v2
  let v3 := v3 ^^^ v0
  let v2 := v2.rotateLeft 32
  ⟨v0, v1, v2, v3⟩

def rounds : Nat → Lanes → Lanes
  | 0, v => v
  | n + 1, v => rounds n (round v)

def init (k0 k1 : BitVec 64) : Lanes :=
  { v0 := k0 ^^^ 0x736f6d6570736575
    v1 := k1 ^^^ 0x646f72616e646f6d
    v2 := k0 ^^^ 0x6c7967656e657261
    v3 := k1 ^^^ 0x7465646279746573 }

/-- Compress one message word. -/
def compress (c : Nat) (v : Lanes) (m : BitVec 64) : Lanes :=
  let v := rounds c { v with v3 := v.v3 ^^^ m }
  { v with v0 := v.v0 ^^^ m }

def finish (d : Nat) (v : Lanes) : BitVec 64 :=
  let v := rounds d { v with v2 := v.v2 ^^^ 0xff }
  v.v0 ^^^ v.v1 ^^^ v.v2 ^^^ v.v3

/-! ## The message as words -/

/-- The number that a byte string denotes, least significant byte first. -/
def ofBytes : List UInt8 → Nat
  | [] => 0
  | b :: bytes => b.toNat + 256 * ofBytes bytes

/-- The word that eight bytes denote. -/
def word (bytes : List UInt8) : BitVec 64 := BitVec.ofNat 64 (ofBytes bytes)

/-- The words of a byte string whose length is a multiple of eight. -/
def words : List UInt8 → List (BitVec 64)
  | b0 :: b1 :: b2 :: b3 :: b4 :: b5 :: b6 :: b7 :: rest =>
      word [b0, b1, b2, b3, b4, b5, b6, b7] :: words rest
  | _ => []

/-- The last bytes of the padded message: zeros to seven modulo eight, and the length. -/
def padding (length : Nat) : List UInt8 :=
  List.replicate (7 - length % 8) 0 ++ [UInt8.ofNat (length % 256)]

/-- `SipHash-c-d` under the key `(k0, k1)`. -/
def hash (c d : Nat) (k0 k1 : BitVec 64) (message : List UInt8) : BitVec 64 :=
  finish d ((words (message ++ padding message.length)).foldl (compress c) (init k0 k1))

/-- The published test vector of SipHash-2-4: fifteen bytes under the key of sixteen. -/
example :
    hash 2 4 0x0706050403020100 0x0f0e0d0c0b0a0908 [0, 1, 2, 3, 4, 5, 6, 7, 8, 9, 10, 11, 12, 13, 14]
      = 0xa129ca6149be45e5 := by
  decide +kernel

variable {length : Nat}

theorem length_padding : (padding length).length = 8 - length % 8 := by
  rw [padding, List.length_append, List.length_replicate, List.length_singleton]
  omega

theorem ofBytes_append (front back : List UInt8) :
    ofBytes (front ++ back) = ofBytes front + 256 ^ front.length * ofBytes back := by
  induction front with
  | nil => rw [List.nil_append, ofBytes, List.length_nil, Nat.pow_zero, Nat.zero_add, Nat.one_mul]
  | cons b front ih =>
      rw [List.cons_append, ofBytes, ih, ofBytes, List.length_cons, Nat.pow_succ',
        Nat.mul_add, Nat.mul_assoc, Nat.add_assoc]

theorem ofBytes_replicate_zero (n : Nat) : ofBytes (List.replicate n 0) = 0 := by
  induction n with
  | zero => rfl
  | succ n ih =>
      rw [List.replicate_succ, ofBytes, ih]
      rfl

theorem ofBytes_lt (bytes : List UInt8) : ofBytes bytes < 256 ^ bytes.length := by
  induction bytes with
  | nil => exact Nat.one_pos
  | cons b bytes ih =>
      have hb : b.toNat < 256 := b.toNat_lt
      rw [ofBytes, List.length_cons, Nat.pow_succ]
      omega

/-- Eight bytes are one word. -/
theorem words_of_length : ∀ bytes : List UInt8, bytes.length = 8 → words bytes = [word bytes]
  | [_, _, _, _, _, _, _, _], _ => rfl

end Sip
