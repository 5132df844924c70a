import Mathlib.Logic.Function.Basic
import Mathlib.Data.List.OfFn

/-!
# Slots

One slot of the arena (`slot.rs`): a state byte, the fingerprint of the key, the
expiry time, and two fixed-size buffers of which only a prefix is valid.
Nothing ever clears a buffer, so bytes of an earlier key or value stay behind
the prefix; `slice_copyFromSlice` is why they are never read in a sequential
execution.
-/

namespace MemLane

/-- A byte string: the source's `&[u8]` and `Vec<u8>`. -/
abbrev Bytes := List UInt8

/-- A fixed-size byte buffer `[u8; cap]`. -/
abbrev Buffer (cap : Nat) := Fin cap → UInt8

namespace Buffer

variable {cap : Nat}

/-- `buf[..src.len()].copy_from_slice(src)`: the bytes behind the copied prefix
stay. -/
def copyFromSlice (buf : Buffer cap) (src : Bytes) : Buffer cap :=
  fun i => src.getD i (buf i)

/-- `buf[..len.min(cap)].to_vec()`. -/
def slice (buf : Buffer cap) (len : Nat) : Bytes :=
  List.ofFn fun i : Fin (min len cap) => buf ⟨i, by omega⟩

/-- Reading back exactly the copied length gives the copied bytes, whatever the
buffer held before. -/
theorem slice_copyFromSlice (buf : Buffer cap) {src : Bytes} (h : src.length ≤ cap) :
    slice (copyFromSlice buf src) src.length = src := by
  have hlen : min src.length cap = src.length := Nat.min_eq_left h
  apply List.ext_getElem
  · simp [slice, hlen]
  · intro i h1 h2
    simp [slice, copyFromSlice, h2]

end Buffer

/-- Maximum key length in bytes. -/
def maxKeyLen : Nat := 128

/-- Maximum value length in bytes. -/
def maxValLen : Nat := 1024

def stateEmpty : UInt8 := 0

def stateOccupied : UInt8 := 1

/-- Deleted, but probing must continue past the slot. -/
def stateTombstone : UInt8 := 2

@[simp] theorem stateOccupied_ne_stateEmpty : stateOccupied ≠ stateEmpty := by decide

@[simp] theorem stateTombstone_ne_stateEmpty : stateTombstone ≠ stateEmpty := by decide

@[simp] theorem stateTombstone_ne_stateOccupied : stateTombstone ≠ stateOccupied := by decide

@[simp] theorem stateEmpty_ne_stateOccupied : stateEmpty ≠ stateOccupied := by decide

@[simp] theorem stateEmpty_ne_stateTombstone : stateEmpty ≠ stateTombstone := by decide

@[simp] theorem stateOccupied_ne_stateTombstone : stateOccupied ≠ stateTombstone := by decide

/-- A single key-value slot of the shared region. -/
structure Slot where
  state : UInt8
  fingerprint : UInt64
  expiresAtMs : UInt64
  keyLen : UInt64
  valLen : UInt64
  keyBuf : Buffer maxKeyLen
  valBuf : Buffer maxValLen

namespace Slot

variable (slot : Slot)

/-- `Slot::init`: the buffers keep whatever the region held. -/
def init : Slot :=
  { slot with state := stateEmpty, fingerprint := 0, expiresAtMs := 0, keyLen := 0, valLen := 0 }

def readKey : Bytes := slot.keyBuf.slice slot.keyLen.toNat

def readValue : Bytes := slot.valBuf.slice slot.valLen.toNat

/-- First half of `write_key`: copy at most `maxKeyLen` bytes. -/
def copyKey (key : Bytes) : Slot :=
  { slot with keyBuf := slot.keyBuf.copyFromSlice (key.take (min key.length maxKeyLen)) }

/-- Second half of `write_key`: store the length. -/
def storeKeyLen (key : Bytes) : Slot :=
  { slot with keyLen := UInt64.ofNat (min key.length maxKeyLen) }

def writeKey (key : Bytes) : Slot := (slot.copyKey key).storeKeyLen key

/-- First half of `write_value`: copy at most `maxValLen` bytes. -/
def copyValue (val : Bytes) : Slot :=
  { slot with valBuf := slot.valBuf.copyFromSlice (val.take (min val.length maxValLen)) }

/-- Second half of `write_value`: store the length. -/
def storeValLen (val : Bytes) : Slot :=
  { slot with valLen := UInt64.ofNat (min val.length maxValLen) }

def writeValue (val : Bytes) : Slot := (slot.copyValue val).storeValLen val

/-- `state.compare_exchange(expected, new, …)`: whether the exchange happened,
and the slot after it. -/
def compareExchange (expected new : UInt8) : Bool × Slot :=
  if slot.state = expected then (true, { slot with state := new }) else (false, slot)

variable {slot}

/-- A key of admissible length is read back as written. -/
@[simp] theorem readKey_writeKey {key : Bytes} (h : key.length ≤ maxKeyLen) :
    (slot.writeKey key).readKey = key := by
  have hlt : min key.length maxKeyLen < 2 ^ 64 := by unfold maxKeyLen at *; omega
  have hmin : min key.length maxKeyLen = key.length := Nat.min_eq_left h
  simp only [readKey, writeKey, storeKeyLen, copyKey, UInt64.toNat_ofNat_of_lt' hlt]
  rw [hmin, List.take_length]
  exact Buffer.slice_copyFromSlice _ h

/-- A value of admissible length is read back as written. -/
@[simp] theorem readValue_writeValue {val : Bytes} (h : val.length ≤ maxValLen) :
    (slot.writeValue val).readValue = val := by
  have hlt : min val.length maxValLen < 2 ^ 64 := by unfold maxValLen at *; omega
  have hmin : min val.length maxValLen = val.length := Nat.min_eq_left h
  simp only [readValue, writeValue, storeValLen, copyValue, UInt64.toNat_ofNat_of_lt' hlt]
  rw [hmin, List.take_length]
  exact Buffer.slice_copyFromSlice _ h

@[simp] theorem readValue_writeKey (key : Bytes) :
    (slot.writeKey key).readValue = slot.readValue := rfl

@[simp] theorem readKey_writeValue (val : Bytes) :
    (slot.writeValue val).readKey = slot.readKey := rfl

/-- Writing a key stores an admissible length, however long the key is. -/
theorem keyLen_writeKey_le (slot : Slot) (key : Bytes) :
    (slot.writeKey key).keyLen.toNat ≤ maxKeyLen := by
  have hlt : min key.length maxKeyLen < 2 ^ 64 := by unfold maxKeyLen; omega
  simp only [writeKey, storeKeyLen, UInt64.toNat_ofNat_of_lt' hlt]
  exact Nat.min_le_right _ _

theorem valLen_writeValue_le (slot : Slot) (val : Bytes) :
    (slot.writeValue val).valLen.toNat ≤ maxValLen := by
  have hlt : min val.length maxValLen < 2 ^ 64 := by unfold maxValLen; omega
  simp only [writeValue, storeValLen, UInt64.toNat_ofNat_of_lt' hlt]
  exact Nat.min_le_right _ _

end Slot

end MemLane
