import MemLane.Slot
import MemLane.Decimal

/-!
# Text

Strings are UTF-8 byte strings, as in the source: `asBytes` and `fromUtf8` go
from one to the other, and a string parses as an integer by its bytes.
-/

namespace MemLane

/-- `String::from_utf8` and `str::from_utf8`. -/
def fromUtf8 (bytes : Bytes) : Option String := String.fromUTF8? ⟨bytes.toArray⟩

/-- `as_bytes`. -/
def asBytes (s : String) : Bytes := s.toByteArray.data.toList

/-- `parse::<u64>`: digits with an optional plus, in range. -/
def parseU64 (s : String) : Option UInt64 :=
  match Decimal.readNat (asBytes s) with
  | some n => if n < 2 ^ 64 then some (UInt64.ofNat n) else none
  | none => none

/-- `parse::<i64>`: digits with an optional sign, in range. -/
def parseI64 (s : String) : Option Int64 :=
  match Decimal.readInt (asBytes s) with
  | some z => if -2 ^ 63 ≤ z ∧ z < 2 ^ 63 then some (Int64.ofInt z) else none
  | none => none

variable {bytes : Bytes} {s : String}

/-- Decoding inverts `asBytes`. -/
theorem fromUtf8_eq_some_iff : fromUtf8 bytes = some s ↔ asBytes s = bytes := by
  constructor
  · intro h
    unfold fromUtf8 String.fromUTF8? at h
    split at h
    · obtain rfl := Option.some.inj h
      exact List.toList_toArray
    · cases h
  · intro h
    have hbytes : s.toByteArray = ⟨bytes.toArray⟩ := by
      refine ByteArray.ext ?_
      rw [← h, asBytes, Array.toArray_toList]
    have hvalid : ByteArray.IsValidUTF8 ⟨bytes.toArray⟩ := hbytes ▸ s.isValidUTF8
    unfold fromUtf8 String.fromUTF8?
    rw [dif_pos hvalid, Option.some_inj]
    exact String.toByteArray_inj.mp hbytes.symm

@[simp] theorem fromUtf8_asBytes (s : String) : fromUtf8 (asBytes s) = some s :=
  fromUtf8_eq_some_iff.mpr rfl

theorem asBytes_injective : Function.Injective asBytes := by
  intro a b h
  have hb := fromUtf8_asBytes b
  rw [← h, fromUtf8_asBytes] at hb
  exact Option.some.inj hb

/-- ASCII bytes are valid UTF-8. -/
theorem isValidUTF8_of_ascii (h : ∀ b ∈ bytes, b < 128) :
    ByteArray.IsValidUTF8 ⟨bytes.toArray⟩ := by
  induction bytes using List.reverseRecOn with
  | nil => exact ByteArray.isValidUTF8_empty
  | append_singleton bytes b ih =>
      have hb : b < 128 := h b (by simp)
      have hinit := ih fun c hc => h c (by simp [hc])
      have hsize : (Char.ofUInt8 b).utf8Size = 1 := by
        rw [Char.utf8Size_eq_one_iff, UInt32.le_iff_toNat_le]
        have hnat : b.toNat < 128 := UInt8.lt_iff_toNat_lt.mp hb
        have hval : (Char.ofUInt8 b).val.toNat = b.toNat := UInt8.toNat_toUInt32 b
        rw [hval]
        exact Nat.le_of_lt_succ hnat
      have hchar : (Char.ofUInt8 b).toUInt8 = b := UInt8.toUInt8_toUInt32 b
      have hpush : (⟨(bytes ++ [b]).toArray⟩ : ByteArray) = (⟨bytes.toArray⟩ : ByteArray).push b :=
        ByteArray.ext (by simp)
      rw [hpush, ← hchar]
      exact hinit.push hsize

/-- ASCII bytes decode. -/
theorem exists_fromUtf8_of_ascii (h : ∀ b ∈ bytes, b < 128) :
    ∃ s, fromUtf8 bytes = some s ∧ asBytes s = bytes := by
  refine ⟨⟨⟨bytes.toArray⟩, isValidUTF8_of_ascii h⟩, ?_, rfl⟩
  exact fromUtf8_eq_some_iff.mpr rfl

end MemLane
