import Mathlib.Data.Nat.Digits.Lemmas
import Mathlib.Data.List.Basic

/-!
# Decimal numerals in ASCII

Printing and reading of numbers as byte strings.  `numeral` and `intNumeral`
print without leading zeros, as integer formatting does; `readNat` and
`readInt` read any nonempty string of digits, with the optional signs that
integer parsing accepts.  What is printed is read back, and consists of digits
and at most a leading minus, so it contains no control bytes.
-/

namespace Decimal

/-- The ASCII digit of a number below ten. -/
def digitByte (d : Nat) : UInt8 := UInt8.ofNat (48 + d)

def isDigit (b : UInt8) : Bool := 48 ≤ b && b ≤ 57

def digitValue (b : UInt8) : Nat := b.toNat - 48

/-- The numeral of a natural number. -/
def numeral (n : Nat) : List UInt8 :=
  if n = 0 then [digitByte 0] else ((Nat.digits 10 n).map digitByte).reverse

/-- The numeral of an integer. -/
def intNumeral (z : Int) : List UInt8 :=
  if z < 0 then 45 :: numeral z.natAbs else numeral z.natAbs

/-- The number that a nonempty string of digits denotes. -/
def readDigits (s : List UInt8) : Option Nat :=
  if s ≠ [] ∧ s.all isDigit then some (Nat.ofDigits 10 (s.reverse.map digitValue)) else none

/-- Digits with an optional plus. -/
def readNat (s : List UInt8) : Option Nat :=
  match s with
  | 43 :: digits => readDigits digits
  | _ => readDigits s

/-- Digits with an optional sign. -/
def readInt (s : List UInt8) : Option Int :=
  match s with
  | 43 :: digits => (readDigits digits).map fun n : Nat => (n : Int)
  | 45 :: digits => (readDigits digits).map fun n : Nat => -(n : Int)
  | _ => (readDigits s).map fun n : Nat => (n : Int)

variable {n d : Nat}

theorem isDigit_digitByte (h : d < 10) : isDigit (digitByte d) = true := by
  interval_cases d <;> decide

theorem digitValue_digitByte (h : d < 10) : digitValue (digitByte d) = d := by
  interval_cases d <;> decide

theorem numeral_ne_nil (n : Nat) : numeral n ≠ [] := by
  unfold numeral
  split
  · exact List.cons_ne_nil _ _
  · next h => simpa [Nat.digits_eq_nil_iff_eq_zero] using h

theorem isDigit_of_mem_numeral {b : UInt8} (h : b ∈ numeral n) : isDigit b = true := by
  unfold numeral at h
  split at h
  · obtain rfl := List.mem_singleton.mp h
    exact isDigit_digitByte (by omega)
  · obtain ⟨d, hd, rfl⟩ := List.mem_map.mp (List.mem_reverse.mp h)
    exact isDigit_digitByte (Nat.digits_lt_base (by omega) hd)

/-- Digits are ASCII. -/
theorem lt_of_isDigit {b : UInt8} (h : isDigit b = true) : b < 128 := by
  simp only [isDigit, Bool.and_eq_true, decide_eq_true_eq] at h
  exact UInt8.lt_of_le_of_lt h.2 (by decide)

theorem ascii_numeral (n : Nat) : ∀ b ∈ numeral n, b < 128 :=
  fun _ hb => lt_of_isDigit (isDigit_of_mem_numeral hb)

/-- Reading the digits of a numeral in reverse gives the digits of the number. -/
theorem ofDigits_numeral (n : Nat) :
    Nat.ofDigits 10 ((numeral n).reverse.map digitValue) = n := by
  unfold numeral
  split
  · next h => subst h; decide
  · rw [List.reverse_reverse, List.map_map]
    have hid : (Nat.digits 10 n).map (digitValue ∘ digitByte) = Nat.digits 10 n := by
      refine (List.map_congr_left fun d hd => ?_).trans (List.map_id _)
      exact digitValue_digitByte (Nat.digits_lt_base (by omega) hd)
    rw [hid, Nat.ofDigits_digits]

@[simp] theorem readDigits_numeral (n : Nat) : readDigits (numeral n) = some n := by
  have hall : (numeral n).all isDigit = true :=
    List.all_eq_true.mpr fun b hb => isDigit_of_mem_numeral hb
  rw [readDigits, if_pos ⟨numeral_ne_nil n, hall⟩, ofDigits_numeral]

/-- A numeral does not start with a sign. -/
theorem numeral_eq_cons (n : Nat) : ∃ b s, numeral n = b :: s ∧ isDigit b = true := by
  obtain ⟨b, s, heq⟩ := List.exists_cons_of_ne_nil (numeral_ne_nil n)
  exact ⟨b, s, heq, isDigit_of_mem_numeral (heq ▸ List.mem_cons_self)⟩

@[simp] theorem readNat_numeral (n : Nat) : readNat (numeral n) = some n := by
  obtain ⟨b, s, heq, hdigit⟩ := numeral_eq_cons n
  have hread := readDigits_numeral n
  rw [heq] at hread ⊢
  unfold readNat
  split
  · next h =>
      obtain ⟨rfl, _⟩ := List.cons.inj h
      cases hdigit
  · exact hread

@[simp] theorem readInt_intNumeral (z : Int) : readInt (intNumeral z) = some z := by
  unfold intNumeral
  split
  · next h =>
      simp only [readInt, readDigits_numeral, Option.map_some, Option.some_inj]
      omega
  · next h =>
      obtain ⟨b, s, heq, hdigit⟩ := numeral_eq_cons z.natAbs
      have hread := readDigits_numeral z.natAbs
      rw [heq] at hread ⊢
      have hz : (z.natAbs : Int) = z := by omega
      unfold readInt
      split
      · next h' =>
          obtain ⟨rfl, _⟩ := List.cons.inj h'
          cases hdigit
      · next h' =>
          obtain ⟨rfl, _⟩ := List.cons.inj h'
          cases hdigit
      · rw [hread, Option.map_some, hz]

theorem isDigit_of_readDigits {s : List UInt8} (h : readDigits s = some n) :
    s ≠ [] ∧ ∀ b ∈ s, isDigit b = true := by
  unfold readDigits at h
  split at h
  · next hs => exact ⟨hs.1, List.all_eq_true.mp hs.2⟩
  · cases h

/-- Digits without a sign are an integer. -/
theorem readInt_of_readDigits {s : List UInt8} (h : readDigits s = some n) :
    readInt s = some (n : Int) := by
  obtain ⟨_, hdigits⟩ := isDigit_of_readDigits h
  unfold readInt
  split
  · exact absurd (hdigits 43 List.mem_cons_self) (by decide)
  · exact absurd (hdigits 45 List.mem_cons_self) (by decide)
  · rw [h, Option.map_some]

theorem numeral_injective : Function.Injective numeral := by
  intro a b h
  have hread := readDigits_numeral a
  rw [h, readDigits_numeral] at hread
  exact (Option.some.inj hread).symm

/-- A number below `10 ^ k` is printed with at most `k` digits. -/
theorem length_numeral_le {k : Nat} (hk : 0 < k) (h : n < 10 ^ k) : (numeral n).length ≤ k := by
  unfold numeral
  split
  · exact hk
  · rw [List.length_reverse, List.length_map]
    exact (Nat.digits_length_le_iff (by omega) n).mpr h

theorem intNumeral_natCast (n : Nat) : intNumeral n = numeral n := by
  rw [intNumeral, if_neg (by omega), Int.natAbs_natCast]

/-- A digit string is no shorter than the numeral of its value. -/
theorem length_numeral_le_of_readDigits {s : List UInt8} (h : readDigits s = some n) :
    (numeral n).length ≤ s.length := by
  unfold readDigits at h
  split at h
  · next hs =>
      have hlt : ∀ d ∈ s.reverse.map digitValue, d < 10 := by
        intro d hd
        obtain ⟨b, hb, rfl⟩ := List.mem_map.mp hd
        have hdigit := List.all_eq_true.mp hs.2 b (List.mem_reverse.mp hb)
        simp only [isDigit, Bool.and_eq_true, decide_eq_true_eq, UInt8.le_iff_toNat_le] at hdigit
        have hle : b.toNat ≤ 57 := hdigit.2
        unfold digitValue
        omega
      have hvalue := Nat.ofDigits_lt_base_pow_length (by omega) hlt
      rw [List.length_map, List.length_reverse, Option.some.inj h] at hvalue
      exact length_numeral_le (List.length_pos_iff.mpr hs.1) hvalue
  · cases h

/-- So is a string with a sign. -/
theorem length_intNumeral_le_of_readInt {s : List UInt8} {z : Int} (h : readInt s = some z) :
    (intNumeral z).length ≤ s.length := by
  unfold readInt at h
  split at h
  · obtain ⟨n, hn, rfl⟩ := Option.map_eq_some_iff.mp h
    rw [intNumeral_natCast, List.length_cons]
    exact Nat.le_succ_of_le (length_numeral_le_of_readDigits hn)
  · obtain ⟨n, hn, rfl⟩ := Option.map_eq_some_iff.mp h
    have hlen := length_numeral_le_of_readDigits hn
    unfold intNumeral
    split
    · rw [Int.natAbs_neg, Int.natAbs_natCast, List.length_cons, List.length_cons]
      omega
    · rw [Int.natAbs_neg, Int.natAbs_natCast, List.length_cons]
      omega
  · obtain ⟨n, hn, rfl⟩ := Option.map_eq_some_iff.mp h
    rw [intNumeral_natCast]
    exact length_numeral_le_of_readDigits hn

/-- The numeral of a negative number has at least two bytes. -/
theorem two_le_length_intNumeral {z : Int} (h : z < 0) : 2 ≤ (intNumeral z).length := by
  rw [intNumeral, if_pos h, List.length_cons]
  have hpos := List.length_pos_iff.mpr (numeral_ne_nil z.natAbs)
  omega

/-- What is printed consists of digits and at most a minus. -/
theorem mem_intNumeral {z : Int} {b : UInt8} (h : b ∈ intNumeral z) :
    b = 45 ∨ isDigit b = true := by
  unfold intNumeral at h
  split at h
  · rcases List.mem_cons.mp h with rfl | hmem
    · exact .inl rfl
    · exact .inr (isDigit_of_mem_numeral hmem)
  · exact .inr (isDigit_of_mem_numeral h)

end Decimal
