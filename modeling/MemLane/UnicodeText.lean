import MemLane.Text
import MemLane.Substitution

/-!
# Unicode text

The `String` functions that the command dispatcher uses: case mappings and lossy
decoding.  The Unicode tables of single characters are a parameter; how the
mappings are built from them is not.  None of the functions puts a CR before an
LF where there was none, and none takes one away.
-/

namespace MemLane

/-! ## CR LF in strings and in their bytes -/

/-- The string contains CR LF. -/
def HasCrlf (s : String) : Prop := ['\r', '\n'] <:+: s.toList

instance (s : String) : Decidable (HasCrlf s) :=
  inferInstanceAs (Decidable (['\r', '\n'] <:+: s.toList))

theorem asBytes_eq_flatMap (s : String) : asBytes s = s.toList.flatMap String.utf8EncodeChar := by
  have hbytes : s.toByteArray = s.toList.utf8Encode := by
    rw [← String.toByteArray_ofList, String.ofList_toList]
  rw [asBytes, hbytes, List.utf8Encode]
  exact List.toList_data_toByteArray

private theorem uint8_ofNat_ne {a b : Nat} (ha : a < 256) (hb : b < 256) (h : a ≠ b) :
    UInt8.ofNat a ≠ UInt8.ofNat b := by
  intro heq
  have hnat := congrArg UInt8.toNat heq
  rw [UInt8.toNat_ofNat_of_lt' ha, UInt8.toNat_ofNat_of_lt' hb] at hnat
  exact h hnat

/-- The bytes of a character are those of no other: CR and LF are one byte each, and
occur in the encoding of nothing else. -/
theorem utf8EncodeChar_respects (c : Char) :
    Substitution.Respects '\r' '\n' (13 : UInt8) 10 c (String.utf8EncodeChar c) := by
  refine ⟨?_, ?_, ?_⟩
  · intro h
    subst h
    rfl
  · intro h
    subst h
    rfl
  · intro hcr hlf
    have hne : ∀ d : Char, c ≠ d → c.val.toNat ≠ d.val.toNat := by
      intro d hd heq
      exact hd (Char.ext (UInt32.toNat_inj.mp heq))
    have h13 := hne '\r' hcr
    have h10 := hne '\n' hlf
    have hsmall : ∀ k : Nat, k < 128 → c.val.toNat ≠ k →
        UInt8.ofNat k ∉ String.utf8EncodeChar c := by
      intro k hk hck hmem
      simp only [String.utf8EncodeChar] at hmem
      split at hmem
      · exact uint8_ofNat_ne (by omega) (by omega) hck.symm (List.mem_singleton.mp hmem)
      · have hbyte : ∀ v : Nat, 128 ≤ v → v < 256 → UInt8.ofNat k ≠ UInt8.ofNat v := by
          intro v hlo hhi
          exact uint8_ofNat_ne (by omega) hhi (by omega)
        split at hmem
        · simp only [List.mem_cons, List.not_mem_nil, or_false] at hmem
          rcases hmem with h | h <;> exact hbyte _ (by omega) (by omega) h
        · split at hmem
          · simp only [List.mem_cons, List.not_mem_nil, or_false] at hmem
            rcases hmem with h | h | h <;> exact hbyte _ (by omega) (by omega) h
          · simp only [List.mem_cons, List.not_mem_nil, or_false] at hmem
            rcases hmem with h | h | h | h <;> exact hbyte _ (by omega) (by omega) h
    exact ⟨String.utf8EncodeChar_ne_nil, hsmall 13 (by decide) h13, hsmall 10 (by decide) h10⟩

theorem infix_asBytes_iff (s : String) : [13, 10] <:+: asBytes s ↔ HasCrlf s := by
  rw [asBytes_eq_flatMap]
  exact Substitution.infix_flatMap_iff (by decide) utf8EncodeChar_respects

theorem hasCrlf_append_left {s t : String} (h : '\r' ∉ s.toList) :
    HasCrlf (s ++ t) ↔ HasCrlf t := by
  rw [HasCrlf, String.toList_append]
  exact Substitution.infix_append_left_iff h

theorem hasCrlf_append_right {s t : String} (hcr : '\r' ∉ t.toList) (hlf : '\n' ∉ t.toList) :
    HasCrlf (s ++ t) ↔ HasCrlf s := by
  rw [HasCrlf, String.toList_append]
  exact Substitution.infix_append_right_iff hcr hlf

/-- Digits only. -/
theorem not_mem_toList_repr {n : Nat} {c : Char} (h : c.isDigit = false) :
    c ∉ (toString n).toList := by
  intro hmem
  have hdigits : c ∈ Nat.toDigits 10 n := by
    rw [← Nat.toList_repr]
    exact hmem
  rw [Nat.isDigit_of_mem_toDigits (by decide) (by decide) hdigits] at h
  cases h

/-! ## Case mappings -/

/-- The Unicode tables of single characters.  ASCII maps to ASCII, and nothing else to
CR, LF or no character at all. -/
structure CaseTables where
  toUpper : Char → List Char
  toLower : Char → List Char
  cased : Char → Bool
  caseIgnorable : Char → Bool
  toUpper_ascii : ∀ c : Char, c.toNat < 128 → toUpper c = [c.toUpper]
  toLower_ascii : ∀ c : Char, c.toNat < 128 → toLower c = [c.toLower]
  toUpper_other : ∀ c : Char, 128 ≤ c.toNat →
    toUpper c ≠ [] ∧ '\r' ∉ toUpper c ∧ '\n' ∉ toUpper c
  toLower_other : ∀ c : Char, 128 ≤ c.toNat →
    toLower c ≠ [] ∧ '\r' ∉ toLower c ∧ '\n' ∉ toLower c

/-- `to_uppercase`. -/
def toUppercase (tables : CaseTables) (s : String) : String :=
  String.ofList (s.toList.flatMap tables.toUpper)

/-- `case_ignorable_then_cased`: the first character that is not ignored is cased. -/
def caseIgnorableThenCased (tables : CaseTables) (cs : List Char) : Bool :=
  match cs.dropWhile tables.caseIgnorable with
  | c :: _ => tables.cased c
  | [] => false

/-- The images of the characters under `to_lowercase`; a sigma takes its final form at
the end of a word.  `before` is what precedes, in reverse. -/
def lowercaseImages (tables : CaseTables) (before : List Char) : List Char → List (List Char)
  | [] => []
  | c :: rest =>
      let image :=
        if c = 'Σ' then
          if caseIgnorableThenCased tables before && !caseIgnorableThenCased tables rest then ['ς']
          else ['σ']
        else tables.toLower c
      image :: lowercaseImages tables (c :: before) rest

/-- `to_lowercase`. -/
def toLowercase (tables : CaseTables) (s : String) : String :=
  String.ofList (lowercaseImages tables [] s.toList).flatten

/-- A case mapping that keeps CR and LF apart on ASCII does so everywhere. -/
theorem caseImage_respects {image : Char → List Char} {ascii : Char → Char}
    (hascii : ∀ c : Char, c.toNat < 128 → image c = [ascii c])
    (hcr : ∀ n : Fin 128, ascii (Char.ofNat n) = '\r' ↔ Char.ofNat n = '\r')
    (hlf : ∀ n : Fin 128, ascii (Char.ofNat n) = '\n' ↔ Char.ofNat n = '\n')
    (hother : ∀ c : Char, 128 ≤ c.toNat → image c ≠ [] ∧ '\r' ∉ image c ∧ '\n' ∉ image c)
    (c : Char) : Substitution.Respects '\r' '\n' '\r' '\n' c (image c) := by
  by_cases hc : c.toNat < 128
  · have hcr' := hcr ⟨c.toNat, hc⟩
    have hlf' := hlf ⟨c.toNat, hc⟩
    rw [Char.ofNat_toNat] at hcr' hlf'
    rw [hascii c hc]
    refine ⟨?_, ?_, ?_⟩
    · intro h
      rw [hcr'.mpr h]
    · intro h
      rw [hlf'.mpr h]
    · intro h₁ h₂
      refine ⟨List.cons_ne_nil _ _, ?_, ?_⟩
      · intro hmem
        exact h₁ (hcr'.mp (List.mem_singleton.mp hmem).symm)
      · intro hmem
        exact h₂ (hlf'.mp (List.mem_singleton.mp hmem).symm)
  · refine ⟨?_, ?_, fun _ _ => hother c (Nat.not_lt.mp hc)⟩
    · intro h
      subst h
      exact absurd (by decide) hc
    · intro h
      subst h
      exact absurd (by decide) hc

theorem toUpper_respects (tables : CaseTables) (c : Char) :
    Substitution.Respects '\r' '\n' '\r' '\n' c (tables.toUpper c) :=
  caseImage_respects tables.toUpper_ascii (by decide) (by decide) tables.toUpper_other c

theorem toLower_respects (tables : CaseTables) (c : Char) :
    Substitution.Respects '\r' '\n' '\r' '\n' c (tables.toLower c) :=
  caseImage_respects tables.toLower_ascii (by decide) (by decide) tables.toLower_other c

theorem hasCrlf_toUppercase (tables : CaseTables) (s : String) :
    HasCrlf (toUppercase tables s) ↔ HasCrlf s := by
  rw [HasCrlf, toUppercase, String.toList_ofList]
  exact Substitution.infix_flatMap_iff (by decide) (toUpper_respects tables)

theorem lowercaseImages_respects (tables : CaseTables) (before cs : List Char) :
    List.Forall₂ (Substitution.Respects '\r' '\n' '\r' '\n') cs
      (lowercaseImages tables before cs) := by
  induction cs generalizing before with
  | nil => exact .nil
  | cons c cs ih =>
      refine .cons ?_ (ih (c :: before))
      by_cases hc : c = 'Σ'
      · subst hc
        refine ⟨fun h => absurd h (by decide), fun h => absurd h (by decide), ?_⟩
        intro _ _
        rw [if_pos rfl]
        split <;> decide
      · rw [if_neg hc]
        exact toLower_respects tables c

theorem hasCrlf_toLowercase (tables : CaseTables) (s : String) :
    HasCrlf (toLowercase tables s) ↔ HasCrlf s := by
  rw [HasCrlf, toLowercase, String.toList_ofList]
  exact Substitution.infix_flatten_iff (by decide) (lowercaseImages_respects tables [] s.toList)

private theorem singleton_other {c : Char} (h : 128 ≤ c.toNat) :
    [c] ≠ [] ∧ '\r' ∉ [c] ∧ '\n' ∉ [c] := by
  refine ⟨List.cons_ne_nil _ _, ?_, ?_⟩
  · intro hmem
    rw [← List.mem_singleton.mp hmem] at h
    exact absurd h (by decide)
  · intro hmem
    rw [← List.mem_singleton.mp hmem] at h
    exact absurd h (by decide)

/-- Tables that know ASCII only. -/
def asciiTables : CaseTables where
  toUpper c := if c.toNat < 128 then [c.toUpper] else [c]
  toLower c := if c.toNat < 128 then [c.toLower] else [c]
  cased c := c.isAlpha
  caseIgnorable c := [39, 46, 58, 94, 96].contains c.toNat
  toUpper_ascii c h := if_pos h
  toLower_ascii c h := if_pos h
  toUpper_other c h := by
    rw [if_neg (Nat.not_lt.mpr h)]
    exact singleton_other h
  toLower_other c h := by
    rw [if_neg (Nat.not_lt.mpr h)]
    exact singleton_other h

/-! ## Lossy decoding -/

/-- The number of continuation bytes that a leading byte announces, and the bounds of
the first of them. -/
def sequenceShape (b : UInt8) : Option (Nat × UInt8 × UInt8) :=
  if 0xC2 ≤ b ∧ b ≤ 0xDF then some (1, 0x80, 0xBF)
  else if b = 0xE0 then some (2, 0xA0, 0xBF)
  else if b = 0xED then some (2, 0x80, 0x9F)
  else if 0xE1 ≤ b ∧ b ≤ 0xEF then some (2, 0x80, 0xBF)
  else if b = 0xF0 then some (3, 0x90, 0xBF)
  else if 0xF1 ≤ b ∧ b ≤ 0xF3 then some (3, 0x80, 0xBF)
  else if b = 0xF4 then some (3, 0x80, 0x8F)
  else none

/-- The bytes of a sequence that are in place behind the leading byte. -/
def continuation (count : Nat) (lo hi : UInt8) (rest : Bytes) : Bytes :=
  match rest.take count with
  | [] => []
  | b :: more =>
      if lo ≤ b ∧ b ≤ hi then b :: more.takeWhile fun c => 0x80 ≤ c && c ≤ 0xBF else []

/-- The next character, and the number of bytes it takes behind the first.  A maximal part
of an ill-formed sequence becomes one replacement character. -/
def decodeLossy (b : UInt8) (rest : Bytes) : Char × Nat :=
  if b < 0x80 then (Char.ofNat b.toNat, 0)
  else
    match sequenceShape b with
    | none => (Char.ofNat 0xFFFD, 0)
    | some (count, lo, hi) =>
        let seen := continuation count lo hi rest
        if seen.length = count then
          (Char.ofNat (seen.foldl (fun v c => v * 64 + c.toNat % 64) (b.toNat % 2 ^ (6 - count))),
            count)
        else (Char.ofNat 0xFFFD, seen.length)

def lossyChars : Nat → Bytes → List Char
  | 0, _ => []
  | _ + 1, [] => []
  | left + 1, b :: rest =>
      let (c, size) := decodeLossy b rest
      c :: lossyChars left (rest.drop size)

/-- `String::from_utf8_lossy`. -/
def fromUtf8Lossy (bytes : Bytes) : String :=
  match fromUtf8 bytes with
  | some s => s
  | none => String.ofList (lossyChars bytes.length bytes)

end MemLane
