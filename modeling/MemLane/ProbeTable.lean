import Mathlib.Data.Fintype.EquivFin
import Mathlib.Data.Fintype.Card
import Mathlib.Data.Nat.ModEq

/-!
# Linear probing with tombstones

A table of `n` cells is searched along the cyclic sequence `start`,
`start + 1`, … modulo `n`.  A cell is empty, a tombstone, or holds a key.  This
file is about such tables in general: keys are of any type, and the starting
cell of a key is given by any function `home`.

A table is `WellFormed` when no key is held twice and no empty cell separates a
key from its home.  Burying a key (turning its cell into a tombstone) and placing
an absent key behind a gapless prefix of its probe sequence both keep this,
and in such a table a search that meets an empty cell has seen every cell the
key could be in.
-/

namespace Probe

section Sequence

variable {n : Nat} [NeZero n]

/-- The cell visited at step `i` of the probe sequence that begins at `start`. -/
def cell (n : Nat) [NeZero n] (start i : Nat) : Fin n :=
  Fin.ofNat n (start + i)

theorem cell_val (start i : Nat) : (cell n start i).val = (start + i) % n := rfl

/-- The first `n` steps visit distinct cells. -/
theorem cell_injective {start i j : Nat} (hi : i < n) (hj : j < n)
    (h : cell n start i = cell n start j) : i = j := by
  have hmod : (start + i) % n = (start + j) % n := congrArg Fin.val h
  have hcancel : i % n = j % n := Nat.ModEq.add_left_cancel' start hmod
  rwa [Nat.mod_eq_of_lt hi, Nat.mod_eq_of_lt hj] at hcancel

/-- The first `n` steps visit every cell. -/
theorem exists_cell (start : Nat) (c : Fin n) : ∃ i, i < n ∧ cell n start i = c := by
  have hinj : Function.Injective (fun i : Fin n => cell n start i) := by
    intro i j h
    exact Fin.ext (cell_injective i.isLt j.isLt h)
  obtain ⟨i, hi⟩ := (Finite.injective_iff_surjective.mp hinj) c
  exact ⟨i, i.isLt, hi⟩

end Sequence

/-- What one cell of the table holds. -/
inductive Cell (K : Type*)
  | empty
  | tombstone
  | full (key : K)

/-- A table of `n` cells. -/
abbrev Table (n : Nat) (K : Type*) := Fin n → Cell K

section Table

variable {n : Nat} [NeZero n] {K : Type*} {home : K → Nat} {t t' : Table n K}

/-- No key is held twice, and no empty cell lies on a stored key's probe
sequence before the cell that holds it. -/
structure WellFormed (home : K → Nat) (t : Table n K) : Prop where
  nodup : ∀ {i j : Fin n} {k : K}, t i = .full k → t j = .full k → i = j
  chain : ∀ {k : K} {d : Nat}, d < n → t (cell n (home k) d) = .full k →
    ∀ m, m < d → t (cell n (home k) m) ≠ .empty

/-- `t'` arises from `t` by turning some nonempty cells into tombstones. -/
def Buried (t t' : Table n K) : Prop :=
  ∀ i, t' i = t i ∨ (t i ≠ .empty ∧ t' i = .tombstone)

/-- A key is stored in some cell. -/
def Holds (t : Table n K) (k : K) : Prop :=
  ∃ i, t i = .full k

omit [NeZero n] in
theorem Buried.full (h : Buried t t') {i : Fin n} {k : K} (hk : t' i = .full k) :
    t i = .full k := by
  rcases h i with heq | ⟨_, htomb⟩
  · rw [← heq, hk]
  · rw [htomb] at hk
    cases hk

omit [NeZero n] in
theorem Buried.empty_iff (h : Buried t t') (i : Fin n) : t' i = .empty ↔ t i = .empty := by
  rcases h i with heq | ⟨hne, htomb⟩
  · rw [heq]
  · simp [hne, htomb]

/-- The table without keys is well formed. -/
theorem WellFormed.of_no_keys (h : ∀ i k, t i ≠ .full k) : WellFormed home t where
  nodup := fun hi _ => (h _ _ hi).elim
  chain := fun _ hk => (h _ _ hk).elim

/-- Burying cells keeps a table well formed: keys only disappear and no cell
becomes empty. -/
theorem WellFormed.buried (hwf : WellFormed home t) (h : Buried t t') :
    WellFormed home t' where
  nodup := fun hi hj => hwf.nodup (h.full hi) (h.full hj)
  chain := by
    intro k d hd hk m hm hempty
    exact hwf.chain hd (h.full hk) m hm ((h.empty_iff _).mp hempty)

/-- Placing a key that no other cell holds at a step of its probe sequence that no
empty cell precedes keeps a table well formed. -/
theorem WellFormed.place (hwf : WellFormed home t) {k : K} {d : Nat} (hd : d < n)
    (honly : ∀ i, t i = .full k → i = cell n (home k) d)
    (hchain : ∀ m, m < d → t (cell n (home k) m) ≠ .empty) :
    WellFormed home (Function.update t (cell n (home k) d) (.full k)) where
  nodup := by
    intro i j k' hi hj
    rw [Function.update_apply] at hi hj
    split at hi <;> split at hj
    · next h1 h2 => rw [h1, h2]
    · next h1 _ =>
        cases hi
        exact h1.trans (honly j hj).symm
    · next _ h2 =>
        cases hj
        exact (honly i hi).trans h2.symm
    · exact hwf.nodup hi hj
  chain := by
    intro k' d' hd' hk' m hm
    rw [Function.update_apply] at hk' ⊢
    split
    · simp
    · split at hk'
      · next hcell =>
          cases hk'
          have hsame : d' = d := cell_injective hd' hd hcell
          exact hchain m (hsame ▸ hm)
      · exact hwf.chain hd' hk' m hm

/-- A search that meets an empty cell without having met `k` shows that `k` is
not stored. -/
theorem WellFormed.absent_of_empty (hwf : WellFormed home t) {k : K} {e : Nat}
    (he : e < n) (hempty : t (cell n (home k) e) = .empty)
    (hpassed : ∀ m, m < e → t (cell n (home k) m) ≠ .full k) : ¬ Holds t k := by
  intro hholds
  obtain ⟨i, hi⟩ := hholds
  obtain ⟨d, hd, rfl⟩ := exists_cell (home k) i
  rcases Nat.lt_trichotomy d e with hlt | rfl | hgt
  · exact hpassed d hlt hi
  · rw [hempty] at hi
    cases hi
  · exact hwf.chain hd hi e hgt hempty

/-- A search of all `n` steps that does not meet `k` shows that `k` is not
stored, whatever the table. -/
theorem absent_of_full_scan {start : Nat} {k : K}
    (hpassed : ∀ m, m < n → t (cell n start m) ≠ .full k) : ¬ Holds t k := by
  intro hholds
  obtain ⟨i, hi⟩ := hholds
  obtain ⟨d, hd, rfl⟩ := exists_cell start i
  exact hpassed d hd hi

end Table

section Count

variable {n : Nat} {K : Type*} {t : Table n K}

/-- The key a cell holds, if any. -/
def Cell.key? : Cell K → Option K
  | .full k => some k
  | _ => none

@[simp] theorem Cell.key?_eq_some {c : Cell K} {k : K} : c.key? = some k ↔ c = .full k := by
  cases c <;> simp [Cell.key?]

/-- Whether a cell holds a key. -/
def Cell.isFull (c : Cell K) : Bool := c.key?.isSome

@[simp] theorem Cell.isFull_full (k : K) : (Cell.full k).isFull = true := rfl

@[simp] theorem Cell.isFull_tombstone : (Cell.tombstone : Cell K).isFull = false := rfl

@[simp] theorem Cell.isFull_empty : (Cell.empty : Cell K).isFull = false := rfl

theorem Cell.isFull_iff {c : Cell K} : c.isFull = true ↔ ∃ k, c = .full k := by
  cases c <;> simp

/-- The cells that hold a key. -/
def fullCells (t : Table n K) : Finset (Fin n) :=
  Finset.univ.filter (fun i => (t i).isFull)

@[simp] theorem mem_fullCells {i : Fin n} : i ∈ fullCells t ↔ (t i).isFull = true := by
  simp [fullCells]

/-- The number of cells that hold a key. -/
def load (t : Table n K) : Nat := (fullCells t).card

/-- The load counted through any decidable description of the full cells. -/
theorem card_filter_eq_load {p : Fin n → Prop} [DecidablePred p]
    (h : ∀ i, p i ↔ (t i).isFull = true) : (Finset.univ.filter p).card = load t := by
  rw [load, fullCells]
  exact congrArg Finset.card (Finset.filter_congr fun i _ => h i)

theorem load_le (t : Table n K) : load t ≤ n := by
  simpa [load] using Finset.card_le_univ (fullCells t)

/-- The load reaches `n` exactly when every cell holds a key. -/
theorem load_eq_iff : load t = n ↔ ∀ i, ∃ k, t i = .full k := by
  have h : load t = Fintype.card (Fin n) ↔ fullCells t = Finset.univ :=
    Finset.card_eq_iff_eq_univ _
  simpa [Finset.eq_univ_iff_forall, Cell.isFull_iff] using h

/-- Filling a cell that held no key raises the load by one. -/
theorem load_place {i : Fin n} (h : (t i).isFull = false) (k : K) :
    load (Function.update t i (.full k)) = load t + 1 := by
  have hset : fullCells (Function.update t i (.full k)) = insert i (fullCells t) := by
    ext j
    by_cases hj : j = i
    · subst hj; simp
    · simp [hj]
  rw [load, hset, Finset.card_insert_of_notMem (by simp [h]), load]

/-- Refilling a cell that held a key keeps the load. -/
theorem load_replace {i : Fin n} (h : (t i).isFull = true) (k : K) :
    load (Function.update t i (.full k)) = load t := by
  have hset : fullCells (Function.update t i (.full k)) = fullCells t := by
    ext j
    by_cases hj : j = i
    · subst hj; simp [h]
    · simp [hj]
  rw [load, hset, load]

/-- Burying a cell that held a key lowers the load by one. -/
theorem load_bury {i : Fin n} (h : (t i).isFull = true) :
    load (Function.update t i .tombstone) + 1 = load t := by
  have hset : fullCells t = insert i (fullCells (Function.update t i .tombstone)) := by
    ext j
    by_cases hj : j = i
    · subst hj; simp [h]
    · simp [hj]
  rw [load, load, hset, Finset.card_insert_of_notMem (by simp)]

/-- In a table without duplicates, a finite set that lists exactly the stored
keys has as many elements as there are full cells. -/
theorem card_keys_eq_load
    (hnodup : ∀ {i j : Fin n} {k : K}, t i = .full k → t j = .full k → i = j)
    {s : Finset K} (hs : ∀ k, k ∈ s ↔ Holds t k) : s.card = load t := by
  classical
  have himage : s.image some = (fullCells t).image (fun i => (t i).key?) := by
    ext o
    simp only [Finset.mem_image, mem_fullCells]
    constructor
    · intro hholds
      obtain ⟨k, hk, rfl⟩ := hholds
      obtain ⟨i, hi⟩ := (hs k).mp hk
      exact ⟨i, by simp [hi], Cell.key?_eq_some.mpr hi⟩
    · intro hholds
      obtain ⟨i, hi, rfl⟩ := hholds
      obtain ⟨k, hk⟩ := Cell.isFull_iff.mp hi
      exact ⟨k, (hs k).mpr ⟨i, hk⟩, (Cell.key?_eq_some.mpr hk).symm⟩
  have hinj : Set.InjOn (fun i => (t i).key?) (fullCells t) := by
    intro i hi j _ heq
    obtain ⟨k, hk⟩ := Cell.isFull_iff.mp (mem_fullCells.mp hi)
    have hj : t j = .full k := Cell.key?_eq_some.mp (heq.symm.trans (Cell.key?_eq_some.mpr hk))
    exact hnodup hk hj
  calc s.card = (s.image some).card :=
        (Finset.card_image_of_injective s (Option.some_injective K)).symm
    _ = ((fullCells t).image (fun i => (t i).key?)).card := by rw [himage]
    _ = load t := Finset.card_image_of_injOn hinj

end Count

end Probe
