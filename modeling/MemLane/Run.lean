import Mathlib.Data.List.Basic
import Mathlib.Data.List.Induction

/-!
# Runs of a deterministic transition function

A run feeds a list of inputs to a step function, one after another.  The rules
here are those every safety argument about such runs needs: an invariant kept
by each step holds at the end, a condition that is asked of every step can be
used at every prefix, and two machines whose steps agree on outputs agree on
the outputs of whole runs.

An input may be anything a step depends on: an operation with its arguments, a
clock reading, or the name of the party that moves next.
-/

namespace Run

variable {σ τ ι ο : Type*}

section Next

variable (next : σ → ι → σ)

/-- The state after feeding all inputs. -/
def final (s : σ) (is : List ι) : σ := is.foldl next s

@[simp] theorem final_nil (s : σ) : final next s [] = s := rfl

@[simp] theorem final_cons (s : σ) (i : ι) (is : List ι) :
    final next s (i :: is) = final next (next s i) is := rfl

@[simp] theorem final_append (s : σ) (is js : List ι) :
    final next s (is ++ js) = final next (final next s is) js :=
  List.foldl_append

/-- `P` holds of the state and the input at every step of the run. -/
def Along (P : σ → ι → Prop) : σ → List ι → Prop
  | _, [] => True
  | s, i :: is => P s i ∧ Along P (next s i) is

/-- A decidable condition can be checked along a run. -/
instance decidableAlong (P : σ → ι → Prop) [∀ s i, Decidable (P s i)] :
    (s : σ) → (is : List ι) → Decidable (Along next P s is)
  | _, [] => .isTrue trivial
  | s, i :: is =>
      have := decidableAlong P (next s i) is
      inferInstanceAs (Decidable (P s i ∧ Along next P (next s i) is))

variable {next} {P : σ → ι → Prop}

theorem along_append {s : σ} {is js : List ι} :
    Along next P s (is ++ js) ↔ Along next P s is ∧ Along next P (final next s is) js := by
  induction is generalizing s with
  | nil => simp [Along]
  | cons i is ih => simp [Along, ih, and_assoc]

/-- A condition along a run is one condition for each way of cutting the run
before one of its inputs. -/
theorem along_iff {s : σ} {is : List ι} :
    Along next P s is ↔
      ∀ before i after, is = before ++ i :: after → P (final next s before) i := by
  constructor
  · intro h before i after heq
    subst heq
    exact (along_append.mp h).2.1
  · intro h
    induction is generalizing s with
    | nil => trivial
    | cons i is ih =>
        refine ⟨h [] i is rfl, ih ?_⟩
        intro before j after heq
        subst heq
        exact h (i :: before) j after rfl

theorem Along.mono {Q : σ → ι → Prop} {s : σ} {is : List ι}
    (hPQ : ∀ s i, P s i → Q s i) (h : Along next P s is) : Along next Q s is :=
  along_iff.mpr fun before i after heq => hPQ _ _ (along_iff.mp h before i after heq)

/-- A condition on inputs alone holds along a run when all inputs meet it. -/
theorem along_of_forall_mem {ok : ι → Prop} {s : σ} {is : List ι} (h : ∀ i ∈ is, ok i) :
    Along next (fun _ i => ok i) s is := by
  refine along_iff.mpr ?_
  intro before i after heq
  subst heq
  exact h i (by simp)

/-- **Invariant rule.**  A property that every step meeting `P` preserves holds
at the end of every run whose steps all meet `P`. -/
theorem invariant (Inv : σ → Prop) (hstep : ∀ s i, Inv s → P s i → Inv (next s i))
    {s : σ} (hs : Inv s) {is : List ι} (halong : Along next P s is) :
    Inv (final next s is) := by
  induction is generalizing s with
  | nil => exact hs
  | cons i is ih => exact ih (hstep s i hs halong.1) halong.2

/-- The invariant rule for a property of the state and of the inputs fed so far. -/
theorem invariant_history {s : σ} (Inv : List ι → σ → Prop) (hs : Inv [] s)
    (hstep : ∀ is i, Inv is (final next s is) → P (final next s is) i →
      Inv (is ++ [i]) (next (final next s is) i))
    {is : List ι} (halong : Along next P s is) : Inv is (final next s is) := by
  induction is using List.reverseRecOn with
  | nil => exact hs
  | append_singleton is i ih =>
      obtain ⟨hinit, hlast, _⟩ := along_append.mp halong
      rw [final_append]
      exact hstep is i (ih hinit) hlast

/-- The invariant rule for steps that need no condition. -/
theorem invariant_all (Inv : σ → Prop) (hstep : ∀ s i, Inv s → Inv (next s i))
    {s : σ} (hs : Inv s) (is : List ι) : Inv (final next s is) := by
  have htriv : Along next (fun _ _ => True) s is := along_iff.mpr fun _ _ _ _ => trivial
  exact invariant Inv (fun s i h _ => hstep s i h) hs htriv

/-- **Progress rule.**  `Left n` says that a party needs at most `n` of its own inputs to come to
rest.  If other inputs keep this and own inputs lower the number, then in every run the party
has fewer than `n` inputs, or rests after some of them. -/
theorem rests_or_countP_lt_of_left (Left : Nat → σ → Prop) (Rest : σ → Prop) (own : ι → Bool)
    (hzero : ∀ s, Left 0 s → Rest s)
    (hother : ∀ n s i, Left n s → ¬ Rest s → P s i → own i = false → Left n (next s i))
    (hown : ∀ n s i, Left n s → ¬ Rest s → P s i → own i = true →
      ∃ m, m < n ∧ Left m (next s i))
    {n : Nat} {s : σ} (hs : Left n s) {is : List ι} (halong : Along next P s is) :
    is.countP own < n ∨ ∃ before after, is = before ++ after ∧ Rest (final next s before) := by
  induction is generalizing n s with
  | nil =>
      cases n with
      | zero => exact .inr ⟨[], [], rfl, hzero s hs⟩
      | succ n => exact .inl (Nat.succ_pos n)
  | cons i is ih =>
      by_cases hrest : Rest s
      · exact .inr ⟨[], i :: is, rfl, hrest⟩
      · cases hi : own i with
        | true =>
            rw [List.countP_cons_of_pos hi]
            obtain ⟨m, hm, hleft⟩ := hown n s i hs hrest halong.1 hi
            rcases ih hleft halong.2 with hcount | ⟨before, after, heq, hrest⟩
            · exact .inl (Nat.lt_of_le_of_lt hcount hm)
            · exact .inr ⟨i :: before, after, by rw [heq]; rfl, hrest⟩
        | false =>
            rw [List.countP_cons_of_neg (by rw [hi]; exact Bool.false_ne_true)]
            rcases ih (hother n s i hs hrest halong.1 hi) halong.2 with
              hcount | ⟨before, after, heq, hrest⟩
            · exact .inl hcount
            · exact .inr ⟨i :: before, after, by rw [heq]; rfl, hrest⟩

/-- The progress rule for a measure that no input raises and every own input lowers. -/
theorem rests_or_countP_lt (Inv Rest : σ → Prop) (measure : σ → Nat) (own : ι → Bool)
    (hzero : ∀ s, Inv s → measure s = 0 → Rest s)
    (hinv : ∀ s i, Inv s → ¬ Rest s → Inv (next s i))
    (hall : ∀ s i, Inv s → ¬ Rest s → measure (next s i) ≤ measure s)
    (hown : ∀ s i, Inv s → ¬ Rest s → own i = true → measure (next s i) < measure s)
    {s : σ} (hs : Inv s) (is : List ι) :
    is.countP own < measure s ∨
      ∃ before after, is = before ++ after ∧ Rest (final next s before) := by
  have htriv : Along next (fun _ _ => True) s is := along_iff.mpr fun _ _ _ _ => trivial
  refine rests_or_countP_lt_of_left (fun n s => Inv s ∧ measure s ≤ n) Rest own ?_ ?_ ?_
    ⟨hs, Nat.le_refl _⟩ htriv
  · exact fun s hleft => hzero s hleft.1 (Nat.eq_zero_of_le_zero hleft.2)
  · intro n s i hleft hrest _ _
    exact ⟨hinv s i hleft.1 hrest, Nat.le_trans (hall s i hleft.1 hrest) hleft.2⟩
  · intro n s i hleft hrest _ hi
    have hlower := Nat.lt_of_lt_of_le (hown s i hleft.1 hrest hi) hleft.2
    exact ⟨_, hlower, hinv s i hleft.1 hrest, Nat.le_refl _⟩

/-- **Interleaving rule.**  Two groups of inputs are fed to runs of their own and, in any order,
to one run together.  A relation between the three states that every step of either group keeps
holds at the end. -/
theorem final_interleaved {R : σ → σ → σ → Prop} {P Q : σ → ι → Prop} (mine : ι → Bool)
    (hmine : ∀ a b s i, R a b s → mine i = true → P a i → R (next a i) b (next s i))
    (htheirs : ∀ a b s i, R a b s → mine i = false → Q b i → R a (next b i) (next s i))
    {a b s : σ} (hR : R a b s) {is : List ι} (hP : Along next P a (is.filter mine))
    (hQ : Along next Q b (is.filter fun i => !mine i)) :
    R (final next a (is.filter mine)) (final next b (is.filter fun i => !mine i))
      (final next s is) := by
  induction is generalizing a b s with
  | nil => exact hR
  | cons i is ih =>
      cases hi : mine i with
      | true =>
          simp only [List.filter_cons, hi, Bool.not_true, if_true, Bool.false_eq_true,
            if_false] at hP hQ ⊢
          exact ih (hmine a b s i hR hi hP.1) hP.2 hQ
      | false =>
          simp only [List.filter_cons, hi, Bool.not_false, if_true, Bool.false_eq_true,
            if_false] at hP hQ ⊢
          exact ih (htheirs a b s i hR hi hQ.1) hP hQ.2

/-- **Omission rule.**  Inputs that change nothing for a relation to a second run can be left out
of that run. -/
theorem final_filter {R : σ → σ → Prop} {P : σ → ι → Prop} (kept : ι → Bool)
    (homit : ∀ s t i, R s t → kept i = false → P s i → R (next s i) t)
    (hkeep : ∀ s t i, R s t → kept i = true → P s i → R (next s i) (next t i))
    {s t : σ} (hR : R s t) {is : List ι} (halong : Along next P s is) :
    R (final next s is) (final next t (is.filter kept)) := by
  induction is generalizing s t with
  | nil => exact hR
  | cons i is ih =>
      cases hi : kept i with
      | true =>
          rw [List.filter_cons_of_pos hi]
          exact ih (hkeep s t i hR hi halong.1) halong.2
      | false =>
          rw [List.filter_cons_of_neg (by rw [hi]; exact Bool.false_ne_true)]
          exact ih (homit s t i hR hi halong.1) halong.2

end Next

section Outputs

variable (step : σ → ι → ο × σ)

/-- The inputs of a run, each with the output of its step. -/
def trace : σ → List ι → List (ι × ο)
  | _, [] => []
  | s, i :: is => (i, (step s i).1) :: trace (step s i).2 is

/-- The state after a run of a step function with outputs. -/
def after (s : σ) (is : List ι) : σ := final (fun s i => (step s i).2) s is

@[simp] theorem after_nil (s : σ) : after step s [] = s := rfl

@[simp] theorem after_cons (s : σ) (i : ι) (is : List ι) :
    after step s (i :: is) = after step (step s i).2 is := rfl

@[simp] theorem after_append (s : σ) (is js : List ι) :
    after step s (is ++ js) = after step (after step s is) js :=
  final_append _ _ _ _

@[simp] theorem trace_append (s : σ) (is js : List ι) :
    trace step s (is ++ js) = trace step s is ++ trace step (after step s is) js := by
  induction is generalizing s with
  | nil => rfl
  | cons i is ih => simp [trace, ih]

variable {step} {step' : τ → ι → ο × τ}

theorem after_invariant (Inv : σ → Prop) (hstep : ∀ s i, Inv s → Inv (step s i).2)
    {s : σ} (hs : Inv s) (is : List ι) : Inv (after step s is) :=
  invariant_all Inv hstep hs is

/-- **Lockstep rule.**  If related states answer every admitted input alike and
stay related, then whole runs answer alike and end in related states. -/
theorem lockstep {R : σ → τ → Prop} {ok : ι → Prop}
    (hstep : ∀ s t i, R s t → ok i →
      (step s i).1 = (step' t i).1 ∧ R (step s i).2 (step' t i).2)
    {s : σ} {t : τ} (hR : R s t) {is : List ι} (hok : ∀ i ∈ is, ok i) :
    trace step s is = trace step' t is ∧ R (after step s is) (after step' t is) := by
  induction is generalizing s t with
  | nil => exact ⟨rfl, hR⟩
  | cons i is ih =>
      obtain ⟨hout, hnext⟩ := hstep s t i hR (hok i List.mem_cons_self)
      obtain ⟨htrace, hend⟩ := ih hnext (fun j hj => hok j (List.mem_cons_of_mem _ hj))
      exact ⟨by simp only [trace, hout, htrace], hend⟩

end Outputs

end Run
