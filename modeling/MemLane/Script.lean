import Mathlib.Data.List.Basic

/-!
# Programs that query a shared store

A script is a program as its store sees it: it is done with a value, or it asks a
query and goes on with the answer.  A store answers one query at a time, with
something from outside (a clock reading, say) to go by.

Whatever single queries keep, a run of a script keeps; and two stores that answer
all queries alike cannot be told apart by a script.  Both hold with other programs
querying the store in between, since they speak of one query at a time.
-/

/-- A program over queries `Q`, the answers to which are of type `Ans`. -/
inductive Script (Q : Type*) (Ans : Q → Type*) (α : Type*)
  | done (value : α)
  | ask (q : Q) (next : Ans q → Script Q Ans α)

namespace Script

variable {Q : Type*} {Ans : Q → Type*} {α ε σ τ : Type*}

/-- How a store in state `σ` answers a query. -/
abbrev Store (Q : Type*) (Ans : Q → Type*) (ε σ : Type*) := σ → (q : Q) → ε → Ans q × σ

/-- Run a script by itself; the `n`-th query goes by `env n`. -/
def run (store : Store Q Ans ε σ) (s : σ) (env : Nat → ε) : Script Q Ans α → α × σ
  | .done value => (value, s)
  | .ask q next =>
      let answer := store s q (env 0)
      run store answer.2 (fun n => env (n + 1)) (next answer.1)

/-- The run of a script by itself, query by query: the store that it finds, the query, and what
the query goes by. -/
def trace (store : Store Q Ans ε σ) (s : σ) (env : Nat → ε) : Script Q Ans α → List (σ × Q × ε)
  | .done _ => []
  | .ask q next =>
      let answer := store s q (env 0)
      (s, q, env 0) :: trace store answer.2 (fun n => env (n + 1)) (next answer.1)

/-- With these answers to its queries, one after another, a script goes on as `last`. -/
inductive Reaches : Script Q Ans α → List ((q : Q) × Ans q) → Script Q Ans α → Prop
  | refl (script : Script Q Ans α) : Reaches script [] script
  | ask {q : Q} {next : Ans q → Script Q Ans α} {answer : Ans q} {answers : List ((q : Q) × Ans q)}
      {last : Script Q Ans α} (h : Reaches (next answer) answers last) :
      Reaches (.ask q next) (⟨q, answer⟩ :: answers) last

/-- Every query that the script can ask satisfies `P`. -/
def Only (P : Q → Prop) : Script Q Ans α → Prop
  | .done _ => True
  | .ask q next => P q ∧ ∀ answer, Only P (next answer)

/-- Every query that the script can ask satisfies `P`, if the answers before it were of the
kind `C`. -/
def OnlyIf (C : (q : Q) → Ans q → Prop) (P : Q → Prop) : Script Q Ans α → Prop
  | .done _ => True
  | .ask q next => P q ∧ ∀ answer, C q answer → OnlyIf C P (next answer)

/-- Whatever answers of the kind `C` the script gets, it ends in a value that satisfies `P`. -/
def Ends (C : (q : Q) → Ans q → Prop) (P : α → Prop) : Script Q Ans α → Prop
  | .done value => P value
  | .ask q next => ∀ answer, C q answer → Ends C P (next answer)

/-- The script asks at most so many queries, whatever the answers. -/
def AtMost : Script Q Ans α → Nat → Prop
  | .done _, _ => True
  | .ask _ _, 0 => False
  | .ask _ next, n + 1 => ∀ answer, AtMost (next answer) n

variable {P : Q → Prop} {C : (q : Q) → Ans q → Prop} {store : Store Q Ans ε σ}
  {store' : Store Q Ans ε τ} {s : σ} {t : τ} {script last : Script Q Ans α} {env : Nat → ε}
  {answers more : List ((q : Q) × Ans q)}

@[simp] theorem run_done (value : α) :
    (done value : Script Q Ans α).run store s env = (value, s) := rfl

@[simp] theorem run_ask (q : Q) (next : Ans q → Script Q Ans α) :
    (ask q next).run store s env =
      (next (store s q (env 0)).1).run store (store s q (env 0)).2 fun n => env (n + 1) := rfl

theorem Only.mono {P' : Q → Prop} (h : script.Only P) (hP : ∀ q, P q → P' q) : script.Only P' := by
  induction script with
  | done value => trivial
  | ask q next ih => exact ⟨hP q h.1, fun answer => ih answer (h.2 answer)⟩

theorem OnlyIf.mono {P' : Q → Prop} (h : script.OnlyIf C P) (hP : ∀ q, P q → P' q) :
    script.OnlyIf C P' := by
  induction script with
  | done value => trivial
  | ask q next ih =>
      exact ⟨hP q h.1, fun answer hanswer => ih answer (h.2 answer hanswer)⟩

theorem OnlyIf.only (h : script.OnlyIf C P) (hC : ∀ q answer, C q answer) : script.Only P := by
  induction script with
  | done value => trivial
  | ask q next ih => exact ⟨h.1, fun answer => ih answer (h.2 answer (hC q answer))⟩

theorem Ends.mono {P P' : α → Prop} (h : script.Ends C P)
    (hP : ∀ value, P value → P' value) : script.Ends C P' := by
  induction script with
  | done value => exact hP value h
  | ask q next ih => exact fun answer hanswer => ih answer (h answer hanswer)

theorem Ends.of_forall {P : α → Prop} (h : ∀ value, P value)
    (script : Script Q Ans α) : script.Ends C P := by
  induction script with
  | done value => exact h value
  | ask q next ih => exact fun answer _ => ih answer

theorem AtMost.mono {n m : Nat} (h : script.AtMost n) (hnm : n ≤ m) : script.AtMost m := by
  induction script generalizing n m with
  | done value => trivial
  | ask q next ih =>
      cases n with
      | zero => exact h.elim
      | succ n =>
          cases m with
          | zero => exact absurd hnm (Nat.not_succ_le_zero n)
          | succ m => exact fun answer => ih answer (h answer) (Nat.le_of_succ_le_succ hnm)

/-! ## Answers -/

@[simp] theorem reaches_done_iff {value : α} :
    (done value : Script Q Ans α).Reaches answers last ↔ answers = [] ∧ last = done value := by
  constructor
  · intro h
    cases h with
    | refl => exact ⟨rfl, rfl⟩
  · rintro ⟨rfl, rfl⟩
    exact .refl _

/-- A script that asks something is only done with an answer to it. -/
@[simp] theorem ask_reaches_done_iff {q : Q} {next : Ans q → Script Q Ans α} {value : α} :
    (ask q next).Reaches answers (done value) ↔
      ∃ answer rest, answers = ⟨q, answer⟩ :: rest ∧ (next answer).Reaches rest (done value) := by
  constructor
  · intro h
    cases h with
    | ask h => exact ⟨_, _, rfl, h⟩
  · rintro ⟨answer, rest, rfl, h⟩
    exact .ask h

theorem Reaches.append {mid : Script Q Ans α} (h : script.Reaches answers mid)
    (h' : mid.Reaches more last) : script.Reaches (answers ++ more) last := by
  induction h with
  | refl script => exact h'
  | ask _ ih => exact .ask (ih h')

/-- One more answer. -/
theorem Reaches.concat {q : Q} {next : Ans q → Script Q Ans α}
    (h : script.Reaches answers (.ask q next)) (answer : Ans q) :
    script.Reaches (answers ++ [⟨q, answer⟩]) (next answer) :=
  h.append (.ask (.refl _))

/-- If every query has an answer, a script can be brought to an end. -/
theorem exists_reaches_done [∀ q, Nonempty (Ans q)] (script : Script Q Ans α) :
    ∃ answers value, script.Reaches answers (done value) := by
  induction script with
  | done value => exact ⟨[], value, .refl _⟩
  | ask q next ih =>
      obtain ⟨answer⟩ := (inferInstance : Nonempty (Ans q))
      obtain ⟨answers, value, h⟩ := ih answer
      exact ⟨⟨q, answer⟩ :: answers, value, .ask h⟩

/-- What the answers keep holds of the rest of a script. -/
theorem OnlyIf.reaches (h : script.OnlyIf C P) (hreaches : script.Reaches answers last)
    (hanswers : ∀ a ∈ answers, C a.1 a.2) : last.OnlyIf C P := by
  induction hreaches with
  | refl script => exact h
  | ask _ ih =>
      obtain ⟨hanswer, hrest⟩ := List.forall_mem_cons.mp hanswers
      exact ih (h.2 _ hanswer) hrest

/-! ## Runs -/

/-- The queries of a run are queries of the script. -/
theorem OnlyIf.trace (h : script.OnlyIf C P)
    (hC : ∀ step ∈ script.trace store s env, C step.2.1 (store step.1 step.2.1 step.2.2).1) :
    ∀ step ∈ script.trace store s env, P step.2.1 := by
  induction script generalizing s env with
  | done value => simp [Script.trace]
  | ask q next ih =>
      obtain ⟨hanswer, hrest⟩ := List.forall_mem_cons.mp hC
      exact List.forall_mem_cons.mpr ⟨h.1, ih _ (h.2 _ hanswer) hrest⟩

/-- **Invariant rule.**  What every query of a run keeps, the run keeps. -/
theorem run_invariant (script : Script Q Ans α) (Inv : σ → Prop)
    (hstep : ∀ now q e, (now, q, e) ∈ script.trace store s env → Inv now → Inv (store now q e).2)
    (hs : Inv s) : Inv (script.run store s env).2 := by
  induction script generalizing s env with
  | done value => exact hs
  | ask q next ih =>
      refine ih _ (fun now q e hmem => hstep now q e (List.mem_cons_of_mem _ hmem)) ?_
      exact hstep s q (env 0) List.mem_cons_self hs

/-- The second store answers every query of a kind as the first one does. -/
def Alike (store : Store Q Ans ε σ) (store' : Store Q Ans ε τ) (P : Q → Prop)
    (R : σ → τ → Prop) : Prop :=
  ∀ s t q e, R s t → P q → (store s q e).1 = (store' t q e).1 ∧ R (store s q e).2 (store' t q e).2

/-- **Simulation rule.**  A script gets the same value from two stores that answer alike. -/
theorem Alike.run {R : σ → τ → Prop} (halike : Alike store store' P R) (h : script.Only P)
    (hR : R s t) (env : Nat → ε) :
    (script.run store s env).1 = (script.run store' t env).1 ∧
      R (script.run store s env).2 (script.run store' t env).2 := by
  induction script generalizing s t env with
  | done value => exact ⟨rfl, hR⟩
  | ask q next ih =>
      obtain ⟨hanswer, hnext⟩ := halike s t q (env 0) hR h.1
      rw [Script.run, Script.run, hanswer]
      exact ih _ (h.2 _) hnext _

end Script
