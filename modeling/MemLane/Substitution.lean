import Mathlib.Data.List.Infix
import Mathlib.Data.List.Forall2

/-!
# Substitutions and a two-letter pattern

A word `xs` is rewritten letter by letter into the words `yss`, where the image
of a letter may depend on its place.  If the letters of the pattern `a₁ a₂` are
sent to those of `b₁ b₂`, and no other image uses them or is empty, then the
rewritten word contains `b₁ b₂` exactly where the word contains `a₁ a₂`.
-/

namespace Substitution

variable {α β : Type*} {a₁ a₂ x : α} {b₁ b₂ y : β} {xs : List α} {ys zs : List β}
variable {yss : List (List β)}

/-- The image `ys` of the letter `x` respects the pattern. -/
structure Respects (a₁ a₂ : α) (b₁ b₂ : β) (x : α) (ys : List β) : Prop where
  first : x = a₁ → ys = [b₁]
  second : x = a₂ → ys = [b₂]
  other : x ≠ a₁ → x ≠ a₂ → ys ≠ [] ∧ b₁ ∉ ys ∧ b₂ ∉ ys

/-- The pattern starts at its first letter only. -/
theorem infix_cons_iff_of_ne (hne : y ≠ b₁) : [b₁, b₂] <:+: y :: zs ↔ [b₁, b₂] <:+: zs := by
  rw [List.infix_cons_iff]
  constructor
  · intro h
    rcases h with hpre | hsub
    · exact absurd (List.cons_prefix_cons.mp hpre).1.symm hne
    · exact hsub
  · exact .inr

theorem infix_cons_self_iff : [b₁, b₂] <:+: b₁ :: zs ↔ zs.head? = some b₂ ∨ [b₁, b₂] <:+: zs := by
  rw [List.infix_cons_iff, List.cons_prefix_cons]
  constructor
  · intro h
    rcases h with ⟨_, hpre⟩ | hsub
    · obtain ⟨rest, rfl⟩ := hpre
      exact .inl rfl
    · exact .inr hsub
  · intro h
    rcases h with hhead | hsub
    · cases zs with
      | nil => cases hhead
      | cons z zs =>
          obtain rfl := Option.some.inj hhead
          exact .inl ⟨rfl, zs, rfl⟩
    · exact .inr hsub

/-- Words without the first letter do not matter in front. -/
theorem infix_append_left_iff (h : b₁ ∉ ys) : [b₁, b₂] <:+: ys ++ zs ↔ [b₁, b₂] <:+: zs := by
  induction ys with
  | nil => exact Iff.rfl
  | cons y ys ih =>
      rw [List.cons_append, infix_cons_iff_of_ne (Ne.symm (List.ne_of_not_mem_cons h)),
        ih (List.not_mem_of_not_mem_cons h)]

/-- Words without the two letters do not matter behind. -/
theorem infix_append_right_iff (h₁ : b₁ ∉ zs) (h₂ : b₂ ∉ zs) :
    [b₁, b₂] <:+: ys ++ zs ↔ [b₁, b₂] <:+: ys := by
  constructor
  · induction ys with
    | nil =>
        intro h
        exact absurd (h.subset List.mem_cons_self) h₁
    | cons y ys ih =>
        intro h
        by_cases hy : y = b₁
        · obtain rfl := hy
          rw [List.cons_append, infix_cons_self_iff] at h
          rw [infix_cons_self_iff]
          rcases h with hhead | hsub
          · cases ys with
            | nil => exact absurd (List.mem_of_head? hhead) h₂
            | cons z ys => exact .inl hhead
          · exact .inr (ih hsub)
        · rw [List.cons_append, infix_cons_iff_of_ne hy] at h
          rw [infix_cons_iff_of_ne hy]
          exact ih h
  · intro h
    exact h.trans (List.prefix_append ys zs).isInfix

/-- The image of a word starts with `b₂` if the word starts with `a₂`. -/
theorem head?_flatten_iff (hb : b₁ ≠ b₂)
    (h : List.Forall₂ (Respects a₁ a₂ b₁ b₂) xs yss) :
    yss.flatten.head? = some b₂ ↔ xs.head? = some a₂ := by
  cases h with
  | nil => exact ⟨fun h => absurd h (by simp), fun h => absurd h (by simp)⟩
  | @cons x ys xs yss hx _ =>
      rw [List.flatten_cons, List.head?_cons, Option.some_inj]
      constructor
      · intro hhead
        by_contra hne
        by_cases h₁ : x = a₁
        · rw [hx.first h₁] at hhead
          exact hb (Option.some.inj hhead)
        · obtain ⟨hnil, _, hmem⟩ := hx.other h₁ hne
          cases ys with
          | nil => exact hnil rfl
          | cons y ys =>
              obtain rfl := Option.some.inj hhead
              exact hmem List.mem_cons_self
      · intro h₂
        rw [hx.second h₂]
        rfl

/-- A respectful substitution neither creates nor destroys the pattern. -/
theorem infix_flatten_iff (hb : b₁ ≠ b₂)
    (h : List.Forall₂ (Respects a₁ a₂ b₁ b₂) xs yss) :
    [b₁, b₂] <:+: yss.flatten ↔ [a₁, a₂] <:+: xs := by
  induction h with
  | nil => exact ⟨fun h => absurd h (by simp), fun h => absurd h (by simp)⟩
  | @cons x ys xs yss hx hxs ih =>
      rw [List.flatten_cons]
      by_cases h₁ : x = a₁
      · obtain rfl := h₁
        rw [hx.first rfl, List.singleton_append, infix_cons_self_iff, infix_cons_self_iff,
          head?_flatten_iff hb hxs, ih]
      · have hmem : b₁ ∉ ys := by
          by_cases h₂ : x = a₂
          · rw [hx.second h₂]
            exact fun hmem => hb (List.mem_singleton.mp hmem)
          · exact (hx.other h₁ h₂).2.1
        rw [infix_append_left_iff hmem, infix_cons_iff_of_ne h₁, ih]

/-- The same for a substitution that does not depend on the place. -/
theorem infix_flatMap_iff {f : α → List β} (hb : b₁ ≠ b₂)
    (hf : ∀ x, Respects a₁ a₂ b₁ b₂ x (f x)) : [b₁, b₂] <:+: xs.flatMap f ↔ [a₁, a₂] <:+: xs := by
  rw [List.flatMap_def]
  apply infix_flatten_iff hb
  rw [List.forall₂_map_right_iff]
  exact List.forall₂_same.mpr fun x _ => hf x

end Substitution
