import Mathlib.Data.List.Basic
import Mathlib.Data.List.Infix

/-!
# Streams of frames

A parser looks at the front of a buffer and finds a frame, an error, or that it has
to wait for more.  It is `Stable` when more input never changes what it has found.
Draining a buffer takes frames off its front until the parser finds none.

A stable parser may be fed its input in pieces: draining a buffer, and then what was
left of it with the next piece behind, is draining both at once.
-/

namespace Framing

variable {α V ε : Type*}

/-- A parser returns nothing where it needs more, else a value and the length of its frame. -/
abbrev Parser (α V ε : Type*) := List α → Except ε (Option (V × Nat))

/-- What has been found at the front of a buffer does not depend on what is behind it. -/
structure Stable (parse : Parser α V ε) : Prop where
  pos : ∀ {buf v n}, parse buf = .ok (some (v, n)) → 0 < n
  le : ∀ {buf v n}, parse buf = .ok (some (v, n)) → n ≤ buf.length
  item : ∀ {buf v n}, parse buf = .ok (some (v, n)) →
    ∀ ext, parse (buf ++ ext) = .ok (some (v, n))
  error : ∀ {buf e}, parse buf = .error e → ∀ ext, parse (buf ++ ext) = .error e

/-- The frames at the front of a buffer, and the rest behind them or the error found there;
the number of frames is bounded. -/
def drainFrom (parse : Parser α V ε) : Nat → List α → List V × Except ε (List α)
  | 0, buf => ([], .ok buf)
  | left + 1, buf =>
      match parse buf with
      | .error e => ([], .error e)
      | .ok none => ([], .ok buf)
      | .ok (some (v, n)) =>
          let out := drainFrom parse left (buf.drop n)
          (v :: out.1, out.2)

/-- All frames at the front of a buffer. -/
def drain (parse : Parser α V ε) (buf : List α) : List V × Except ε (List α) :=
  drainFrom parse (buf.length + 1) buf

variable {parse : Parser α V ε} {buf ext : List α} {v : V} {n : Nat} {e : ε}

theorem drain_more (h : parse buf = .ok none) : drain parse buf = ([], .ok buf) := by
  rw [drain, drainFrom, h]

theorem drain_error (h : parse buf = .error e) : drain parse buf = ([], .error e) := by
  rw [drain, drainFrom, h]

/-- A frame has a positive length, so any bound above that of the buffer will do. -/
theorem drainFrom_eq (hparse : Stable parse) {left left' : Nat} (hleft : buf.length < left)
    (hleft' : buf.length < left') : drainFrom parse left buf = drainFrom parse left' buf := by
  induction left generalizing buf left' with
  | zero => omega
  | succ left ih =>
      cases left' with
      | zero => omega
      | succ left' =>
          cases hfront : parse buf with
          | error e => rw [drainFrom, drainFrom, hfront]
          | ok found =>
              cases found with
              | none => rw [drainFrom, drainFrom, hfront]
              | some frame =>
                  obtain ⟨v, n⟩ := frame
                  have hpos := hparse.pos hfront
                  have hle := hparse.le hfront
                  have hlen : (buf.drop n).length = buf.length - n := List.length_drop
                  have hrest := @ih (buf.drop n) left' (by omega) (by omega)
                  rw [drainFrom, drainFrom, hfront]
                  simp only [hrest]

theorem drain_item (hparse : Stable parse) (h : parse buf = .ok (some (v, n))) :
    drain parse buf = (v :: (drain parse (buf.drop n)).1, (drain parse (buf.drop n)).2) := by
  have hpos := hparse.pos h
  have hle := hparse.le h
  have hlen : (buf.drop n).length = buf.length - n := List.length_drop
  have hrest : drainFrom parse buf.length (buf.drop n) = drain parse (buf.drop n) :=
    drainFrom_eq hparse (by omega) (Nat.lt_succ_self _)
  rw [← hrest, drain, drainFrom, h]

/-- Induction on a buffer from what is left behind its first frame. -/
theorem drain_induction (hparse : Stable parse) {motive : List α → Prop}
    (error : ∀ buf e, parse buf = .error e → motive buf)
    (more : ∀ buf, parse buf = .ok none → motive buf)
    (item : ∀ buf v n, parse buf = .ok (some (v, n)) → motive (buf.drop n) → motive buf)
    (buf : List α) : motive buf := by
  induction hsize : buf.length using Nat.strongRecOn generalizing buf with
  | ind size ih =>
      cases hfront : parse buf with
      | error e => exact error buf e hfront
      | ok found =>
          cases found with
          | none => exact more buf hfront
          | some frame =>
              obtain ⟨v, n⟩ := frame
              have hpos := hparse.pos hfront
              have hle := hparse.le hfront
              have hlen : (buf.drop n).length = buf.length - n := List.length_drop
              exact item buf v n hfront (ih (buf.drop n).length (by omega) _ rfl)

/-- Draining waits for more at the rest that it leaves. -/
theorem drain_rest (hparse : Stable parse) {rest : List α}
    (h : (drain parse buf).2 = .ok rest) : parse rest = .ok none := by
  induction buf using drain_induction hparse with
  | error buf e hfront =>
      rw [drain_error hfront] at h
      cases h
  | more buf hfront =>
      rw [drain_more hfront] at h
      cases h
      exact hfront
  | item buf v n hfront ih =>
      rw [drain_item hparse hfront] at h
      exact ih h

/-- What is drained has been found by the parser. -/
theorem drain_mem (hparse : Stable parse) (h : v ∈ (drain parse buf).1) :
    ∃ front n, parse front = .ok (some (v, n)) := by
  induction buf using drain_induction hparse with
  | error buf e hfront =>
      rw [drain_error hfront] at h
      cases h
  | more buf hfront =>
      rw [drain_more hfront] at h
      cases h
  | item buf w n hfront ih =>
      rw [drain_item hparse hfront, List.mem_cons] at h
      rcases h with rfl | h
      · exact ⟨buf, n, hfront⟩
      · exact ih h

/-- An error found in a buffer is found with more behind it. -/
theorem drain_append_error (hparse : Stable parse) {vs : List V}
    (h : drain parse buf = (vs, .error e)) (ext : List α) :
    drain parse (buf ++ ext) = (vs, .error e) := by
  induction buf using drain_induction hparse generalizing vs with
  | error buf e' hfront =>
      rw [drain_error hfront] at h
      rw [drain_error (hparse.error hfront ext)]
      exact h
  | more buf hfront =>
      rw [drain_more hfront] at h
      cases h
  | item buf v n hfront ih =>
      rw [drain_item hparse hfront] at h
      obtain ⟨rfl, herror⟩ := Prod.mk.inj h
      have hdrop : (buf ++ ext).drop n = buf.drop n ++ ext :=
        List.drop_append_of_le_length (hparse.le hfront)
      have hrest := ih (Prod.ext rfl herror)
      rw [drain_item hparse (hparse.item hfront ext), hdrop, hrest]

/-- Draining in two pieces: the rest of the first goes before the second. -/
theorem drain_append (hparse : Stable parse) {vs : List V} {rest : List α}
    (h : drain parse buf = (vs, .ok rest)) (ext : List α) :
    drain parse (buf ++ ext) =
      (vs ++ (drain parse (rest ++ ext)).1, (drain parse (rest ++ ext)).2) := by
  induction buf using drain_induction hparse generalizing vs with
  | error buf e' hfront =>
      rw [drain_error hfront] at h
      cases h
  | more buf hfront =>
      rw [drain_more hfront] at h
      cases h
      rfl
  | item buf v n hfront ih =>
      rw [drain_item hparse hfront] at h
      obtain ⟨rfl, hok⟩ := Prod.mk.inj h
      have hdrop : (buf ++ ext).drop n = buf.drop n ++ ext :=
        List.drop_append_of_le_length (hparse.le hfront)
      have hrest := ih (Prod.ext rfl hok)
      rw [drain_item hparse (hparse.item hfront ext), hdrop, hrest, List.cons_append]

/-- A parser that needs more for a buffer has not found anything in a part of it. -/
theorem Stable.more_of_append (hparse : Stable parse) (h : parse (buf ++ ext) = .ok none) :
    parse buf = .ok none := by
  cases hfront : parse buf with
  | error e =>
      rw [hparse.error hfront ext] at h
      cases h
  | ok found =>
      cases found with
      | none => rfl
      | some frame =>
          rw [hparse.item hfront ext] at h
          cases h

/-! ## Frames taken so far -/

/-- The first frames of a buffer are `vs`, and `rest` is still to be drained behind them. -/
def Leaves (parse : Parser α V ε) (buf : List α) (vs : List V) (rest : List α) : Prop :=
  drain parse buf = (vs ++ (drain parse rest).1, (drain parse rest).2)

theorem Leaves.refl (buf : List α) : Leaves parse buf [] buf := rfl

/-- One more frame is taken off the rest. -/
theorem Leaves.item (hparse : Stable parse) {vs : List V} {rest : List α}
    (h : Leaves parse buf vs rest) (hfront : parse rest = .ok (some (v, n))) :
    Leaves parse buf (vs ++ [v]) (rest.drop n) := by
  rw [Leaves, drain_item hparse hfront] at h
  rw [Leaves, h, List.append_assoc, List.singleton_append]

/-- Where the rest holds no frame, all frames have been taken. -/
theorem Leaves.drain_eq {vs : List V} {rest : List α} (h : Leaves parse buf vs rest)
    (hmore : parse rest = .ok none) : drain parse buf = (vs, .ok rest) := by
  rw [Leaves, drain_more hmore, List.append_nil] at h
  exact h

/-- More input goes behind the rest. -/
theorem Leaves.append (hparse : Stable parse) {vs : List V} {rest : List α}
    (h : Leaves parse buf vs rest) (hmore : parse rest = .ok none) (ext : List α) :
    Leaves parse (buf ++ ext) vs (rest ++ ext) :=
  drain_append hparse (h.drain_eq hmore) ext

/-! ## Sequences of given frames -/

section Encode

variable {encode : V → List α}

/-- Every frame of the list is found, whatever is behind it. -/
def Reads (parse : Parser α V ε) (encode : V → List α) (v : V) : Prop :=
  ∀ ext, parse (encode v ++ ext) = .ok (some (v, (encode v).length))

/-- A proper front of a frame needs more. -/
theorem Reads.more (hparse : Stable parse) (h : Reads parse encode v) {front back : List α}
    (hsplit : front ++ back = encode v) (hback : back ≠ []) : parse front = .ok none := by
  have hwhole := h []
  rw [List.append_nil, ← hsplit] at hwhole
  cases hfront : parse front with
  | error e =>
      rw [hparse.error hfront back] at hwhole
      cases hwhole
  | ok found =>
      cases found with
      | none => rfl
      | some frame =>
          obtain ⟨w, m⟩ := frame
          have hle := hparse.le hfront
          have hpos := List.length_pos_iff.mpr hback
          rw [hparse.item hfront back] at hwhole
          cases hwhole
          rw [List.length_append] at hle
          omega

/-- A piece of a stream of frames is drained of the frames that end in it. -/
theorem drain_front (hparse : Stable parse) {vs : List V}
    (hvs : ∀ v ∈ vs, Reads parse encode v) {rest : List α} (hrest : parse rest = .ok none)
    (hsplit : buf ++ ext = vs.flatMap encode ++ rest) :
    ∃ done left back, vs = done ++ left ∧ drain parse buf = (done, .ok back) ∧
      back ++ ext = left.flatMap encode ++ rest := by
  induction vs generalizing buf with
  | nil =>
      rw [List.flatMap_nil, List.nil_append] at hsplit
      rw [← hsplit] at hrest
      exact ⟨[], [], buf, rfl, drain_more (hparse.more_of_append hrest), hsplit⟩
  | cons v vs ih =>
      have hv := hvs v List.mem_cons_self
      have hbuf : buf <+: (v :: vs).flatMap encode ++ rest := ⟨ext, hsplit⟩
      have hfirst : encode v <+: (v :: vs).flatMap encode ++ rest := by
        rw [List.flatMap_cons, List.append_assoc]
        exact List.prefix_append _ _
      by_cases hshort : buf.length < (encode v).length
      · obtain ⟨more, hmore⟩ := List.prefix_of_prefix_length_le hbuf hfirst hshort.le
        have hne : more ≠ [] := by
          intro hnil
          rw [hnil, List.append_nil] at hmore
          rw [hmore] at hshort
          exact absurd hshort (Nat.lt_irrefl _)
        exact ⟨[], v :: vs, buf, rfl, drain_more (hv.more hparse hmore hne), hsplit⟩
      · obtain ⟨tail, rfl⟩ :=
          List.prefix_of_prefix_length_le hfirst hbuf (Nat.not_lt.mp hshort)
        rw [List.flatMap_cons, List.append_assoc, List.append_assoc] at hsplit
        obtain ⟨done, left, back, rfl, hdrain, hback⟩ :=
          ih (fun w hw => hvs w (List.mem_cons_of_mem _ hw)) (List.append_cancel_left hsplit)
        refine ⟨v :: done, left, back, rfl, ?_, hback⟩
        rw [drain_item hparse (hv tail), List.drop_left, hdrain]

/-- A buffer that needs more, and goes on as a sequence of frames and a rest, is shorter than
the first of them. -/
theorem length_lt_of_more {vs : List V} (hv : Reads parse encode v) (hmore : parse buf = .ok none)
    {rest : List α} (hsplit : buf ++ ext = (v :: vs).flatMap encode ++ rest) :
    buf.length < (encode v).length := by
  by_contra hlong
  have hbuf : buf <+: (v :: vs).flatMap encode ++ rest := ⟨ext, hsplit⟩
  have hfirst : encode v <+: (v :: vs).flatMap encode ++ rest := by
    rw [List.flatMap_cons, List.append_assoc]
    exact List.prefix_append _ _
  obtain ⟨back, hback⟩ := List.prefix_of_prefix_length_le hfirst hbuf (Nat.not_lt.mp hlong)
  rw [← hback, hv back] at hmore
  cases hmore

end Encode

end Framing
