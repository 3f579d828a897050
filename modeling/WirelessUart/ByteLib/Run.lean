import Mathlib.Data.List.Induction

/-!
# Runs of a step function

A run is `List.foldl` of a step function over the inputs.  An invariant of the steps holds after every run
(`List.foldlRecOn`), and a property that a step keeps exactly when it is a good one holds along a run exactly when all
its steps are good (`foldl_invariant_iff`).

A step relation has runs of a given number of steps (`RunsIn`).  A measure that every step makes smaller bounds their
number (`RunsIn.add_measure_le`).  When the steps are deterministic, every run is a part of the one that has come to an
end (`RunsIn.part_of_final`).
-/

namespace ByteLib

variable {σ ι : Type*} {step : σ → ι → σ} {Inv : σ → Prop}

/-- The property holds in every state of a run exactly when every step of the run is good. -/
theorem foldl_invariant_iff {Good : σ → ι → Prop} (hstep : ∀ s i, Inv s → (Inv (step s i) ↔ Good s i)) (is : List ι)
    {s : σ} (hs : Inv s) :
    (∀ pre, pre <+: is → Inv (pre.foldl step s)) ↔
      ∀ pre i post, is = pre ++ i :: post → Good (pre.foldl step s) i := by
  constructor
  · rintro h pre i post rfl
    have hpre : Inv (pre.foldl step s) := h pre (List.prefix_append _ _)
    have hnext : Inv ((pre ++ [i]).foldl step s) := h (pre ++ [i]) ⟨post, by simp⟩
    rw [List.foldl_append] at hnext
    exact (hstep _ i hpre).1 hnext
  · intro h pre
    induction pre using List.reverseRecOn with
    | nil => exact fun _ => hs
    | append_singleton pre i ih =>
      rintro ⟨post, rfl⟩
      have hpre : Inv (pre.foldl step s) := ih ⟨i :: post, by simp⟩
      rw [List.foldl_append]
      exact (hstep _ i hpre).2 (h pre i post (by simp))

/-- A run of `n` steps of the relation. -/
inductive RunsIn (r : σ → σ → Prop) : Nat → σ → σ → Prop
  | refl (s : σ) : RunsIn r 0 s s
  | head {n : Nat} {s t u : σ} : r s t → RunsIn r n t u → RunsIn r (n + 1) s u

/-- A run takes at most as many steps as the measure loses. -/
theorem RunsIn.add_measure_le {r : σ → σ → Prop} (measure : σ → Nat) (hstep : ∀ s t, r s t → measure t < measure s)
    {n : Nat} {s t : σ} (h : RunsIn r n s t) : n + measure t ≤ measure s := by
  induction h with
  | refl s => omega
  | head hs _ ih =>
    have := hstep _ _ hs
    omega

section Relation

variable {r : σ → σ → Prop} {n m : Nat} {s t u : σ}

theorem RunsIn.single (h : r s t) : RunsIn r 1 s t := .head h (.refl t)

theorem RunsIn.append (h : RunsIn r n s t) (h' : RunsIn r m t u) : RunsIn r (n + m) s u := by
  induction h with
  | refl s => rwa [Nat.zero_add]
  | head hs _ ih =>
    rw [Nat.add_right_comm]
    exact .head hs (ih h')

/-- A run of a deterministic machine is the beginning of the run that ends in a state without a successor. -/
theorem RunsIn.part_of_final (hdet : ∀ s t u, r s t → r s u → t = u) (h : RunsIn r n s t) (hfinal : ∀ v, ¬ r t v)
    (h' : RunsIn r m s u) : ∃ k, n = m + k ∧ RunsIn r k u t := by
  induction h' generalizing n with
  | refl s => exact ⟨n, by omega, h⟩
  | head hs _ ih =>
    cases h with
    | refl => exact absurd hs (hfinal _)
    | head hs' h =>
      obtain rfl := hdet _ _ _ hs hs'
      obtain ⟨k, hk, hrun⟩ := ih h
      exact ⟨k, by omega, hrun⟩

end Relation

end ByteLib
