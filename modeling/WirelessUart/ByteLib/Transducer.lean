import Mathlib.Data.Option.Basic
import Mathlib.Data.List.Basic

/-!
# Transducers

A transducer reads one symbol at a time; a step either fails or yields the next state and the symbols it writes.
`run` collects what is written over a whole input.  Runs compose over concatenation (`run_append`), and a potential
of the state that pays for every symbol written bounds the output by the input (`run_length_le`).

`AllSteps` is about the steps that are made on an input.  A step that is made with the property does not fail, so a run
with the property at all steps reads the whole input (`AllSteps.run_eq_some`).
-/

namespace ByteLib

variable {σ τ α β : Type*}

/-- Read the whole input; `none` when a step fails. -/
def run (step : σ → α → Option (σ × List β)) : σ → List α → Option (σ × List β)
  | s, [] => some (s, [])
  | s, a :: as =>
    match step s a with
    | none => none
    | some (s', out) => (run step s' as).map fun (t, rest) => (t, out ++ rest)

variable {step : σ → α → Option (σ × List β)}

@[simp] theorem run_nil (s : σ) : run step s [] = some (s, []) := rfl

theorem run_cons_of_step {s s' : σ} {a : α} {out : List β} (h : step s a = some (s', out)) (as : List α) :
    run step s (a :: as) = (run step s' as).map fun (t, rest) => (t, out ++ rest) := by
  rw [run, h]

theorem run_cons_of_fail {s : σ} {a : α} (h : step s a = none) (as : List α) : run step s (a :: as) = none := by
  rw [run, h]

/-- A run over a non-empty input is a step followed by a run. -/
theorem run_cons_eq_some {s t : σ} {a : α} {as : List α} {out : List β} :
    run step s (a :: as) = some (t, out) ↔
      ∃ s' o rest, step s a = some (s', o) ∧ run step s' as = some (t, rest) ∧ out = o ++ rest := by
  constructor
  · intro h
    cases hs : step s a with
    | none => rw [run_cons_of_fail hs] at h; cases h
    | some p =>
      obtain ⟨s', o⟩ := p
      rw [run_cons_of_step hs, Option.map_eq_some_iff] at h
      obtain ⟨⟨t', rest⟩, hr, he⟩ := h
      simp only [Prod.mk.injEq] at he
      obtain ⟨rfl, rfl⟩ := he
      exact ⟨s', o, rest, rfl, hr, rfl⟩
  · rintro ⟨s', o, rest, hs, hr, rfl⟩
    rw [run_cons_of_step hs, hr]
    rfl

theorem run_append (s : σ) (as bs : List α) :
    run step s (as ++ bs) =
      (run step s as).bind fun (t, out) => (run step t bs).map fun (u, rest) => (u, out ++ rest) := by
  induction as generalizing s with
  | nil => simp
  | cons a as ih =>
    cases hs : step s a with
    | none => rw [List.cons_append, run_cons_of_fail hs, run_cons_of_fail hs]; rfl
    | some p =>
      rw [List.cons_append, run_cons_of_step hs, run_cons_of_step hs, ih]
      rcases run step p.1 as with _ | ⟨t, out⟩
      · rfl
      · rcases h : run step t bs with _ | ⟨u, rest⟩ <;> simp [h]

theorem run_append_of_run {s t : σ} {as : List α} {out : List β} (h : run step s as = some (t, out))
    (bs : List α) :
    run step s (as ++ bs) = (run step t bs).map fun (u, rest) => (u, out ++ rest) := by
  rw [run_append, h]; rfl

/-- If every block of symbols is read from `s` back to `s` and writes one symbol, then a concatenation of blocks
writes the list of those symbols. -/
theorem run_flatMap {γ : Type*} {s : σ} {f : γ → List α} {g : γ → β}
    (h : ∀ c, run step s (f c) = some (s, [g c])) (cs : List γ) :
    run step s (cs.flatMap f) = some (s, cs.map g) := by
  induction cs with
  | nil => rfl
  | cons c cs ih => rw [List.flatMap_cons, run_append_of_run (h c), ih]; rfl

/-- A potential that grows by at most one with every symbol read, and pays for every symbol written, bounds what
is written. -/
theorem run_length_le (held : σ → Nat)
    (h : ∀ s a s' out, step s a = some (s', out) → out.length + held s' ≤ held s + 1)
    {s t : σ} {as : List α} {out : List β} (hr : run step s as = some (t, out)) :
    out.length + held t ≤ held s + as.length := by
  induction as generalizing s out with
  | nil =>
    simp only [run_nil, Option.some.injEq, Prod.mk.injEq] at hr
    obtain ⟨rfl, rfl⟩ := hr
    simp
  | cons a as ih =>
    obtain ⟨s', o, rest, hs, hr', rfl⟩ := run_cons_eq_some.1 hr
    have h1 := h _ _ _ _ hs
    have h2 := ih hr'
    simp only [List.length_append, List.length_cons]
    omega

/-! ### Properties of the steps -/

/-- Every step that is made on the input has the property. -/
def AllSteps (step : σ → α → Option (σ × List β)) (P : σ → α → Prop) (s : σ) (as : List α) : Prop :=
  ∀ pre a post t out, as = pre ++ a :: post → run step s pre = some (t, out) → P t a

section AllSteps

variable {P : σ → α → Prop} {s t : σ} {a : α} {as : List α}

theorem allSteps_nil : AllSteps step P s [] := by
  intro pre a post t out h
  simp at h

theorem AllSteps.head (h : AllSteps step P s (a :: as)) : P s a := h [] a as s [] rfl rfl

/-- The first step, and the steps behind it. -/
theorem allSteps_cons {out : List β} (h : step s a = some (t, out)) :
    AllSteps step P s (a :: as) ↔ P s a ∧ AllSteps step P t as := by
  constructor
  · intro hall
    refine ⟨hall.head, ?_⟩
    intro pre a' post u out' has hrun
    have hrun' : run step s (a :: pre) = some (u, out ++ out') := by
      rw [run_cons_of_step h, hrun]
      rfl
    exact hall (a :: pre) a' post u _ (by rw [has, List.cons_append]) hrun'
  · intro hall
    obtain ⟨hhead, htail⟩ := hall
    intro pre a' post u out' has hrun
    rcases List.cons_eq_append_iff.1 has with ⟨rfl, hcons⟩ | ⟨pre', rfl, has'⟩
    · cases hcons
      cases hrun
      exact hhead
    · obtain ⟨s', o, rest, hstep, hrest, -⟩ := run_cons_eq_some.1 hrun
      rw [h] at hstep
      cases hstep
      exact htail pre' a' post u rest has' hrest

/-- Steps with the property do not fail, so all of the input is read. -/
theorem AllSteps.run_eq_some (hP : ∀ s a, P s a → step s a ≠ none) (h : AllSteps step P s as) :
    ∃ t out, run step s as = some (t, out) := by
  induction as generalizing s with
  | nil => exact ⟨s, [], rfl⟩
  | cons a as ih =>
    obtain ⟨⟨t, out⟩, hstep⟩ := Option.ne_none_iff_exists'.1 (hP s a h.head)
    obtain ⟨u, rest, hrun⟩ := ih ((allSteps_cons hstep).1 h).2
    exact ⟨u, out ++ rest, by rw [run_cons_of_step hstep, hrun]; rfl⟩

end AllSteps

end ByteLib
