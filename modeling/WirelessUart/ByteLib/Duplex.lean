import Mathlib.Logic.Relation

/-!
# Two machines that send to each other

A machine acts on its own state and sends messages while it does; the other one takes in what arrives.  `Duplex` is the
system of two such machines, whose acts may come in any order.

A concrete machine simulates an abstract one when each of its acts is matched by some acts of the abstract one that
send the same messages, and when both take in the same messages in step (`Machine.Simulates`).  Then the system of the
concrete machines simulates the system of the abstract ones (`Duplex.simulates`), and an invariant of the abstract
system holds of the concrete one (`Simulates.invariant`).
-/

namespace ByteLib

open Relation

/-! ### Simulations -/

section Simulation

variable {σ τ : Type*} {concrete : σ → σ → Prop} {abstract : τ → τ → Prop} {R : σ → τ → Prop} {s s' : σ} {t t' : τ}

/-- What every step keeps holds in every state that is reached. -/
theorem invariant_of_reaches {Inv : σ → Prop} (hstep : ∀ s s', Inv s → concrete s s' → Inv s')
    (h : ReflTransGen concrete s s') (hs : Inv s) : Inv s' := by
  induction h with
  | refl => exact hs
  | tail _ h ih => exact hstep _ _ ih h

/-- From related states, what the concrete machine does in one step the abstract one does in some. -/
def Simulates (concrete : σ → σ → Prop) (abstract : τ → τ → Prop) (R : σ → τ → Prop) : Prop :=
  ∀ s s' t, R s t → concrete s s' → ∃ t', ReflTransGen abstract t t' ∧ R s' t'

theorem Simulates.reaches (h : Simulates concrete abstract R) (hrun : ReflTransGen concrete s s') (hR : R s t) :
    ∃ t', ReflTransGen abstract t t' ∧ R s' t' := by
  induction hrun with
  | refl => exact ⟨t, .refl, hR⟩
  | tail _ hstep ih =>
    obtain ⟨u, hu, hRu⟩ := ih
    obtain ⟨v, hv, hRv⟩ := h _ _ _ hRu hstep
    exact ⟨v, hu.trans hv, hRv⟩

/-- A run of the concrete machine ends in a state that is related to one with the abstract invariant. -/
theorem Simulates.invariant {Inv : τ → Prop} (h : Simulates concrete abstract R)
    (hstep : ∀ t t', Inv t → abstract t t' → Inv t') (hrun : ReflTransGen concrete s s') (hR : R s t) (ht : Inv t) :
    ∃ t', Inv t' ∧ R s' t' := by
  obtain ⟨t', ht', hR'⟩ := h.reaches hrun hR
  exact ⟨t', invariant_of_reaches hstep ht' ht, hR'⟩

end Simulation

/-! ### Machines -/

/-- A machine of a duplex system: the acts by which it sends messages, and how it takes in what arrives. -/
structure Machine (σ ε : Type*) where
  act : σ → σ → List ε → Prop
  accept : σ → List ε → σ
  accept_nil : ∀ s, accept s [] = s
  accept_append : ∀ s es fs, accept s (es ++ fs) = accept (accept s es) fs

namespace Machine

variable {σ σ' τ τ' ε : Type*}

/-- Some acts one after the other, with all that they send. -/
inductive Acts (M : Machine σ ε) : σ → σ → List ε → Prop
  | refl (s : σ) : Acts M s s []
  | head {s t u : σ} {es fs : List ε} : M.act s t es → Acts M t u fs → Acts M s u (es ++ fs)

theorem Acts.single {M : Machine σ ε} {s t : σ} {es : List ε} (h : M.act s t es) : M.Acts s t es := by
  have := Acts.head h (.refl t)
  rwa [List.append_nil] at this

theorem Acts.trans {M : Machine σ ε} {s t u : σ} {es fs : List ε} (h : M.Acts s t es) (h' : M.Acts t u fs) :
    M.Acts s u (es ++ fs) := by
  induction h with
  | refl s => exact h'
  | head hact _ ih =>
    rw [List.append_assoc]
    exact .head hact (ih h')

/-- Each act of `M` is matched by acts of `N` that send the same, and both take in the same. -/
structure Simulates (M : Machine σ ε) (N : Machine τ ε) (R : σ → τ → Prop) : Prop where
  act : ∀ s s' t es, R s t → M.act s s' es → ∃ t', N.Acts t t' es ∧ R s' t'
  accept : ∀ s t es, R s t → R (M.accept s es) (N.accept t es)

end Machine

/-! ### The system -/

section Duplex

variable {σ σ' τ τ' ε : Type*}

/-- One machine acts, and the other one takes in what is sent. -/
inductive Duplex (M : Machine σ ε) (N : Machine τ ε) : σ × τ → σ × τ → Prop
  | left {s s' : σ} {t : τ} {es : List ε} : M.act s s' es → Duplex M N (s, t) (s', N.accept t es)
  | right {s : σ} {t t' : τ} {es : List ε} : N.act t t' es → Duplex M N (s, t) (M.accept s es, t')

theorem Duplex.reaches_left {M : Machine σ ε} {N : Machine τ ε} {s s' : σ} {es : List ε} (h : M.Acts s s' es) (t : τ) :
    ReflTransGen (Duplex M N) (s, t) (s', N.accept t es) := by
  induction h generalizing t with
  | refl s =>
    rw [N.accept_nil]
  | head hact _ ih =>
    rw [N.accept_append]
    exact (ReflTransGen.single (.left hact)).trans (ih _)

theorem Duplex.reaches_right {M : Machine σ ε} {N : Machine τ ε} {t t' : τ} {es : List ε} (h : N.Acts t t' es) (s : σ) :
    ReflTransGen (Duplex M N) (s, t) (M.accept s es, t') := by
  induction h generalizing s with
  | refl t =>
    rw [M.accept_nil]
  | head hact _ ih =>
    rw [M.accept_append]
    exact (ReflTransGen.single (.right hact)).trans (ih _)

/-- Machines that simulate others make a system that simulates theirs. -/
theorem Duplex.simulates {M : Machine σ ε} {N : Machine τ ε} {M' : Machine σ' ε} {N' : Machine τ' ε} {R : σ → σ' → Prop}
    {Q : τ → τ' → Prop} (hM : M.Simulates M' R) (hN : N.Simulates N' Q) :
    ByteLib.Simulates (Duplex M N) (Duplex M' N') fun x y => R x.1 y.1 ∧ Q x.2 y.2 := by
  intro x x' y hxy hstep
  obtain ⟨s', t'⟩ := y
  obtain ⟨hR, hQ⟩ := hxy
  cases hstep with
  | left hact =>
    obtain ⟨u, hu, hRu⟩ := hM.act _ _ _ _ hR hact
    exact ⟨_, Duplex.reaches_left hu t', hRu, hN.accept _ _ _ hQ⟩
  | right hact =>
    obtain ⟨u, hu, hQu⟩ := hN.act _ _ _ _ hQ hact
    exact ⟨_, Duplex.reaches_right hu s', hM.accept _ _ _ hR, hQu⟩

end Duplex

end ByteLib
