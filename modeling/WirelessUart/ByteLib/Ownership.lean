import Mathlib.Data.Set.Insert
import WirelessUart.ByteLib.Heap

/-!
# Owned blocks

A part of a program works beside the heap `base` that it was given: it owns the blocks that it has requested and not
freed, and leaves all others alone (`Heap.Beside`).  There is one rule for each operation, which says how the set of
owned blocks changes; when it is empty, the heap holds the blocks of `base` again (`Heap.Beside.blocks_eq`).
-/

namespace ByteLib.Heap

variable {α : Type*} {base heap heap' : Heap α} {owned : Set Nat} {p : Nat}

/-- Since `base`, the blocks `owned` have been requested and are live, and nothing else has changed. -/
structure Beside (base heap : Heap α) (owned : Set Nat) : Prop where
  requests_le : base.requests ≤ heap.requests
  kept : ∀ p, p < base.requests → heap.blocks p = base.blocks p
  live : ∀ p, base.requests ≤ p → ((heap.blocks p).isSome ↔ p ∈ owned)
  later : ∀ p, p ∈ owned → base.requests ≤ p

theorem beside_self (base : Heap α) : Beside base base ∅ where
  requests_le := Nat.le_refl _
  kept _ _ := rfl
  live p hp := by
    rw [base.fresh p hp]
    simp
  later _ hp := absurd hp (Set.notMem_empty _)

namespace Beside

theorem congr {owned' : Set Nat} (h : Beside base heap owned) (heq : ∀ p, p ∈ owned ↔ p ∈ owned') :
    Beside base heap owned' := by
  rwa [← Set.ext heq]

/-- Without owned blocks, only the blocks of `base` are left. -/
theorem blocks_eq (h : Beside base heap ∅) : heap.blocks = base.blocks := by
  funext p
  rcases Nat.lt_or_ge p base.requests with hp | hp
  · exact h.kept p hp
  · rw [base.fresh p hp, ← Option.not_isSome_iff_eq_none, h.live p hp]
    exact Set.notMem_empty p

theorem isSome (h : Beside base heap owned) (hp : p ∈ owned) : (heap.blocks p).isSome := (h.live p (h.later p hp)).2 hp

/-- A block of `base` is as it was. -/
theorem of_base (h : Beside base heap owned) (hp : (base.blocks p).isSome) :
    heap.blocks p = base.blocks p ∧ p ∉ owned := by
  obtain ⟨b, hb⟩ := Option.isSome_iff_exists.1 hp
  have hlt := lt_requests hb
  exact ⟨h.kept p hlt, fun hmem => absurd (h.later p hmem) (by omega)⟩

/-- Later requests that have left no blocks do not matter. -/
theorem of_blocks_eq (h : Beside base heap owned) (hle : heap.requests ≤ heap'.requests)
    (hblocks : heap'.blocks = heap.blocks) : Beside base heap' owned where
  requests_le := h.requests_le.trans hle
  kept p hp := by
    rw [hblocks]
    exact h.kept p hp
  live p hp := by
    rw [hblocks]
    exact h.live p hp
  later := h.later

theorem toExtends (h : Beside base heap owned) : Extends base heap := ⟨h.requests_le, h.kept⟩

/-- The address of the next request is not owned. -/
theorem requests_notMem (h : Beside base heap owned) : heap.requests ∉ owned := by
  intro hmem
  have := h.isSome hmem
  rw [heap.fresh _ (Nat.le_refl _)] at this
  cases this

theorem refused (h : Beside base heap owned) : Beside base (heap.request none) owned where
  requests_le := Nat.le_succ_of_le h.requests_le
  kept p hp := by
    have := h.requests_le
    exact (if_neg (by omega)).trans (h.kept p hp)
  live p hp := by
    show (if p = heap.requests then none else heap.blocks p).isSome ↔ _
    split
    case isTrue heq =>
      rw [heq]
      simp [h.requests_notMem]
    case isFalse => exact h.live p hp
  later := h.later

theorem granted (h : Beside base heap owned) (b : List α) :
    Beside base (heap.request (some b)) (insert heap.requests owned) where
  requests_le := Nat.le_succ_of_le h.requests_le
  kept p hp := by
    have := h.requests_le
    exact (if_neg (by omega)).trans (h.kept p hp)
  live p hp := by
    show (if p = heap.requests then some b else heap.blocks p).isSome ↔ _
    rw [Set.mem_insert_iff]
    split
    case isTrue heq => simp [heq]
    case isFalse hne => exact (h.live p hp).trans (or_iff_right hne).symm
  later p hp := by
    rcases Set.mem_insert_iff.1 hp with rfl | hp
    · exact h.requests_le
    · exact h.later p hp

/-- An owned block may change. -/
theorem changes (h : Beside base heap owned) (hc : Changes p heap heap') (hp : p ∈ owned)
    (hlive : (heap'.blocks p).isSome) : Beside base heap' owned where
  requests_le := hc.requests_eq ▸ h.requests_le
  kept q hq := by
    have := h.later p hp
    rw [hc.blocks_eq q (by omega), h.kept q hq]
  live q hq := by
    by_cases hqp : q = p
    · rw [hqp]
      exact iff_of_true hlive hp
    · rw [hc.blocks_eq q hqp]
      exact h.live q hq
  later := h.later

/-- An owned block may be freed. -/
theorem freed (h : Beside base heap owned) (hc : Changes p heap heap') (hp : p ∈ owned)
    (hgone : heap'.blocks p = none) : Beside base heap' (owned \ {p}) where
  requests_le := hc.requests_eq ▸ h.requests_le
  kept q hq := by
    have := h.later p hp
    rw [hc.blocks_eq q (by omega), h.kept q hq]
  live q hq := by
    rw [Set.mem_sdiff, Set.mem_singleton_iff]
    by_cases hqp : q = p
    · rw [hqp, hgone]
      simp
    · rw [hc.blocks_eq q hqp, h.live q hq]
      exact (and_iff_left hqp).symm
  later q hq := h.later q hq.1

theorem free (h : Beside base heap owned) (hp : p ∈ owned) :
    ∃ heap', heap.free p = some heap' ∧ Beside base heap' (owned \ {p}) ∧ Changes p heap heap' := by
  obtain ⟨b, hb⟩ := Option.isSome_iff_exists.1 (h.isSome hp)
  obtain ⟨heap', hfree, hc, hgone⟩ := free_spec hb
  exact ⟨heap', hfree, h.freed hc hp hgone, hc⟩

/-- A new block takes the place of an owned one, or of none. -/
theorem replaces {dest : Option Nat} {block : List α} (h : Beside base heap owned)
    (hr : Replaces dest block heap heap') (hdest : ∀ p, dest = some p → p ∈ owned) :
    Beside base heap' (insert heap.requests {p ∈ owned | dest ≠ some p}) where
  requests_le := by
    rw [hr.requests_eq]
    exact Nat.le_succ_of_le h.requests_le
  kept p hp := by
    have := h.requests_le
    rw [hr.other p (by omega) fun hd => absurd (h.later p (hdest p hd)) (by omega), h.kept p hp]
  live p hp := by
    rw [Set.mem_insert_iff, Set.mem_ofPred_eq]
    by_cases hnew : p = heap.requests
    · rw [hnew, hr.new]
      simp
    · by_cases hd : dest = some p
      · rw [hr.freed p hd]
        simp [hnew, hd]
      · rcases Nat.lt_or_ge p heap.requests with hlt | hge
        · rw [hr.other p hlt hd, h.live p hp]
          simp [hnew, hd]
        · have hnone : heap'.blocks p = none := heap'.fresh p (by rw [hr.requests_eq]; omega)
          have hout : p ∉ owned := fun hmem => by
            have := h.isSome hmem
            rw [heap.fresh p hge] at this
            cases this
          rw [hnone]
          simp [hnew, hout]
  later p hp := by
    rcases Set.mem_insert_iff.1 hp with rfl | hp
    · exact h.requests_le
    · exact h.later p hp.1

end Beside

end ByteLib.Heap
