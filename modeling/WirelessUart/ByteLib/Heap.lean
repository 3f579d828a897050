import Mathlib.Data.List.Basic

/-!
# Memory in blocks

A `Heap` is a set of live blocks.  The address of a block is the number of the request for it, so a block that has been
freed is never taken for a later one.  An `Allocator` says which requests are granted and what a new block holds; both
are outside.

`none` is undefined behaviour: an access outside of a live block, or a `free` of a block that is not live.  Each
operation changes one block (`Changes`), and one that is granted a new block leaves the others alone (`Extends`).
-/

namespace ByteLib

variable {α : Type*}

/-- Which requests are granted, and what the bytes of a new block are. -/
structure Allocator (α : Type*) where
  grants : Nat → Bool
  junk : Nat → Nat → α

/-- The live blocks; there are none for requests to come. -/
structure Heap (α : Type*) where
  blocks : Nat → Option (List α)
  requests : Nat
  fresh : ∀ p, requests ≤ p → blocks p = none

namespace Heap

def empty : Heap α := ⟨fun _ => none, 0, fun _ _ => rfl⟩

/-- The next request, answered with a block or with nothing. -/
def request (heap : Heap α) (block : Option (List α)) : Heap α where
  blocks p := if p = heap.requests then block else heap.blocks p
  requests := heap.requests + 1
  fresh p hp := by
    rw [if_neg (by omega)]
    exact heap.fresh p (by omega)

/-- Another block, or none, for an address that was given out. -/
def set (heap : Heap α) (p : Nat) (block : Option (List α)) : Heap α where
  blocks q := if q = p ∧ (heap.blocks p).isSome then block else heap.blocks q
  requests := heap.requests
  fresh q hq := by
    rw [if_neg]
    · exact heap.fresh q hq
    · rintro ⟨rfl, h⟩
      rw [heap.fresh q hq] at h
      cases h

/-- `malloc`; a request that is not granted returns no address. -/
def malloc (al : Allocator α) (n : Nat) (heap : Heap α) : Option Nat × Heap α :=
  if al.grants heap.requests then
    (some heap.requests, heap.request (some ((List.range n).map (al.junk heap.requests))))
  else (none, heap.request none)

/-- `calloc` -/
def calloc (al : Allocator α) (zero : α) (n : Nat) (heap : Heap α) : Option Nat × Heap α :=
  if al.grants heap.requests then (some heap.requests, heap.request (some (List.replicate n zero)))
  else (none, heap.request none)

/-- `free` -/
def free (p : Nat) (heap : Heap α) : Option (Heap α) :=
  if (heap.blocks p).isSome then some (heap.set p none) else none

/-- The first `n` symbols of a block. -/
def read (p n : Nat) (heap : Heap α) : Option (List α) :=
  (heap.blocks p).bind fun b => if n ≤ b.length then some (b.take n) else none

/-- Store the symbols `vs` in a block, from position `i`. -/
def write (p i : Nat) (vs : List α) (heap : Heap α) : Option (Heap α) :=
  (heap.blocks p).bind fun b =>
    if i + vs.length ≤ b.length then some (heap.set p (some (b.take i ++ vs ++ b.drop (i + vs.length)))) else none

variable {heap heap' heap'' : Heap α} {p : Nat} {b : List α}

theorem lt_requests (h : heap.blocks p = some b) : p < heap.requests := by
  by_contra hp
  rw [heap.fresh p (by omega)] at h
  cases h

/-! ### Changes -/

/-- Only the block `p` is different. -/
structure Changes (p : Nat) (heap heap' : Heap α) : Prop where
  requests_eq : heap'.requests = heap.requests
  blocks_eq : ∀ q, q ≠ p → heap'.blocks q = heap.blocks q

theorem Changes.trans (h : Changes p heap heap') (h' : Changes p heap' heap'') : Changes p heap heap'' :=
  ⟨h'.requests_eq.trans h.requests_eq, fun q hq => (h'.blocks_eq q hq).trans (h.blocks_eq q hq)⟩

theorem changes_set (heap : Heap α) (p : Nat) (block : Option (List α)) : Changes p heap (heap.set p block) :=
  ⟨rfl, fun _ hq => if_neg fun h => hq h.1⟩

/-- The blocks for all earlier requests are as they were. -/
structure Extends (heap heap' : Heap α) : Prop where
  requests_le : heap.requests ≤ heap'.requests
  blocks_eq : ∀ p, p < heap.requests → heap'.blocks p = heap.blocks p

namespace Extends

theorem refl (heap : Heap α) : Extends heap heap := ⟨Nat.le_refl _, fun _ _ => rfl⟩

theorem trans (h : Extends heap heap') (h' : Extends heap' heap'') : Extends heap heap'' := by
  refine ⟨Nat.le_trans h.requests_le h'.requests_le, fun p hp => ?_⟩
  rw [h'.blocks_eq p (Nat.lt_of_lt_of_le hp h.requests_le), h.blocks_eq p hp]

theorem blocks (h : Extends heap heap') (hb : heap.blocks p = some b) : heap'.blocks p = some b :=
  (h.blocks_eq p (lt_requests hb)).trans hb

theorem request (heap : Heap α) (block : Option (List α)) : Extends heap (heap.request block) :=
  ⟨Nat.le_succ _, fun _ hp => if_neg (Nat.ne_of_lt hp)⟩

/-- A later block may change. -/
theorem changes (h : Extends heap heap') (hp : heap.requests ≤ p) (hc : Changes p heap' heap'') :
    Extends heap heap'' := by
  refine ⟨hc.requests_eq ▸ h.requests_le, fun q hq => ?_⟩
  rw [hc.blocks_eq q (by omega), h.blocks_eq q hq]

end Extends

/-! ### Requests -/

section Requests

variable {al : Allocator α}

theorem malloc_of_grants (hal : al.grants heap.requests = true) (n : Nat) :
    ∃ heap' b, heap.malloc al n = (some heap.requests, heap') ∧ Extends heap heap' ∧
      heap'.blocks heap.requests = some b ∧ b.length = n :=
  ⟨_, _, if_pos hal, .request heap _, if_pos rfl, by simp⟩

theorem malloc_of_refuses (hal : al.grants heap.requests = false) (n : Nat) :
    heap.malloc al n = (none, heap.request none) := if_neg (by simp [hal])

theorem calloc_of_grants (hal : al.grants heap.requests = true) (zero : α) (n : Nat) :
    heap.calloc al zero n = (some heap.requests, heap.request (some (List.replicate n zero))) := if_pos hal

theorem calloc_of_refuses (hal : al.grants heap.requests = false) (zero : α) (n : Nat) :
    heap.calloc al zero n = (none, heap.request none) := if_neg (by simp [hal])

end Requests

/-! ### Accesses to live blocks -/

theorem set_blocks_self (h : heap.blocks p = some b) (block : Option (List α)) : (heap.set p block).blocks p = block :=
  if_pos ⟨rfl, by rw [h]; rfl⟩

/-- No block can be freed twice. -/
theorem free_free (p : Nat) (heap : Heap α) : (heap.free p).bind (free p) = none := by
  unfold free
  by_cases h : (heap.blocks p).isSome
  · obtain ⟨b, hb⟩ := Option.isSome_iff_exists.1 h
    rw [if_pos h, Option.bind_some, set_blocks_self hb]
    rfl
  · rw [if_neg h]
    rfl

theorem free_spec (h : heap.blocks p = some b) :
    ∃ heap', heap.free p = some heap' ∧ Changes p heap heap' ∧ heap'.blocks p = none := by
  refine ⟨_, ?_, changes_set heap p none, set_blocks_self h none⟩
  rw [free, h]
  rfl

theorem read_eq_some {n : Nat} {vs : List α} :
    heap.read p n = some vs ↔ ∃ b, heap.blocks p = some b ∧ n ≤ b.length ∧ b.take n = vs := by
  rw [read, Option.bind_eq_some_iff]
  refine exists_congr fun b => and_congr_right fun _ => ?_
  rw [Option.ite_none_right_eq_some, Option.some.injEq]

theorem read_of_append {vs ws : List α} (h : heap.blocks p = some (vs ++ ws)) : heap.read p vs.length = some vs :=
  read_eq_some.2 ⟨_, h, (List.prefix_append vs ws).length_le, List.take_left⟩

theorem read_congr (h : heap'.blocks p = heap.blocks p) (n : Nat) : heap'.read p n = heap.read p n := by
  rw [read, read, h]

/-- A store inside of a block. -/
theorem write_spec (h : heap.blocks p = some b) (i : Nat) (vs : List α) (hi : i + vs.length ≤ b.length) :
    ∃ heap', heap.write p i vs = some heap' ∧ Changes p heap heap' ∧
      heap'.blocks p = some (b.take i ++ vs ++ b.drop (i + vs.length)) := by
  refine ⟨_, ?_, changes_set heap p _, set_blocks_self h _⟩
  rw [write, h]
  exact if_pos hi

theorem changes_of_write {i : Nat} {vs : List α} (h : heap.write p i vs = some heap') : Changes p heap heap' := by
  obtain ⟨b, -, h⟩ := Option.bind_eq_some_iff.1 h
  obtain ⟨-, h⟩ := Option.ite_none_right_eq_some.1 h
  cases h
  exact changes_set heap p _

/-- A block is filled from its first symbol to its last. -/
theorem write_all (h : heap.blocks p = some b) (vs : List α) (hlen : vs.length = b.length) :
    ∃ heap', heap.write p 0 vs = some heap' ∧ Changes p heap heap' ∧ heap'.blocks p = some vs := by
  obtain ⟨heap', hwrite, hc, hb⟩ := write_spec h 0 vs (by omega)
  refine ⟨heap', hwrite, hc, ?_⟩
  rw [hb, List.take_zero, List.nil_append, Nat.zero_add, List.drop_of_length_le (by omega), List.append_nil]

/-! ### Replacing a block -/

/-- A new block takes the place of `dest`. -/
structure Replaces (dest : Option Nat) (block : List α) (heap heap' : Heap α) : Prop where
  requests_eq : heap'.requests = heap.requests + 1
  new : heap'.blocks heap.requests = some block
  other : ∀ q, q < heap.requests → dest ≠ some q → heap'.blocks q = heap.blocks q
  freed : ∀ q, dest = some q → heap'.blocks q = none

theorem Replaces.extends {block : List α} (h : Replaces none block heap heap') : Extends heap heap' :=
  ⟨by rw [h.requests_eq]; exact Nat.le_succ _, fun q hq => h.other q hq (by simp)⟩

end Heap

end ByteLib
