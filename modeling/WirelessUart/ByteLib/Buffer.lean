import Mathlib.Data.List.Basic

/-!
# Output buffers of fixed size

A `Buffer` is an array of fixed size that records whether a store missed it.  A `Writer` fills a buffer from the
front; it carries its position and the room that is left, which add up to the size.  `Writer.put` appends symbols
when there is room for them, and may store further symbols behind them without advancing, as a string function
does that terminates what it writes.
-/

namespace ByteLib

variable {α : Type*}

/-- An array of fixed size; `overrun` tells whether some store went outside of it. -/
structure Buffer (α : Type*) where
  cells : List α
  overrun : Bool := false
deriving DecidableEq, Repr

namespace Buffer

def size (b : Buffer α) : Nat := b.cells.length

def store (b : Buffer α) (i : Nat) (v : α) : Buffer α :=
  ⟨b.cells.set i v, b.overrun || decide (b.size ≤ i)⟩

/-- Store the symbols `vs` at the positions `i, i+1, …`. -/
def storeAll (b : Buffer α) (i : Nat) : List α → Buffer α
  | [] => b
  | v :: vs => (b.store i v).storeAll (i + 1) vs

@[simp] theorem size_store (b : Buffer α) (i : Nat) (v : α) : (b.store i v).size = b.size := by
  simp [store, size]

@[simp] theorem size_storeAll (b : Buffer α) (i : Nat) (vs : List α) : (b.storeAll i vs).size = b.size := by
  induction vs generalizing b i with
  | nil => rfl
  | cons v vs ih => rw [storeAll, ih, size_store]

theorem storeAll_append (b : Buffer α) (i : Nat) (vs ws : List α) :
    b.storeAll i (vs ++ ws) = (b.storeAll i vs).storeAll (i + vs.length) ws := by
  induction vs generalizing b i with
  | nil => rfl
  | cons v vs ih =>
    rw [List.cons_append, storeAll, storeAll, ih, List.length_cons, Nat.add_assoc, Nat.add_comm 1]

/-- Stores leave the cells in front of them alone. -/
theorem take_storeAll_of_le (b : Buffer α) {n i : Nat} (h : n ≤ i) (vs : List α) :
    (b.storeAll i vs).cells.take n = b.cells.take n := by
  induction vs generalizing b i with
  | nil => rfl
  | cons v vs ih =>
    rw [storeAll, ih _ (by omega), store, List.take_set_of_le h]

/-- Where the stores go: over the cells from `i` on. -/
theorem cells_storeAll {b : Buffer α} {w old vs : List α} (hb : b.cells = w ++ old) (h : vs.length ≤ old.length) :
    (b.storeAll w.length vs).cells = w ++ vs ++ old.drop vs.length := by
  induction vs generalizing b w old with
  | nil => simp [storeAll, hb]
  | cons v vs ih =>
    cases old with
    | nil => simp at h
    | cons x old =>
      have hstore : (b.store w.length v).cells = (w ++ [v]) ++ old := by
        simp [store, hb]
      have hlen : (w ++ [v]).length = w.length + 1 := by simp
      rw [storeAll, ← hlen, ih hstore (by simpa using h)]
      simp

theorem take_storeAll (b : Buffer α) (i : Nat) (vs : List α) (h : i + vs.length ≤ b.size) :
    (b.storeAll i vs).cells.take (i + vs.length) = b.cells.take i ++ vs := by
  unfold size at h
  have hi : (b.cells.take i).length = i := List.length_take_of_le (by omega)
  have hle : vs.length ≤ (b.cells.drop i).length := by
    rw [List.length_drop]
    omega
  have hcells := cells_storeAll (List.take_append_drop i b.cells).symm hle
  rw [hi] at hcells
  rw [hcells, List.take_left' (by rw [List.length_append, hi])]

theorem overrun_storeAll (b : Buffer α) (i : Nat) (vs : List α) :
    (b.storeAll i vs).overrun = true ↔ b.overrun = true ∨ vs ≠ [] ∧ b.size < i + vs.length := by
  induction vs generalizing b i with
  | nil => simp [storeAll]
  | cons v vs ih =>
    rw [storeAll, ih, size_store]
    simp only [store, Bool.or_eq_true, decide_eq_true_eq, List.length_cons, ne_eq, reduceCtorEq,
      not_false_eq_true, true_and]
    constructor
    · rintro ((h | h) | ⟨-, h⟩)
      · exact .inl h
      · exact .inr (by omega)
      · exact .inr (by omega)
    · rintro (h | h)
      · exact .inl (.inl h)
      · cases vs with
        | nil => exact .inl (.inr (by simp only [List.length_nil] at h; omega))
        | cons w ws => exact .inr ⟨List.cons_ne_nil _ _, by simp only [List.length_cons] at h ⊢; omega⟩

/-- Stores that fit do not make the buffer overrun. -/
theorem overrun_storeAll_of_le {b : Buffer α} (hin : b.overrun = false) {i : Nat} {vs : List α}
    (h : i + vs.length ≤ b.size) : (b.storeAll i vs).overrun = false := by
  rw [Bool.eq_false_iff, ne_eq, overrun_storeAll, hin]
  simp only [Bool.false_eq_true, false_or, not_and]
  omega

end Buffer

/-- A position in a buffer and the room behind it. -/
structure Writer (α : Type*) where
  buf : Buffer α
  pos : Nat
  room : Nat
  pos_add_room : pos + room = buf.size

namespace Writer

/-- The writer at the front of a buffer. -/
def start (b : Buffer α) : Writer α := ⟨b, 0, b.size, Nat.zero_add _⟩

/-- What has been written so far. -/
def written (w : Writer α) : List α := w.buf.cells.take w.pos

/-- Append `vs` if there is room for it.  The symbols `tail` are stored behind `vs`, whether there is room for them
or not, and are overwritten by the next `put`. -/
def put (w : Writer α) (vs : List α) (tail : List α) : Option (Writer α) :=
  if h : vs.length ≤ w.room then
    some ⟨w.buf.storeAll w.pos (vs ++ tail), w.pos + vs.length, w.room - vs.length, by
      have := w.pos_add_room
      rw [Buffer.size_storeAll]
      omega⟩
  else none

@[simp] theorem written_start (b : Buffer α) : (start b).written = [] := rfl

theorem put_eq_none {w : Writer α} {vs tail : List α} : w.put vs tail = none ↔ w.room < vs.length := by
  unfold put
  split <;> simp <;> omega

/-- What a successful `put` does. -/
theorem put_spec {w w' : Writer α} {vs tail : List α} (h : w.put vs tail = some w') :
    w'.written = w.written ++ vs ∧ w'.pos = w.pos + vs.length ∧ w'.room + vs.length = w.room ∧
      w'.buf.size = w.buf.size := by
  unfold put at h
  split at h
  · rename_i hroom
    have hsize := w.pos_add_room
    cases h
    refine ⟨?_, rfl, Nat.sub_add_cancel hroom, Buffer.size_storeAll _ _ _⟩
    show (w.buf.storeAll w.pos (vs ++ tail)).cells.take (w.pos + vs.length) = w.written ++ vs
    rw [Buffer.storeAll_append, Buffer.take_storeAll_of_le _ (Nat.le_refl _),
      Buffer.take_storeAll _ _ _ (by omega)]
    rfl
  · cases h

/-- A `put` leaves the buffer when there is no room for the symbols behind its own. -/
theorem overrun_put {w w' : Writer α} {vs tail : List α} (h : w.put vs tail = some w') :
    w'.buf.overrun = true ↔ w.buf.overrun = true ∨ w.room < vs.length + tail.length := by
  unfold put at h
  split at h
  · rename_i hroom
    have hsize := w.pos_add_room
    cases h
    rw [Buffer.overrun_storeAll, List.length_append]
    constructor
    · intro h
      exact h.imp_right fun h => by omega
    · intro h
      refine h.imp_right fun h => ⟨?_, by omega⟩
      rw [← List.length_pos_iff, List.length_append]
      omega
  · cases h

end Writer

end ByteLib
