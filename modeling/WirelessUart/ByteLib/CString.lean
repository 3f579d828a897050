import WirelessUart.ByteLib.Buffer

/-!
# Strings in buffers

Strings that end with a NUL, in a buffer of fixed size, and the functions of C that write them.  `HoldsText b w` is the
state between two calls: the buffer holds the text `w`, nothing but NULs behind it and at least one, and no store has
left it.  Each function keeps it as long as there is room for the longer text and its NUL.
-/

namespace ByteLib

variable {b : Buffer UInt8} {w s : List UInt8}

/-- The position of the first NUL; the end of the buffer when there is none. -/
def strlen (b : Buffer UInt8) : Nat := b.cells.idxOf 0

/-- The string at the front of the buffer. -/
def frontString (b : Buffer UInt8) : List UInt8 := b.cells.takeWhile (· ≠ 0)

/-- Store the string `s` and a NUL from position `i` on, as `sprintf` does. -/
def storeString (b : Buffer UInt8) (i : Nat) (s : List UInt8) : Buffer UInt8 := b.storeAll i (s ++ [0])

/-- Store `s` behind the string in the buffer. -/
def strcat (b : Buffer UInt8) (s : List UInt8) : Buffer UInt8 := storeString b (strlen b) s

/-- Fill the first `n` cells with NULs. -/
def clear (b : Buffer UInt8) (n : Nat) : Buffer UInt8 := b.storeAll 0 (List.replicate n 0)

/-- Store the first `n` characters of the string `s`, and NULs in place of those it does not have. -/
def strncpy (b : Buffer UInt8) (s : List UInt8) (n : Nat) : Buffer UInt8 :=
  b.storeAll 0 (s.take n ++ List.replicate (n - s.length) 0)

/-- Store the first `n` bytes of the memory `src`. -/
def memcpy (b : Buffer UInt8) (src : Nat → UInt8) (n : Nat) : Buffer UInt8 := b.storeAll 0 ((List.range n).map src)

@[simp] theorem size_storeString (b : Buffer UInt8) (i : Nat) (s : List UInt8) : (storeString b i s).size = b.size :=
  Buffer.size_storeAll _ _ _

@[simp] theorem size_clear (b : Buffer UInt8) (n : Nat) : (clear b n).size = b.size := Buffer.size_storeAll _ _ _

/-- The text `w` with nothing but NULs behind it. -/
structure HoldsText (b : Buffer UInt8) (w : List UInt8) : Prop where
  cells : b.cells = w ++ List.replicate (b.size - w.length) 0
  noNul : 0 ∉ w
  fits : w.length < b.size
  inside : b.overrun = false

/-- The characters in front of the first NUL. -/
theorem takeWhile_terminated {str rest : List UInt8} (h : 0 ∉ str) :
    (str ++ 0 :: rest).takeWhile (· ≠ 0) = str := by
  rw [List.takeWhile_append_of_pos, List.takeWhile_cons_of_neg (by simp), List.append_nil]
  intro c hc
  have hne : c ≠ 0 := fun h0 => h (h0 ▸ hc)
  simp [hne]

namespace HoldsText

/-- There is a NUL behind the text. -/
private theorem exists_rest (h : HoldsText b w) : ∃ rest, b.cells = w ++ 0 :: rest := by
  have hpos : 0 < b.size - w.length := Nat.sub_pos_of_lt h.fits
  obtain ⟨n, hn⟩ := Nat.exists_eq_succ_of_ne_zero (Nat.ne_of_gt hpos)
  refine ⟨List.replicate n 0, ?_⟩
  rw [h.cells, hn, List.replicate_succ]

theorem strlen_eq (h : HoldsText b w) : strlen b = w.length := by
  obtain ⟨rest, hrest⟩ := h.exists_rest
  rw [strlen, hrest, List.idxOf_append, if_neg h.noNul, List.idxOf_cons_self, Nat.zero_add]

theorem frontString_eq (h : HoldsText b w) : frontString b = w := by
  obtain ⟨rest, hrest⟩ := h.exists_rest
  rw [frontString, hrest, takeWhile_terminated h.noNul]

/-- A string stored behind the text extends it. -/
theorem storeString (h : HoldsText b w) (hs : 0 ∉ s) (hroom : w.length + s.length < b.size) :
    HoldsText (storeString b w.length s) (w ++ s) where
  cells := by
    have hle : (s ++ [0]).length ≤ (List.replicate (b.size - w.length) (0 : UInt8)).length := by
      rw [List.length_append, List.length_singleton, List.length_replicate]
      omega
    have hrest : [0] ++ List.replicate (b.size - w.length - (s.length + 1)) (0 : UInt8) =
        List.replicate (b.size - (w.length + s.length)) 0 := by
      rw [List.singleton_append, ← List.replicate_succ]
      congr 1
      omega
    rw [size_storeString, ByteLib.storeString, Buffer.cells_storeAll h.cells hle, List.drop_replicate,
      List.length_append, List.length_singleton, List.length_append, ← hrest]
    simp only [List.append_assoc]
  noNul := by
    rw [List.mem_append]
    exact not_or.2 ⟨h.noNul, hs⟩
  fits := by
    rw [size_storeString, List.length_append]
    exact hroom
  inside := by
    apply Buffer.overrun_storeAll_of_le h.inside
    rw [List.length_append, List.length_singleton]
    omega

theorem strcat (h : HoldsText b w) (hs : 0 ∉ s) (hroom : w.length + s.length < b.size) :
    HoldsText (strcat b s) (w ++ s) := by
  rw [ByteLib.strcat, h.strlen_eq]
  exact h.storeString hs hroom

/-- A character stored behind the text extends it by overwriting one of the NULs. -/
theorem store (h : HoldsText b w) {c : UInt8} (hc : c ≠ 0) (hroom : w.length + 1 < b.size) :
    HoldsText (b.store w.length c) (w ++ [c]) where
  cells := by
    have hle : [c].length ≤ (List.replicate (b.size - w.length) (0 : UInt8)).length := by
      rw [List.length_singleton, List.length_replicate]
      omega
    have hcells := Buffer.cells_storeAll h.cells hle
    rw [List.drop_replicate, List.length_singleton] at hcells
    rw [Buffer.size_store, List.length_append, List.length_singleton, ← Nat.sub_sub]
    exact hcells
  noNul := by
    rw [List.mem_append, List.mem_singleton]
    exact not_or.2 ⟨h.noNul, hc.symm⟩
  fits := by
    rw [Buffer.size_store, List.length_append]
    exact hroom
  inside := by
    have hle : w.length + [c].length ≤ b.size := by
      rw [List.length_singleton]
      omega
    exact Buffer.overrun_storeAll_of_le h.inside hle

end HoldsText

/-- A cleared buffer holds the empty text, whatever it held before. -/
theorem holdsText_clear (hin : b.overrun = false) (hpos : 0 < b.size) : HoldsText (clear b b.size) [] where
  cells := by
    have hcells := Buffer.cells_storeAll (List.nil_append b.cells).symm
      (show (List.replicate b.size (0 : UInt8)).length ≤ b.cells.length by simp [Buffer.size])
    rw [size_clear]
    show (b.storeAll 0 (List.replicate b.size 0)).cells = _
    rw [← List.length_nil (α := UInt8), hcells]
    simp [Buffer.size]
  noNul := by simp
  fits := by
    rw [size_clear]
    exact hpos
  inside := by
    have hfits : 0 + (List.replicate b.size (0 : UInt8)).length ≤ b.size := by simp
    exact Buffer.overrun_storeAll_of_le hin hfits

/-! ### Bounded copies -/

/-- What is copied by `strncpy` and terminated is a prefix of the source, when both stores stay inside. -/
theorem frontString_strncpy (hs : 0 ∉ s) {n : Nat} (hn : n ≤ s.length) (hsize : n < b.size) :
    0 ∈ ((strncpy b s n).store n 0).cells ∧ frontString ((strncpy b s n).store n 0) = s.take n := by
  have htake : (s.take n).length = n := List.length_take_of_le hn
  have hcells : (strncpy b s n).cells = s.take n ++ b.cells.drop n := by
    have hle : (s.take n).length ≤ b.cells.length := by
      rw [htake]
      exact Nat.le_of_lt hsize
    have h := Buffer.cells_storeAll (List.nil_append b.cells).symm hle
    rw [htake] at h
    rw [strncpy, Nat.sub_eq_zero_of_le hn, List.replicate_zero, List.append_nil]
    exact h
  obtain ⟨x, rest, hrest⟩ : ∃ x rest, b.cells.drop n = x :: rest := by
    apply List.exists_cons_of_length_pos
    rw [List.length_drop]
    exact Nat.sub_pos_of_lt hsize
  have hstore : ((strncpy b s n).store n 0).cells = s.take n ++ 0 :: rest := by
    rw [Buffer.store, hcells, hrest, List.set_append_right _ _ (Nat.le_of_eq htake), htake, Nat.sub_self,
      List.set_cons_zero]
  constructor
  · rw [hstore]
    simp
  · rw [frontString, hstore]
    exact takeWhile_terminated fun h => hs (List.mem_of_mem_take h)

/-- The copy and its terminator leave the buffer exactly when there is no cell for the terminator. -/
theorem overrun_strncpy_store (hin : b.overrun = false) {n : Nat} (hn : n ≤ s.length) :
    ((strncpy b s n).store n 0).overrun = decide (b.size ≤ n) := by
  have hcopy : (strncpy b s n).overrun = true → b.size ≤ n := by
    rw [strncpy, Buffer.overrun_storeAll, hin, List.length_append, List.length_take_of_le hn, List.length_replicate]
    simp only [Bool.false_eq_true, false_or]
    omega
  have hsize : (strncpy b s n).size = b.size := Buffer.size_storeAll _ _ _
  rw [Buffer.store, hsize]
  cases h : (strncpy b s n).overrun with
  | false => simp
  | true => simp [hcopy h]

theorem overrun_memcpy (hin : b.overrun = false) (src : Nat → UInt8) {n : Nat} (hn : n ≤ b.size) :
    (memcpy b src n).overrun = false := by
  apply Buffer.overrun_storeAll_of_le hin
  rw [List.length_map, List.length_range, Nat.zero_add]
  exact hn

theorem cells_memcpy (src : Nat → UInt8) {n : Nat} (hn : n ≤ b.size) :
    (memcpy b src n).cells = (List.range n).map src ++ b.cells.drop n := by
  have hle : ((List.range n).map src).length ≤ b.cells.length := by
    rw [List.length_map, List.length_range]
    exact hn
  have h := Buffer.cells_storeAll (List.nil_append b.cells).symm hle
  rw [List.length_map, List.length_range] at h
  exact h

/-- How much was copied can be read off a buffer that differed from the source everywhere. -/
theorem memcpy_length_unique {src : Nat → UInt8} {n m : Nat} (hne : ∀ i (h : i < b.cells.length), b.cells[i] ≠ src i)
    (hn : n ≤ b.size) (hm : m ≤ b.size) (h : (memcpy b src n).cells = (memcpy b src m).cells) : n = m := by
  -- behind the shorter copy the two buffers differ
  have hlt {n m : Nat} (hm : m ≤ b.size) (hnm : n < m) : (memcpy b src n).cells ≠ (memcpy b src m).cells := by
    intro h
    have hget := congrArg (·[n]?) h
    have hin : n < b.cells.length := Nat.lt_of_lt_of_le hnm hm
    simp only [cells_memcpy src (Nat.le_of_lt hin), cells_memcpy src hm] at hget
    rw [List.getElem?_append_right (by simp), List.getElem?_append_left (by simpa using hnm)] at hget
    simp only [List.length_map, List.length_range, Nat.sub_self, List.getElem?_drop, Nat.add_zero,
      List.getElem?_eq_getElem hin, List.getElem?_map, List.getElem?_range hnm, Option.map_some,
      Option.some.injEq] at hget
    exact hne n hin hget
  rcases Nat.lt_trichotomy n m with h' | h' | h'
  · exact absurd h (hlt hm h')
  · exact h'
  · exact absurd h.symm (hlt hn h')

end ByteLib
