import WirelessUart.ByteLib.CString
import WirelessUart.Firmware.Codec

/-!
# The hex dump of the firmware

The functions of `wuart_log.c` that print a buffer in rows of sixteen bytes, with `char` unsigned.  A row shows its
bytes in hexadecimal, a blank between two of them and two blanks in the middle, and beside it the bytes themselves
with a dot for what is not a word.

Both columns are built in segments of fixed size.  The sixteen bytes of a full row take 48 characters
(`length_hexText_le`), which with the NUL is all the segment has.  The functions that print one column are the same loop
with one segment, and the full dump is the two of them side by side (`espLogBufferHexdumpInternal_eq`).
-/

namespace WirelessUart.Firmware

open ByteLib

/-! ### The functions -/

/-- What stands in front of the byte number `i` of a row, with the position and the room behind it; `none` when there
is no room for it. -/
def separate (i : Nat) (output : Buffer UInt8) (idx rem : Nat) : Option (Buffer UInt8 × Nat × Nat) :=
  if i > 0 then
    if i % 8 = 0 then
      if rem ≥ 2 then some (strcat output [0x20, 0x20], idx + 2, rem - 2) else none
    else
      if rem ≥ 1 then some (strcat output [0x20], idx + 1, rem - 1) else none
  else some (output, idx, rem)

/-- The loop of `buffer_to_hex`. -/
def bufferToHexLoop : Nat → Bytes → Buffer UInt8 → Nat → Nat → Buffer UInt8
  | _, [], output, _, _ => output
  | i, r :: buffer, output, idx, rem =>
    if rem > 0 then
      match separate i output idx rem with
      | some (output, idx, rem) =>
        if rem ≥ 2 then bufferToHexLoop (i + 1) buffer (storeString output idx (hex02 r)) (idx + 2) (rem - 2)
        else output
      | none => output
    else output

/-- `buffer_to_hex`, with `olen` the size of `output` -/
def bufferToHex (buffer : Bytes) (output : Buffer UInt8) : Buffer UInt8 :=
  bufferToHexLoop 0 buffer (clear output output.size) 0 output.size

/-- The character that `buffer_to_char` shows for a byte. -/
def shown (r : UInt8) : UInt8 := if isWord r then r else 0x2e

/-- The loop of `buffer_to_char`. -/
def bufferToCharLoop : Bytes → Buffer UInt8 → Nat → Nat → Buffer UInt8
  | [], output, _, _ => output
  | r :: buffer, output, idx, rem =>
    if rem > 0 then bufferToCharLoop buffer (output.store idx (shown r)) (idx + 1) (rem - 1)
    else output

/-- `buffer_to_char`, with `olen` the size of `output` -/
def bufferToChar (buffer : Bytes) (output : Buffer UInt8) : Buffer UInt8 :=
  bufferToCharLoop buffer (clear output output.size) 0 output.size

/-- The format `%-ns`. -/
def padRight (n : Nat) (s : Bytes) : Bytes := s ++ List.replicate (n - s.length) 0x20

/-- A printed row: the columns of the format `%-13p%-50s|%s|`. -/
structure Row where
  pointerColumn : Bytes
  hexColumn : Bytes
  textColumn : Bytes
deriving DecidableEq, Repr

/-- The loop of `esp_log_buffer_hexdump_internal`: the rows printed, and the segments afterwards.  `pointer` is what
`%p` makes of the address of the buffer.  `buff_len` is a `uint16_t` and `row` a `size_t`, so that nothing wraps. -/
def hexdumpLoop (pointer buffer : Bytes) (row : Nat) (seg1 seg2 : Buffer UInt8) :
    List Row × Buffer UInt8 × Buffer UInt8 :=
  if row < buffer.length then
    let clen := if row + 16 < buffer.length then 16 else buffer.length - row
    let seg1 := bufferToHex ((buffer.drop row).take clen) seg1
    let seg2 := bufferToChar ((buffer.drop row).take clen) seg2
    let rest := hexdumpLoop pointer buffer (row + 16) seg1 seg2
    (⟨padRight 13 pointer, padRight 50 (frontString seg1), frontString seg2⟩ :: rest.1, rest.2)
  else ([], seg1, seg2)
termination_by buffer.length - row

/-- `esp_log_buffer_hexdump_internal` -/
def espLogBufferHexdumpInternal (pointer buffer : Bytes) : List Row × Buffer UInt8 × Buffer UInt8 :=
  hexdumpLoop pointer buffer 0 { cells := List.replicate 49 0 } { cells := List.replicate 17 0 }

/-! ### One row -/

/-- What stands in front of the byte number `i`. -/
def separator (i : Nat) : Bytes := if i = 0 then [] else if i % 8 = 0 then [0x20, 0x20] else [0x20]

/-- The hexadecimal column for the bytes from number `i` on. -/
def hexText : Nat → Bytes → Bytes
  | _, [] => []
  | i, r :: buffer => separator i ++ hex02 r ++ hexText (i + 1) buffer

theorem blank_of_mem_separator {i : Nat} {x : UInt8} (h : x ∈ separator i) : x = 0x20 := by
  unfold separator at h
  split at h
  · cases h
  · split at h <;> simpa using h

theorem zero_not_mem_separator (i : Nat) : (0 : UInt8) ∉ separator i :=
  fun h => absurd (blank_of_mem_separator h) (by decide)

/-- The digits are neither NULs nor blanks. -/
theorem hex02_digits : ∀ r : UInt8, (0 : UInt8) ∉ hex02 r ∧ (hex02 r).filter (· ≠ 0x20) = hex02 r := by decide +kernel

theorem shown_ne_zero : ∀ r : UInt8, shown r ≠ 0 := by decide +kernel

/-- The column without its blanks. -/
theorem filter_hexText (i : Nat) (buffer : Bytes) : (hexText i buffer).filter (· ≠ 0x20) = buffer.flatMap hex02 := by
  induction buffer generalizing i with
  | nil => rfl
  | cons r buffer ih =>
    have hsep : (separator i).filter (· ≠ 0x20) = [] := by
      rw [List.filter_eq_nil_iff]
      intro x hx
      simp [blank_of_mem_separator hx]
    rw [hexText, List.filter_append, List.filter_append, hsep, (hex02_digits r).2, ih, List.nil_append,
      List.flatMap_cons]

/-- Three characters for each byte; one more for the wide separator, and one less for the first byte. -/
private theorem length_hexText_add (i : Nat) (buffer : Bytes) (h : i + buffer.length ≤ 16) :
    (hexText i buffer).length + (if i = 0 then 1 else 0) ≤ 3 * buffer.length + (if i ≤ 8 then 1 else 0) := by
  induction buffer generalizing i with
  | nil =>
    simp only [hexText, List.length_nil]
    split <;> split <;> omega
  | cons r buffer ih =>
    rw [List.length_cons] at h
    have hrest := ih (i + 1) (by omega)
    have hsep : (separator i).length = if i = 0 then 0 else if i % 8 = 0 then 2 else 1 := by
      unfold separator
      split
      · rfl
      · split <;> rfl
    simp only [hexText, List.length_append, List.length_cons, hsep, hex02, List.length_nil]
    rw [if_neg (Nat.succ_ne_zero i)] at hrest
    split_ifs at hrest ⊢ <;> omega

/-- The bytes of a row take at most 48 characters. -/
theorem length_hexText_le {buffer : Bytes} (h : buffer.length ≤ 16) : (hexText 0 buffer).length ≤ 48 := by
  have := length_hexText_add 0 buffer (by omega)
  simp only [if_true, Nat.zero_le] at this
  omega

section Segments

variable {output : Buffer UInt8} {w : Bytes}

/-- When there is room, the separator is appended. -/
theorem separate_eq (hw : HoldsText output w) {i rem : Nat} (hrem : w.length + rem = output.size)
    (hroom : (separator i).length < rem) :
    ∃ output', separate i output w.length rem =
        some (output', (w ++ separator i).length, rem - (separator i).length) ∧
      HoldsText output' (w ++ separator i) ∧ output'.size = output.size := by
  have hcat : HoldsText (strcat output (separator i)) (w ++ separator i) :=
    hw.strcat (zero_not_mem_separator i) (by omega)
  have hsize : (strcat output (separator i)).size = output.size := size_storeString _ _ _
  unfold separate
  by_cases hi : i = 0
  · subst hi
    rw [if_neg (Nat.lt_irrefl 0)]
    simp only [separator, if_true, List.append_nil, List.length_nil, Nat.sub_zero]
    exact ⟨output, rfl, hw, rfl⟩
  · rw [if_pos (Nat.pos_of_ne_zero hi)]
    by_cases h8 : i % 8 = 0
    · have hsep : separator i = [0x20, 0x20] := by rw [separator, if_neg hi, if_pos h8]
      rw [hsep] at hroom hcat hsize ⊢
      have hle : rem ≥ 2 := Nat.le_of_lt hroom
      rw [if_pos h8, if_pos hle, List.length_append]
      exact ⟨_, rfl, hcat, hsize⟩
    · have hsep : separator i = [0x20] := by rw [separator, if_neg hi, if_neg h8]
      rw [hsep] at hroom hcat hsize ⊢
      have hle : rem ≥ 1 := Nat.le_of_lt hroom
      rw [if_neg h8, if_pos hle, List.length_append]
      exact ⟨_, rfl, hcat, hsize⟩

/-- When there is room for all of it and a NUL, the loop appends the column to the text. -/
theorem bufferToHexLoop_holds (buffer : Bytes) (hw : HoldsText output w) {i rem : Nat}
    (hrem : w.length + rem = output.size) (hroom : (hexText i buffer).length < rem) :
    HoldsText (bufferToHexLoop i buffer output w.length rem) (w ++ hexText i buffer) ∧
      (bufferToHexLoop i buffer output w.length rem).size = output.size := by
  induction buffer generalizing output w i rem with
  | nil =>
    rw [hexText, List.append_nil, bufferToHexLoop]
    exact ⟨hw, rfl⟩
  | cons r buffer ih =>
    have hhex : (hex02 r).length = 2 := rfl
    simp only [hexText, List.length_append, hhex] at hroom
    obtain ⟨output', hsep, hw', hsize⟩ := separate_eq hw hrem (i := i) (by omega)
    rw [bufferToHexLoop, if_pos (by omega), hsep]
    dsimp only
    rw [if_pos (by omega)]
    have hw2 : HoldsText (storeString output' (w ++ separator i).length (hex02 r)) (w ++ separator i ++ hex02 r) :=
      hw'.storeString (hex02_digits r).1 (by rw [List.length_append, hsize]; omega)
    have hlen : (w ++ separator i).length + 2 = (w ++ separator i ++ hex02 r).length := by
      rw [← hhex, ← List.length_append]
    rw [hlen, hexText]
    have hrem2 : (w ++ separator i ++ hex02 r).length + (rem - (separator i).length - 2) =
        (storeString output' (w ++ separator i).length (hex02 r)).size := by
      rw [size_storeString, hsize, List.length_append, List.length_append, hhex]
      omega
    have hnext := ih hw2 (i := i + 1) hrem2 (by omega)
    rw [size_storeString, hsize] at hnext
    simpa only [List.append_assoc] using hnext

/-- When there is room for all of it and a NUL, the loop appends the characters to the text. -/
theorem bufferToCharLoop_holds (buffer : Bytes) (hw : HoldsText output w) {rem : Nat}
    (hrem : w.length + rem = output.size) (hroom : buffer.length < rem) :
    HoldsText (bufferToCharLoop buffer output w.length rem) (w ++ buffer.map shown) ∧
      (bufferToCharLoop buffer output w.length rem).size = output.size := by
  induction buffer generalizing output w rem with
  | nil =>
    rw [List.map_nil, List.append_nil, bufferToCharLoop]
    exact ⟨hw, rfl⟩
  | cons r buffer ih =>
    rw [List.length_cons] at hroom
    have hw' : HoldsText (output.store w.length (shown r)) (w ++ [shown r]) :=
      hw.store (shown_ne_zero r) (by omega)
    have hlen : w.length + 1 = (w ++ [shown r]).length := by simp
    rw [bufferToCharLoop, if_pos (by omega), hlen]
    have hrem' : (w ++ [shown r]).length + (rem - 1) = (output.store w.length (shown r)).size := by
      rw [Buffer.size_store, List.length_append, List.length_singleton]
      omega
    have hnext := ih hw' hrem' (by omega)
    rw [Buffer.size_store] at hnext
    simpa only [List.map_cons, List.append_assoc, List.singleton_append] using hnext

/-- The hexadecimal segment of a row. -/
theorem bufferToHex_holds {buffer : Bytes} (hlen : buffer.length ≤ 16) (hsize : output.size = 49)
    (hin : output.overrun = false) :
    HoldsText (bufferToHex buffer output) (hexText 0 buffer) ∧ (bufferToHex buffer output).size = 49 := by
  have hle := length_hexText_le hlen
  have hrem : ([] : Bytes).length + output.size = (clear output output.size).size := by
    rw [size_clear, List.length_nil, Nat.zero_add]
  have h := bufferToHexLoop_holds buffer (holdsText_clear hin (by omega)) (i := 0) hrem (by omega)
  rw [size_clear, hsize] at h
  rw [bufferToHex, hsize]
  exact h

/-- The text segment of a row. -/
theorem bufferToChar_holds {buffer : Bytes} (hlen : buffer.length ≤ 16) (hsize : output.size = 17)
    (hin : output.overrun = false) :
    HoldsText (bufferToChar buffer output) (buffer.map shown) ∧ (bufferToChar buffer output).size = 17 := by
  have hrem : ([] : Bytes).length + output.size = (clear output output.size).size := by
    rw [size_clear, List.length_nil, Nat.zero_add]
  have h := bufferToCharLoop_holds buffer (holdsText_clear hin (by omega)) hrem (by omega)
  rw [size_clear, hsize] at h
  rw [bufferToChar, hsize]
  exact h

end Segments

/-! ### All rows -/

/-- The bytes of a row, and those of the rows behind it. -/
private theorem row_append (buffer : Bytes) (row : Nat) :
    (buffer.drop row).take (if row + 16 < buffer.length then 16 else buffer.length - row) ++ buffer.drop (row + 16) =
      buffer.drop row := by
  have hrest : buffer.drop (row + 16) = (buffer.drop row).drop 16 := by rw [List.drop_drop]
  split
  · rw [hrest, List.take_append_drop]
  · have hnil : buffer.drop (row + 16) = [] := List.drop_eq_nil_of_le (by omega)
    rw [hnil, List.append_nil, List.take_of_length_le (by rw [List.length_drop])]

private theorem length_row_le (buffer : Bytes) (row : Nat) :
    ((buffer.drop row).take (if row + 16 < buffer.length then 16 else buffer.length - row)).length ≤ 16 := by
  rw [List.length_take]
  split <;> omega

private theorem filter_padRight (n : Nat) (s : Bytes) :
    (padRight n s).filter (· ≠ 0x20) = s.filter (· ≠ 0x20) := by
  rw [padRight, List.filter_append]
  simp

/-- From any row on: what the rows show, and that the segments are not left. -/
theorem hexdumpLoop_spec (pointer buffer : Bytes) (row : Nat) {seg1 seg2 : Buffer UInt8} (hsize1 : seg1.size = 49)
    (hin1 : seg1.overrun = false) (hsize2 : seg2.size = 17) (hin2 : seg2.overrun = false) :
    ((hexdumpLoop pointer buffer row seg1 seg2).1.flatMap (·.hexColumn)).filter (· ≠ 0x20) =
        (buffer.drop row).flatMap hex02 ∧
      (hexdumpLoop pointer buffer row seg1 seg2).1.flatMap (·.textColumn) = (buffer.drop row).map shown ∧
      (hexdumpLoop pointer buffer row seg1 seg2).2.1.overrun = false ∧
      (hexdumpLoop pointer buffer row seg1 seg2).2.2.overrun = false := by
  induction hn : buffer.length - row using Nat.strong_induction_on generalizing row seg1 seg2 with
  | h n ih =>
    subst hn
    by_cases hrow : row < buffer.length
    · have hsplit := row_append buffer row
      have hlen := length_row_le buffer row
      rw [hexdumpLoop, if_pos hrow]
      dsimp only
      generalize (buffer.drop row).take (if row + 16 < buffer.length then 16 else buffer.length - row) = bytes
        at hsplit hlen ⊢
      obtain ⟨hhex, hsize1'⟩ := bufferToHex_holds hlen hsize1 hin1
      obtain ⟨hchar, hsize2'⟩ := bufferToChar_holds hlen hsize2 hin2
      obtain ⟨h1, h2, h3, h4⟩ := ih _ (by omega) (row + 16) hsize1' hhex.inside hsize2' hchar.inside rfl
      refine ⟨?_, ?_, h3, h4⟩
      · rw [List.flatMap_cons, List.filter_append, filter_padRight, hhex.frontString_eq, filter_hexText, h1,
          ← List.flatMap_append, hsplit]
      · rw [List.flatMap_cons, hchar.frontString_eq, h2, ← List.map_append, hsplit]
    · have hnil : buffer.drop row = [] := List.drop_eq_nil_of_le (by omega)
      rw [hexdumpLoop, if_neg hrow, hnil]
      exact ⟨rfl, rfl, hin1, hin2⟩

/-- The rows show every byte once and in order, in hexadecimal and as text, and no store leaves a segment. -/
theorem espLogBufferHexdumpInternal_complete (pointer buffer : Bytes) :
    ((espLogBufferHexdumpInternal pointer buffer).1.flatMap (·.hexColumn)).filter (· ≠ 0x20) =
        buffer.flatMap hex02 ∧
      (espLogBufferHexdumpInternal pointer buffer).1.flatMap (·.textColumn) =
        buffer.map (fun r => if isWord r then r else 0x2e) ∧
      (espLogBufferHexdumpInternal pointer buffer).2.1.overrun = false ∧
      (espLogBufferHexdumpInternal pointer buffer).2.2.overrun = false :=
  hexdumpLoop_spec pointer buffer 0 rfl rfl rfl rfl

/-- A full row fills its segment: one byte less would not do. -/
example : (bufferToHex (List.replicate 16 0xff) { cells := List.replicate 48 0 }).overrun = true ∧
    (bufferToHex (List.replicate 16 0xff) { cells := List.replicate 49 0 }).overrun = false := by
  decide +kernel

/-! ### The columns on their own -/

/-- The loop of the two functions that print one column: the columns of the format `%-13p%-ns` with `n` for `width`, and
the segment afterwards.  `fill` writes the bytes of a row into the segment. -/
def columnLoop (fill : Bytes → Buffer UInt8 → Buffer UInt8) (width : Nat) (pointer buffer : Bytes) (row : Nat)
    (seg : Buffer UInt8) : List (Bytes × Bytes) × Buffer UInt8 :=
  if row < buffer.length then
    let clen := if row + 16 < buffer.length then 16 else buffer.length - row
    let seg := fill ((buffer.drop row).take clen) seg
    let rest := columnLoop fill width pointer buffer (row + 16) seg
    ((padRight 13 pointer, padRight width (frontString seg)) :: rest.1, rest.2)
  else ([], seg)
termination_by buffer.length - row

/-- `esp_log_buffer_hex_internal` -/
def espLogBufferHexInternal (pointer buffer : Bytes) : List (Bytes × Bytes) × Buffer UInt8 :=
  columnLoop bufferToHex 48 pointer buffer 0 { cells := List.replicate 49 0 }

/-- `esp_log_buffer_char_internal` -/
def espLogBufferCharInternal (pointer buffer : Bytes) : List (Bytes × Bytes) × Buffer UInt8 :=
  columnLoop bufferToChar 0 pointer buffer 0 { cells := List.replicate 17 0 }

/-- Two rows of one column each as a row of both; the hexadecimal column is two characters wider there. -/
def Row.beside (hex char : Bytes × Bytes) : Row := ⟨hex.1, hex.2 ++ [0x20, 0x20], char.2⟩

theorem padRight_zero (s : Bytes) : padRight 0 s = s := by
  rw [padRight, Nat.zero_sub, List.replicate_zero, List.append_nil]

theorem padRight_add {n : Nat} {s : Bytes} (h : s.length ≤ n) (m : Nat) :
    padRight (n + m) s = padRight n s ++ List.replicate m 0x20 := by
  have hm : n + m - s.length = n - s.length + m := by omega
  rw [padRight, padRight, hm, List.replicate_add, List.append_assoc]

/-- One row for sixteen bytes, and one for what is left of them. -/
theorem length_columnLoop (fill : Bytes → Buffer UInt8 → Buffer UInt8) (width : Nat) (pointer buffer : Bytes)
    (row : Nat) (seg : Buffer UInt8) :
    (columnLoop fill width pointer buffer row seg).1.length = (buffer.length - row + 15) / 16 := by
  induction hn : buffer.length - row using Nat.strong_induction_on generalizing row seg with
  | h n ih =>
    subst hn
    rw [columnLoop]
    split
    · rename_i hrow
      rw [List.length_cons, ih _ (by omega) (row + 16) _ rfl]
      omega
    · rw [List.length_nil]
      omega

/-- From any row on, the full dump is made of the two columns. -/
theorem hexdumpLoop_eq (pointer buffer : Bytes) (row : Nat) {seg1 : Buffer UInt8} (hsize1 : seg1.size = 49)
    (hin1 : seg1.overrun = false) (seg2 : Buffer UInt8) :
    hexdumpLoop pointer buffer row seg1 seg2 =
      (List.zipWith Row.beside (columnLoop bufferToHex 48 pointer buffer row seg1).1
          (columnLoop bufferToChar 0 pointer buffer row seg2).1,
        (columnLoop bufferToHex 48 pointer buffer row seg1).2,
        (columnLoop bufferToChar 0 pointer buffer row seg2).2) := by
  induction hn : buffer.length - row using Nat.strong_induction_on generalizing row seg1 seg2 with
  | h n ih =>
    subst hn
    by_cases hrow : row < buffer.length
    · have hlen := length_row_le buffer row
      rw [hexdumpLoop, if_pos hrow, columnLoop, if_pos hrow, columnLoop.eq_def bufferToChar, if_pos hrow]
      dsimp only
      generalize (buffer.drop row).take (if row + 16 < buffer.length then 16 else buffer.length - row) = bytes
        at hlen ⊢
      obtain ⟨hhex, hsize1'⟩ := bufferToHex_holds hlen hsize1 hin1
      have hpad : padRight 50 (frontString (bufferToHex bytes seg1)) =
          padRight 48 (frontString (bufferToHex bytes seg1)) ++ [0x20, 0x20] := by
        rw [hhex.frontString_eq]
        exact padRight_add (length_hexText_le hlen) 2
      rw [ih _ (by omega) (row + 16) hsize1' hhex.inside _ rfl, hpad, padRight_zero]
      rfl
    · rw [hexdumpLoop, if_neg hrow, columnLoop, if_neg hrow, columnLoop, if_neg hrow]
      rfl

/-- The full dump prints the two single columns side by side, one row for every sixteen bytes, and leaves the segments
as they do. -/
theorem espLogBufferHexdumpInternal_eq (pointer buffer : Bytes) :
    (espLogBufferHexInternal pointer buffer).1.length = (buffer.length + 15) / 16 ∧
      (espLogBufferCharInternal pointer buffer).1.length = (buffer.length + 15) / 16 ∧
      espLogBufferHexdumpInternal pointer buffer =
        (List.zipWith Row.beside (espLogBufferHexInternal pointer buffer).1 (espLogBufferCharInternal pointer buffer).1,
          (espLogBufferHexInternal pointer buffer).2, (espLogBufferCharInternal pointer buffer).2) :=
  ⟨length_columnLoop _ _ _ _ _ _, length_columnLoop _ _ _ _ _ _, hexdumpLoop_eq pointer buffer 0 rfl rfl _⟩

end WirelessUart.Firmware
