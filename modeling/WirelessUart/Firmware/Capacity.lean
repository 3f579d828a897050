import WirelessUart.Firmware.Codec

/-!
# The room of the firmware's codec

Both functions of the codec ask for room before they write.  The encoder does not ask for the NUL that `sprintf` stores
behind `\xhh`: when exactly four bytes are left, the NUL is stored outside of the buffer (`bytesEncode_inside_iff`).
Otherwise its result depends on the room as it should (`bytesEncode_capacity`).

The decoder stores inside of its buffer, and a buffer as long as the input never runs out of room
(`bytesDecode_capacity`).  This holds whatever `hex_int` is when `sscanf` has not assigned it, so the loop is modelled
once more, with an arbitrary value for that.
-/

namespace WirelessUart.Firmware

open ByteLib

/-! ### Encoding -/

section Encode

variable {input : Bytes} {out : Writer UInt8}

/-- A store outside of the buffer is never undone. -/
theorem overrun_encodeLoop_of_overrun (input : Bytes) (h : out.buf.overrun = true) :
    (encodeLoop input out).2.overrun = true := by
  induction input generalizing out with
  | nil => exact h
  | cons r input ih =>
    rcases encodeLoop_cons_cases r input out with ⟨out', hput, heq⟩ | ⟨-, heq⟩
    · rw [heq]
      exact ih ((Writer.overrun_put hput).2 (.inl h))
    · rw [heq]
      exact h

theorem length_encodeByte_of_not_word {r : UInt8} (h : isWord r = false) : (encodeByte r).length = 4 := by
  rw [encodeByte, ← isWord_eq, h]
  rfl

/-- The NUL behind a byte is outside exactly when the byte is not a word and four bytes are left for it. -/
theorem overrun_put_encodeByte {r : UInt8} {out' : Writer UInt8} (hin : out.buf.overrun = false)
    (h : out.put (encodeByte r) (terminator r) = some out') :
    out'.buf.overrun = true ↔ isWord r = false ∧ out.room = 4 := by
  obtain ⟨-, -, hroom, -⟩ := Writer.put_spec h
  rw [Writer.overrun_put h, hin, terminator]
  cases hword : isWord r with
  | true =>
    simp only [Bool.false_eq_true, not_true_eq_false, if_false, List.length_nil, false_or, reduceCtorEq, false_and,
      iff_false]
    omega
  | false =>
    have hfour := length_encodeByte_of_not_word hword
    simp only [Bool.false_eq_true, not_false_eq_true, if_true, List.length_singleton, false_or, true_and]
    omega

/-- The loop stores outside of the buffer exactly when it comes to a byte that is not a word with four bytes left. -/
theorem overrun_encodeLoop_iff (hin : out.buf.overrun = false) :
    (encodeLoop input out).2.overrun = true ↔ ∃ pre r post, input = pre ++ r :: post ∧ isWord r = false ∧
      (WirelessUart.bytesEncode pre).length + 4 = out.room := by
  induction input generalizing out with
  | nil =>
    refine iff_of_false (by simp [encodeLoop, hin]) ?_
    intro h
    obtain ⟨pre, r, post, heq, -⟩ := h
    simp at heq
  | cons r input ih =>
    -- the byte in question is the first one, or it comes later
    have hsplit : (∃ pre r' post, r :: input = pre ++ r' :: post ∧ isWord r' = false ∧
        (WirelessUart.bytesEncode pre).length + 4 = out.room) ↔ (isWord r = false ∧ out.room = 4) ∨
          ∃ pre r' post, input = pre ++ r' :: post ∧ isWord r' = false ∧
            (encodeByte r).length + (WirelessUart.bytesEncode pre).length + 4 = out.room := by
      constructor
      · intro h
        obtain ⟨pre, r', post, heq, hword, hroom⟩ := h
        rcases List.cons_eq_append_iff.1 heq with ⟨rfl, hcons⟩ | ⟨pre', rfl, heq'⟩
        · cases hcons
          exact .inl ⟨hword, hroom.symm⟩
        · rw [bytesEncode_cons, List.length_append] at hroom
          exact .inr ⟨pre', r', post, heq', hword, hroom⟩
      · intro h
        rcases h with ⟨hword, hroom⟩ | ⟨pre, r', post, rfl, hword, hroom⟩
        · exact ⟨[], r, input, rfl, hword, hroom.symm⟩
        · refine ⟨r :: pre, r', post, rfl, hword, ?_⟩
          rw [bytesEncode_cons, List.length_append, hroom]
    rw [hsplit]
    rcases encodeLoop_cons_cases r input out with ⟨out', hput, heq⟩ | ⟨hroom, heq⟩
    · have hout := overrun_put_encodeByte hin hput
      obtain ⟨-, -, hroom, -⟩ := Writer.put_spec hput
      rw [heq]
      by_cases hover : out'.buf.overrun = true
      · exact iff_of_true (overrun_encodeLoop_of_overrun input hover) (.inl (hout.1 hover))
      · rw [ih (Bool.eq_false_iff.2 hover), or_iff_right (mt hout.2 hover)]
        have hshift (n : Nat) : (encodeByte r).length + n + 4 = out.room ↔ n + 4 = out'.room := by omega
        simp only [hshift]
    · rw [heq]
      refine iff_of_false (by simp [hin]) ?_
      intro h
      rcases h with ⟨hword, hfour⟩ | ⟨pre, r', post, -, -, hlen⟩
      · have := length_encodeByte_of_not_word hword
        omega
      · omega

theorem size_encodeLoop (input : Bytes) (out : Writer UInt8) : (encodeLoop input out).2.size = out.buf.size := by
  induction input generalizing out with
  | nil => rfl
  | cons r input ih =>
    rcases encodeLoop_cons_cases r input out with ⟨out', hput, heq⟩ | ⟨-, heq⟩
    · rw [heq, ih, (Writer.put_spec hput).2.2.2]
    · rw [heq]

end Encode

theorem overrun_bytesEncode_iff (input cells : Bytes) :
    (bytesEncode input ⟨cells, false⟩).2.overrun = true ↔ ∃ pre r post, input = pre ++ r :: post ∧
      isWord r = false ∧ (WirelessUart.bytesEncode pre).length + 4 = cells.length := by
  have hin : (Writer.start (⟨cells, false⟩ : Buffer UInt8)).buf.overrun = false := rfl
  exact overrun_encodeLoop_iff hin

/-- Among inputs whose encoding is four times as long as they are, there are no words. -/
theorem length_bytesEncode_eq_iff (input : Bytes) :
    (WirelessUart.bytesEncode input).length = 4 * input.length ↔ ∀ r ∈ input, isWord r = false := by
  induction input with
  | nil => simp [WirelessUart.bytesEncode]
  | cons r input ih =>
    have hle := length_bytesEncode_le input
    have hbyte : (encodeByte r).length = 4 ↔ isWord r = false := by
      revert r
      decide +kernel
    have hbyte_le := length_encodeByte_le r
    rw [bytesEncode_cons, List.length_append, List.length_cons, List.forall_mem_cons, ← ih, ← hbyte]
    omega

/-- `bytes_encode` stores inside of its buffer exactly when no byte that is not a word comes when four bytes are left;
in the buffer of `packet_do_encode`, with four bytes for each byte, when the input has a word. -/
theorem bytesEncode_inside_iff (input cells : Bytes) :
    ((bytesEncode input ⟨cells, false⟩).2.overrun = false ↔ ¬ ∃ pre r post, input = pre ++ r :: post ∧
      isWord r = false ∧ (WirelessUart.bytesEncode pre).length + 4 = cells.length) ∧
    (cells.length = 4 * input.length →
      ((bytesEncode input ⟨cells, false⟩).2.overrun = false ↔ input = [] ∨ ∃ r ∈ input, isWord r = true)) := by
  have hiff : (bytesEncode input ⟨cells, false⟩).2.overrun = false ↔ ¬ ∃ pre r post, input = pre ++ r :: post ∧
      isWord r = false ∧ (WirelessUart.bytesEncode pre).length + 4 = cells.length := by
    rw [← Bool.not_eq_true]
    exact not_congr (overrun_bytesEncode_iff input cells)
  refine ⟨hiff, fun hlen => ?_⟩
  rw [hiff, not_iff_comm, not_or, hlen]
  constructor
  · intro h
    obtain ⟨hne, hwords⟩ := h
    -- all bytes are encoded to four, so four are left for the last one
    obtain ⟨pre, r, rfl⟩ := (List.eq_nil_or_concat input).resolve_left hne
    have hwords (r' : UInt8) (hr' : r' ∈ pre.concat r) : isWord r' = false :=
      Bool.eq_false_iff.2 fun h => hwords ⟨r', hr', h⟩
    have hpre := (length_bytesEncode_eq_iff pre).2 fun r' hr' => hwords r' (by simp [hr'])
    refine ⟨pre, r, [], by simp, hwords r (by simp), ?_⟩
    rw [hpre, List.length_concat]
    omega
  · intro h
    obtain ⟨pre, r, post, rfl, hword, hroom⟩ := h
    have hle := length_bytesEncode_le pre
    rw [List.length_append, List.length_cons] at hroom
    have hpost : post = [] := List.length_eq_zero_iff.1 (by omega)
    have hpre := (length_bytesEncode_eq_iff pre).1 (by omega)
    refine ⟨by simp, fun h => ?_⟩
    obtain ⟨r', hr', hword'⟩ := h
    rw [hpost, List.mem_append, List.mem_singleton] at hr'
    rcases hr' with hr' | rfl
    · rw [hpre r' hr'] at hword'
      cases hword'
    · rw [hword] at hword'
      cases hword'

/-- A single byte that is not a word, in a buffer of four bytes. -/
theorem not_bytesEncode_inside_every_input :
    ¬ ∀ input cells : Bytes, (bytesEncode input ⟨cells, false⟩).2.overrun = false := by
  intro h
  have hrun : (bytesEncode [0x00] ⟨[0, 0, 0, 0], false⟩).2.overrun = true := by decide +kernel
  rw [h] at hrun
  cases hrun

/-- `bytes_encode` counts and writes the encoding of the host if there is room for it, and returns 0 otherwise. -/
theorem bytesEncode_capacity (input : Bytes) (out : Buffer UInt8) :
    ((WirelessUart.bytesEncode input).length ≤ out.size →
      (bytesEncode input out).1 = (WirelessUart.bytesEncode input).length ∧
        (bytesEncode input out).bytes = WirelessUart.bytesEncode input) ∧
    (out.size < (WirelessUart.bytesEncode input).length → (bytesEncode input out).1 = 0) ∧
    (out.size = 4 * input.length → (bytesEncode input out).1 = (WirelessUart.bytesEncode input).length ∧
        (bytesEncode input out).bytes = WirelessUart.bytesEncode input) ∧
    (out.size = 2 * input.length → ((bytesEncode input out).1 = (WirelessUart.bytesEncode input).length ∧
        (bytesEncode input out).bytes = WirelessUart.bytesEncode input ↔
      (WirelessUart.bytesEncode input).length ≤ out.size)) := by
  obtain ⟨hfits, hfull⟩ := encodeLoop_spec input (.start out)
  have hfits (h : (WirelessUart.bytesEncode input).length ≤ out.size) :
      (bytesEncode input out).1 = (WirelessUart.bytesEncode input).length ∧
        (bytesEncode input out).bytes = WirelessUart.bytesEncode input := by
    obtain ⟨hcount, hbytes⟩ := hfits h
    exact ⟨hcount.trans (Nat.zero_add _), hbytes⟩
  refine ⟨hfits, hfull, fun h => hfits ?_, fun _ => ⟨fun h => ?_, hfits⟩⟩
  · rw [h]
    exact length_bytesEncode_le input
  · by_contra hlt
    have hzero : (bytesEncode input out).1 = 0 := hfull (Nat.lt_of_not_le hlt)
    rw [h.1] at hzero
    omega

/-! ### Decoding -/

/-- How a loop over the input ends. -/
inductive Exit
  | finished
  | noRoom
deriving DecidableEq

/-- The loop body of `bytes_decode` when an unassigned `hex_int` holds `junk`. -/
def decodeStepFrom (junk : UInt8) (s : DecodeState) (r : UInt8) : DecodeState × Bytes :=
  (decodeStep s r).getD (.normal, [junk])

/-- The loop of `bytes_decode`, and whether it ends with a `return 0` for want of room; `junk` is what an unassigned
`hex_int` holds, by the number of bytes that are still to be read. -/
def decodeLoopFrom (junk : Nat → UInt8) : DecodeState → Bytes → Writer UInt8 → Exit × Writer UInt8
  | _, [], out => (.finished, out)
  | s, r :: input, out =>
    match out.put (decodeStepFrom (junk input.length) s r).2 [] with
    | some out' => decodeLoopFrom junk (decodeStepFrom (junk input.length) s r).1 input out'
    | none => (.noRoom, out)

/-- What the loop leaves is returned. -/
def Exit.result (exit : Exit) (out : Writer UInt8) : Result :=
  match exit with
  | .finished => (out.pos, out.buf)
  | .noRoom => (0, out.buf)

/-- `bytes_decode`, with pointers that are not NULL and some value for every unassigned `hex_int`. -/
def bytesDecodeFrom (junk : Nat → UInt8) (input : Bytes) (out : Buffer UInt8) : Result :=
  let res := decodeLoopFrom junk .normal input (.start out)
  res.1.result res.2

section Decode

variable {junk : Nat → UInt8} {s : DecodeState} {input : Bytes} {out : Writer UInt8}

/-- Where `hex_int` is always assigned, what else it may hold does not matter. -/
theorem decodeLoop_eq_some (junk : Nat → UInt8) {res : Result} (h : decodeLoop s input out = some res) :
    (decodeLoopFrom junk s input out).1.result (decodeLoopFrom junk s input out).2 = res := by
  induction input generalizing s out with
  | nil => exact Option.some.inj h
  | cons r input ih =>
    rw [decodeLoop] at h
    rw [decodeLoopFrom, decodeStepFrom]
    cases hstep : decodeStep s r with
    | none =>
      rw [hstep] at h
      cases h
    | some p =>
      obtain ⟨s', bs⟩ := p
      simp only [hstep] at h
      rw [Option.getD_some]
      cases hput : out.put bs [] with
      | none =>
        simp only [hput] at h
        exact Option.some.inj h
      | some out' =>
        simp only [hput] at h
        exact ih h

theorem bytesDecode_eq_some (junk : Nat → UInt8) {input : Bytes} {out : Buffer UInt8} {res : Result}
    (h : bytesDecode input out = some res) : bytesDecodeFrom junk input out = res := decodeLoop_eq_some junk h

/-- The value of `hex_int` takes one byte, as a decoded escape does. -/
theorem held_stepFrom (junk : UInt8) (s : DecodeState) (r : UInt8) :
    (decodeStepFrom junk s r).2.length + held (decodeStepFrom junk s r).1 ≤ held s + 1 := by
  rw [decodeStepFrom]
  cases hstep : decodeStep s r with
  | none =>
    rw [Option.getD_none]
    exact Nat.le_add_left 1 (held s)
  | some p => exact held_step hstep

theorem overrun_decodeLoopFrom : (decodeLoopFrom junk s input out).2.buf.overrun = out.buf.overrun := by
  induction input generalizing s out with
  | nil => rfl
  | cons r input ih =>
    rw [decodeLoopFrom]
    cases hput : out.put (decodeStepFrom (junk input.length) s r).2 [] with
    | none => rfl
    | some out' =>
      have hroom : ¬ out.room < (decodeStepFrom (junk input.length) s r).2.length := by
        rw [← Writer.put_eq_none, hput]
        simp
      have hover := Writer.overrun_put hput
      rw [List.length_nil, Nat.add_zero, or_iff_left hroom] at hover
      exact ih.trans (Bool.eq_iff_iff.2 hover)

/-- Room for what is held back and for what is still to be read is enough, and not more than that is written. -/
theorem decodeLoopFrom_finished (junk : Nat → UInt8) (h : held s + input.length ≤ out.room) :
    (decodeLoopFrom junk s input out).1 = .finished ∧
      (decodeLoopFrom junk s input out).2.pos ≤ out.pos + held s + input.length := by
  induction input generalizing s out with
  | nil =>
    refine ⟨rfl, ?_⟩
    show out.pos ≤ out.pos + held s + 0
    omega
  | cons r input ih =>
    rw [List.length_cons] at h ⊢
    have hheld := held_stepFrom (junk input.length) s r
    have hle : (decodeStepFrom (junk input.length) s r).2.length ≤ out.room := by omega
    obtain ⟨out', hput, -, hp, hr⟩ := put_of_le hle []
    rw [decodeLoopFrom, hput]
    have hroom : held (decodeStepFrom (junk input.length) s r).1 + input.length ≤ out'.room := by omega
    obtain ⟨hexit, hpos⟩ := ih hroom
    exact ⟨hexit, hpos.trans (by omega)⟩

end Decode

/-- `bytes_decode` stores inside of its buffer, and with at least the length of the input as room it never returns 0 for
want of room, and counts at most as many bytes. -/
theorem bytesDecode_capacity (junk : Nat → UInt8) (input cells : Bytes) :
    (bytesDecodeFrom junk input ⟨cells, false⟩).2.overrun = false ∧
    (input.length ≤ cells.length →
      (decodeLoopFrom junk .normal input (.start ⟨cells, false⟩)).1 = .finished ∧
        (bytesDecodeFrom junk input ⟨cells, false⟩).1 ≤ input.length) := by
  have hover : (decodeLoopFrom junk .normal input (.start ⟨cells, false⟩)).2.buf.overrun = false :=
    overrun_decodeLoopFrom
  constructor
  · unfold bytesDecodeFrom Exit.result
    dsimp only
    split <;> exact hover
  · intro hlen
    have hroom : held .normal + input.length ≤ (Writer.start ⟨cells, false⟩).room := by
      rw [held, Nat.zero_add]
      exact hlen
    obtain ⟨hexit, hpos⟩ := decodeLoopFrom_finished junk hroom
    refine ⟨hexit, ?_⟩
    unfold bytesDecodeFrom
    dsimp only
    rw [hexit]
    exact hpos.trans (by simp [Writer.start, held])

end WirelessUart.Firmware
