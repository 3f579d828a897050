import WirelessUart.ByteLib.Buffer
import WirelessUart.Codec

/-!
# The escape codec of the firmware

`bytes_encode` and `bytes_decode` of `wuart_utils.c`, with `char` unsigned.  Both fill an output buffer of `olen`
bytes and return the number of bytes written, or 0 as soon as the room does not suffice.

The encoder writes what the encoder of the host writes if there is room for all of it (`encodeLoop_spec`), and the
decoder, given enough room, writes what the run of its loop body writes (`decodeLoop_eq`); the input length is always
enough for it, since what it holds back of an escape pays for what it may write later.
-/

namespace WirelessUart.Firmware

open ByteLib

/-! ### The functions -/

/-- `is_word` -/
def isWord (c : UInt8) : Bool := 0x20 ≤ c && c ≤ 0x7E

/-- What a function leaves: its result and the output buffer. -/
abbrev Result := Nat × Buffer UInt8

/-- The bytes that a function has written and counted. -/
def Result.bytes (res : Result) : Bytes := res.2.cells.take res.1

/-- The loop of `bytes_encode`; `sprintf` stores a NUL behind the four characters. -/
def encodeLoop : Bytes → Writer UInt8 → Result
  | [], out => (out.pos, out.buf)
  | r :: input, out =>
    if ¬ isWord r then
      match out.put ([0x5c, 0x78] ++ hex02 r) [0x00] with
      | some out' => encodeLoop input out'
      | none => (0, out.buf)
    else if r = 0x5c then
      match out.put [0x5c, 0x5c] [] with
      | some out' => encodeLoop input out'
      | none => (0, out.buf)
    else
      match out.put [r] [] with
      | some out' => encodeLoop input out'
      | none => (0, out.buf)

/-- `bytes_encode`, with pointers that are not NULL. -/
def bytesEncode (input : Bytes) (out : Buffer UInt8) : Result := encodeLoop input (.start out)

/-- The ranges that `bytes_decode` tests in the states 2 and 3. -/
def inHexRange (r : UInt8) : Bool :=
  (0x30 ≤ r && r ≤ 0x39) || (0x61 ≤ r && r ≤ 0x68) || (0x41 ≤ r && r ≤ 0x48)

/-- `sscanf(tmp_hex_str, "%x", &hex_int)` with the characters `hex1` and `r`: the longest prefix of hexadecimal digits
is read; `none` when there is none and `hex_int` stays unassigned. -/
def sscanfHex (hex1 r : UInt8) : Option UInt8 :=
  match hexVal hex1, hexVal r with
  | some x, some y => some (16 * x + y)
  | some x, none => some x
  | none, _ => none

def hexBytes (hex1 r : UInt8) : Option Bytes := (sscanfHex hex1 r).map ([·])

/-- The loop body of `bytes_decode`; `none` when it reads an unassigned `hex_int`. -/
def decodeStep : DecodeState → UInt8 → Option (DecodeState × Bytes) := decodeStepWith inHexRange hexBytes

/-- The loop of `bytes_decode`: every branch that appends asks for the room first. -/
def decodeLoop : DecodeState → Bytes → Writer UInt8 → Option Result
  | _, [], out => some (out.pos, out.buf)
  | state, r :: input, out =>
    match decodeStep state r with
    | some (state', bs) =>
      match out.put bs [] with
      | some out' => decodeLoop state' input out'
      | none => some (0, out.buf)
    | none => none

/-- `bytes_decode`, with pointers that are not NULL. -/
def bytesDecode (input : Bytes) (out : Buffer UInt8) : Option Result := decodeLoop .normal input (.start out)

/-! ### Enough room -/

theorem isWord_eq : ∀ c, isWord c = WirelessUart.isWord c := by decide +kernel

theorem put_of_le {α : Type*} {out : Writer α} {vs : List α} (h : vs.length ≤ out.room) (tail : List α) :
    ∃ out', out.put vs tail = some out' ∧ out'.written = out.written ++ vs ∧ out'.pos = out.pos + vs.length ∧
      out'.room + vs.length = out.room := by
  cases hput : out.put vs tail with
  | none => exact absurd (Writer.put_eq_none.1 hput) (by omega)
  | some out' =>
    obtain ⟨hw, hp, hr, -⟩ := Writer.put_spec hput
    exact ⟨out', rfl, hw, hp, hr⟩

theorem length_encodeByte_le (r : UInt8) : (encodeByte r).length ≤ 4 := by
  revert r
  decide +kernel

/-- What is stored behind an encoded byte. -/
def terminator (r : UInt8) : Bytes := if ¬ isWord r then [0x00] else []

/-- One byte: it is encoded as on the host if there is room for that, and else the loop returns 0. -/
theorem encodeLoop_cons_cases (r : UInt8) (input : Bytes) (out : Writer UInt8) :
    (∃ out', out.put (encodeByte r) (terminator r) = some out' ∧ encodeLoop (r :: input) out = encodeLoop input out') ∨
      out.room < (encodeByte r).length ∧ encodeLoop (r :: input) out = (0, out.buf) := by
  have hnone : out.put (encodeByte r) (terminator r) = none ↔ out.room < (encodeByte r).length := Writer.put_eq_none
  rw [← hnone, encodeLoop]
  unfold encodeByte terminator
  rw [← isWord_eq]
  by_cases hword : ¬ isWord r = true
  · rw [if_pos hword, if_pos hword, if_pos hword]
    cases out.put ([0x5c, 0x78] ++ hex02 r) [0x00] with
    | none => exact .inr ⟨rfl, rfl⟩
    | some out' => exact .inl ⟨out', rfl, rfl⟩
  rw [if_neg hword, if_neg hword, if_neg hword]
  by_cases hback : r = 0x5c
  · rw [if_pos hback, if_pos hback]
    cases out.put [0x5c, 0x5c] [] with
    | none => exact .inr ⟨rfl, rfl⟩
    | some out' => exact .inl ⟨out', rfl, rfl⟩
  · rw [if_neg hback, if_neg hback]
    cases out.put [r] [] with
    | none => exact .inr ⟨rfl, rfl⟩
    | some out' => exact .inl ⟨out', rfl, rfl⟩

theorem bytesEncode_cons (r : UInt8) (input : Bytes) :
    WirelessUart.bytesEncode (r :: input) = encodeByte r ++ WirelessUart.bytesEncode input := rfl

/-- The loop encodes as the host does when the room suffices for the whole encoding, and else it returns 0. -/
theorem encodeLoop_spec (input : Bytes) (out : Writer UInt8) :
    ((WirelessUart.bytesEncode input).length ≤ out.room →
      (encodeLoop input out).1 = out.pos + (WirelessUart.bytesEncode input).length ∧
        Result.bytes (encodeLoop input out) = out.written ++ WirelessUart.bytesEncode input) ∧
    (out.room < (WirelessUart.bytesEncode input).length → (encodeLoop input out).1 = 0) := by
  induction input generalizing out with
  | nil => exact ⟨fun _ => ⟨rfl, (List.append_nil _).symm⟩, fun h => absurd h (Nat.not_lt_zero _)⟩
  | cons r input ih =>
    rw [bytesEncode_cons, List.length_append]
    rcases encodeLoop_cons_cases r input out with ⟨out', hput, heq⟩ | ⟨hroom, heq⟩
    · obtain ⟨hw, hp, hr, -⟩ := Writer.put_spec hput
      obtain ⟨hfits, hfull⟩ := ih out'
      rw [heq]
      constructor
      · intro hle
        obtain ⟨hcount, hbytes⟩ := hfits (by omega)
        rw [hcount, hbytes, hp, hw, List.append_assoc]
        exact ⟨Nat.add_assoc _ _ _, rfl⟩
      · intro hlt
        exact hfull (by omega)
    · rw [heq]
      exact ⟨fun h => absurd h (by omega), fun _ => rfl⟩

theorem length_bytesEncode_le (input : Bytes) : (WirelessUart.bytesEncode input).length ≤ 4 * input.length := by
  induction input with
  | nil => exact Nat.le_refl _
  | cons r input ih =>
    have hle := length_encodeByte_le r
    rw [bytesEncode_cons, List.length_append, List.length_cons]
    omega

/-- With four bytes for every input byte, the firmware encodes as the host does. -/
theorem bytes_bytesEncode {input : Bytes} {out : Buffer UInt8} (h : 4 * input.length ≤ out.size) :
    (bytesEncode input out).bytes = WirelessUart.bytesEncode input := by
  have hle : (WirelessUart.bytesEncode input).length ≤ (Writer.start out).room :=
    (length_bytesEncode_le input).trans h
  exact ((encodeLoop_spec input (.start out)).1 hle).2

/-! ### Decoding -/

/-- How many bytes the decoder has read and not yet written. -/
def held : DecodeState → Nat
  | .normal => 0
  | .backslash => 1
  | .hex => 2
  | .hexNum _ => 3

/-- With at most one byte for an escape, a step writes at most what is held and what it reads. -/
theorem held_stepWith {inRange : UInt8 → Bool} {hexBytes : UInt8 → UInt8 → Option Bytes}
    (hlen : ∀ u r bs, hexBytes u r = some bs → bs.length ≤ 1) {s s' : DecodeState} {r : UInt8} {bs : Bytes}
    (h : decodeStepWith inRange hexBytes s r = some (s', bs)) : bs.length + held s' ≤ held s + 1 := by
  unfold decodeStepWith at h
  split at h
  · split_ifs at h <;> cases h <;> simp [held]
  · split_ifs at h <;> cases h <;> simp [held]
  · -- a decoded escape takes one byte for the four that were held
    split_ifs at h with hr
    · obtain ⟨bs', hbs, heq⟩ := Option.map_eq_some_iff.1 h
      have hone := hlen _ _ _ hbs
      cases heq
      simp only [held]
      omega
    · cases h
      simp [held]
  · split_ifs at h <;> cases h <;> simp [held]

theorem length_hexBytes {u r : UInt8} {bs : Bytes} (h : hexBytes u r = some bs) : bs.length ≤ 1 := by
  obtain ⟨b, -, rfl⟩ := Option.map_eq_some_iff.1 h
  exact Nat.le_refl 1

theorem held_step {s s' : DecodeState} {r : UInt8} {bs : Bytes} (h : decodeStep s r = some (s', bs)) :
    bs.length + held s' ≤ held s + 1 := held_stepWith (fun _ _ _ => length_hexBytes) h

/-- With room for what is held and what is to come, the loop is the run of its body. -/
theorem decodeLoop_eq {s : DecodeState} {input : Bytes} {out : Writer UInt8}
    (h : held s + input.length ≤ out.room) :
    (∃ res t bs, decodeLoop s input out = some res ∧ run decodeStep s input = some (t, bs) ∧
        res.1 = out.pos + bs.length ∧ res.bytes = out.written ++ bs) ∨
      decodeLoop s input out = none ∧ run decodeStep s input = none := by
  induction input generalizing s out with
  | nil => exact .inl ⟨_, s, [], rfl, rfl, rfl, (List.append_nil _).symm⟩
  | cons r input ih =>
    rw [List.length_cons] at h
    rw [decodeLoop]
    cases hstep : decodeStep s r with
    | none => exact .inr ⟨rfl, run_cons_of_fail hstep input⟩
    | some p =>
      obtain ⟨s', bs⟩ := p
      have hheld := held_step hstep
      obtain ⟨out', hput, hw, hp, hr⟩ := put_of_le (show bs.length ≤ out.room by omega) []
      simp only [hput]
      rw [run_cons_of_step hstep]
      have hroom : held s' + input.length ≤ out'.room := by omega
      rcases ih hroom with ⟨res, t, rest, hloop, hrun, hcount, hbytes⟩ | ⟨hloop, hrun⟩
      · refine .inl ⟨res, t, bs ++ rest, hloop, by rw [hrun]; rfl, ?_, ?_⟩
        · rw [hcount, hp, List.length_append, Nat.add_assoc]
        · rw [hbytes, hw, List.append_assoc]
      · exact .inr ⟨hloop, by rw [hrun]; rfl⟩

/-- The call returns the count of `d`, with `d` at the front of the output buffer. -/
def Returns (call : Option Result) (d : Bytes) : Prop := ∃ res, call = some res ∧ res.1 = d.length ∧ res.bytes = d

/-- With the input length as room, `bytes_decode` counts and writes what its loop body writes. -/
theorem returns_bytesDecode_iff {input : Bytes} {out : Buffer UInt8} (h : input.length ≤ out.size) {d : Bytes} :
    Returns (bytesDecode input out) d ↔ (run decodeStep .normal input).map Prod.snd = some d := by
  have hroom : held .normal + input.length ≤ (Writer.start out).room := by
    rw [held, Nat.zero_add]
    exact h
  unfold Returns bytesDecode
  rcases decodeLoop_eq hroom with ⟨res, t, bs, hloop, hrun, hcount, hbytes⟩ | ⟨hloop, hrun⟩
  · rw [Writer.start, Nat.zero_add] at hcount
    rw [Writer.written_start, List.nil_append] at hbytes
    rw [hloop, hrun, Option.map_some, Option.some.injEq]
    constructor
    · rintro ⟨res', heq, -, rfl⟩
      cases heq
      exact hbytes.symm
    · rintro rfl
      exact ⟨res, rfl, hcount, hbytes⟩
  · rw [hloop, hrun]
    simp

end WirelessUart.Firmware
