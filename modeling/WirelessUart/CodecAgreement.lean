import WirelessUart.Firmware.Codec

/-!
# The codecs of the host and of the firmware

Each decoder reads back what either encoder writes, whatever follows it (`decode_encode_append`).

On other inputs the decoders differ in one test: behind `\\x` the host takes the bytes `:` to `?` for digits.  The two
decoders are then in different states.  `Phase` follows them from there: what each of them still holds back, and
which one is to read the next escape.  They write the same exactly when this ends well (`returns_iff_agrees`).
-/

namespace WirelessUart

open ByteLib

/-! ### Round trips -/

/-- `e` is what one of the encoders makes of `a`; the firmware has room for four bytes for each byte. -/
def Encodes (a e : Bytes) : Prop :=
  e = bytesEncode a ∨ ∃ out : Buffer UInt8, 4 * a.length ≤ out.size ∧ e = (Firmware.bytesEncode a out).bytes

theorem run_firmware_encodeByte : ∀ r, run Firmware.decodeStep .normal (encodeByte r) = some (.normal, [r]) := by
  decide +kernel

theorem run_firmware_bytesEncode (a : Bytes) :
    run Firmware.decodeStep .normal (bytesEncode a) = some (.normal, a) := by
  have h := run_flatMap (g := id) run_firmware_encodeByte a
  rwa [List.map_id] at h

/-- Every decoder reads back every encoding, whatever follows. -/
theorem decode_encode_append {a e : Bytes} (he : Encodes a e) (w d : Bytes) :
    (bytesDecode w = some d → bytesDecode (e ++ w) = some (a ++ d)) ∧
      (∀ out out' : Buffer UInt8, w.length ≤ out.size → (e ++ w).length ≤ out'.size →
        Firmware.Returns (Firmware.bytesDecode w out) d →
          Firmware.Returns (Firmware.bytesDecode (e ++ w) out') (a ++ d)) ∧
      bytesDecode e = some a ∧
      ∀ out : Buffer UInt8, e.length ≤ out.size → Firmware.Returns (Firmware.bytesDecode e out) a := by
  obtain rfl : e = bytesEncode a := by
    rcases he with rfl | ⟨out, hout, rfl⟩
    · rfl
    · exact Firmware.bytes_bytesEncode hout
  refine ⟨fun h => ?_, fun out out' hout hout' h => ?_, bytesDecode_bytesEncode a, fun out hout => ?_⟩
  · rw [bytesDecode_bytesEncode_append, h]
    rfl
  · rw [Firmware.returns_bytesDecode_iff hout] at h
    rw [Firmware.returns_bytesDecode_iff hout', run_append_of_run (run_firmware_bytesEncode a), Option.map_map]
    obtain ⟨p, hp, rfl⟩ := Option.map_eq_some_iff.1 h
    rw [hp]
    rfl
  · rw [Firmware.returns_bytesDecode_iff hout, run_firmware_bytesEncode]
    rfl

theorem decode_encode_append_firmware :
    (bytesDecode [0x5c, 0x5c] = some [0x5c] →
        bytesDecode ((Firmware.bytesEncode [0x5c, 0x01] ⟨List.replicate 8 0, false⟩).bytes ++ [0x5c, 0x5c]) =
          some ([0x5c, 0x01] ++ [0x5c])) ∧
      (∀ out out' : Buffer UInt8, [0x5c, 0x5c].length ≤ out.size →
        ((Firmware.bytesEncode [0x5c, 0x01] ⟨List.replicate 8 0, false⟩).bytes ++ [0x5c, 0x5c]).length ≤ out'.size →
        Firmware.Returns (Firmware.bytesDecode [0x5c, 0x5c] out) [0x5c] →
          Firmware.Returns (Firmware.bytesDecode
            ((Firmware.bytesEncode [0x5c, 0x01] ⟨List.replicate 8 0, false⟩).bytes ++ [0x5c, 0x5c]) out')
            ([0x5c, 0x01] ++ [0x5c])) ∧
      bytesDecode (Firmware.bytesEncode [0x5c, 0x01] ⟨List.replicate 8 0, false⟩).bytes = some [0x5c, 0x01] ∧
      ∀ out : Buffer UInt8,
        (Firmware.bytesEncode [0x5c, 0x01] ⟨List.replicate 8 0, false⟩).bytes.length ≤ out.size →
        Firmware.Returns (Firmware.bytesDecode
          (Firmware.bytesEncode [0x5c, 0x01] ⟨List.replicate 8 0, false⟩).bytes out) [0x5c, 0x01] :=
  decode_encode_append (.inr ⟨_, by decide, rfl⟩) [0x5c, 0x5c] [0x5c]

/-! ### The two decoders side by side -/

inductive Side
  | host
  | firmware
deriving DecidableEq, Repr

namespace Side

def other : Side → Side
  | host => firmware
  | firmware => host

def inRange : Side → UInt8 → Bool
  | host => inHexRange
  | firmware => Firmware.inHexRange

def hexBytes : Side → UInt8 → UInt8 → Option Bytes
  | host => WirelessUart.hexBytes
  | firmware => Firmware.hexBytes

/-- The loop body of a decoder. -/
abbrev step (i : Side) : DecodeState → UInt8 → Option (DecodeState × Bytes) := decodeStepWith i.inRange i.hexBytes

/-- What a decoder writes from a state on. -/
def out (i : Side) (s : DecodeState) (w : Bytes) : Option Bytes :=
  (run (decodeStepWith i.inRange i.hexBytes) s w).map Prod.snd

variable {i : Side} {s : DecodeState} {r : UInt8} {w : Bytes}

theorem inRange_backslash (i : Side) : i.inRange 0x5c = false := by
  cases i <;> rfl

theorem ne_backslash (h : i.inRange r = true) : r ≠ 0x5c := by
  rintro rfl
  rw [inRange_backslash] at h
  cases h

/-! The branches of the loop body. -/

theorem step_normal_backslash (i : Side) : i.step .normal 0x5c = some (.backslash, []) := rfl

theorem step_backslash_backslash (i : Side) : i.step .backslash 0x5c = some (.normal, [0x5c]) := rfl

theorem step_normal (i : Side) (h : r ≠ 0x5c) : i.step .normal r = some (.normal, [r]) := if_neg h

theorem step_backslash_x (i : Side) (h : r = 0x58 ∨ r = 0x78) : i.step .backslash r = some (.hex, []) := by
  rcases h with rfl | rfl <;> rfl

theorem step_backslash (i : Side) (h1 : r ≠ 0x5c) (h2 : ¬ (r = 0x58 ∨ r = 0x78)) :
    i.step .backslash r = some (.normal, [0x5c, r]) := (if_neg h1).trans (if_neg h2)

theorem step_hex_inRange (h : i.inRange r = true) : i.step .hex r = some (.hexNum r, []) := if_pos h

theorem step_hex (h : ¬ i.inRange r = true) : i.step .hex r = some (.normal, [0x5c, 0x78, r]) := if_neg h

theorem step_hexNum_inRange (u : UInt8) (h : i.inRange r = true) :
    i.step (.hexNum u) r = (i.hexBytes u r).map fun bs => (.normal, bs) := if_pos h

theorem step_hexNum (u : UInt8) (h : ¬ i.inRange r = true) :
    i.step (.hexNum u) r = some (.normal, [0x5c, 0x78, u, r]) := if_neg h

/-! What is written behind each branch. -/

theorem out_cons (i : Side) (s : DecodeState) (r : UInt8) (w : Bytes) :
    i.out s (r :: w) = (i.step s r).bind fun p => (i.out p.1 w).map (p.2 ++ ·) := by
  unfold out
  cases hstep : i.step s r with
  | none => rw [run_cons_of_fail hstep]; rfl
  | some p =>
    rw [run_cons_of_step hstep, Option.map_map, Option.bind_some, Option.map_map]
    rfl

/-- A step that writes `o` and goes on in the state `t`. -/
theorem out_of_step {t : DecodeState} {o : Bytes} (h : i.step s r = some (t, o)) (w : Bytes) :
    i.out s (r :: w) = (i.out t w).map (o ++ ·) := by
  rw [out_cons, h, Option.bind_some]

theorem out_of_fail (h : i.step s r = none) (w : Bytes) : i.out s (r :: w) = none := by
  rw [out_cons, h, Option.bind_none]

theorem out_normal_backslash (i : Side) (w : Bytes) :
    i.out .normal (0x5c :: w) = (i.out .backslash w).map ([] ++ ·) := out_of_step i.step_normal_backslash w

theorem out_normal (h : r ≠ 0x5c) : i.out .normal (r :: w) = (i.out .normal w).map ([r] ++ ·) :=
  out_of_step (step_normal i h) w

theorem out_backslash_backslash (i : Side) (w : Bytes) :
    i.out .backslash (0x5c :: w) = (i.out .normal w).map ([0x5c] ++ ·) := out_of_step i.step_backslash_backslash w

theorem out_backslash_x (h : r = 0x58 ∨ r = 0x78) :
    i.out .backslash (r :: w) = (i.out .hex w).map ([] ++ ·) := out_of_step (step_backslash_x i h) w

theorem out_backslash (h1 : r ≠ 0x5c) (h2 : ¬ (r = 0x58 ∨ r = 0x78)) :
    i.out .backslash (r :: w) = (i.out .normal w).map ([0x5c, r] ++ ·) := out_of_step (step_backslash i h1 h2) w

theorem out_hex_inRange (h : i.inRange r = true) :
    i.out .hex (r :: w) = (i.out (.hexNum r) w).map ([] ++ ·) := out_of_step (step_hex_inRange h) w

theorem out_hex (h : ¬ i.inRange r = true) :
    i.out .hex (r :: w) = (i.out .normal w).map ([0x5c, 0x78, r] ++ ·) := out_of_step (step_hex h) w

theorem out_hexNum (u : UInt8) (h : ¬ i.inRange r = true) :
    i.out (.hexNum u) (r :: w) = (i.out .normal w).map ([0x5c, 0x78, u, r] ++ ·) := out_of_step (step_hexNum u h) w

end Side

/-- The bytes that both decoders take for digits and the host alone does. -/
theorem inHexRange_of_firmware : ∀ r, Firmware.inHexRange r = true → inHexRange r = true := by decide +kernel

theorem firmware_inHexRange_of_hexVal : ∀ r, hexVal r ≠ none → Firmware.inHexRange r = true := by decide +kernel

theorem not_isSpace_of_inHexRange : ∀ r, inHexRange r = true → isSpace r = false := by decide +kernel

theorem hexVal_of_isSpace : ∀ r, isSpace r = true → hexVal r = none := by decide +kernel

/-- Two bytes in the ranges of the host are decoded when both are digits. -/
theorem hexBytes_eq {u r : UInt8} (h : inHexRange r = true) :
    hexBytes u r = match hexVal u, hexVal r with
      | some x, some y => some [16 * x + y]
      | _, _ => none := by
  have hr := not_isSpace_of_inHexRange r h
  cases hu : isSpace u with
  | true =>
    rw [hexBytes, fromhex, if_pos hu, fromhex, if_neg (by simp [hr]), hexVal_of_isSpace u hu]
    rfl
  | false =>
    rw [hexBytes, fromhex, if_neg (by simp [hu])]
    cases hexVal u with
    | none => rfl
    | some x => cases hexVal r <;> rfl

theorem hexBytes_eq_none {u r : UInt8} (h : inHexRange r = true) :
    hexBytes u r = none ↔ hexVal u = none ∨ hexVal r = none := by
  rw [hexBytes_eq h]
  cases hexVal u <;> cases hexVal r <;> simp

/-- What is decoded is one byte. -/
theorem Side.hexBytes_eq_some {i : Side} {u r : UInt8} {o : Bytes} (h : i.inRange r = true)
    (ho : i.hexBytes u r = some o) : ∃ b, o = [b] := by
  cases i with
  | host =>
    have ho : WirelessUart.hexBytes u r = some o := ho
    rw [hexBytes_eq h] at ho
    cases hu : hexVal u <;> cases hr : hexVal r <;> simp only [hu, hr, reduceCtorEq, Option.some.injEq] at ho
    exact ⟨_, ho.symm⟩
  | firmware =>
    obtain ⟨b, -, rfl⟩ := Option.map_eq_some_iff.1 ho
    exact ⟨b, rfl⟩

theorem Side.out_hexNum_inRange {i : Side} {u r : UInt8} (h : i.inRange r = true) (w : Bytes) :
    i.out (.hexNum u) (r :: w) = none ∨
      ∃ b, i.out (.hexNum u) (r :: w) = (i.out .normal w).map ([b] ++ ·) := by
  have hstep := step_hexNum_inRange u h
  cases hbytes : i.hexBytes u r with
  | none =>
    left
    rw [hbytes] at hstep
    exact out_of_fail hstep w
  | some o =>
    obtain ⟨b, rfl⟩ := Side.hexBytes_eq_some h hbytes
    right
    rw [hbytes] at hstep
    exact ⟨b, out_of_step hstep w⟩

/-- What the two loop bodies do with one byte: the same, except for the bytes that the host alone takes for a first
digit, or the host raises. -/
theorem decodeStep_cases (s : DecodeState) (r : UInt8) :
    decodeStep s r = Firmware.decodeStep s r ∨
      (s = .hex ∧ inHexRange r = true ∧ ¬ Firmware.inHexRange r = true) ∨ decodeStep s r = none := by
  cases s with
  | normal => exact .inl rfl
  | backslash => exact .inl rfl
  | hex =>
    by_cases hf : Firmware.inHexRange r = true
    · left
      exact (if_pos (inHexRange_of_firmware r hf)).trans (if_pos hf).symm
    · by_cases hh : inHexRange r = true
      · exact .inr (.inl ⟨rfl, hh, hf⟩)
      · exact .inl ((if_neg hh).trans (if_neg hf).symm)
  | hexNum u =>
    by_cases hh : inHexRange r = true
    · by_cases hnone : hexVal u = none ∨ hexVal r = none
      · right; right
        refine (if_pos hh).trans ?_
        rw [(hexBytes_eq_none hh).2 hnone]
        rfl
      · left
        rw [not_or] at hnone
        refine ((if_pos hh).trans ?_).trans (if_pos (firmware_inHexRange_of_hexVal r hnone.2)).symm
        obtain ⟨x, hx⟩ := Option.ne_none_iff_exists'.1 hnone.1
        obtain ⟨y, hy⟩ := Option.ne_none_iff_exists'.1 hnone.2
        rw [hexBytes_eq hh, Firmware.hexBytes, Firmware.sscanfHex, hx, hy]
        rfl
    · have hf := mt (inHexRange_of_firmware r) hh
      exact .inl ((if_neg hh).trans (if_neg hf).symm)

end WirelessUart
