import WirelessUart.ByteLib.Transducer
import Mathlib.Data.FinEnum
import Mathlib.Data.Fintype.Basic

/-!
# The escape codec of the host programs

`Packet.bytes_encode` and `Packet.bytes_decode` of the server and of the client (the two texts are the same).
Printable bytes stand for themselves, a backslash is doubled, and every other byte becomes `\xhh`.  The decoder is a
machine with four states that reads one byte at a time; its run is a run of the transducer `decodeStep`.
-/

namespace WirelessUart

open ByteLib

abbrev Bytes := List UInt8

/-! ### Hexadecimal digits -/

/-- The lower-case hexadecimal digit of `n < 16`. -/
def hexDigit (n : UInt8) : UInt8 := if n < 10 then 0x30 + n else 0x61 + (n - 10)

/-- The value of a hexadecimal digit of either case. -/
def hexVal (c : UInt8) : Option UInt8 :=
  if 0x30 ≤ c ∧ c ≤ 0x39 then some (c - 0x30)
  else if 0x61 ≤ c ∧ c ≤ 0x66 then some (c - 0x61 + 10)
  else if 0x41 ≤ c ∧ c ≤ 0x46 then some (c - 0x41 + 10)
  else none

/-- The format `%02x`. -/
def hex02 (r : UInt8) : Bytes := [hexDigit (r / 16), hexDigit (r % 16)]

/-- The ASCII white space of Python's `bytes` methods. -/
def isSpace (c : UInt8) : Bool := c == 0x20 || (0x09 ≤ c && c ≤ 0x0d)

/-- `bytes.fromhex`: pairs of hexadecimal digits, white space allowed between them; `none` is the `ValueError`. -/
def fromhex : Bytes → Option Bytes
  | [] => some []
  | [c] => if isSpace c then some [] else none
  | c :: d :: rest =>
    if isSpace c then fromhex (d :: rest)
    else
      match hexVal c, hexVal d with
      | some x, some y => (fromhex rest).map ((16 * x + y) :: ·)
      | _, _ => none

/-! ### Encoder and decoder -/

/-- `Packet.is_word`: from the space up to `~`. -/
def isWord (char : UInt8) : Bool := 0x20 ≤ char && char < 0x7F

/-- What `Packet.bytes_encode` appends for one byte. -/
def encodeByte (r : UInt8) : Bytes :=
  if ¬ isWord r then [0x5c, 0x78] ++ hex02 r
  else if r = 0x5c then [0x5c, 0x5c]
  else [r]

/-- `Packet.bytes_encode` -/
def bytesEncode (rawBytes : Bytes) : Bytes := rawBytes.flatMap encodeByte

/-- The states 0 to 3 of the decoders; state 3 holds the first digit, the variable `hex_1`. -/
inductive DecodeState
  | normal
  | backslash
  | hex
  | hexNum (hex1 : UInt8)
deriving DecidableEq, Repr

/-- The ranges that `Packet.bytes_decode` tests in the states 2 and 3. -/
def inHexRange (r : UInt8) : Bool :=
  (0x30 ≤ r && r < 0x40) || (0x61 ≤ r && r < 0x69) || (0x41 ≤ r && r < 0x49)

/-- One turn of the loop of a `bytes_decode`: the next state and what is appended.  `inRange` is the test made in the
states 2 and 3, and `hexBytes` is what is appended for two digits; `none` when it is undefined. -/
def decodeStepWith (inRange : UInt8 → Bool) (hexBytes : UInt8 → UInt8 → Option Bytes) :
    DecodeState → UInt8 → Option (DecodeState × Bytes)
  | .backslash, r =>
    if r = 0x5c then some (.normal, [r])
    else if r = 0x58 ∨ r = 0x78 then some (.hex, [])
    else some (.normal, [0x5c, r])
  | .hex, r =>
    if inRange r then some (.hexNum r, [])
    else some (.normal, [0x5c, 0x78, r])
  | .hexNum hex1, r =>
    if inRange r then (hexBytes hex1 r).map fun bs => (.normal, bs)
    else some (.normal, [0x5c, 0x78, hex1, r])
  | .normal, r =>
    if r = 0x5c then some (.backslash, [])
    else some (.normal, [r])

/-- `bytes.fromhex("%c%c" % (hex_1, r))[:1]` -/
def hexBytes (hex1 r : UInt8) : Option Bytes := (fromhex [hex1, r]).map (·.take 1)

/-- The loop body of `Packet.bytes_decode`; `none` when `fromhex` raises. -/
def decodeStep : DecodeState → UInt8 → Option (DecodeState × Bytes) := decodeStepWith inHexRange hexBytes

/-- `Packet.bytes_decode`; what is held back when the input ends is dropped. -/
def bytesDecode (rawBytes : Bytes) : Option Bytes := (run decodeStep .normal rawBytes).map Prod.snd

/-! ### Round trip -/

/-- An encoded byte brings the decoder back to state 0, with the byte written. -/
theorem run_decodeStep_encodeByte : ∀ r, run decodeStep .normal (encodeByte r) = some (.normal, [r]) := by
  decide +kernel

theorem run_decodeStep_bytesEncode (a : Bytes) : run decodeStep .normal (bytesEncode a) = some (.normal, a) := by
  have h := run_flatMap (g := id) run_decodeStep_encodeByte a
  rwa [List.map_id] at h

theorem bytesDecode_bytesEncode_append (a w : Bytes) :
    bytesDecode (bytesEncode a ++ w) = (bytesDecode w).map (a ++ ·) := by
  rw [bytesDecode, run_append_of_run (run_decodeStep_bytesEncode a), bytesDecode, Option.map_map, Option.map_map]
  rfl

theorem bytesDecode_bytesEncode (a : Bytes) : bytesDecode (bytesEncode a) = some a := by
  rw [bytesDecode, run_decodeStep_bytesEncode]; rfl

theorem encodeByte_ne_nil (r : UInt8) : encodeByte r ≠ [] := by
  unfold encodeByte
  split
  · simp
  · split <;> simp

/-- Encoding does not shorten. -/
theorem length_le_length_bytesEncode (a : Bytes) : a.length ≤ (bytesEncode a).length := by
  induction a with
  | nil => exact Nat.le_refl _
  | cons r a ih =>
    have := List.length_pos_iff.2 (encodeByte_ne_nil r)
    rw [bytesEncode, List.flatMap_cons, List.length_append, List.length_cons]
    unfold bytesEncode at ih
    omega

theorem bytesEncode_eq_nil {a : Bytes} : bytesEncode a = [] ↔ a = [] := by
  rw [← List.length_eq_zero_iff, ← List.length_eq_zero_iff]
  constructor
  · have := length_le_length_bytesEncode a
    omega
  · intro h
    rw [List.length_eq_zero_iff.1 h]; rfl

end WirelessUart
