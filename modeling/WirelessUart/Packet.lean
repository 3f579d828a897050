import WirelessUart.ByteLib.Numbers
import WirelessUart.Codec

/-!
# Packets and their frames

The class `Packet` of the server and of the client, whose texts are the same up to the receiving side.  A packet is a
key, a value and what `set_key_value` computes from them, so a `Packet` carries the equations that tie its fields
together: two packets with the same key and the same value are equal (`Packet.ext_key_val`).

`core` is the frame of a packet without the end symbol; `getBytes` writes it followed by the end symbol, and fails
when the data do not fit the length field (`getBytes_eq_some`).
-/

namespace WirelessUart

open ByteLib

/-! ### Text -/

/-- `str.encode()` -/
def encode (s : String) : Bytes := s.toByteArray.data.toList

/-- `bytes.decode()`; `none` is the `UnicodeDecodeError`. -/
def decode (b : Bytes) : Option String := String.fromUTF8? ⟨b.toArray⟩

theorem decode_encode (s : String) : decode (encode s) = some s := by
  have h : (⟨(encode s).toArray⟩ : ByteArray) = s.toByteArray := by simp [encode]
  rw [decode, h, String.fromUTF8?, dif_pos s.isValidUTF8]
  rfl

theorem encode_of_decode {b : Bytes} {s : String} (h : decode b = some s) : encode s = b := by
  unfold decode String.fromUTF8? at h
  split at h
  · cases h; simp [encode, String.fromUTF8]
  · cases h

theorem encode_eq_flatMap (s : String) : encode s = s.toList.flatMap String.utf8EncodeChar := by
  rw [encode, ← String.utf8Encode_toList, List.utf8Encode]
  simp

theorem encode_eq_nil {s : String} : encode s = [] ↔ s = "" := by
  rw [encode_eq_flatMap, ← String.toList_eq_nil_iff, List.flatMap_eq_nil_iff, List.eq_nil_iff_forall_not_mem]
  simp [String.utf8EncodeChar_ne_nil]

private theorem eq_of_mem_utf8EncodeChar {c : Char} (h : (0x3d : UInt8) ∈ String.utf8EncodeChar c) : c = '=' := by
  have hbyte (k : Nat) : (0x3d : UInt8) = UInt8.ofNat k ↔ k % 256 = 61 := by
    rw [← UInt8.toNat_inj, UInt8.toNat_ofNat']
    exact eq_comm
  unfold String.utf8EncodeChar at h
  dsimp only at h
  -- the bytes of a character of two or more bytes are at least 0x80
  split at h
  · rw [List.mem_singleton, hbyte] at h
    have hc : c.val.toNat = 61 := by omega
    exact Char.ext (UInt32.toNat_inj.1 hc)
  · exfalso
    split at h
    · simp only [List.mem_cons, hbyte, List.not_mem_nil, or_false] at h; omega
    · split at h <;> · simp only [List.mem_cons, hbyte, List.not_mem_nil, or_false] at h; omega

/-- The byte `=` occurs in an encoded text only where the text has the character. -/
theorem equals_not_mem_encode {s : String} (h : '=' ∉ s.toList) : 0x3d ∉ encode s := by
  rw [encode_eq_flatMap, List.mem_flatMap]
  rintro ⟨c, hc, hb⟩
  rw [eq_of_mem_utf8EncodeChar hb] at hc
  exact h hc

/-! ### Packets -/

def symbolStart : Nat := 0x2423

def symbolStartBytes : Bytes := [0x23, 0x24]

def symbolEndBytes : Bytes := [0x24, 0x23]

/-- start + length + min data + checksum -/
def packetMin : Nat := 2 + 4 + 1 + 1

/-- `Packet.calc_checksum` -/
def calcChecksum (raw : Bytes) : UInt8 := raw.foldl (fun checksum b => checksum ^^^ (b &&& 0xFF)) 0

/-- The mask keeps a byte as it is. -/
theorem calcChecksum_eq (raw : Bytes) : calcChecksum raw = raw.foldl (· ^^^ ·) 0 := by
  have hbyte : ∀ b : UInt8, b &&& 0xFF = b := by decide +kernel
  unfold calcChecksum
  simp only [hbyte]

/-- A frame without the end symbol: start symbol, length, data and checksum. -/
def frameBytes (dataBytes : Bytes) (checksum : UInt8) : Bytes :=
  symbolStartBytes ++ leBytes 4 dataBytes.length ++ dataBytes ++ [checksum]

/-- The data bytes that `set_key_value` builds. -/
def dataOf (keyStr : String) (valBytes : Bytes) : Bytes :=
  if valBytes.length > 0 then encode keyStr ++ [0x3d] ++ valBytes else encode keyStr

theorem length_frameBytes (d : Bytes) (c : UInt8) : (frameBytes d c).length = 7 + d.length := by
  simp [frameBytes, symbolStartBytes]
  omega

/-- A packet; the equations hold since every packet is built by `set_key_value`. -/
structure Packet where
  keyStr : String
  valBytes : Bytes
  dataBytes : Bytes
  dataSize : Nat
  checksum : UInt8
  dataBytes_eq : dataBytes = dataOf keyStr valBytes
  dataSize_eq : dataSize = dataBytes.length
  checksum_eq : checksum = calcChecksum dataBytes
deriving DecidableEq

namespace Packet

/-- `Packet(key_str, val_bytes)` -/
def init (keyStr : String) (valBytes : Bytes := []) : Packet where
  keyStr := keyStr
  valBytes := valBytes
  dataBytes := dataOf keyStr valBytes
  dataSize := (dataOf keyStr valBytes).length
  checksum := calcChecksum (dataOf keyStr valBytes)
  dataBytes_eq := rfl
  dataSize_eq := rfl
  checksum_eq := rfl

/-- `Packet.set_key_value`: every field is computed anew. -/
def setKeyValue (_self : Packet) (keyStr : String) (valBytes : Bytes) : Packet := init keyStr valBytes

/-- `Packet.do_encode` -/
def doEncode (self : Packet) : Packet :=
  if self.valBytes.length = 0 then self else self.setKeyValue self.keyStr (bytesEncode self.valBytes)

/-- `Packet.do_decode`; `none` when the decoder raises. -/
def doDecode (self : Packet) : Option Packet :=
  if self.valBytes.length = 0 then some self
  else (bytesDecode self.valBytes).map fun val => self.setKeyValue self.keyStr val

/-- `Packet.get_bytes`; `none` when `struct.pack` raises, since the length does not fit in 32 bits. -/
def getBytes (self : Packet) : Option Bytes :=
  if self.dataSize < 2 ^ 32 then
    some (leBytes 2 symbolStart ++ leBytes 4 self.dataSize ++ self.dataBytes ++ [self.checksum] ++ symbolEndBytes)
  else none

/-- The frame of a packet without the end symbol. -/
def core (self : Packet) : Bytes := frameBytes self.dataBytes self.checksum

@[simp] theorem keyStr_init (k : String) (v : Bytes) : (init k v).keyStr = k := rfl
@[simp] theorem valBytes_init (k : String) (v : Bytes) : (init k v).valBytes = v := rfl
@[simp] theorem dataBytes_init (k : String) (v : Bytes) : (init k v).dataBytes = dataOf k v := rfl

theorem ext_key_val {p q : Packet} (hk : p.keyStr = q.keyStr) (hv : p.valBytes = q.valBytes) : p = q := by
  obtain ⟨k, v, d, n, c, rfl, rfl, rfl⟩ := p
  obtain ⟨k', v', d', n', c', rfl, rfl, rfl⟩ := q
  cases hk
  cases hv
  rfl

/-- A packet is built by the constructor from its key and its value. -/
theorem eq_init (p : Packet) : p = init p.keyStr p.valBytes := ext_key_val rfl rfl

/-- `getBytes` writes the core and the end symbol. -/
theorem getBytes_eq_some {p : Packet} {raw : Bytes} :
    p.getBytes = some raw ↔ p.dataSize < 2 ^ 32 ∧ raw = p.core ++ symbolEndBytes := by
  unfold getBytes core frameBytes
  rw [← p.dataSize_eq]
  split
  · rename_i h
    simp only [Option.some.injEq, h, true_and]
    exact eq_comm
  · rename_i h
    simp only [h, reduceCtorEq, false_and]

theorem length_core (p : Packet) : p.core.length = 7 + p.dataSize := by
  rw [core, length_frameBytes, p.dataSize_eq]

theorem doDecode_doEncode (p : Packet) : p.doEncode.doDecode = some p := by
  unfold doEncode
  split
  · rename_i h
    rw [doDecode, if_pos h]
  · rename_i h
    have hne : ¬ (bytesEncode p.valBytes).length = 0 := by
      rwa [List.length_eq_zero_iff, bytesEncode_eq_nil, ← List.length_eq_zero_iff]
    rw [setKeyValue, doDecode, valBytes_init, if_neg hne, bytesDecode_bytesEncode]
    exact congrArg some p.eq_init.symm

/-- A packet with a key is not empty. -/
theorem dataSize_pos_of_key (p : Packet) (h : p.keyStr ≠ "") : 0 < p.dataSize := by
  rw [p.dataSize_eq, p.dataBytes_eq, List.length_pos_iff, dataOf]
  have := mt encode_eq_nil.1 h
  split <;> simp [this]

@[simp] theorem keyStr_doEncode (p : Packet) : p.doEncode.keyStr = p.keyStr := by
  unfold doEncode
  split <;> rfl

end Packet

/-! ### Packets that can be framed -/

/-- A packet the host can send and a receiver can split again: its key is not empty and has no `=`, and its data
fit the length field. -/
structure Packet.Sendable (p : Packet) : Prop where
  key_ne : p.keyStr ≠ ""
  key_equals : '=' ∉ p.keyStr.toList
  size_lt : p.dataSize < 2 ^ 32

instance : DecidablePred Packet.Sendable := fun p =>
  decidable_of_iff (p.keyStr ≠ "" ∧ '=' ∉ p.keyStr.toList ∧ p.dataSize < 2 ^ 32)
    ⟨fun ⟨hn, he, hs⟩ => ⟨hn, he, hs⟩, fun ⟨hn, he, hs⟩ => ⟨hn, he, hs⟩⟩

namespace Packet.Sendable

variable {p : Packet}

theorem dataSize_pos (h : p.Sendable) : 0 < p.dataSize := p.dataSize_pos_of_key h.key_ne

end Packet.Sendable

/-! ### Sending -/

/-- The values that `send_packet` tells apart. -/
inductive SendValue
  | none
  | int (n : Int)
  | str (s : String)
  | bytes (b : Bytes)

/-- `send_packet`: the bytes given to `sendall`; `none` when an exception is logged instead. `str` raises for an
`int` of more than 4300 digits, which the branch `.int` leaves out: the only `int` sent is the baud rate, which
`int` of the command line reads from 4300 digits at most. -/
def sendPacket (dataEncode : Bool) (keyStr : String) (val : SendValue := .bytes []) : Option Bytes :=
  let send (valBytes : Bytes) : Option Bytes :=
    let pack := Packet.init keyStr valBytes
    (if dataEncode then pack.doEncode else pack).getBytes
  match val with
  | .none => send []
  | .int n => send (encode (toString n))
  | .str s => send (encode s)
  | .bytes b => send b

end WirelessUart
