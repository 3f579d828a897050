import WirelessUart.Packet

/-!
# The packet generator

The class `Packet` of the packet generator tool: a third copy that folds the checksum in place and writes no end
symbol.  What it writes is the core of the host's packet (`getBytes_init`).
-/

namespace WirelessUart.Generator

open ByteLib

structure Packet where
  keyStr : String
  valBytes : Bytes
  dataBytes : Bytes
  dataSize : Nat
  checksum : UInt8
deriving DecidableEq

namespace Packet

/-- `Packet(key_str, val_bytes)`, that is `set_key_value` -/
def init (keyStr : String) (valBytes : Bytes := []) : Packet :=
  let dataBytes := if valBytes.length > 0 then encode keyStr ++ [0x3d] ++ valBytes else encode keyStr
  { keyStr := keyStr
    valBytes := valBytes
    dataBytes := dataBytes
    dataSize := dataBytes.length
    checksum := dataBytes.foldl (fun checksum b => checksum ^^^ (b &&& 0xFF)) 0 }

/-- `Packet.get_bytes`; `none` when `struct.pack` raises. -/
def getBytes (self : Packet) : Option Bytes :=
  if self.dataSize < 2 ^ 32 then
    some (leBytes 2 symbolStart ++ leBytes 4 self.dataSize ++ self.dataBytes ++ [self.checksum])
  else none

theorem getBytes_init {k : String} {v raw : Bytes} :
    (init k v).getBytes = some raw ↔ (WirelessUart.Packet.init k v).getBytes = some (raw ++ symbolEndBytes) := by
  rw [Packet.getBytes_eq_some, List.append_cancel_right_eq, getBytes]
  split
  · rename_i h
    rw [Option.some.injEq, eq_comm]
    exact (and_iff_right h).symm
  · rename_i h
    exact iff_of_false (by simp) fun h' => h h'.1

end Packet

end WirelessUart.Generator
