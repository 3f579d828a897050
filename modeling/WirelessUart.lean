import WirelessUart.ByteLib.Search
import WirelessUart.ByteLib.Numbers
import WirelessUart.ByteLib.Transducer
import WirelessUart.ByteLib.Buffer
import WirelessUart.ByteLib.Run
import WirelessUart.Codec
import WirelessUart.Packet
import WirelessUart.Parse
import WirelessUart.Receive
import WirelessUart.Generator
import WirelessUart.RoundTrip
import WirelessUart.ParseSpec
import WirelessUart.Reassembly
import WirelessUart.Cut
import WirelessUart.Batch
import WirelessUart.Encoded
import WirelessUart.Blocking
import WirelessUart.Session
import WirelessUart.Command
import WirelessUart.Client
import WirelessUart.OpenDevice
import WirelessUart.Exceptions
import WirelessUart.ConfiguredPort
import WirelessUart.History
import WirelessUart.Firmware.Codec
import WirelessUart.CodecAgreement
import WirelessUart.DecoderDrift
import WirelessUart.Handshake
import WirelessUart.Network
import WirelessUart.Release
import WirelessUart.Handle
import WirelessUart.ByteLib.Heap
import WirelessUart.Firmware.Packet
import WirelessUart.PacketAgreement
import WirelessUart.ByteLib.Fold
import WirelessUart.Corruption
import WirelessUart.Firmware.Capacity
import WirelessUart.Escapes
import WirelessUart.Firmware.Update
import WirelessUart.Firmware.InPlace
import WirelessUart.GeneratorParser
import WirelessUart.Termination
import WirelessUart.ByteLib.CString
import WirelessUart.Firmware.HexDump
import WirelessUart.Firmware.Preallocated
import WirelessUart.ByteLib.Duplex
import WirelessUart.ByteLib.Fifo
import WirelessUart.Peer
import WirelessUart.ConnectHelper
import WirelessUart.Relay
import WirelessUart.Link
import WirelessUart.Bridge
import WirelessUart.Greeting
import WirelessUart.Repeats
import WirelessUart.Origin
import WirelessUart.ByteLib.Ownership
import WirelessUart.Firmware.Lifetime
import WirelessUart.CommandLine
import WirelessUart.Reconnect
import WirelessUart.Firmware.Text
import WirelessUart.Modes
import WirelessUart.Firmware.Main
