import WirelessUart.Receive

/-!
# A server session

The state of a `WirelessUartClientHandler` and what its `handle_packet` does with it.  The serial device is outside:
an `Env` says for one packet which of its methods raise.  `events` records what the session sends and what it does
with devices, in order.

`run` handles packets one after the other, each with its own `Env`.
-/

namespace WirelessUart

open ByteLib

/-! ### Numbers -/

/-- The zeros of the decimal digits; the other nine digits follow each of them. -/
def decimalZeros : List Nat :=
  [0x30, 0x660, 0x6f0, 0x7c0, 0x966, 0x9e6, 0xa66, 0xae6, 0xb66, 0xbe6, 0xc66, 0xce6, 0xd66, 0xde6, 0xe50, 0xed0,
    0xf20, 0x1040, 0x1090, 0x17e0, 0x1810, 0x1946, 0x19d0, 0x1a80, 0x1a90, 0x1b50, 0x1bb0, 0x1c40, 0x1c50, 0xa620,
    0xa8d0, 0xa900, 0xa9d0, 0xa9f0, 0xaa50, 0xabf0, 0xff10, 0x104a0, 0x10d30, 0x11066, 0x110f0, 0x11136, 0x111d0,
    0x112f0, 0x11450, 0x114d0, 0x11650, 0x116c0, 0x11730, 0x118e0, 0x11950, 0x11c50, 0x11d50, 0x11da0, 0x16a60,
    0x16ac0, 0x16b50, 0x1d7ce, 0x1d7d8, 0x1d7e2, 0x1d7ec, 0x1d7f6, 0x1e140, 0x1e2f0, 0x1e950, 0x1fbf0]

/-- The value of a decimal digit. -/
def decimal (c : Char) : Option Nat :=
  (decimalZeros.find? fun z => z ≤ c.toNat && c.toNat ≤ z + 9).map fun z => c.toNat - z

/-- The white space that `int` allows around a number; below 0x7f it is that of C. -/
def isNumberSpace (c : Char) : Bool :=
  (9 ≤ c.toNat && c.toNat ≤ 13) ||
    [0x20, 0x85, 0xa0, 0x1680, 0x2028, 0x2029, 0x202f, 0x205f, 0x3000].contains c.toNat ||
    (0x2000 ≤ c.toNat && c.toNat ≤ 0x200a)

/-- Digits in groups that single underscores separate, at most 4300 of them. -/
def digitsValue (cs : List Char) : Option Int :=
  let groups := cs.splitOn '_'
  if groups.any List.isEmpty || groups.flatten.length > 4300 then none
  else (groups.flatten.mapM decimal).map fun ds => Int.ofNat (ds.foldl (fun n d => 10 * n + d) 0)

/-- `int(s)`; `none` is the `ValueError`. -/
def pyInt (s : String) : Option Int :=
  match trim isNumberSpace s.toList with
  | '-' :: cs => (digitsValue cs).map (- ·)
  | '+' :: cs => digitsValue cs
  | cs => digitsValue cs

/-! ### State -/

/-- A `serial.Serial`; `number` tells the devices of a session apart. -/
structure Serial where
  number : Nat
  portstr : String
  baudrate : Int
  isOpen : Bool
deriving DecidableEq, Repr

/-- What a session does to the outside. -/
inductive Event
  | sent (raw : Option Bytes)
  | opened (dev : Serial)
  | openFailed (port : String) (baud : Int)
  | closed (dev : Serial)
  | closeFailed (dev : Serial)
  | wrote (dev : Option Serial) (val : Bytes)
deriving DecidableEq

/-- The fields that `handle_packet` uses, with the events so far. -/
structure Session where
  uartPath : String := ""
  uartBaud : Int := 0
  uartDev : Option Serial := none
  isRunning : Bool := false
  dataEncode : Bool
  opens : Nat := 0
  events : List Event := []
deriving DecidableEq

/-- Which methods of the serial device raise while a packet is handled: the constructor (with the text of its
exception), `close`, and `write` or `flush`. -/
structure Env where
  openError : Option String
  closeRaises : Bool
  writeRaises : Bool

/-- The state that a call leaves, also when it raises. -/
def Outcome.state {σ : Type*} : Outcome σ → σ
  | .ok s => s
  | .raised s => s

/-- The call returns. -/
def Outcome.isOk {σ : Type*} : Outcome σ → Bool
  | .ok _ => true
  | .raised _ => false

namespace Session

/-! ### The methods -/

def emit (self : Session) (e : Event) : Session := { self with events := self.events ++ [e] }

/-- `error` -/
def error (self : Session) (msg : String) : Session :=
  self.emit (.sent (sendPacket self.dataEncode "error" (.str msg)))

/-- `serial.Serial(self.uart_path, self.uart_baud)`, and the test of the new device. -/
def construct (env : Env) (self : Session) : Session × Bool :=
  match env.openError with
  | some text =>
    ((self.emit (.openFailed self.uartPath self.uartBaud)).error ("uart open fail: " ++ text), false)
  | none =>
    let dev : Serial := ⟨self.opens, self.uartPath, self.uartBaud, true⟩
    ({ self with uartDev := some dev, opens := self.opens + 1 }.emit (.opened dev), dev.isOpen)

/-- `uart_close` -/
def uartClose (env : Env) (self : Session) : Session × Bool :=
  match self.uartDev with
  | some dev =>
    if env.closeRaises then (self.emit (.closeFailed dev), false)
    else ({ self with uartDev := none }.emit (.closed dev), true)
  | none => (self, false)

/-- `uart_open` -/
def uartOpen (env : Env) (self : Session) : Session × Bool :=
  if self.uartBaud > 0 ∧ self.uartPath.length > 0 then
    match self.uartDev with
    | some dev =>
      if dev.portstr = self.uartPath ∧ dev.baudrate = self.uartBaud then (self, true)
      else (self.uartClose env).1.construct env
    | none => self.construct env
  else (self.error "uart setup not ready.", false)

/-- `handle_packet(Packet('start'))` -/
def handleStart (env : Env) (self : Session) : Session :=
  let (s, opened) := self.uartOpen env
  if opened then { s with isRunning := true } else s

/-- The end of the branches of `path` and `baud`. -/
def restart (env : Env) (self : Session) : Session :=
  if self.uartPath.length > 0 ∧ self.uartBaud > 0 then self.handleStart env else self

/-- `handle_packet` -/
def handlePacket (env : Env) (self : Session) (newPacket : Packet) : Outcome Session :=
  if newPacket.keyStr = "path" then
    match decode newPacket.valBytes with
    | some path => .ok ({ self with uartPath := path }.restart env)
    | none => .raised self
  else if newPacket.keyStr = "baud" then
    match (decode newPacket.valBytes).bind pyInt with
    | some baud => .ok ({ self with uartBaud := baud }.restart env)
    | none => .ok ((self.error "baudrate invalid.").restart env)
  else if newPacket.keyStr = "start" then .ok (self.handleStart env)
  else if newPacket.keyStr = "stop" then .ok { (self.uartClose env).1 with isRunning := false }
  else if newPacket.keyStr = "data" then
    if ¬ self.isRunning then .ok (self.error "service is not running.")
    else if newPacket.dataSize ≤ 0 then .ok (self.error "recv empty data.")
    else
      let s := self.emit (.wrote self.uartDev newPacket.valBytes)
      if self.uartDev = none ∨ env.writeRaises then .raised s else .ok s
  else if newPacket.keyStr = "error" then
    match decode newPacket.valBytes with
    | some _ => .ok self
    | none => .raised self
  else .ok (self.error ("unknown keyword: " ++ newPacket.keyStr))

/-- The packets of a session, one after the other, also after one that raised. -/
def run (self : Session) (steps : List (Env × Packet)) : Session :=
  steps.foldl (fun s step => (s.handlePacket step.1 step.2).state) self

end Session

end WirelessUart
