import WirelessUart.ByteLib.Duplex
import WirelessUart.ByteLib.Fifo
import WirelessUart.Network
import WirelessUart.Peer

/-!
# The bridge, packet by packet

Two ends with the packets in flight to each of them.  An end handles the first packet in flight to it, reads from its
own device and sends what it has read, or fails; what it sends is in flight to the other end.

What the bridge is for is a pair of channels: the bytes read from the device of one end are written to the device of
the other.  Whatever the devices do, each direction is a lossy channel (`Station.Orderly`): values may be refused or
dropped, and are otherwise written once and in order.  When both ends are up with open devices that work, it is an
exact one (`Station.Sound`), also while the handshake is still in flight.
-/

namespace WirelessUart

open ByteLib Relation

/-! ### Messages -/

/-- What the other end passes on when it receives the frame as a whole. -/
def readWhole (dataEncode : Bool) (raw : Bytes) : Option Packet := (parse raw).bind (received dataEncode)

/-- The packet that an event sends. -/
def Event.message (dataEncode : Bool) : Event → Option Packet
  | .sent (some raw) => readWhole dataEncode raw
  | _ => none

def messages (dataEncode : Bool) (es : List Event) : List Packet := es.filterMap (Event.message dataEncode)

/-- The value that an event writes to a device. -/
def Event.value : Event → Option Bytes
  | .wrote (some _) v => some v
  | _ => none

def written (es : List Event) : List Bytes := es.filterMap Event.value

/-- The values of data packets. -/
def values (ps : List Packet) : List Bytes :=
  ps.filterMap fun p => if p.keyStr = "data" then some p.valBytes else none

section Messages

variable {dataEncode : Bool} {n : Nat} {es : List Event} {p : Packet} {raw : Bytes}

theorem messages_append (dataEncode : Bool) (es fs : List Event) :
    messages dataEncode (es ++ fs) = messages dataEncode es ++ messages dataEncode fs := List.filterMap_append

theorem written_append (es fs : List Event) : written (es ++ fs) = written es ++ written fs := List.filterMap_append

theorem values_append (ps qs : List Packet) : values (ps ++ qs) = values ps ++ values qs := List.filterMap_append

/-- The packet as it goes over the wire. -/
def framed (dataEncode : Bool) (p : Packet) : Packet := if dataEncode then p.doEncode else p

theorem received_framed (dataEncode : Bool) (p : Packet) : received dataEncode (framed dataEncode p) = some p := by
  cases dataEncode with
  | false => rfl
  | true => exact Packet.doDecode_doEncode p

@[simp] theorem keyStr_framed (dataEncode : Bool) (p : Packet) : (framed dataEncode p).keyStr = p.keyStr := by
  cases dataEncode with
  | false => rfl
  | true => exact Packet.keyStr_doEncode p

/-- A packet with a usable key can be sent when it has been framed. -/
theorem sendable_framed (hkey : p.keyStr ≠ "" ∧ '=' ∉ p.keyStr.toList)
    (h : (framed dataEncode p).getBytes = some raw) : (framed dataEncode p).Sendable := by
  refine ⟨?_, ?_, (Packet.getBytes_eq_some.1 h).1⟩
  · rw [keyStr_framed]
    exact hkey.1
  · rw [keyStr_framed]
    exact hkey.2

/-- A frame of a packet with a usable key is read as this packet. -/
theorem readWhole_of_getBytes (hne : p.keyStr ≠ "") (heq : '=' ∉ p.keyStr.toList)
    (h : (framed dataEncode p).getBytes = some raw) : readWhole dataEncode raw = some p := by
  have hs := sendable_framed ⟨hne, heq⟩ h
  obtain ⟨-, rfl⟩ := Packet.getBytes_eq_some.1 h
  rw [readWhole, hs.parse_core, Option.bind_some, received_framed]

theorem sendPacket_bytes (dataEncode : Bool) (keyStr : String) (v : Bytes) :
    sendPacket dataEncode keyStr (.bytes v) = (framed dataEncode (Packet.init keyStr v)).getBytes := rfl

/-- What is sent as data is read as data. -/
theorem message_data {v : Bytes} (h : sendPacket dataEncode "data" (.bytes v) = some raw) :
    Event.message dataEncode (.sent (some raw)) = some (Packet.init "data" v) :=
  readWhole_of_getBytes (by rw [Packet.keyStr_init]; decide) (by rw [Packet.keyStr_init]; decide) h

/-- Quiet events write no value, and send no data. -/
theorem Quiet.written_eq (h : Quiet dataEncode n es) : written es = [] := by
  refine List.filterMap_eq_nil_iff.2 fun e he => ?_
  cases e with
  | wrote dev v => exact absurd he (h.not_wrote dev v)
  | _ => rfl

theorem Quiet.values_eq (h : Quiet dataEncode n es) : values (messages dataEncode es) = [] := by
  refine List.filterMap_eq_nil_iff.2 fun p hp => ?_
  obtain ⟨e, he, hmsg⟩ := List.mem_filterMap.1 hp
  have hkey : p.keyStr = "error" := by
    cases e with
    | sent raw =>
      cases raw with
      | none => cases hmsg
      | some raw =>
        obtain ⟨msg, hraw⟩ := h.errors _ he
        obtain ⟨q, hq, hkey⟩ := parse_sendPacket_error hraw.symm
        rw [Event.message, readWhole, hq] at hmsg
        rw [Network.keyStr_received hmsg, hkey]
    | _ => cases hmsg
  rw [hkey]
  rfl

end Messages

/-! ### An end with what is in flight to it -/

/-- An end, whether its loop goes on, the packets in flight to it, and what it has read from its device and written to
it. -/
structure Station (σ : Type*) where
  state : σ
  up : Bool := true
  inbox : List Packet := []
  read : List Bytes := []
  wrote : List Bytes := []

/-- What reading from the device adds to the events. -/
def Peer.readEvents {σ : Type*} (E : Peer σ) (s : σ) (rxBytes : Bytes) : List Event :=
  (E.events (E.forward s rxBytes)).drop (E.events s).length

namespace Station

variable {σ τ : Type*}

/-- What an end does.  `allowed` restricts what comes from outside: `none` is a failure, and `some rxBytes` are bytes
that the device has read. -/
inductive Act (E : Peer σ) (allowed : Option Bytes → Prop) : Station σ → Station σ → List Event → Prop
  | dispatch (x : Station σ) (p : Packet) (rest : List Packet) : x.up = true → x.inbox = p :: rest →
      Act E allowed x
        ⟨(E.handlePacket x.state p).state, (E.handlePacket x.state p).isOk, rest, x.read,
          x.wrote ++ written (E.newEvents x.state p)⟩
        (E.newEvents x.state p)
  | read (x : Station σ) (rxBytes : Bytes) : x.up = true → E.uartDev x.state ≠ none → rxBytes ≠ [] →
      allowed (some rxBytes) →
      Act E allowed x ⟨E.forward x.state rxBytes, true, x.inbox, x.read ++ [rxBytes], x.wrote⟩
        (E.readEvents x.state rxBytes)
  | fail (x : Station σ) : allowed none → Act E allowed x { x with up := false } []

/-- Both ends have the same setting `data_encode`. -/
def machine (E : Peer σ) (allowed : Option Bytes → Prop) (dataEncode : Bool) : Machine (Station σ) Event where
  act := Act E allowed
  accept x es := { x with inbox := x.inbox ++ messages dataEncode es }
  accept_nil x := by rw [messages, List.filterMap_nil, List.append_nil]
  accept_append x es fs := by rw [messages_append, List.append_assoc]

/-- The channel from the device of the end `y` to the device of the end `x`. -/
def channel (x : Station σ) (y : Station τ) : Fifo Bytes := ⟨y.read, values x.inbox, x.wrote⟩

end Station

/-! ### Reading from a device -/

section Read

variable {σ : Type*} {E : Peer σ} {s : σ}

theorem Peer.forward_fields (E : Peer σ) (s : σ) (rxBytes : Bytes) :
    E.dataEncode (E.forward s rxBytes) = E.dataEncode s ∧ E.uartDev (E.forward s rxBytes) = E.uartDev s ∧
      E.isRunning (E.forward s rxBytes) = E.isRunning s := by
  unfold forward
  split
  · obtain ⟨he, hd, hr, -⟩ := E.emit_fields s (.sent (sendPacket (E.dataEncode s) "data" (.bytes rxBytes)))
    exact ⟨he, hd, hr⟩
  · exact ⟨rfl, rfl, rfl⟩

theorem Peer.readEvents_of_running {rxBytes : Bytes} (hrun : E.isRunning s = true) (hne : rxBytes ≠ []) :
    E.readEvents s rxBytes = [.sent (sendPacket (E.dataEncode s) "data" (.bytes rxBytes))] := by
  have hforward : E.forward s rxBytes = E.emit s (.sent (sendPacket (E.dataEncode s) "data" (.bytes rxBytes))) :=
    if_pos ⟨hrun, List.length_pos_iff.2 hne⟩
  rw [readEvents, hforward, (E.emit_fields s _).2.2.2, List.drop_left]

theorem Peer.readEvents_of_not_running {rxBytes : Bytes} (hrun : ¬ E.isRunning s = true) :
    E.readEvents s rxBytes = [] := by
  have hforward : E.forward s rxBytes = s := if_neg fun h => hrun h.1
  rw [readEvents, hforward, List.drop_length]

theorem Peer.events_forward (E : Peer σ) (s : σ) (rxBytes : Bytes) :
    E.events (E.forward s rxBytes) = E.events s ++ E.readEvents s rxBytes := by
  have happend : ∃ es, E.events (E.forward s rxBytes) = E.events s ++ es := by
    unfold forward
    split
    · exact ⟨_, (E.emit_fields s _).2.2.2⟩
    · exact ⟨[], (List.append_nil _).symm⟩
  obtain ⟨es, hes⟩ := happend
  rw [readEvents, hes, List.drop_left]

end Read

/-! ### Any devices -/

namespace Station

variable {σ τ : Type*} {E : Peer σ} {F : Peer τ} {allowed : Option Bytes → Prop} {dataEncode : Bool}
variable {x x' : Station σ} {y y' : Station τ} {es : List Event}

theorem values_cons (p : Packet) (ps : List Packet) :
    values (p :: ps) = (if p.keyStr = "data" then [p.valBytes] else []) ++ values ps := by
  rw [values, List.filterMap_cons]
  split_ifs <;> rfl

/-- No act changes the setting `data_encode`. -/
theorem Act.dataEncode_eq (h : Act E allowed x x' es) : E.dataEncode x'.state = E.dataEncode x.state := by
  cases h with
  | dispatch p rest _ _ => exact E.dataEncode_handlePacket _ _
  | read rx _ _ _ _ => exact (E.forward_fields _ _).1
  | fail _ => rfl

/-- An end that acts delivers or drops the first value in transit to it, or none. -/
theorem Act.channel_left (h : Act E allowed x x' es) (y : Station τ) :
    ReflTransGen Fifo.Lossy (channel x y) (channel x' y) := by
  cases h with
  | dispatch p rest _ hinbox =>
    have htransit : (channel x y).transit = (if p.keyStr = "data" then [p.valBytes] else []) ++ values rest := by
      show values x.inbox = _
      rw [hinbox, values_cons]
    have hdrop (hkey : p.keyStr = "data") :
        Fifo.Lossy (channel x y) ⟨y.read, values rest, x.wrote⟩ := by
      rw [if_pos hkey] at htransit
      exact .drop _ p.valBytes (values rest) htransit
    show ReflTransGen Fifo.Lossy (channel x y) ⟨y.read, values rest, x.wrote ++ written (E.newEvents x.state p)⟩
    rcases (E.newEvents_spec x.state p).2 with ⟨hkey, -, hnew⟩ | hq
    · rw [hnew]
      cases hdev : E.uartDev x.state with
      | none =>
        have hnone : written [.wrote none p.valBytes] = [] := rfl
        rw [hnone, List.append_nil]
        exact .single (hdrop hkey)
      | some dev =>
        rw [if_pos hkey] at htransit
        exact .single (.keep (.deliver _ p.valBytes (values rest) htransit))
    · rw [hq.written_eq, List.append_nil]
      by_cases hkey : p.keyStr = "data"
      · exact .single (hdrop hkey)
      · rw [if_neg hkey, List.nil_append] at htransit
        rw [← htransit]
        exact .refl
  | read rx _ _ _ _ => exact .refl
  | fail _ => exact .refl

/-- An end that acts pushes what it has read, or refuses it. -/
theorem Act.channel_right (h : Act F allowed y y' es) (hy : F.dataEncode y.state = dataEncode) (x : Station σ) :
    ReflTransGen Fifo.Lossy (channel x y) (channel { x with inbox := x.inbox ++ messages dataEncode es } y') := by
  have htransit (es : List Event) (y' : Station τ) : channel { x with inbox := x.inbox ++ messages dataEncode es } y' =
      ⟨y'.read, values x.inbox ++ values (messages dataEncode es), x.wrote⟩ := by
    rw [← values_append]
    rfl
  rw [htransit]
  cases h with
  | dispatch p rest _ _ =>
    have hnone : values (messages dataEncode (F.newEvents y.state p)) = [] := by
      rcases (F.newEvents_spec y.state p).2 with ⟨-, -, hnew⟩ | hq
      · rw [hnew]
        rfl
      · rw [← hy]
        exact hq.values_eq
    rw [hnone, List.append_nil]
    exact .refl
  | read rx _ _ hne _ =>
    have hrefuse : Fifo.Lossy (channel x y) ⟨y.read ++ [rx], values x.inbox, x.wrote⟩ := .refuse _ rx
    by_cases hrun : F.isRunning y.state = true
    · rw [Peer.readEvents_of_running hrun hne, hy]
      cases hsend : sendPacket dataEncode "data" (.bytes rx) with
      | none =>
        have hnil : values (messages dataEncode [.sent none]) = [] := rfl
        rw [hnil, List.append_nil]
        exact .single hrefuse
      | some raw =>
        have hone : values (messages dataEncode [.sent (some raw)]) = [rx] := by
          rw [messages, List.filterMap_cons, message_data hsend]
          rfl
        rw [hone]
        exact .single (.keep (.push (channel x y) rx))
    · rw [Peer.readEvents_of_not_running hrun]
      have hnil : values (messages dataEncode []) = [] := rfl
      rw [hnil, List.append_nil]
      exact .single hrefuse
  | fail _ =>
    have hnil : values (messages dataEncode []) = [] := rfl
    rw [hnil, List.append_nil]
    exact .refl

/-- Both ends have the setting, and each direction is in order. -/
structure Orderly (E : Peer σ) (F : Peer τ) (dataEncode : Bool) (x : Station σ) (y : Station τ) : Prop where
  encode_left : E.dataEncode x.state = dataEncode
  encode_right : F.dataEncode y.state = dataEncode
  left : (channel x y).Ordered
  right : (channel y x).Ordered

theorem Orderly.act (h : Act E allowed x x' es) (ho : Orderly E F dataEncode x y) :
    Orderly E F dataEncode x' ((machine F allowed dataEncode).accept y es) where
  encode_left := h.dataEncode_eq.trans ho.encode_left
  encode_right := ho.encode_right
  left := invariant_of_reaches (fun _ _ => Fifo.Ordered.lossy) (h.channel_left y) ho.left
  right := invariant_of_reaches (fun _ _ => Fifo.Ordered.lossy) (h.channel_right ho.encode_left y) ho.right

theorem Orderly.symm (ho : Orderly E F dataEncode x y) : Orderly F E dataEncode y x :=
  ⟨ho.encode_right, ho.encode_left, ho.right, ho.left⟩

theorem Orderly.step {z z' : Station σ × Station τ} (ho : Orderly E F dataEncode z.1 z.2)
    (hstep : Duplex (machine E allowed dataEncode) (machine F allowed dataEncode) z z') :
    Orderly E F dataEncode z'.1 z'.2 := by
  cases hstep with
  | left h => exact ho.act h
  | right h => exact (ho.symm.act h).symm

end Station

/-! ### Devices that work -/

/-- A description of an end on the way to serving: `Phase ps s` says that the state `s` is ready for the packets `ps`,
and then for data, which it writes to its open device `dev`. -/
structure Opening {σ : Type*} (E : Peer σ) (dataEncode : Bool) (dev : Serial) (Phase : List Packet → σ → Prop) :
    Prop where
  encode : ∀ ps s, Phase ps s → E.dataEncode s = dataEncode
  next : ∀ p ps s, Phase (p :: ps) s → ∃ s', E.handlePacket s p = .ok s' ∧ Phase ps s' ∧
    messages dataEncode (E.newEvents s p) = [] ∧ written (E.newEvents s p) = []
  data : ∀ v s, Phase [] s → ∃ s', E.handlePacket s (Packet.init "data" v) = .ok s' ∧ Phase [] s' ∧
    E.newEvents s (Packet.init "data" v) = [.wrote (some dev) v]
  read : ∀ ps s rxBytes, Phase ps s → E.uartDev s ≠ none → E.isRunning s = true ∧ Phase ps (E.forward s rxBytes)

/-- Nothing fails, and what a device reads fits in a frame. -/
def Works (dataEncode : Bool) (o : Option Bytes) : Prop :=
  ∃ rxBytes, o = some rxBytes ∧ (sendPacket dataEncode "data" (.bytes rxBytes)).isSome

namespace Station

variable {σ τ : Type*} {E : Peer σ} {F : Peer τ} {dataEncode : Bool} {dev : Serial}
variable {x x' : Station σ} {y : Station τ} {es : List Event} {Phase : List Packet → σ → Prop} {pushed : List Bytes}

/-- The end is up, the rest of its handshake and then data are in flight to it, and of the values that were pushed none
is missing. -/
structure Sound (Phase : List Packet → σ → Prop) (pushed : List Bytes) (x : Station σ) : Prop where
  up : x.up = true
  inbox : ∃ ps vs, x.inbox = ps ++ vs.map (Packet.init "data" ·) ∧ Phase ps x.state ∧
    Fifo.Exact ⟨pushed, vs, x.wrote⟩

/-- An end that works keeps this, and sends what it reads as data, and nothing else. -/
theorem Sound.act (ho : Opening E dataEncode dev Phase) (hx : x.Sound Phase pushed)
    (h : Act E (Works dataEncode) x x' es) :
    x'.Sound Phase pushed ∧ ∃ rs, x'.read = x.read ++ rs ∧ messages dataEncode es = rs.map (Packet.init "data" ·) := by
  obtain ⟨ps, vs, hinbox, hphase, hpushed⟩ := hx.inbox
  cases h with
  | dispatch p rest _ hcons =>
    rw [hinbox] at hcons
    cases ps with
    | cons q ps =>
      obtain ⟨rfl, rfl⟩ := List.cons.inj hcons
      obtain ⟨s', hs', hphase', hmsg, hwritten⟩ := ho.next _ _ _ hphase
      refine ⟨⟨?_, ps, vs, rfl, ?_, ?_⟩, [], (List.append_nil _).symm, hmsg⟩
      · show (E.handlePacket x.state q).isOk = true
        rw [hs']
        rfl
      · show Phase ps (E.handlePacket x.state q).state
        rw [hs']
        exact hphase'
      · show Fifo.Exact ⟨pushed, vs, x.wrote ++ written (E.newEvents x.state q)⟩
        rwa [hwritten, List.append_nil]
    | nil =>
      cases vs with
      | nil => cases hcons
      | cons v vs =>
        obtain ⟨rfl, rfl⟩ := List.cons.inj hcons
        obtain ⟨s', hs', hphase', hnew⟩ := ho.data v _ hphase
        refine ⟨⟨?_, [], vs, rfl, ?_, ?_⟩, [], (List.append_nil _).symm, by rw [hnew]; rfl⟩
        · show (E.handlePacket x.state _).isOk = true
          rw [hs']
          rfl
        · show Phase [] (E.handlePacket x.state _).state
          rw [hs']
          exact hphase'
        · show Fifo.Exact ⟨pushed, vs, x.wrote ++ written (E.newEvents x.state _)⟩
          rw [hnew]
          exact hpushed.lossless (.deliver _ v vs rfl)
  | read rx _ hdev hne hworks =>
    obtain ⟨hrun, hphase'⟩ := ho.read ps _ rx hphase hdev
    refine ⟨⟨rfl, ps, vs, hinbox, hphase', hpushed⟩, [rx], rfl, ?_⟩
    obtain ⟨rx', hrx, hsome⟩ := hworks
    cases hrx
    obtain ⟨raw, hraw⟩ := Option.isSome_iff_exists.1 hsome
    rw [Peer.readEvents_of_running hrun hne, ho.encode _ _ hphase, hraw, messages, List.filterMap_cons,
      message_data hraw]
    rfl
  | fail hfail =>
    obtain ⟨rx, hrx, -⟩ := hfail
    cases hrx

theorem Sound.accept (hx : x.Sound Phase pushed) (allowed : Option Bytes → Prop) {rs : List Bytes}
    (hes : messages dataEncode es = rs.map (Packet.init "data" ·)) :
    ((machine E allowed dataEncode).accept x es).Sound Phase (pushed ++ rs) := by
  obtain ⟨ps, vs, hinbox, hphase, hpushed⟩ := hx.inbox
  refine ⟨hx.up, ps, vs ++ rs, ?_, hphase, hpushed.pushAll rs⟩
  show x.inbox ++ messages dataEncode es = _
  rw [hinbox, hes, List.map_append, List.append_assoc]

/-- Between two ends that work nothing is lost. -/
theorem Sound.step {Q : List Packet → τ → Prop} {dev' : Serial} (hE : Opening E dataEncode dev Phase)
    (hF : Opening F dataEncode dev' Q) {z z' : Station σ × Station τ}
    (h : z.1.Sound Phase z.2.read ∧ z.2.Sound Q z.1.read)
    (hstep : Duplex (machine E (Works dataEncode) dataEncode) (machine F (Works dataEncode) dataEncode) z z') :
    z'.1.Sound Phase z'.2.read ∧ z'.2.Sound Q z'.1.read := by
  cases hstep with
  | left hact =>
    obtain ⟨hx, rs, hread, hes⟩ := h.1.act hE hact
    refine ⟨hx, ?_⟩
    dsimp only at hread ⊢
    rw [hread]
    exact h.2.accept _ hes
  | right hact =>
    obtain ⟨hy, rs, hread, hes⟩ := h.2.act hF hact
    refine ⟨?_, hy⟩
    dsimp only at hread ⊢
    rw [hread]
    exact h.1.accept _ hes

end Station

end WirelessUart
