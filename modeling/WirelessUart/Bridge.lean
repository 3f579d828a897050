import WirelessUart.ConnectHelper
import WirelessUart.Handshake
import WirelessUart.Link

/-!
# From device to device

The server's session and the client on one connection, from the moment the client has sent its handshake.  What the
device of one end reads is written to the device of the other:

* whatever the devices, the sockets and the network do, each value at most once and in order
  (`Link.values_in_order`);
* without failures, and with a server that can open its device, none is lost (`Link.exact`), and what is in flight can
  be delivered at once (`Link.delivered`).

The network cuts and joins frames in the ways of `Segment`.
-/

namespace WirelessUart

open ByteLib Relation

/-! ### The connection -/

/-- The server's end and the client's end. -/
abbrev Link := Port Handling × Port ConnectHelper

namespace Link

/-- `env` and `cenv` say what the devices of the server and of the client do while packets are handled. -/
def Step (env cenv : Nat → Env) (allowed : Option Bytes → Prop) : Link → Link → Prop :=
  Duplex (Port.machine (Handling.peer env) allowed) (Port.machine (ConnectHelper.peer cenv) allowed)

/-- The client has connected and sent its handshake to a new handler. -/
def start (h : ConnectHelper) : Link :=
  ({ state := ⟨{ dataEncode := h.client.dataEncode }, []⟩, frames := sentFrames h.greeting }, { state := h.greet })

end Link

/-! ### The handshake -/

section Handshake

variable {h : ConnectHelper} {dataEncode : Bool} {raw : Bytes}

/-- The packets of the handshake. -/
def ConnectHelper.hello (h : ConnectHelper) : List Packet :=
  [.init "path" (encode h.remotePath), .init "baud" (encode (toString h.remoteBaud)), .init "start"]

/-- A frame that the receive loop can read. -/
def Framed (dataEncode : Bool) (raw : Bytes) : Prop :=
  ∃ p : Packet, (p.keyStr ≠ "" ∧ '=' ∉ p.keyStr.toList) ∧ (framed dataEncode p).getBytes = some raw

theorem Framed.of_init (keyStr : String) (v : Bytes) (hkey : keyStr ≠ "" ∧ '=' ∉ keyStr.toList)
    (hraw : sendPacket dataEncode keyStr (.bytes v) = some raw) : Framed dataEncode raw :=
  ⟨Packet.init keyStr v, hkey, hraw⟩

/-- The frames of the handshake are read as its packets. -/
theorem ConnectHelper.message_greeting {e : Event} {p : Packet} (he : e ∈ h.greeting)
    (hp : Event.message h.client.dataEncode e = some p) : p ∈ h.hello := by
  have hone {keyStr : String} {v : Bytes} (hkey : keyStr ≠ "" ∧ '=' ∉ keyStr.toList)
      (hmsg : Event.message h.client.dataEncode (.sent (sendPacket h.client.dataEncode keyStr (.bytes v))) = some p) :
      p = Packet.init keyStr v := by
    cases hraw : sendPacket h.client.dataEncode keyStr (.bytes v) with
    | none =>
      rw [hraw] at hmsg
      cases hmsg
    | some raw =>
      rw [hraw, Event.message, readWhole_of_getBytes (p := Packet.init keyStr v) hkey.1 hkey.2 hraw] at hmsg
      exact (Option.some.inj hmsg).symm
  simp only [greeting, List.mem_cons, List.not_mem_nil, or_false] at he
  simp only [hello, List.mem_cons, List.not_mem_nil, or_false]
  rcases he with rfl | rfl | rfl
  · exact .inl (hone (by decide) hp)
  · exact .inr (.inl (hone (by decide) hp))
  · exact .inr (.inr (hone (by decide) hp))

/-- The handshake carries no data. -/
theorem ConnectHelper.values_greeting (h : ConnectHelper) :
    values (messages h.client.dataEncode h.greeting) = [] := by
  refine List.filterMap_eq_nil_iff.2 fun p hp => ?_
  obtain ⟨e, he, hmsg⟩ := List.mem_filterMap.1 hp
  have hmem := ConnectHelper.message_greeting he hmsg
  simp only [hello, List.mem_cons, List.not_mem_nil, or_false] at hmem
  rcases hmem with rfl | rfl | rfl <;> rfl

end Handshake

/-! ### Any devices -/

namespace Link

variable {env cenv : Nat → Env} {allowed : Option Bytes → Prop} {h : ConnectHelper} {l : Link}

/-- The connection with the packets of the bytes in flight. -/
def Abstracts (dataEncode : Bool) (env cenv : Nat → Env) (l : Link) (z : Station Handling × Station ConnectHelper) :
    Prop :=
  Port.Refines (Handling.peer env) dataEncode l.1 z.1 ∧ Port.Refines (ConnectHelper.peer cenv) dataEncode l.2 z.2

/-- The connection of bytes simulates the one of packets. -/
theorem simulates (dataEncode : Bool) (env cenv : Nat → Env) (allowed : Option Bytes → Prop) :
    Simulates (Step env cenv allowed)
      (Duplex (Station.machine (Handling.peer env) allowed dataEncode)
        (Station.machine (ConnectHelper.peer cenv) allowed dataEncode))
      (Abstracts dataEncode env cenv) :=
  Duplex.simulates (Port.simulates _ _ _) (Port.simulates _ _ _)

/-- The packets in flight at the start. -/
def startPackets (h : ConnectHelper) : Station Handling × Station ConnectHelper :=
  ({ state := ⟨{ dataEncode := h.client.dataEncode }, []⟩, inbox := messages h.client.dataEncode h.greeting },
    { state := h.greet })

theorem abstracts_start (h : ConnectHelper) (env cenv : Nat → Env) :
    Abstracts h.client.dataEncode env cenv (start h) (startPackets h) := by
  refine ⟨⟨⟨rfl, rfl, rfl, rfl⟩, rfl, [], ?_, fun _ => rfl⟩, ⟨rfl, rfl, rfl, rfl⟩, rfl, [], rfl, fun _ => rfl⟩
  exact (filterMap_sentFrames _ _).symm

/-- Every run of the connection of bytes is one of the connection of packets: whatever the order of events, the frames
that are cut or joined, and the failures, both ends get to the same states, have read and written the same, and the
packets in flight are those of the frames. -/
theorem run_refines (hrun : ReflTransGen (Step env cenv allowed) (start h) l) :
    ∃ z, ReflTransGen (Duplex (Station.machine (Handling.peer env) allowed h.client.dataEncode)
        (Station.machine (ConnectHelper.peer cenv) allowed h.client.dataEncode)) (startPackets h) z ∧
      Abstracts h.client.dataEncode env cenv l z :=
  (simulates h.client.dataEncode env cenv allowed).reaches hrun (abstracts_start h env cenv)

/-- In every run, whatever fails or is read, what has been written at an end is a subsequence of what has been read at
the other: no value is written twice, out of order, or without having been read. -/
theorem values_in_order (hrun : ReflTransGen (Step env cenv allowed) (start h) l) :
    l.1.wrote.Sublist l.2.read ∧ l.2.wrote.Sublist l.1.read := by
  have hstart : Station.Orderly (Handling.peer env) (ConnectHelper.peer cenv) h.client.dataEncode (startPackets h).1
      (startPackets h).2 := by
    refine ⟨rfl, rfl, ?_, List.Sublist.refl []⟩
    show ([] ++ values (messages h.client.dataEncode h.greeting)).Sublist []
    rw [h.values_greeting]
    exact List.Sublist.refl []
  obtain ⟨z, hz, hleft, hright⟩ := (simulates h.client.dataEncode env cenv allowed).invariant
    (fun _ _ => Station.Orderly.step) hrun (abstracts_start h env cenv) hstart
  obtain ⟨-, -, hread, hwrote⟩ := hleft.same
  obtain ⟨-, -, hread', hwrote'⟩ := hright.same
  rw [← hread, ← hwrote, ← hread', ← hwrote']
  exact ⟨(List.sublist_append_left _ _).trans hz.left, (List.sublist_append_left _ _).trans hz.right⟩

end Link

/-- A client on its device. -/
def runningClient : ConnectHelper :=
  { client := { uartDev := some ⟨0, "b", 9, true⟩, isRunning := true, dataEncode := false }
    uartPath := "b", uartBaud := 9, remotePath := "a", remoteBaud := 9, opens := 1 }

/-- A turn that only reads from the device. -/
theorem Turn.allowed_of_idle {allowed : Option Bytes → Prop} {rxBytes : Bytes} (h : allowed (some rxBytes)) :
    (⟨.idle, .bytes rxBytes⟩ : Turn).Allowed allowed where
  poll hp := by simp at hp
  raises hw := by cases hw
  bytes rx hw _ := by
    rw [← Waiting.bytes.inj hw]
    exact h

/-- The client's device reads a byte, and its turn is over before anything has been received. -/
theorem Link.step_reads (env : Nat → Env) (allowed : Option Bytes → Prop) (hallowed : allowed (some [0x41])) :
    ∃ l, Step env env allowed (start runningClient) l ∧ l.2.read = [[0x41]] :=
  ⟨_, .right (.turn _ ⟨.idle, .bytes [0x41]⟩ [] rfl (.idle []) (Turn.allowed_of_idle hallowed)), rfl⟩

/-- The frames of the handshake of `runningClient`, and the frame of the byte `A`. -/
def joinedFrames : List Bytes :=
  [[0x23, 0x24, 6, 0, 0, 0, 0x70, 0x61, 0x74, 0x68, 0x3d, 0x61, 0x51, 0x24, 0x23],
    [0x23, 0x24, 6, 0, 0, 0, 0x62, 0x61, 0x75, 0x64, 0x3d, 0x39, 0x16, 0x24, 0x23],
    [0x23, 0x24, 5, 0, 0, 0, 0x73, 0x74, 0x61, 0x72, 0x74, 0x60, 0x24, 0x23],
    [0x23, 0x24, 6, 0, 0, 0, 0x64, 0x61, 0x74, 0x61, 0x3d, 0x41, 0x6c, 0x24, 0x23]]

theorem segment_joinedFrames : Segment false joinedFrames [joinedFrames.flatten] := by
  refine .batch [.init "path" [0x61], .init "baud" [0x39], .init "start", .init "data" [0x41]] _ (by decide)
    (by decide +kernel) (undisturbed_of_no_start (by decide) ?_)
  have hleftover : ∀ done ∈ ([.init "path" [0x61], .init "baud" [0x39], .init "start", .init "data" [0x41]] :
      List Packet).inits, ¬ symbolStartBytes <:+: leftover done := by decide +kernel
  exact fun done hdone => hleftover done ((List.mem_inits _ _).2 hdone)

/-- The client's device reads a byte, the network joins its frame to those of the handshake, and the server receives
all of them and writes the byte. -/
theorem Link.step_delivers (allowed : Option Bytes → Prop) (hallowed : allowed (some [0x41])) :
    ∃ l, ReflTransGen (Step (fun _ => ⟨none, false, false⟩) (fun _ => ⟨none, false, false⟩) allowed)
      (start runningClient) l ∧ (l.1.chunks = [] ∧ l.1.frames = []) ∧ l.2.read = [[0x41]] ∧ l.1.wrote = [[0x41]] := by
  have hframes : sentFrames runningClient.greeting ++
      sentFrames ((ConnectHelper.peer fun _ => ⟨none, false, false⟩).turnEvents (runningClient.greet, [])
        ⟨.idle, .bytes [0x41]⟩) = joinedFrames ++ [] := by decide +kernel
  have hwrote : written ((Handling.peer fun _ => ⟨none, false, false⟩).turnEvents (⟨{ dataEncode := false }, []⟩, [])
      ⟨.received joinedFrames.flatten, .bytes []⟩) = [[0x41]] := by decide +kernel
  exact ⟨_, .tail (.tail (.single
      (.right (.turn _ ⟨.idle, .bytes [0x41]⟩ [] rfl (.idle []) (Turn.allowed_of_idle hallowed))))
      (.left (.network _ joinedFrames [] [joinedFrames.flatten] rfl hframes segment_joinedFrames)))
      (.left (.turn _ ⟨.received joinedFrames.flatten, .bytes []⟩ [] rfl (.chunk _ []) ⟨by simp, by simp, by simp⟩)),
    ⟨rfl, rfl⟩, rfl, hwrote⟩

theorem Link.run_refines_one_byte :
    ∃ l z, (l.2.read = [[0x41]] ∧ l.1.wrote = [[0x41]]) ∧
      ReflTransGen (Duplex (Station.machine (Handling.peer fun _ => ⟨none, false, false⟩) (fun _ => True) false)
        (Station.machine (ConnectHelper.peer fun _ => ⟨none, false, false⟩) (fun _ => True) false))
        (startPackets runningClient) z ∧
      Abstracts false (fun _ => ⟨none, false, false⟩) (fun _ => ⟨none, false, false⟩) l z := by
  obtain ⟨l, hsteps, -, hread, hwrote⟩ := step_delivers (fun _ => True) trivial
  obtain ⟨z, hz, habs⟩ := run_refines hsteps
  exact ⟨l, z, ⟨hread, hwrote⟩, hz, habs⟩

theorem Link.values_in_order_one_byte :
    ∃ l, ReflTransGen (Step (fun _ => ⟨none, false, false⟩) (fun _ => ⟨none, false, false⟩) fun _ => True)
      (start runningClient) l ∧ l.2.read = [[0x41]] ∧ l.1.wrote = [[0x41]] ∧ l.1.wrote.Sublist l.2.read ∧
        l.2.wrote.Sublist l.1.read := by
  obtain ⟨l, hsteps, -, hread, hwrote⟩ := step_delivers (fun _ => True) trivial
  exact ⟨l, hsteps, hread, hwrote, values_in_order hsteps⟩

/-! ### Devices that work -/

/-- The server's device opens and can be written to. -/
def Env.Serves (now : Env) : Prop := now.openError = none ∧ now.writeRaises = false

theorem Peer.newEvents_of_events {σ : Type*} {E : Peer σ} {s : σ} {p : Packet} {es : List Event}
    (h : E.events (E.handlePacket s p).state = E.events s ++ es) : E.newEvents s p = es := by
  rw [newEvents, h, List.drop_left]

/-- The settings that the client sends can be used: the path is not empty, the baud rate is positive and can be read
back by `int`, and both fit in a frame. -/
structure ConnectHelper.Usable (h : ConnectHelper) : Prop where
  path : h.remotePath ≠ ""
  baud : ∃ n : Nat, 0 < n ∧ h.remoteBaud = n ∧ (Nat.toDigits 10 n).length ≤ 4300
  path_fits : (sendPacket h.client.dataEncode "path" (.str h.remotePath)).isSome
  baud_fits : (sendPacket h.client.dataEncode "baud" (.int h.remoteBaud)).isSome

/-- The device that the server opens. -/
def ConnectHelper.remoteDevice (h : ConnectHelper) : Serial := ⟨0, h.remotePath, h.remoteBaud, true⟩

/-- The session of the server before `path` has been handled, ... -/
def ConnectHelper.newSession (h : ConnectHelper) (es : List Event) : Session :=
  { dataEncode := h.client.dataEncode, events := es }

/-- ... before `baud`, ... -/
def ConnectHelper.namedSession (h : ConnectHelper) (es : List Event) : Session :=
  { h.newSession es with uartPath := h.remotePath }

/-- ... and from then on. -/
def ConnectHelper.servingSession (h : ConnectHelper) (es : List Event) : Session :=
  { h.namedSession es with
    uartBaud := h.remoteBaud
    uartDev := some h.remoteDevice
    isRunning := true
    opens := 1 }

namespace Handling

/-- The server on its way through the handshake. -/
def Phase (h : ConnectHelper) (ps : List Packet) (s : Handling) : Prop :=
  ∃ es, (ps = h.hello ∧ s.session = h.newSession es) ∨ (ps = h.hello.drop 1 ∧ s.session = h.namedSession es) ∨
    ((ps = h.hello.drop 2 ∨ ps = []) ∧ s.session = h.servingSession es)

section Phase

variable {env : Nat → Env} {h : ConnectHelper} {s : Handling} {p : Packet} {es : List Event}

/-- What a command does to the session, it does to the handler. -/
theorem handlePacket_ok (env : Nat → Env) (es : List Event) {t : Session}
    (hexec : s.session.exec (env s.log.length) p.command = .ok t)
    (hevents : t.events = s.session.events ++ es) :
    s.handlePacket env p = .ok ⟨t, s.log ++ [(env s.log.length, s.session, p)]⟩ ∧
      (peer env).newEvents s p = es := by
  rw [← Session.handlePacket_eq_exec] at hexec
  have hok : s.handlePacket env p = .ok ⟨t, s.log ++ [(env s.log.length, s.session, p)]⟩ := by
    unfold handlePacket
    dsimp only
    rw [hexec]
  refine ⟨hok, Peer.newEvents_of_events ?_⟩
  show (s.handlePacket env p).state.session.events = _
  rw [hok]
  exact hevents

/-- `path` leaves the settings incomplete. -/
theorem exec_path (now : Env) (h : ConnectHelper) (es : List Event) :
    (h.newSession es).exec now (Packet.init "path" (encode h.remotePath)).command = .ok (h.namedSession es) := by
  have hincomplete : ¬ (h.namedSession es).Complete := fun hc => absurd hc.1 (Int.lt_irrefl 0)
  rw [command_init_path]
  show Outcome.ok ((h.namedSession es).restart now) = _
  rw [Session.restart_eq, if_neg hincomplete]

theorem complete_of_usable (hu : h.Usable) {t : Session} (hp : t.uartPath = h.remotePath)
    (hb : t.uartBaud = h.remoteBaud) : t.Complete := by
  obtain ⟨n, hpos, hn, -⟩ := hu.baud
  rw [Session.Complete, hp, hb]
  exact ⟨by omega, Nat.pos_of_ne_zero (mt String.length_eq_zero_iff.1 hu.path)⟩

/-- `baud` opens the device. -/
theorem exec_baud {now : Env} (hnow : now.Serves) (hu : h.Usable) (es : List Event) :
    (h.namedSession es).exec now (Packet.init "baud" (encode (toString h.remoteBaud))).command =
      .ok (h.servingSession (es ++ [.opened h.remoteDevice])) := by
  obtain ⟨n, -, hn, hdigits⟩ := hu.baud
  have hbaud : (Packet.init "baud" (encode (toString h.remoteBaud))).command = .baud (some h.remoteBaud) := by
    rw [hn]
    exact command_init_baud hdigits
  let t : Session := { h.namedSession es with uartBaud := h.remoteBaud }
  have hcomplete : t.Complete := complete_of_usable hu rfl rfl
  have hopen : t.uartOpen now =
      ({ t with uartDev := some t.newDevice, opens := t.opens + 1 }.emit (.opened t.newDevice), true) := by
    rcases Session.uartOpen_cases_eq now t with ⟨hinc, -⟩ | ⟨-, ⟨dev, hdev, -⟩, -⟩ | ⟨-, -, heq⟩
    · exact absurd hcomplete hinc
    · cases hdev
    · rw [heq, Session.uartClose_of_none now rfl, Session.construct_of_opens t hnow.1]
  rw [hbaud]
  show Outcome.ok (t.restart now) = _
  rw [Session.restart_eq, if_pos hcomplete, Session.handleStart, hopen]
  rfl

/-- `start` finds the device open. -/
theorem exec_start (now : Env) (hu : h.Usable) (es : List Event) :
    (h.servingSession es).exec now (Packet.init "start").command = .ok (h.servingSession es) := by
  have hopen : (h.servingSession es).uartOpen now = (h.servingSession es, true) := by
    rcases Session.uartOpen_cases_eq now (h.servingSession es) with ⟨hinc, -⟩ | ⟨-, -, heq⟩ | ⟨-, hne, -⟩
    · exact absurd (complete_of_usable hu rfl rfl) hinc
    · exact heq
    · exact absurd ⟨rfl, rfl⟩ (hne h.remoteDevice rfl)
  have hcommand : (Packet.init "start").command = .start := rfl
  rw [hcommand, Session.exec, Session.handleStart, hopen]
  rfl

/-- Data are written. -/
theorem exec_data {now : Env} (hnow : now.Serves) (v : Bytes) (es : List Event) :
    (h.servingSession es).exec now (Packet.init "data" v).command =
      .ok (h.servingSession (es ++ [.wrote (some h.remoteDevice) v])) := by
  have hcommand : (Packet.init "data" v).command = .data v := rfl
  have hwrites : ¬ ((h.servingSession es).uartDev = none ∨ now.writeRaises = true) := by
    rw [hnow.2]
    rintro (hdev | hraises)
    · cases hdev
    · cases hraises
  rw [hcommand, Session.exec_data_of_running rfl, if_neg hwrites]
  rfl

/-- The server, with a device that works and usable settings, opens its device and then writes what it receives. -/
theorem opening (henv : ∀ n, (env n).Serves) (hu : h.Usable) :
    Opening (peer env) h.client.dataEncode h.remoteDevice (Phase h) where
  encode ps s hs := by
    obtain ⟨es, ⟨-, hs⟩ | ⟨-, hs⟩ | ⟨-, hs⟩⟩ := hs <;> (show s.session.dataEncode = _; rw [hs]; rfl)
  next p ps s hs := by
    obtain ⟨es, ⟨hps, hs⟩ | ⟨hps, hs⟩ | ⟨hps, hs⟩⟩ := hs
    · obtain ⟨rfl, rfl⟩ := List.cons.inj hps
      obtain ⟨hok, hnew⟩ := handlePacket_ok env [] (by rw [hs]; exact exec_path _ h es)
        (by rw [hs, List.append_nil]; rfl)
      rw [hnew]
      exact ⟨_, hok, ⟨es, .inr (.inl ⟨rfl, rfl⟩)⟩, rfl, rfl⟩
    · obtain ⟨rfl, rfl⟩ := List.cons.inj hps
      obtain ⟨hok, hnew⟩ := handlePacket_ok env [.opened h.remoteDevice]
        (by rw [hs]; exact exec_baud (henv _) hu es) (by rw [hs]; rfl)
      rw [hnew]
      exact ⟨_, hok, ⟨_, .inr (.inr ⟨.inl rfl, rfl⟩)⟩, rfl, rfl⟩
    · obtain hps | hps := hps
      · obtain ⟨rfl, rfl⟩ := List.cons.inj hps
        obtain ⟨hok, hnew⟩ := handlePacket_ok env [] (by rw [hs]; exact exec_start _ hu es)
          (by rw [hs, List.append_nil])
        rw [hnew]
        exact ⟨_, hok, ⟨es, .inr (.inr ⟨.inr rfl, rfl⟩)⟩, rfl, rfl⟩
      · cases hps
  data v s hs := by
    obtain ⟨es, ⟨hps, hs⟩ | ⟨hps, hs⟩ | ⟨hps, hs⟩⟩ := hs
    · cases hps
    · cases hps
    · obtain ⟨hok, hnew⟩ := handlePacket_ok env [.wrote (some h.remoteDevice) v]
        (by rw [hs]; exact exec_data (henv _) v es) (by rw [hs]; rfl)
      exact ⟨_, hok, ⟨_, .inr (.inr ⟨.inr rfl, rfl⟩)⟩, hnew⟩
  read ps s rxBytes hs hdev := by
    obtain ⟨es, ⟨-, hs⟩ | ⟨-, hs⟩ | ⟨hps, hs⟩⟩ := hs
    · have hnone : s.session.uartDev = none := by rw [hs]; rfl
      exact absurd hnone hdev
    · have hnone : s.session.uartDev = none := by rw [hs]; rfl
      exact absurd hnone hdev
    · refine ⟨by show s.session.isRunning = true; rw [hs]; rfl, ?_⟩
      unfold Peer.forward
      split
      · refine ⟨es ++ [.sent (sendPacket ((peer env).dataEncode s) "data" (.bytes rxBytes))], .inr (.inr ⟨hps, ?_⟩)⟩
        show s.session.emit _ = _
        rw [hs]
        rfl
      · exact ⟨es, .inr (.inr ⟨hps, hs⟩)⟩

end Phase

end Handling

namespace ConnectHelper

/-- The client is running on the device `dev`. -/
def Ready (dataEncode : Bool) (dev : Serial) (ps : List Packet) (h : ConnectHelper) : Prop :=
  ps = [] ∧ h.client.isRunning = true ∧ h.client.uartDev = some dev ∧ h.client.dataEncode = dataEncode

/-- A client whose device works writes what it receives. -/
theorem opening {env : Nat → Env} (henv : ∀ n, (env n).writeRaises = false) (dataEncode : Bool) (dev : Serial) :
    Opening (peer env) dataEncode dev (Ready dataEncode dev) where
  encode _ _ hs := hs.2.2.2
  next _ _ _ hs := by cases hs.1
  data v h hs := by
    obtain ⟨-, hrun, hdev, henc⟩ := hs
    have hclient : h.client.handlePacket (env h.log.length) (Packet.init "data" v) =
        .ok (h.client.emit (.wrote (some dev) v)) := by
      rw [Client.handlePacket_data _ _ (Packet.keyStr_init _ _), if_pos hrun, hdev, henv, if_neg (by simp)]
      rfl
    have hok : handlePacket env h (Packet.init "data" v) =
        .ok { h with client := h.client.emit (.wrote (some dev) v), log := h.log ++ [Packet.init "data" v] } := by
      rw [handlePacket, hclient]
      rfl
    refine ⟨_, hok, ⟨rfl, hrun, hdev, henc⟩, Peer.newEvents_of_events ?_⟩
    show (handlePacket env h (Packet.init "data" v)).state.client.events = _
    rw [hok]
    rfl
  read ps h rxBytes hs _ := by
    obtain ⟨hps, hrun, hdev, henc⟩ := hs
    obtain ⟨hencode, huart, hrunning⟩ := (peer env).forward_fields h rxBytes
    exact ⟨hrun, hps, hrunning.trans hrun, huart.trans hdev, hencode.trans henc⟩

end ConnectHelper

namespace Link

variable {env cenv : Nat → Env} {h : ConnectHelper} {l l' : Link} {dev : Serial}

/-- The connection is one of packets between two ends that lose nothing. -/
def Sound (h : ConnectHelper) (dev : Serial) (env cenv : Nat → Env) (l : Link) : Prop :=
  ∃ z, (z.1.Sound (Handling.Phase h) z.2.read ∧ z.2.Sound (ConnectHelper.Ready h.client.dataEncode dev) z.1.read) ∧
    Abstracts h.client.dataEncode env cenv l z

/-- The handshake is in flight as its three packets. -/
theorem messages_greeting (hu : h.Usable) :
    messages h.client.dataEncode h.greeting = h.hello := by
  have hone (keyStr : String) (v : Bytes) (hkey : keyStr ≠ "" ∧ '=' ∉ keyStr.toList)
      (hsome : (sendPacket h.client.dataEncode keyStr (.bytes v)).isSome) :
      Event.message h.client.dataEncode (.sent (sendPacket h.client.dataEncode keyStr (.bytes v))) =
        some (Packet.init keyStr v) := by
    obtain ⟨raw, hraw⟩ := Option.isSome_iff_exists.1 hsome
    rw [hraw]
    exact readWhole_of_getBytes hkey.1 hkey.2 hraw
  have hstart : (sendPacket h.client.dataEncode "start" (.bytes [])).isSome := by
    cases h.client.dataEncode <;> decide
  have hp := hone "path" (encode h.remotePath) (by decide) hu.path_fits
  have hb := hone "baud" (encode (toString h.remoteBaud)) (by decide) hu.baud_fits
  have hs := hone "start" [] (by decide) hstart
  exact (List.filterMap_cons_some hp).trans (congrArg _ ((List.filterMap_cons_some hb).trans
    (congrArg _ (List.filterMap_cons_some hs))))

theorem sound_start (hu : h.Usable) (hrun : h.client.isRunning = true) (hdev : h.client.uartDev = some dev)
    (env cenv : Nat → Env) : Sound h dev env cenv (start h) := by
  refine ⟨startPackets h, ⟨⟨rfl, h.hello, [], ?_, ⟨[], .inl ⟨rfl, rfl⟩⟩, rfl⟩,
    ⟨rfl, [], [], rfl, ⟨rfl, hrun, hdev, rfl⟩, rfl⟩⟩, abstracts_start h env cenv⟩
  rw [List.map_nil, List.append_nil]
  exact messages_greeting hu

theorem Sound.reaches (hu : h.Usable) (henv : ∀ n, (env n).Serves) (hcenv : ∀ n, (cenv n).writeRaises = false)
    (hl : Sound h dev env cenv l) (hrun : ReflTransGen (Step env cenv (Works h.client.dataEncode)) l l') :
    Sound h dev env cenv l' := by
  obtain ⟨z, hz, habs⟩ := hl
  obtain ⟨z', hsteps, habs'⟩ :=
    (simulates h.client.dataEncode env cenv (Works h.client.dataEncode)).reaches hrun habs
  refine ⟨z', ?_, habs'⟩
  clear habs'
  induction hsteps with
  | refl => exact hz
  | tail _ hstep ih =>
    exact Station.Sound.step (Handling.opening henv hu) (ConnectHelper.opening hcenv _ dev) ih hstep

end Link

/-- Nothing is in flight to the end. -/
def Port.Idle {σ : Type*} (x : Port σ) : Prop := x.chunks = [] ∧ x.frames = []

/-- An end of a sound connection has written the first values that the other end has read; all of them when nothing is
in flight to it. -/
theorem Port.Refines.wrote {σ : Type*} {E : Peer σ} {dataEncode : Bool} {Phase : List Packet → σ → Prop}
    {pushed : List Bytes} {x : Port σ} {y : Station σ} (hr : Refines E dataEncode x y) (hy : y.Sound Phase pushed) :
    x.up = true ∧ x.wrote <+: pushed ∧ (x.Idle → x.wrote = pushed ∧ Phase [] x.state) := by
  obtain ⟨⟨hstate, hup, -, hwrote⟩, -, ps, hinbox, harriving⟩ := hr
  obtain ⟨hyup, qs, vs, hyinbox, hphase, hpushed⟩ := hy
  have hxup : x.up = true := hup.symm.trans hyup
  have hpushed : x.wrote ++ vs = pushed := by
    rw [← hwrote]
    exact hpushed
  refine ⟨hxup, ⟨vs, hpushed⟩, fun hidle => ?_⟩
  have hnil := harriving hxup
  rw [hidle.1] at hnil
  injection hnil with hnil
  obtain ⟨rfl, -⟩ := Prod.mk.inj hnil
  rw [hidle.2, hyinbox] at hinbox
  obtain ⟨rfl, hvs⟩ := List.append_eq_nil_iff.1 hinbox
  rw [List.map_eq_nil_iff.1 hvs, List.append_nil] at hpushed
  rw [hstate] at hphase
  exact ⟨hpushed, hphase⟩

namespace Link

/-- Without failures, whatever the order of events and however frames are cut and joined: both loops go on, what has
been written at an end is the beginning of what has been read at the other, and all of it when nothing is in flight to
this end; the server is then running on the device that the client has named. -/
theorem exact {env cenv : Nat → Env} {h : ConnectHelper} {l : Link} {dev : Serial} (hu : h.Usable)
    (henv : ∀ n, (env n).Serves) (hcenv : ∀ n, (cenv n).writeRaises = false) (hrun : h.client.isRunning = true)
    (hdev : h.client.uartDev = some dev)
    (hsteps : ReflTransGen (Step env cenv (Works h.client.dataEncode)) (start h) l) :
    (l.1.up = true ∧ l.1.wrote <+: l.2.read ∧
      (l.1.Idle → l.1.wrote = l.2.read ∧ l.1.state.session.isRunning = true ∧
        l.1.state.session.uartDev = some h.remoteDevice)) ∧
    (l.2.up = true ∧ l.2.wrote <+: l.1.read ∧ (l.2.Idle → l.2.wrote = l.1.read)) := by
  obtain ⟨z, ⟨hz, hz'⟩, hleft, hright⟩ := (sound_start hu hrun hdev env cenv).reaches hu henv hcenv hsteps
  rw [hright.same.2.2.1] at hz
  rw [hleft.same.2.2.1] at hz'
  obtain ⟨hup, hpre, hall⟩ := hleft.wrote hz
  obtain ⟨hup', hpre', hall'⟩ := hright.wrote hz'
  refine ⟨⟨hup, hpre, fun hidle => ?_⟩, hup', hpre', fun hidle => (hall' hidle).1⟩
  obtain ⟨hwrote, es, ⟨hps, -⟩ | ⟨hps, -⟩ | ⟨-, hs⟩⟩ := hall hidle
  · cases hps
  · cases hps
  · rw [hs]
    exact ⟨hwrote, rfl, rfl⟩

theorem usable_runningClient : runningClient.Usable :=
  ⟨by decide, ⟨9, by decide, rfl, by decide +kernel⟩, by decide +kernel, by decide +kernel⟩

theorem exact_one_byte :
    ∃ l, ReflTransGen (Step (fun _ => ⟨none, false, false⟩) (fun _ => ⟨none, false, false⟩) (Works false))
        (start runningClient) l ∧ l.2.read = [[0x41]] ∧
      (l.1.up = true ∧ l.1.wrote = [[0x41]] ∧ l.1.state.session.isRunning = true ∧
        l.1.state.session.uartDev = some ⟨0, "a", 9, true⟩) ∧
      (l.2.up = true ∧ l.2.wrote <+: l.1.read ∧ (l.2.Idle → l.2.wrote = l.1.read)) := by
  obtain ⟨l, hsteps, hidle, hread, -⟩ := step_delivers (Works false) ⟨[0x41], rfl, by decide +kernel⟩
  obtain ⟨⟨hup, -, hserved⟩, hright⟩ :=
    exact usable_runningClient (fun _ => ⟨rfl, rfl⟩) (fun _ => rfl) rfl rfl hsteps
  obtain ⟨hwrote, hrunning, hdev⟩ := hserved hidle
  exact ⟨l, hsteps, hread, ⟨hup, hwrote.trans hread, hrunning, hdev⟩, hright⟩

end Link

/-! ### Delivery -/

section Delivery

variable {σ : Type*} {E : Peer σ} {dataEncode : Bool} {dev : Serial} {Phase : List Packet → σ → Prop}
variable {pushed : List Bytes} {allowed allowed' : Option Bytes → Prop} {es : List Event}

/-- The frames that an end sends can be read. -/
theorem Station.Act.framed {x x' : Station σ} (h : Station.Act E allowed x x' es)
    (hx : E.dataEncode x.state = dataEncode) : ∀ raw ∈ sentFrames es, Framed dataEncode raw := by
  intro raw hraw
  obtain ⟨e, he, hsent⟩ := List.mem_filterMap.1 hraw
  cases e with
  | sent raw' =>
    cases hsent
    cases h with
    | dispatch p rest _ _ =>
      rcases (E.newEvents_spec x.state p).2 with ⟨-, -, hnew⟩ | hq
      · rw [hnew] at he
        cases List.mem_singleton.1 he
      · obtain ⟨msg, hmsg⟩ := hq.errors _ he
        rw [hx] at hmsg
        exact .of_init "error" (encode msg) (by decide) hmsg.symm
    | read rx _ _ hne _ =>
      by_cases hrun : E.isRunning x.state = true
      · rw [Peer.readEvents_of_running hrun hne, hx] at he
        exact .of_init "data" rx (by decide) (Event.sent.inj (List.mem_singleton.1 he)).symm
      · rw [Peer.readEvents_of_not_running hrun] at he
        cases he
    | fail _ => cases he
  | _ => cases hsent

theorem Station.framed_of_acts {x x' : Station σ} (h : (Station.machine E allowed dataEncode).Acts x x' es)
    (hx : E.dataEncode x.state = dataEncode) : ∀ raw ∈ sentFrames es, Framed dataEncode raw := by
  induction h with
  | refl _ =>
    intro raw hraw
    cases hraw
  | head hact _ ih =>
    intro raw hraw
    rw [sentFrames, List.filterMap_append] at hraw
    rcases List.mem_append.1 hraw with hraw | hraw
    · exact Station.Act.framed hact hx raw hraw
    · exact ih ((Station.Act.dataEncode_eq hact).trans hx) raw hraw

/-- Frames that can be read and carry no packet are none. -/
theorem sentFrames_eq_nil (hf : ∀ raw ∈ sentFrames es, Framed dataEncode raw) (hm : messages dataEncode es = []) :
    sentFrames es = [] := by
  rw [← filterMap_sentFrames, List.filterMap_eq_nil_iff] at hm
  refine List.eq_nil_iff_forall_not_mem.2 fun raw hraw => ?_
  obtain ⟨p, hkey, hp⟩ := hf raw hraw
  have := hm raw hraw
  rw [readWhole_of_getBytes hkey.1 hkey.2 hp] at this
  cases this

theorem Station.Sound.acts (ho : Opening E dataEncode dev Phase) {x x' : Station σ} (hx : x.Sound Phase pushed)
    (h : (Station.machine E (Works dataEncode) dataEncode).Acts x x' es) :
    x'.Sound Phase pushed ∧ ∃ rs, x'.read = x.read ++ rs ∧ messages dataEncode es = rs.map (Packet.init "data" ·) := by
  induction h with
  | refl x => exact ⟨hx, [], (List.append_nil _).symm, rfl⟩
  | head hact _ ih =>
    obtain ⟨hx', rs, hread, hes⟩ := hx.act ho hact
    obtain ⟨hx'', rs', hread', hes'⟩ := ih hx'
    refine ⟨hx'', rs ++ rs', ?_, ?_⟩
    · rw [hread', hread, List.append_assoc]
    · rw [messages_append, hes, hes', List.map_append]

theorem Port.Act.mono {x x' : Port σ} (h : Port.Act E allowed x x' es) (hle : ∀ o, allowed o → allowed' o) :
    Port.Act E allowed' x x' es := by
  cases h with
  | network raws rest cs hchunks hframes hseg => exact .network _ raws rest cs hchunks hframes hseg
  | turn t rest hup ht hallowed =>
    refine .turn _ t rest hup ht ⟨fun hp => hle _ (hallowed.poll hp), fun hw => hle _ (hallowed.raises hw), ?_⟩
    exact fun rx hw hne => hle _ (hallowed.bytes rx hw hne)

/-- Without reading, a sound end sends nothing. -/
theorem Port.Refines.quiet (ho : Opening E dataEncode dev Phase) {x x' : Port σ} {y : Station σ}
    (hr : Port.Refines E dataEncode x y) (hy : y.Sound Phase pushed) (hact : Port.Act E (fun _ => False) x x' es)
    (hread : x'.read = x.read) :
    sentFrames es = [] ∧ ∃ y', Port.Refines E dataEncode x' y' ∧ y'.Sound Phase pushed := by
  obtain ⟨y', hacts, hr'⟩ := (Port.simulates E (Works dataEncode) dataEncode).act x x' y es hr
    (hact.mono fun _ h => h.elim)
  obtain ⟨hy', rs, hrs, hes⟩ := hy.acts ho hacts
  refine ⟨?_, y', hr', hy'⟩
  rw [hr'.same.2.2.1, hread, hr.same.2.2.1, List.self_eq_append_right] at hrs
  rw [hrs] at hes
  refine sentFrames_eq_nil (Station.framed_of_acts hacts ?_) hes
  rw [hr.same.1]
  exact hr.encode

/-- The frame can be received in one piece. -/
def Whole (dataEncode : Bool) (raw : Bytes) : Prop := Segment dataEncode [raw] [raw]

/-- What is in flight to a sound end can be delivered by turns that only receive. -/
theorem Port.Refines.drains (ho : Opening E dataEncode dev Phase) {x : Port σ} {y : Station σ}
    (hr : Port.Refines E dataEncode x y) (hy : y.Sound Phase pushed) (hf : ∀ raw ∈ x.frames, Whole dataEncode raw) :
    ∃ x' y' es, ((Port.machine E fun _ => False).Acts x x' es ∧ sentFrames es = []) ∧ (x'.Idle ∧ x'.read = x.read) ∧
      Port.Refines E dataEncode x' y' ∧ y'.Sound Phase pushed := by
  induction hn : x.chunks.length + 2 * x.frames.length using Nat.strong_induction_on generalizing x y with
  | _ n ih =>
    have hgo {x₁ : Port σ} {es : List Event} (hact : Port.Act E (fun _ => False) x x₁ es) (hread : x₁.read = x.read)
        (hframes : ∀ raw ∈ x₁.frames, Whole dataEncode raw)
        (hlt : x₁.chunks.length + 2 * x₁.frames.length < n) :
        ∃ x' y' es, ((Port.machine E fun _ => False).Acts x x' es ∧ sentFrames es = []) ∧
          (x'.Idle ∧ x'.read = x.read) ∧ Port.Refines E dataEncode x' y' ∧ y'.Sound Phase pushed := by
      obtain ⟨hsent, y₁, hr₁, hy₁⟩ := hr.quiet ho hy hact hread
      obtain ⟨x', y', es', ⟨hacts, hsent'⟩, ⟨hidle, hread'⟩, hr', hy'⟩ := ih _ hlt hr₁ hy₁ hframes rfl
      refine ⟨x', y', es ++ es', ⟨.head hact hacts, ?_⟩, ⟨hidle, hread'.trans hread⟩, hr', hy'⟩
      rw [sentFrames, List.filterMap_append]
      exact List.append_eq_nil_iff.2 ⟨hsent, hsent'⟩
    cases hchunks : x.chunks with
    | cons c cs =>
      -- the loop receives the next chunk
      have hup : x.up = true := hr.same.2.1.symm.trans hy.up
      have hact : Port.Act E (fun _ => False) x _ _ :=
        .turn x ⟨.received c, .bytes []⟩ cs hup (by rw [hchunks]; exact .chunk c cs)
          ⟨fun h => (by simp at h), fun h => (by cases h), fun rx h hne => hne (Waiting.bytes.inj h).symm⟩
      have hnothing : E.readAll (x.state, x.recvBuffer) ⟨.received c, .bytes []⟩ = [] := by
        unfold Peer.readAll
        cases E.poll (x.state, x.recvBuffer) (.received c) with
        | ok st => exact if_neg (by simp)
        | raised st => rfl
      refine hgo hact ?_ hf ?_
      · show x.read ++ E.readAll _ _ = x.read
        rw [hnothing, List.append_nil]
      · show cs.length + 2 * x.frames.length < n
        rw [hchunks, List.length_cons] at hn
        omega
    | nil =>
      cases hframes : x.frames with
      | nil =>
        exact ⟨x, y, [], ⟨.refl x, rfl⟩, ⟨⟨hchunks, hframes⟩, rfl⟩, hr, hy⟩
      | cons raw rest =>
        -- the network delivers the next frame in one piece
        have hseg : Segment (E.dataEncode x.state) [raw] [raw] := by
          rw [hr.encode]
          exact hf raw (by rw [hframes]; exact List.mem_cons_self)
        refine hgo (.network x [raw] rest [raw] hchunks hframes hseg) rfl ?_ ?_
        · exact fun raw' h => hf raw' (by rw [hframes]; exact List.mem_cons_of_mem _ h)
        · show 1 + 2 * rest.length < n
          rw [hchunks, hframes, List.length_nil, List.length_cons] at hn
          omega

/-- In plain mode a frame is received in one piece; in encoded mode when the loop leaves no start symbol of it. -/
theorem Framed.whole {raw : Bytes} (hf : Framed dataEncode raw)
    (h : dataEncode = true → ∀ p, readWhole dataEncode raw = some p →
      ¬ symbolStartBytes <:+: raw.drop (7 + p.dataSize)) : Whole dataEncode raw := by
  obtain ⟨p, hkey, hp⟩ := hf
  refine .whole p raw hkey hp ?_
  cases dataEncode with
  | true => exact h rfl p (readWhole_of_getBytes hkey.1 hkey.2 hp)
  | false =>
    have hcore : raw = p.core ++ symbolEndBytes := (Packet.getBytes_eq_some.1 hp).2
    rw [hcore, List.drop_left' p.length_core]
    decide

/-- An end with frames in flight that can be read. -/
def Port.Readable (dataEncode : Bool) (x : Port σ) : Prop := ∀ raw ∈ x.frames, Framed dataEncode raw

theorem Port.Readable.act {x x' : Port σ} (hx : x.Readable dataEncode) (hact : Port.Act E allowed x x' es) :
    x'.Readable dataEncode := by
  cases hact with
  | network raws rest cs _ hframes _ =>
    intro raw hraw
    exact hx raw (by rw [hframes]; exact List.mem_append_right _ hraw)
  | turn t rest _ _ _ => exact hx

theorem Port.Readable.accept {x : Port σ} (hx : x.Readable dataEncode)
    (hes : ∀ raw ∈ sentFrames es, Framed dataEncode raw) :
    Port.Readable dataEncode { x with frames := x.frames ++ sentFrames es } := by
  intro raw hraw
  rcases List.mem_append.1 hraw with hraw | hraw
  · exact hx raw hraw
  · exact hes raw hraw

end Delivery

namespace Link

variable {env cenv : Nat → Env} {h : ConnectHelper} {l l' : Link} {dev : Serial}
variable {allowed : Option Bytes → Prop} {dataEncode : Bool}

/-- The frames in flight to both ends can be read. -/
def Readable (dataEncode : Bool) (l : Link) : Prop := l.1.Readable dataEncode ∧ l.2.Readable dataEncode

theorem readable_start (h : ConnectHelper) : Readable h.client.dataEncode (start h) := by
  refine ⟨fun raw hraw => ?_, fun raw hraw => (by cases hraw)⟩
  obtain ⟨e, he, hsent⟩ := List.mem_filterMap.1 hraw
  simp only [ConnectHelper.greeting, List.mem_cons, List.not_mem_nil, or_false] at he
  rcases he with rfl | rfl | rfl
  · exact .of_init "path" (encode h.remotePath) (by decide) hsent
  · exact .of_init "baud" (encode (toString h.remoteBaud)) (by decide) hsent
  · exact .of_init "start" [] (by decide) hsent

theorem Readable.step {z : Station Handling × Station ConnectHelper} (hl : Readable dataEncode l)
    (habs : Abstracts dataEncode env cenv l z) (hstep : Step env cenv allowed l l') : Readable dataEncode l' := by
  obtain ⟨hleft, hright⟩ := habs
  cases hstep with
  | left hact =>
    obtain ⟨_, hacts, -⟩ := (Port.simulates (Handling.peer env) allowed dataEncode).act _ _ _ _ hleft hact
    refine ⟨hl.1.act hact, hl.2.accept (Station.framed_of_acts hacts ?_)⟩
    rw [hleft.same.1]
    exact hleft.encode
  | right hact =>
    obtain ⟨_, hacts, -⟩ := (Port.simulates (ConnectHelper.peer cenv) allowed dataEncode).act _ _ _ _ hright hact
    refine ⟨hl.1.accept (Station.framed_of_acts hacts ?_), hl.2.act hact⟩
    rw [hright.same.1]
    exact hright.encode

/-- Nothing that has been read is stuck: from every state of a run without failures, the two loops can deliver all of it
by receiving alone.  In encoded mode this needs that the frames in flight leave no start symbol in the buffer. -/
theorem delivered (hu : h.Usable) (henv : ∀ n, (env n).Serves) (hcenv : ∀ n, (cenv n).writeRaises = false)
    (hrun : h.client.isRunning = true) (hdev : h.client.uartDev = some dev)
    (hsteps : ReflTransGen (Step env cenv (Works h.client.dataEncode)) (start h) l)
    (hloose : h.client.dataEncode = true → ∀ raw ∈ l.1.frames ++ l.2.frames, ∀ p, readWhole true raw = some p →
      ¬ symbolStartBytes <:+: raw.drop (7 + p.dataSize)) :
    ∃ l', ReflTransGen (Step env cenv fun _ => False) l l' ∧ (l'.1.read = l.1.read ∧ l'.2.read = l.2.read) ∧
      l'.1.wrote = l.2.read ∧ l'.2.wrote = l.1.read := by
  have hinv : Sound h dev env cenv l ∧ Readable h.client.dataEncode l := by
    clear hloose
    induction hsteps with
    | refl => exact ⟨sound_start hu hrun hdev env cenv, readable_start h⟩
    | tail _ hstep ih =>
      obtain ⟨z, -, habs⟩ := ih.1
      exact ⟨ih.1.reaches hu henv hcenv (.single hstep), ih.2.step habs hstep⟩
  obtain ⟨⟨z, ⟨hz, hz'⟩, hleft, hright⟩, hreadable⟩ := hinv
  have hwhole {raw : Bytes} (hf : Framed h.client.dataEncode raw) (hmem : raw ∈ l.1.frames ++ l.2.frames) :
      Whole h.client.dataEncode raw := by
    refine hf.whole fun he p hp => hloose he raw hmem p ?_
    rwa [he] at hp
  obtain ⟨x, y, es, ⟨hacts, hes⟩, ⟨hidle, hread⟩, hr, hy⟩ := hleft.drains (Handling.opening henv hu) hz
    fun raw hraw => hwhole (hreadable.1 raw hraw) (List.mem_append_left _ hraw)
  obtain ⟨x', y', es', ⟨hacts', hes'⟩, ⟨hidle', hread'⟩, hr', hy'⟩ :=
    hright.drains (ConnectHelper.opening hcenv _ dev) hz'
      fun raw hraw => hwhole (hreadable.2 raw hraw) (List.mem_append_right _ hraw)
  have haccept : (Port.machine (ConnectHelper.peer cenv) fun _ => False).accept l.2 es = l.2 := by
    show { l.2 with frames := l.2.frames ++ sentFrames es } = l.2
    rw [hes, List.append_nil]
  have haccept' : (Port.machine (Handling.peer env) fun _ => False).accept x es' = x := by
    show { x with frames := x.frames ++ sentFrames es' } = x
    rw [hes', List.append_nil]
  refine ⟨(x, x'), ?_, ⟨hread, hread'⟩, ?_, ?_⟩
  · have hfirst := Duplex.reaches_left (N := Port.machine (ConnectHelper.peer cenv) fun _ => False) hacts l.2
    have hsecond := Duplex.reaches_right (M := Port.machine (Handling.peer env) fun _ => False) hacts' x
    rw [haccept] at hfirst
    rw [haccept'] at hsecond
    exact hfirst.trans hsecond
  · rw [((hr.wrote hy).2.2 hidle).1, hright.same.2.2.1]
  · rw [((hr'.wrote hy').2.2 hidle').1, hleft.same.2.2.1]

theorem delivered_one_byte :
    ∃ l l', ReflTransGen (Step (fun _ => ⟨none, false, false⟩) (fun _ => ⟨none, false, false⟩) (Works false))
        (start runningClient) l ∧ l.2.read = [[0x41]] ∧
      ReflTransGen (Step (fun _ => ⟨none, false, false⟩) (fun _ => ⟨none, false, false⟩) fun _ => False) l l' ∧
        l'.1.wrote = [[0x41]] ∧ l'.2.wrote = l.1.read := by
  obtain ⟨l, hstep, hread⟩ := step_reads (fun _ => ⟨none, false, false⟩) (Works false)
    ⟨[0x41], rfl, by decide +kernel⟩
  obtain ⟨l', hsteps, -, hleft, hright⟩ := delivered usable_runningClient (fun _ => ⟨rfl, rfl⟩) (fun _ => rfl) rfl rfl
    (.single hstep) fun h => (by cases h)
  exact ⟨l, l', .single hstep, hread, hsteps, hleft.trans hread, hright⟩

end Link

end WirelessUart
