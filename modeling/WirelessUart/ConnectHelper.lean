import WirelessUart.ByteLib.Duplex
import WirelessUart.Client
import WirelessUart.Peer

/-!
# The client

`WirelessUartConnectHelper` beyond `handle_packet`: its own device (`uart_open`, `uart_close`), the packets that
`handle` begins with, and `start_forever`, which goes from one connection to the next.  The loop of `handle` is the
`turn` of the client's `peer`.

`start_forever` keeps `recv_buffer` and the device between connections.  Whatever the network and the device do, the
device is opened once in the life of the client, after attempts that all failed, and is never closed; the client is
running exactly while it is connected; and what it sends is, for each connection, the three packets of the handshake
followed by data and errors (`lifecycle`).
-/

namespace WirelessUart

open ByteLib

/-- The fields of `WirelessUartConnectHelper`; `client` are those that `handle_packet` uses, `log` the packets it was
given. -/
structure ConnectHelper where
  client : Client
  uartPath : String
  uartBaud : Int
  remotePath : String
  remoteBaud : Int
  opens : Nat := 0
  log : List Packet := []

namespace ConnectHelper

/-! ### The methods -/

def emit (self : ConnectHelper) (e : Event) : ConnectHelper := { self with client := self.client.emit e }

/-- `send_packet` -/
def send (self : ConnectHelper) (keyStr : String) (val : SendValue := .bytes []) : ConnectHelper :=
  self.emit (.sent (sendPacket self.client.dataEncode keyStr val))

/-- `handle_packet` -/
def handlePacket (env : Nat → Env) (self : ConnectHelper) (newPacket : Packet) : Outcome ConnectHelper :=
  (self.client.handlePacket (env self.log.length) newPacket).map fun c =>
    { self with client := c, log := self.log ++ [newPacket] }

/-- `serial.Serial(self.uart_path, self.uart_baud)`, and the test of the new device; a failure is only logged. -/
def construct (env : Env) (self : ConnectHelper) : ConnectHelper × Bool :=
  match env.openError with
  | some _ => (self.emit (.openFailed self.uartPath self.uartBaud), false)
  | none =>
    let dev : Serial := ⟨self.opens, self.uartPath, self.uartBaud, true⟩
    ({ self with client := { self.client with uartDev := some dev }, opens := self.opens + 1 }.emit (.opened dev),
      dev.isOpen)

/-- `uart_close` -/
def uartClose (env : Env) (self : ConnectHelper) : ConnectHelper × Bool :=
  match self.client.uartDev with
  | some dev =>
    if env.closeRaises then (self.emit (.closeFailed dev), false)
    else ({ self with client := { self.client with uartDev := none } }.emit (.closed dev), true)
  | none => (self, false)

/-- `uart_open` -/
def uartOpen (env : Env) (self : ConnectHelper) : ConnectHelper × Bool :=
  match self.client.uartDev with
  | some dev =>
    if dev.portstr = self.uartPath ∧ dev.baudrate = self.uartBaud then (self, true)
    else (self.uartClose env).1.construct env
  | none => self.construct env

/-- What `handle` sends before its loop. -/
def greet (self : ConnectHelper) : ConnectHelper :=
  ((self.send "path" (.str self.remotePath)).send "baud" (.int self.remoteBaud)).send "start"

def setRunning (self : ConnectHelper) (isRunning : Bool) : ConnectHelper :=
  { self with client := { self.client with isRunning := isRunning } }

theorem state_client_handlePacket (env : Nat → Env) (h : ConnectHelper) (p : Packet) :
    (handlePacket env h p).state.client = (h.client.handlePacket (env h.log.length) p).state := by
  unfold handlePacket
  cases h.client.handlePacket (env h.log.length) p <;> rfl

theorem dataEncode_handlePacket (env : Nat → Env) (h : ConnectHelper) (p : Packet) :
    (handlePacket env h p).state.client.dataEncode = h.client.dataEncode := by
  rw [state_client_handlePacket]
  by_cases hd : p.keyStr = "data"
  · rw [Client.handlePacket_data _ _ hd]
    split_ifs <;> rfl
  by_cases he : p.keyStr = "error"
  · rw [Client.handlePacket_error _ _ he]
    split_ifs <;> rfl
  · rw [Client.handlePacket_unknown _ _ hd he]
    rfl

/-- A packet adds one write to the events, or quiet events. -/
theorem events_handlePacket (env : Nat → Env) (h : ConnectHelper) (p : Packet) :
    ∃ es, (handlePacket env h p).state.client.events = h.client.events ++ es ∧
      ((p.keyStr = "data" ∧ h.client.isRunning = true ∧ es = [.wrote h.client.uartDev p.valBytes]) ∨
        Quiet h.client.dataEncode 2 es) := by
  obtain ⟨hes, hcases⟩ := Client.newEvents_spec (env h.log.length) h.client p
  rw [state_client_handlePacket]
  exact ⟨_, hes, hcases.imp id fun hq => hq.mono (by split <;> omega)⟩

/-- The client's end of the connection. -/
def peer (env : Nat → Env) : Peer ConnectHelper where
  dataEncode h := h.client.dataEncode
  handlePacket := handlePacket env
  uartDev h := h.client.uartDev
  isRunning h := h.client.isRunning
  events h := h.client.events
  emit := emit
  emit_fields _ _ := ⟨rfl, rfl, rfl, rfl⟩
  dataEncode_handlePacket := dataEncode_handlePacket env
  events_handlePacket := events_handlePacket env

/-! ### `start_forever` -/

end ConnectHelper

/-- Where `start_forever` stands: between two connections, or in the loop of `handle`. -/
structure Forever where
  helper : ConnectHelper
  recvBuffer : Bytes := []
  connected : Bool := false

namespace Forever

/-- One step of `start_forever`: up to `connect`, which fails or leads into `handle`; or one turn of the loop of
`handle`, which goes on or ends with an exception. -/
inductive Step (env : Nat → Env) : Forever → Forever → Prop
  | refused (now : Env) (st : Forever) : st.connected = false →
      Step env st { st with helper := (st.helper.uartOpen now).1.setRunning false }
  | connects (now : Env) (st : Forever) : st.connected = false →
      Step env st
        { st with helper := ((st.helper.uartOpen now).1.setRunning true).greet, connected := true }
  | turn (t : Turn) (st : Forever) (h : ConnectHelper) (b : Bytes) : st.connected = true →
      (ConnectHelper.peer env).turn (st.helper, st.recvBuffer) t = .ok (h, b) → Step env st ⟨h, b, true⟩
  | ends (t : Turn) (st : Forever) (h : ConnectHelper) (b : Bytes) : st.connected = true →
      (ConnectHelper.peer env).turn (st.helper, st.recvBuffer) t = .raised (h, b) →
      Step env st ⟨h.setRunning false, b, false⟩

end Forever

/-! ### What a turn does -/

/-- The event sends an error or data. -/
def Event.Talks (dataEncode : Bool) (e : Event) : Prop :=
  (∃ msg, e = .sent (sendPacket dataEncode "error" (.str msg))) ∨
    ∃ rxBytes, e = .sent (sendPacket dataEncode "data" (.bytes rxBytes))

/-- In the loop of `handle` the client writes to its device, and sends data and errors. -/
def Client.Says (c : Client) (e : Event) : Prop := (∃ v, e = .wrote c.uartDev v) ∨ e.Talks c.dataEncode

namespace ConnectHelper

/-- `h'` is `h` after some turns of the loop: only the events and the log have grown. -/
structure Continues (h h' : ConnectHelper) : Prop where
  fields : h'.client = { h.client with events := h'.client.events } ∧ h'.uartPath = h.uartPath ∧
    h'.uartBaud = h.uartBaud ∧ h'.remotePath = h.remotePath ∧ h'.remoteBaud = h.remoteBaud ∧ h'.opens = h.opens
  events : ∃ es, h'.client.events = h.client.events ++ es ∧ ∀ e ∈ es, h.client.Says e

variable {h h' k : ConnectHelper} {env : Nat → Env} {st st' : ConnectHelper × Bytes}

theorem Continues.refl (h : ConnectHelper) : Continues h h :=
  ⟨⟨rfl, rfl, rfl, rfl, rfl, rfl⟩, [], (List.append_nil _).symm, by simp⟩

theorem Continues.trans (hk : Continues h k) (hk' : Continues k h') : Continues h h' := by
  obtain ⟨⟨hc, hp, hb, hrp, hrb, ho⟩, es, hes, hsays⟩ := hk
  obtain ⟨⟨hc', hp', hb', hrp', hrb', ho'⟩, es', hes', hsays'⟩ := hk'
  refine ⟨⟨by rw [hc', hc], hp'.trans hp, hb'.trans hb, hrp'.trans hrp, hrb'.trans hrb, ho'.trans ho⟩,
    es ++ es', ?_, ?_⟩
  · rw [hes', hes, List.append_assoc]
  · intro e he
    rcases List.mem_append.1 he with he | he
    · exact hsays e he
    · have := hsays' e he
      rwa [hc] at this

theorem Continues.emit {e : Event} (he : h.client.Says e) : Continues h (h.emit e) :=
  ⟨⟨rfl, rfl, rfl, rfl, rfl, rfl⟩, [e], rfl, List.forall_mem_singleton.2 he⟩

theorem continues_handlePacket (env : Nat → Env) (h : ConnectHelper) (p : Packet) :
    Continues h (handlePacket env h p).state := by
  have hclient : ∃ es, (h.client.handlePacket (env h.log.length) p).state =
      { h.client with events := h.client.events ++ es } ∧ ∀ e ∈ es, h.client.Says e := by
    by_cases hd : p.keyStr = "data"
    · rw [Client.handlePacket_data _ _ hd]
      split
      · refine ⟨[.wrote h.client.uartDev p.valBytes], by split <;> rfl, ?_⟩
        exact List.forall_mem_singleton.2 (.inl ⟨_, rfl⟩)
      · refine ⟨[.sent (sendPacket h.client.dataEncode "error" (.str "task not ready."))], rfl, ?_⟩
        exact List.forall_mem_singleton.2 (.inr (.inl ⟨_, rfl⟩))
    by_cases he : p.keyStr = "error"
    · rw [Client.handlePacket_error _ _ he]
      refine ⟨[], ?_, by simp⟩
      rw [List.append_nil]
      split <;> rfl
    · rw [Client.handlePacket_unknown _ _ hd he]
      refine ⟨[.sent (sendPacket h.client.dataEncode "error" (.str ("unknown keyword: " ++ p.keyStr)))], rfl, ?_⟩
      exact List.forall_mem_singleton.2 (.inr (.inl ⟨_, rfl⟩))
  obtain ⟨es, hes, hsays⟩ := hclient
  have hstate : (handlePacket env h p).state =
      { h with client := { h.client with events := h.client.events ++ es }, log := h.log ++ [p] } := by
    rw [← hes]
    unfold handlePacket
    cases h.client.handlePacket (env h.log.length) p <;> rfl
  rw [hstate]
  exact ⟨⟨rfl, rfl, rfl, rfl, rfl, rfl⟩, es, rfl, hsays⟩

theorem continues_forward (env : Nat → Env) (h : ConnectHelper) (rxBytes : Bytes) :
    Continues h ((peer env).forward h rxBytes) := by
  unfold Peer.forward
  split
  · exact .emit (.inr (.inr ⟨rxBytes, rfl⟩))
  · exact .refl h

/-- A turn of the loop only adds what the client says. -/
theorem continues_turn (env : Nat → Env) (st : ConnectHelper × Bytes) (t : Turn) :
    Continues st.1 ((peer env).turn st t).state.1 := by
  have hpoll : Continues st.1 ((peer env).poll st t.poll).state.1 := by
    cases t.poll with
    | received raw =>
      exact receive_invariant (fun k p hk => hk.trans (continues_handlePacket env k p)) _ (.refl st.1) raw
    | _ => exact .refl st.1
  unfold Peer.turn
  cases hp : (peer env).poll st t.poll with
  | raised st' =>
    rw [hp] at hpoll
    exact hpoll
  | ok st' =>
    rw [hp] at hpoll
    show Continues st.1 ((peer env).readDevice st' t.waiting).state.1
    unfold Peer.readDevice
    split
    · exact hpoll
    · cases t.waiting with
      | raises => exact hpoll
      | bytes rxBytes => exact hpoll.trans (continues_forward env st'.1 rxBytes)

end ConnectHelper

/-! ### The life of a client -/

/-- The event neither writes to a device nor opens or closes one successfully; a failed `open` has the settings. -/
def Event.Unopened (path : String) (baud : Int) : Event → Prop
  | .sent _ => True
  | .openFailed port b => port = path ∧ b = baud
  | .wrote none _ => True
  | _ => False

/-- The event sends a packet, or writes to the device `dev`. -/
def Event.Uses (dev : Serial) : Event → Prop
  | .sent _ => True
  | .wrote (some d) _ => d = dev
  | _ => False

namespace ConnectHelper

/-- A client before it has done anything. -/
structure New (h : ConnectHelper) : Prop where
  uartDev : h.client.uartDev = none
  isRunning : h.client.isRunning = false
  events : h.client.events = []
  opens : h.opens = 0

/-- The device that `uart_open` can open. -/
def device (h : ConnectHelper) : Serial := ⟨0, h.uartPath, h.uartBaud, true⟩

/-- No device has been opened, or the only one is in place. -/
def Owns (h : ConnectHelper) : Prop :=
  (h.opens = 0 ∧ h.client.uartDev = none ∧ ∀ e ∈ h.client.events, e.Unopened h.uartPath h.uartBaud) ∨
    (h.client.uartDev = some h.device ∧ ∃ before after, h.client.events = before ++ .opened h.device :: after ∧
      (∀ e ∈ before, e.Unopened h.uartPath h.uartBaud) ∧ ∀ e ∈ after, e.Uses h.device)

/-- The events that send. -/
def sent (h : ConnectHelper) : List Event := h.client.events.filter Event.isSent

/-- The handshake. -/
def greeting (h : ConnectHelper) : List Event :=
  [.sent (sendPacket h.client.dataEncode "path" (.str h.remotePath)),
    .sent (sendPacket h.client.dataEncode "baud" (.int h.remoteBaud)), .sent (sendPacket h.client.dataEncode "start")]

section Life

variable {h h' : ConnectHelper} {env : Nat → Env}

theorem Owns.of_new (h : ConnectHelper) (hn : h.New) : h.Owns :=
  .inl ⟨hn.opens, hn.uartDev, by rw [hn.events]; simp⟩

/-- What the client sends, and what it writes to the device in place, is allowed before and after the device is
opened. -/
theorem Owns.append (ho : h.Owns) {es : List Event} (hdev : h'.client.uartDev = h.client.uartDev)
    (hset : h'.uartPath = h.uartPath ∧ h'.uartBaud = h.uartBaud ∧ h'.opens = h.opens)
    (hevents : h'.client.events = h.client.events ++ es)
    (hes : ∀ e ∈ es, e.isSent = true ∨ ∃ v, e = .wrote h.client.uartDev v) : h'.Owns := by
  obtain ⟨hp, hb, hopens⟩ := hset
  unfold Owns at ho ⊢
  rw [device, hp, hb, hopens, hdev, hevents]
  rcases ho with ⟨hzero, hnone, hall⟩ | ⟨hsome, before, after, heq, hbefore, hafter⟩
  · refine .inl ⟨hzero, hnone, fun e he => ?_⟩
    rcases List.mem_append.1 he with he | he
    · exact hall e he
    · rcases hes e he with hsent | ⟨v, rfl⟩
      · cases e with
        | sent raw => trivial
        | _ => cases hsent
      · rw [hnone]
        trivial
  · refine .inr ⟨hsome, before, after ++ es, by rw [heq]; simp; rfl, hbefore, fun e he => ?_⟩
    rcases List.mem_append.1 he with he | he
    · exact hafter e he
    · rcases hes e he with hsent | ⟨v, rfl⟩
      · cases e with
        | sent raw => trivial
        | _ => cases hsent
      · rw [hsome]
        rfl

theorem Owns.send (ho : h.Owns) (keyStr : String) (val : SendValue) : (h.send keyStr val).Owns :=
  ho.append rfl ⟨rfl, rfl, rfl⟩ rfl (List.forall_mem_singleton.2 (.inl rfl))

theorem Owns.continues (ho : h.Owns) (hc : Continues h h') : h'.Owns := by
  obtain ⟨⟨hclient, hp, hb, -, -, hopens⟩, es, hes, hsays⟩ := hc
  refine ho.append (by rw [hclient]) ⟨hp, hb, hopens⟩ hes fun e he => ?_
  rcases hsays e he with hv | ⟨msg, rfl⟩ | ⟨rx, rfl⟩
  · exact .inr hv
  · exact .inl rfl
  · exact .inl rfl

/-- `uart_open` finds the device in place, or calls the constructor. -/
theorem Owns.uartOpen (ho : h.Owns) (now : Env) :
    (h.uartOpen now).1.Owns ∧ (h.uartOpen now).1.sent = h.sent ∧ (h.uartOpen now).1.greeting = h.greeting := by
  unfold ConnectHelper.uartOpen
  rcases ho with ⟨hzero, hnone, hall⟩ | ⟨hsome, hevents⟩
  · rw [hnone]
    show (h.construct now).1.Owns ∧ (h.construct now).1.sent = h.sent ∧ (h.construct now).1.greeting = h.greeting
    unfold construct
    cases now.openError with
    | some text =>
      refine ⟨.inl ⟨hzero, hnone, fun e he => ?_⟩, ?_, rfl⟩
      · rcases List.mem_append.1 he with he | he
        · exact hall e he
        · rw [List.mem_singleton.1 he]
          exact ⟨rfl, rfl⟩
      · show (h.client.events ++ [_]).filter _ = _
        rw [List.filter_append]
        exact List.append_nil _
    | none =>
      refine ⟨.inr ⟨?_, h.client.events, [], ?_, hall, by simp⟩, ?_, rfl⟩
      · show some (⟨h.opens, h.uartPath, h.uartBaud, true⟩ : Serial) = some ⟨0, h.uartPath, h.uartBaud, true⟩
        rw [hzero]
      · show h.client.events ++ [.opened ⟨h.opens, h.uartPath, h.uartBaud, true⟩] =
          h.client.events ++ [.opened ⟨0, h.uartPath, h.uartBaud, true⟩]
        rw [hzero]
      · show (h.client.events ++ [_]).filter _ = _
        rw [List.filter_append]
        exact List.append_nil _
  · rw [hsome]
    have hsame : h.device.portstr = h.uartPath ∧ h.device.baudrate = h.uartBaud := ⟨rfl, rfl⟩
    dsimp only
    rw [if_pos hsame]
    exact ⟨.inr ⟨hsome, hevents⟩, rfl, rfl⟩

/-- In the loop only errors and data are sent. -/
theorem Continues.sent (hc : Continues h h') :
    ∃ es, h'.sent = h.sent ++ es ∧ ∀ e ∈ es, e.Talks h.client.dataEncode := by
  obtain ⟨-, es, hes, hsays⟩ := hc
  refine ⟨es.filter Event.isSent, by rw [ConnectHelper.sent, hes, List.filter_append]; rfl, fun e he => ?_⟩
  obtain ⟨hmem, hsent⟩ := List.mem_filter.1 he
  rcases hsays e hmem with ⟨v, rfl⟩ | htalk
  · cases hsent
  · exact htalk

theorem sent_greet (h : ConnectHelper) : h.greet.sent = h.sent ++ h.greeting := by
  have hevents : h.greet.client.events = h.client.events ++ h.greeting := by
    show h.client.events ++ [_] ++ [_] ++ [_] = _
    rw [List.append_assoc, List.append_assoc]
    rfl
  rw [ConnectHelper.sent, hevents, List.filter_append]
  rfl

end Life

end ConnectHelper

namespace Forever

variable {env : Nat → Env} {st st' : Forever} {h : ConnectHelper}

/-- What holds of the client `h` all its life. -/
structure Alive (h : ConnectHelper) (st : Forever) : Prop where
  running : st.helper.client.isRunning = st.connected
  owns : st.helper.Owns
  device : st.helper.device = h.device
  greeting : st.helper.greeting = h.greeting
  encode : st.helper.client.dataEncode = h.client.dataEncode
  sent : ∃ talks : List (List Event), st.helper.sent = (talks.map (h.greeting ++ ·)).flatten ∧
    (st.connected = true → talks ≠ []) ∧ ∀ es ∈ talks, ∀ e ∈ es, e.Talks h.client.dataEncode

theorem Alive.of_new (hn : h.New) : Alive h ⟨h, [], false⟩ where
  running := hn.isRunning
  owns := .of_new h hn
  device := rfl
  greeting := rfl
  encode := rfl
  sent := ⟨[], by rw [ConnectHelper.sent, hn.events]; rfl, by simp, by simp⟩

/-- `uart_open` changes nothing but the device and the events. -/
private theorem uartOpen_settings (h : ConnectHelper) (now : Env) :
    (h.uartOpen now).1.device = h.device ∧ (h.uartOpen now).1.client.dataEncode = h.client.dataEncode := by
  have hconstruct (k : ConnectHelper) :
      (k.construct now).1.device = k.device ∧ (k.construct now).1.client.dataEncode = k.client.dataEncode := by
    unfold ConnectHelper.construct
    cases now.openError <;> exact ⟨rfl, rfl⟩
  have hclose : (h.uartClose now).1.device = h.device ∧
      (h.uartClose now).1.client.dataEncode = h.client.dataEncode := by
    unfold ConnectHelper.uartClose
    split
    · split <;> exact ⟨rfl, rfl⟩
    · exact ⟨rfl, rfl⟩
  unfold ConnectHelper.uartOpen
  split
  · split
    · exact ⟨rfl, rfl⟩
    · exact ⟨(hconstruct _).1.trans hclose.1, (hconstruct _).2.trans hclose.2⟩
  · exact hconstruct h

/-- A turn, after which the client is running as long as it is connected. -/
theorem Alive.continues (ha : Alive h st) (hcon : st.connected = true) {k : ConnectHelper}
    (hc : ConnectHelper.Continues st.helper k) {b : Bytes} {c : Bool} :
    Alive h ⟨k.setRunning c, b, c⟩ := by
  obtain ⟨talks, htalks, hne, hall⟩ := ha.sent
  obtain ⟨es, hes, htalk⟩ := hc.sent
  obtain ⟨hclient, hp, hb, hrp, hrb, -⟩ := hc.fields
  have henc : k.client.dataEncode = st.helper.client.dataEncode := by rw [hclient]
  have howns : k.Owns := ha.owns.continues hc
  refine ⟨rfl, howns, ?_, ?_, henc.trans ha.encode, ?_⟩
  · rw [← ha.device]
    show (⟨0, k.uartPath, k.uartBaud, true⟩ : Serial) = ⟨0, st.helper.uartPath, st.helper.uartBaud, true⟩
    rw [hp, hb]
  · rw [← ha.greeting]
    show k.greeting = st.helper.greeting
    rw [ConnectHelper.greeting, henc, hrp, hrb]
    rfl
  · -- the conversation under way goes on
    obtain ⟨talks, last, rfl⟩ := talks.eq_nil_or_concat'.resolve_left (hne hcon)
    refine ⟨talks ++ [last ++ es], ?_, by simp, fun l hl e he => ?_⟩
    · show k.sent = _
      rw [hes, htalks]
      simp
    · rcases List.mem_append.1 hl with hl | hl
      · exact hall l (List.mem_append_left _ hl) e he
      · rw [List.mem_singleton.1 hl] at he
        rcases List.mem_append.1 he with he | he
        · exact hall last (by simp) e he
        · rw [← ha.encode]
          exact htalk e he

theorem Alive.step (ha : Alive h st) (hstep : Step env st st') : Alive h st' := by
  cases hstep with
  | refused now _ hcon =>
    obtain ⟨howns, hsent, hgreet⟩ := ha.owns.uartOpen now
    obtain ⟨hdev, henc⟩ := uartOpen_settings st.helper now
    obtain ⟨talks, htalks, -, hall⟩ := ha.sent
    refine ⟨hcon.symm, howns, hdev.trans ha.device, hgreet.trans ha.greeting, henc.trans ha.encode,
      talks, hsent.trans htalks, fun h => ?_, hall⟩
    rw [hcon] at h
    cases h
  | connects now _ hcon =>
    obtain ⟨howns, hsent, hgreet⟩ := ha.owns.uartOpen now
    obtain ⟨hdev, henc⟩ := uartOpen_settings st.helper now
    obtain ⟨talks, htalks, -, hall⟩ := ha.sent
    have howns' : ((st.helper.uartOpen now).1.setRunning true).Owns := howns
    refine ⟨rfl, ((howns'.send _ _).send _ _).send _ _, hdev.trans ha.device,
      hgreet.trans ha.greeting, henc.trans ha.encode, talks ++ [[]], ?_, by simp, fun l hl e he => ?_⟩
    · rw [ConnectHelper.sent_greet]
      show (st.helper.uartOpen now).1.sent ++ (st.helper.uartOpen now).1.greeting = _
      rw [hsent, hgreet, ha.greeting, htalks]
      simp
    · rcases List.mem_append.1 hl with hl | hl
      · exact hall l hl e he
      · rw [List.mem_singleton.1 hl] at he
        cases he
  | turn t _ k b hcon hturn =>
    have hc : ConnectHelper.Continues st.helper k := by
      have := ConnectHelper.continues_turn env (st.helper, st.recvBuffer) t
      rwa [hturn] at this
    have hrun : k.client.isRunning = true := by
      rw [hc.fields.1, ← hcon]
      exact ha.running
    have hself : k.setRunning true = k := by
      rw [ConnectHelper.setRunning, ← hrun]
    have := ha.continues hcon hc (b := b) (c := true)
    rwa [hself] at this
  | ends t _ k b hcon hturn =>
    have hc : ConnectHelper.Continues st.helper k := by
      have := ConnectHelper.continues_turn env (st.helper, st.recvBuffer) t
      rwa [hturn] at this
    exact ha.continues hcon hc

/-- Over all connections of a client: it is running exactly while it is connected; its device is opened at most once,
is never closed, and gets all that is written; and in each connection the handshake is sent first, and then errors and
data only. -/
theorem lifecycle (hn : h.New) (hrun : Relation.ReflTransGen (Step env) ⟨h, [], false⟩ st) :
    st.helper.client.isRunning = st.connected ∧ (st.helper.Owns ∧ st.helper.device = h.device) ∧
      ∃ talks : List (List Event), st.helper.sent = (talks.map (h.greeting ++ ·)).flatten ∧
        ∀ es ∈ talks, ∀ e ∈ es, e.Talks h.client.dataEncode := by
  have ha : Alive h st := invariant_of_reaches (fun _ _ => Alive.step) hrun (.of_new hn)
  obtain ⟨talks, htalks, -, hall⟩ := ha.sent
  exact ⟨ha.running, ⟨ha.owns, ha.device⟩, talks, htalks, hall⟩

/-- A client before its first connection. -/
def newClient : ConnectHelper :=
  { client := { dataEncode := false }, uartPath := "b", uartBaud := 9, remotePath := "a", remoteBaud := 9 }

/-- The first attempt fails, the second one leads to a connection. -/
theorem lifecycle_second_attempt :
    ∃ st, Relation.ReflTransGen (Step fun _ => ⟨none, false, false⟩) ⟨newClient, [], false⟩ st ∧ st.connected = true ∧
      st.helper.client.isRunning = st.connected ∧ (st.helper.Owns ∧ st.helper.device = newClient.device) ∧
      ∃ talks : List (List Event), st.helper.sent = (talks.map (newClient.greeting ++ ·)).flatten ∧
        ∀ es ∈ talks, ∀ e ∈ es, e.Talks newClient.client.dataEncode := by
  have hrefused : Step (fun _ => ⟨none, false, false⟩) ⟨newClient, [], false⟩ _ :=
    .refused ⟨some "x", false, false⟩ _ rfl
  have hrun := Relation.ReflTransGen.tail (.single hrefused) (Step.connects ⟨none, false, false⟩ _ rfl)
  exact ⟨_, hrun, rfl, lifecycle ⟨rfl, rfl, rfl, rfl⟩ hrun⟩

end Forever

end WirelessUart
