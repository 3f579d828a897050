import WirelessUart.Greeting
import WirelessUart.Origin

/-!
# From one connection to the next

`start_forever` keeps `recv_buffer` when a connection ends.  So what a client receives in its life is one stream, that
of the results of `recv` after `strip()` (`Life`), and what it writes are values from frames of this stream, in their
order (`Life.writes_in_order`).

The buffer can be stuck: then the client handles nothing, whatever connections come, and keeps all that arrives.  An
unfinished frame is waited for until all of its bytes have arrived (`Life.unfinished`).  A frame whose value cannot be
decoded is never removed, and the client leaves each connection as soon as it has received anything
(`Life.undecodable`).

A connection that the server closes is not left at all: `recv` returns the empty byte string, and the loop of `handle`
goes on (`closed_by_server`).
-/

namespace WirelessUart

open ByteLib

/-! ### Stuck buffers -/

/-- The loop finds no packet that it could handle, and keeps the buffer. -/
structure Stuck (dataEncode : Bool) (b : Bytes) : Prop where
  start : symbolStartBytes <:+: b
  undecoded : ∀ p, parse b = some p → received dataEncode p = none

section Stuck

variable {σ : Type*} {dataEncode : Bool} {handlePacket : σ → Packet → Outcome σ} {b c g raw : Bytes}
variable {p : Packet} {s : σ}

/-- A packet that is found stays the first one. -/
theorem parse_append_right (h : parse b = some p) (s : Bytes) : parse (b ++ s) = some p := by
  rw [parse_eq_some_iff] at h ⊢
  obtain ⟨g, d, t, rfl, hmin, hlt, hd, hg⟩ := h
  refine ⟨g, d, t ++ s, by simp only [List.append_assoc], ?_, hlt, hd, fun u hu hne hl => ?_⟩
  · rw [← List.append_assoc, List.length_append]
    omega
  · have hlonger : u ++ (frameBytes d (calcChecksum d) ++ (t ++ s)) =
        (u ++ (frameBytes d (calcChecksum d) ++ t)) ++ s := by simp only [List.append_assoc]
    rw [hlonger] at hl
    refine not_live_append ?_ (hg u hu hne) s hl
    have := (start_prefix_frameBytes d (calcChecksum d)).length_le
    rw [List.length_append, List.length_append]
    omega

/-- An unfinished frame. -/
theorem stuck_of_incomplete (dataEncode : Bool) (hg : ¬ symbolStartBytes <:+: g) (hs : symbolStartBytes <+: c)
    (hc : ¬ Complete c) : Stuck dataEncode (g ++ c) where
  start := by
    obtain ⟨t, rfl⟩ := hs
    exact ⟨g, t, List.append_assoc _ _ _⟩
  undecoded p hp := by
    rw [parse_of_incomplete hg hs hc] at hp
    cases hp

/-- A frame whose value cannot be decoded, whatever follows it. -/
theorem stuck_of_undecoded (h : parse b = some p) (hp : received dataEncode p = none) (s : Bytes) :
    Stuck dataEncode (b ++ s) where
  start := by
    have := find_isSome_of_parse (parse_append_right h s)
    rwa [find_isSome] at this
  undecoded q hq := by
    rw [parse_append_right h s] at hq
    rwa [← Option.some.inj hq]

/-- The loop ends with the packet in front of the buffer. -/
theorem receive_of_undecoded (hr : strip raw ≠ []) (h : parse (b ++ strip raw) = some p)
    (hp : received dataEncode p = none) :
    receive dataEncode handlePacket (s, b) raw = .raised (s, b ++ strip raw) := by
  rw [receive_of_ne hr, recvLoop_of_undecoded h hp]

/-- Nothing is handled, and what is received is kept. -/
theorem receive_of_stuck (h : Stuck dataEncode (b ++ strip raw)) :
    (receive dataEncode handlePacket (s, b) raw).state = (s, b ++ strip raw) := by
  by_cases hr : strip raw = []
  · rw [receive, if_neg (by simp [hr]), hr, List.append_nil]
    rfl
  · cases hp : parse (b ++ strip raw) with
    | none =>
      rw [receive_of_ne hr, recvLoop_of_none hp]
      dsimp only
      rw [flush_of_start h.start]
      rfl
    | some p =>
      rw [receive_of_undecoded hr hp (h.undecoded p hp)]
      rfl

end Stuck

/-! ### The life of a client -/

namespace ConnectHelper

variable {h : ConnectHelper} {b : Bytes}

/-- What `uart_open` and the handshake leave as it is. -/
structure Pauses (h h' : ConnectHelper) : Prop where
  log : h'.log = h.log
  dataEncode : h'.client.dataEncode = h.client.dataEncode
  wrote : written h'.client.events = written h.client.events

theorem Pauses.trans {h h' k : ConnectHelper} (hk : Pauses h k) (hk' : Pauses k h') : Pauses h h' :=
  ⟨hk'.log.trans hk.log, hk'.dataEncode.trans hk.dataEncode, hk'.wrote.trans hk.wrote⟩

theorem pauses_emit {e : Event} (he : written [e] = []) : Pauses h (h.emit e) := by
  refine ⟨rfl, rfl, ?_⟩
  show written (h.client.events ++ [e]) = _
  rw [written_append, he, List.append_nil]

theorem pauses_uartOpen (h : ConnectHelper) (now : Env) : Pauses h (h.uartOpen now).1 := by
  have hconstruct (k : ConnectHelper) : Pauses k (k.construct now).1 := by
    unfold construct
    cases now.openError with
    | some text => exact pauses_emit rfl
    | none => exact ⟨rfl, rfl, (pauses_emit (h := k) (e := .opened _) rfl).wrote⟩
  have hclose : Pauses h (h.uartClose now).1 := by
    unfold uartClose
    split
    · split
      · exact pauses_emit rfl
      · exact ⟨rfl, rfl, (pauses_emit (h := h) (e := .closed _) rfl).wrote⟩
    · exact ⟨rfl, rfl, rfl⟩
  unfold uartOpen
  split
  · split
    · exact ⟨rfl, rfl, rfl⟩
    · exact hclose.trans (hconstruct _)
  · exact hconstruct h

theorem pauses_greet (h : ConnectHelper) : Pauses h h.greet :=
  ((pauses_emit rfl).trans (pauses_emit rfl)).trans (pauses_emit rfl)

theorem pauses_forward (env : Nat → Env) (h : ConnectHelper) (rxBytes : Bytes) :
    Pauses h ((peer env).forward h rxBytes) := by
  unfold Peer.forward
  split
  · exact pauses_emit rfl
  · exact ⟨rfl, rfl, rfl⟩

theorem pauses_readDevice (env : Nat → Env) (h : ConnectHelper) (b : Bytes) (waiting : Waiting) :
    ((peer env).readDevice (h, b) waiting).state.2 = b ∧
      Pauses h ((peer env).readDevice (h, b) waiting).state.1 := by
  unfold Peer.readDevice
  split
  · exact ⟨rfl, rfl, rfl, rfl⟩
  · cases waiting with
    | raises => exact ⟨rfl, rfl, rfl, rfl⟩
    | bytes rxBytes => exact ⟨rfl, pauses_forward env h rxBytes⟩

/-- In a turn with a stuck buffer nothing is handled, and what is received is kept. -/
theorem turn_of_stuck (env : Nat → Env) {t : Turn} (hstuck : Stuck h.client.dataEncode (b ++ t.arrived)) :
    ((peer env).turn (h, b) t).state.2 = b ++ t.arrived ∧ Pauses h ((peer env).turn (h, b) t).state.1 := by
  have hpoll : ((peer env).poll (h, b) t.poll).state = (h, b ++ t.arrived) := by
    obtain ⟨poll, waiting⟩ := t
    cases poll with
    | received raw => exact receive_of_stuck hstuck
    | _ => exact congrArg (h, ·) (List.append_nil b).symm
  unfold Peer.turn
  cases hp : (peer env).poll (h, b) t.poll with
  | raised st =>
    rw [hp] at hpoll
    obtain rfl : st = (h, b ++ t.arrived) := hpoll
    exact ⟨rfl, rfl, rfl, rfl⟩
  | ok st =>
    rw [hp] at hpoll
    obtain rfl : st = (h, b ++ t.arrived) := hpoll
    exact pauses_readDevice env h _ t.waiting

end ConnectHelper

namespace Forever

variable {env : Nat → Env} {st st' s s' : Forever} {bs : Bytes}

/-- A turn of the loop of `handle`, and the end of the loop. -/
def turned (env : Nat → Env) (st : Forever) (t : Turn) : Forever :=
  match (ConnectHelper.peer env).turn (st.helper, st.recvBuffer) t with
  | .ok (h, b) => ⟨h, b, true⟩
  | .raised (h, b) => ⟨h.setRunning false, b, false⟩

/-- Some steps of `start_forever`, with the stream of what its connections receive meanwhile, each result of `recv`
after `strip()`. -/
inductive Life (env : Nat → Env) (st : Forever) : Bytes → Forever → Prop
  | here : Life env st [] st
  | pause {bs : Bytes} {s s' : Forever} : Life env st bs s → s.connected = false → Step env s s' → Life env st bs s'
  | turn {bs : Bytes} {s : Forever} (t : Turn) : Life env st bs s → s.connected = true →
      Life env st (bs ++ t.arrived) (s.turned env t)

/-- Every run of `start_forever` is such. -/
theorem life_of_run (hrun : Relation.ReflTransGen (Step env) st st') : ∃ bs, Life env st bs st' := by
  induction hrun with
  | refl => exact ⟨[], .here⟩
  | @tail s _ _ hstep ih =>
    obtain ⟨bs, hl⟩ := ih
    cases hstep with
    | refused now _ hcon => exact ⟨bs, hl.pause hcon (.refused now s hcon)⟩
    | connects now _ hcon => exact ⟨bs, hl.pause hcon (.connects now s hcon)⟩
    | turn t _ h b hcon hturn =>
      have hs : s.turned env t = ⟨h, b, true⟩ := by rw [turned, hturn]
      exact ⟨_, hs ▸ hl.turn t hcon⟩
    | ends t _ h b hcon hturn =>
      have hs : s.turned env t = ⟨h.setRunning false, b, false⟩ := by rw [turned, hturn]
      exact ⟨_, hs ▸ hl.turn t hcon⟩

/-- Between two connections the buffer is kept and nothing is handled. -/
theorem Step.pauses (hstep : Step env s s') (hcon : s.connected = false) :
    s'.recvBuffer = s.recvBuffer ∧ ConnectHelper.Pauses s.helper s'.helper := by
  cases hstep with
  | refused now _ _ =>
    obtain ⟨hlog, hencode, hwrote⟩ := ConnectHelper.pauses_uartOpen s.helper now
    exact ⟨rfl, hlog, hencode, hwrote⟩
  | connects now _ _ =>
    obtain ⟨hlog, hencode, hwrote⟩ := ConnectHelper.pauses_uartOpen s.helper now
    have hopen : ConnectHelper.Pauses s.helper ((s.helper.uartOpen now).1.setRunning true) := ⟨hlog, hencode, hwrote⟩
    exact ⟨rfl, hopen.trans (ConnectHelper.pauses_greet _)⟩
  | turn _ _ _ _ hcon' _ =>
    rw [hcon] at hcon'
    cases hcon'
  | ends _ _ _ _ hcon' _ =>
    rw [hcon] at hcon'
    cases hcon'

/-- The turn, up to the flags. -/
theorem turned_spec (env : Nat → Env) (s : Forever) (t : Turn) :
    (s.turned env t).recvBuffer = ((ConnectHelper.peer env).turn (s.helper, s.recvBuffer) t).state.2 ∧
      ConnectHelper.Pauses ((ConnectHelper.peer env).turn (s.helper, s.recvBuffer) t).state.1
        (s.turned env t).helper := by
  unfold turned
  cases (ConnectHelper.peer env).turn (s.helper, s.recvBuffer) t with
  | ok r => exact ⟨rfl, rfl, rfl, rfl⟩
  | raised r => exact ⟨rfl, rfl, rfl, rfl⟩

namespace Life

/-- Whatever happens to its connections, what a client writes are values of data packets in the order of their frames
in one stream, that of its buffer and of all that its connections receive.  A frame of the stream need not be one of the
bytes as they were sent, since white space at the ends of the results of `recv` is missing. -/
theorem writes_in_order (hl : Life env st bs st') :
    ∃ ps m ws, InOrder st.helper.client.dataEncode (st.recvBuffer ++ bs) 0 ps m ∧ ws.Sublist (values ps) ∧
      written st'.helper.client.events = written st.helper.client.events ++ ws := by
  let E := ConnectHelper.peer env
  have hinv : ∃ ps m, InOrder st.helper.client.dataEncode (st.recvBuffer ++ bs) 0 ps m ∧
      Behind (st.recvBuffer ++ bs) st'.recvBuffer m ∧ E.WritesOf st.helper.client.events ps st'.helper ∧
      st'.helper.client.dataEncode = st.helper.client.dataEncode := by
    induction hl with
    | here =>
      rw [List.append_nil]
      exact ⟨[], 0, .nil 0, behind_self _, ⟨[], List.Sublist.refl [], (List.append_nil _).symm⟩, rfl⟩
    | pause _ hcon hstep ih =>
      obtain ⟨ps, m, horder, hbehind, ⟨ws, hsub, hws⟩, hencode⟩ := ih
      obtain ⟨hbuffer, hpauses⟩ := hstep.pauses hcon
      exact ⟨ps, m, horder, hbuffer ▸ hbehind, ⟨ws, hsub, hpauses.wrote.trans hws⟩, hpauses.dataEncode.trans hencode⟩
    | @turn bs s t _ _ ih =>
      obtain ⟨ps, m, horder, hbehind, hwrites, hencode⟩ := ih
      obtain ⟨qs, n, horder', hbehind', ⟨ws, hsub, hws⟩, hencode'⟩ := Peer.turn_in_order
        ((E.traces_writesOf st.helper.client.events).and (E.traces_dataEncode s.helper.client.dataEncode)) hbehind
        ⟨hwrites, rfl⟩ t
      obtain ⟨hbuffer, hpauses⟩ := turned_spec env s t
      rw [← List.append_assoc]
      have hsame : E.dataEncode s.helper = st.helper.client.dataEncode := hencode
      rw [hsame] at horder'
      refine ⟨ps ++ qs, n, (horder.append_stream _).trans horder', hbuffer ▸ hbehind',
        ⟨ws, hsub, hpauses.wrote.trans hws⟩, hpauses.dataEncode.trans (hencode'.trans hencode)⟩
  obtain ⟨ps, m, horder, -, ⟨ws, hsub, hws⟩, -⟩ := hinv
  exact ⟨ps, m, ws, horder, hsub, hws⟩

/-- The frame of the value `A`. -/
private def frameA : Bytes := [0x23, 0x24, 6, 0, 0, 0, 0x64, 0x61, 0x74, 0x61, 0x3d, 0x41, 0x6c, 0x24, 0x23]

/-- One half of the frame arrives before the connection is lost, the other half in the next one. -/
theorem writes_in_order_two_halves :
    ∃ st' : Forever, written st'.helper.client.events = [[0x41]] ∧
      ∃ ps m ws, InOrder false frameA 0 ps m ∧ ws.Sublist (values ps) ∧ [[0x41]] = ws := by
  let env : Nat → Env := fun _ => ⟨none, false, false⟩
  let s₁ : Forever := ⟨(newClient.uartOpen (env 0)).1.setRunning true |>.greet, [], true⟩
  let s₂ := s₁.turned env ⟨.received (frameA.take 8), .bytes []⟩
  let s₃ := s₂.turned env ⟨.recvRaises, .bytes []⟩
  let s₄ : Forever := { s₃ with helper := ((s₃.helper.uartOpen (env 0)).1.setRunning true).greet, connected := true }
  have hfirst : Life env ⟨newClient, [], false⟩ [] s₁ := .pause .here rfl (.connects (env 0) _ rfl)
  have hsecond : Life env ⟨newClient, [], false⟩ ([] ++ frameA.take 8 ++ []) s₃ :=
    (hfirst.turn ⟨.received (frameA.take 8), .bytes []⟩ rfl).turn ⟨.recvRaises, .bytes []⟩ (by decide +kernel)
  have hthird : Life env ⟨newClient, [], false⟩ ([] ++ frameA.take 8 ++ []) s₄ :=
    hsecond.pause (by decide +kernel) (.connects (env 0) _ (by decide +kernel))
  have hall := hthird.turn ⟨.received (frameA.drop 8), .bytes []⟩ rfl
  have hwritten : written (s₄.turned env ⟨.received (frameA.drop 8), .bytes []⟩).helper.client.events = [[0x41]] := by
    decide +kernel
  obtain ⟨ps, m, ws, horder, hsub, hws⟩ := writes_in_order hall
  refine ⟨_, hwritten, ps, m, ws, horder, hsub, ?_⟩
  exact hwritten.symm.trans hws

/-- As long as the buffer is stuck, nothing is handled. -/
theorem stuck (hl : Life env st bs st')
    (h : ∀ c, c <+: bs → Stuck st.helper.client.dataEncode (st.recvBuffer ++ c)) :
    st'.recvBuffer = st.recvBuffer ++ bs ∧ ConnectHelper.Pauses st.helper st'.helper := by
  induction hl with
  | here => exact ⟨(List.append_nil _).symm, rfl, rfl, rfl⟩
  | pause _ hcon hstep ih =>
    obtain ⟨hbuffer, hpauses⟩ := ih h
    obtain ⟨hbuffer', hpauses'⟩ := hstep.pauses hcon
    exact ⟨hbuffer'.trans hbuffer, hpauses.trans hpauses'⟩
  | @turn bs s t _ _ ih =>
    obtain ⟨hbuffer, hpauses⟩ := ih fun c hc => h c (hc.trans (List.prefix_append _ _))
    have hstuck : Stuck s.helper.client.dataEncode (s.recvBuffer ++ t.arrived) := by
      rw [hbuffer, hpauses.dataEncode, List.append_assoc]
      exact h _ (List.prefix_refl _)
    obtain ⟨hbuffer', hpauses'⟩ := ConnectHelper.turn_of_stuck env hstuck
    obtain ⟨hb, hp⟩ := turned_spec env s t
    refine ⟨?_, (hpauses.trans hpauses').trans hp⟩
    rw [hb, hbuffer', hbuffer, List.append_assoc]

/-- An unfinished frame in the buffer: until as many bytes as it declares have arrived, in whatever connections,
nothing is handled. -/
theorem unfinished (hl : Life env st bs st') {g c : Bytes} (hbuffer : st.recvBuffer = g ++ c)
    (hg : ¬ symbolStartBytes <:+: g) (hs : symbolStartBytes <+: c) (h6 : 6 ≤ c.length)
    (hlt : c.length + bs.length < 7 + declaredSize c) :
    st'.recvBuffer = st.recvBuffer ++ bs ∧ st'.helper.log = st.helper.log ∧
      written st'.helper.client.events = written st.helper.client.events := by
  obtain ⟨hb, hpauses⟩ := hl.stuck fun d hd => by
    rw [hbuffer, List.append_assoc]
    refine stuck_of_incomplete _ hg (hs.trans (List.prefix_append _ _)) ?_
    have := hd.length_le
    rw [Complete, declaredSize_append h6, List.length_append]
    omega
  exact ⟨hb, hpauses.log, hpauses.wrote⟩

/-- Ten bytes of the frame are left by the last connection, and the next one begins with a start symbol. -/
theorem unfinished_ten_bytes :
    ∃ st', Life (fun _ => ⟨none, false, false⟩) ⟨newClient, frameA.take 10, false⟩ [0x23, 0x24] st' ∧
      st'.connected = true ∧ st'.recvBuffer = frameA.take 10 ++ [0x23, 0x24] ∧ st'.helper.log = [] := by
  have hconnected : Life (fun _ => ⟨none, false, false⟩) ⟨newClient, frameA.take 10, false⟩ [] _ :=
    .pause .here rfl (.connects ⟨none, false, false⟩ _ rfl)
  have hall := hconnected.turn ⟨.received [0x23, 0x24], .bytes []⟩ rfl
  obtain ⟨hbuffer, hlog, -⟩ :=
    unfinished (g := []) (c := frameA.take 10) hall rfl (by decide) (by decide) (by decide) (by decide +kernel)
  exact ⟨_, hall, by decide +kernel, hbuffer, hlog⟩

/-- A packet in the buffer whose value cannot be decoded: nothing is ever handled again, all that arrives is kept behind
it, and the first bytes that a connection brings end it. -/
theorem undecodable (hl : Life env st bs st') {p : Packet} (hp : parse st.recvBuffer = some p)
    (hdecode : received st.helper.client.dataEncode p = none) :
    st'.recvBuffer = st.recvBuffer ++ bs ∧
      (st'.helper.log = st.helper.log ∧ written st'.helper.client.events = written st.helper.client.events) ∧
      ∀ t : Turn, t.arrived ≠ [] → (st'.turned env t).connected = false := by
  obtain ⟨hb, hpauses⟩ := hl.stuck fun d _ => stuck_of_undecoded hp hdecode d
  refine ⟨hb, ⟨hpauses.log, hpauses.wrote⟩, fun t ht => ?_⟩
  obtain ⟨poll, waiting⟩ := t
  cases poll with
  | received raw =>
    -- the packet is found in front of what was received
    have hparse : parse (st'.recvBuffer ++ strip raw) = some p := by
      rw [hb, List.append_assoc]
      exact parse_append_right hp _
    have hnone : received st'.helper.client.dataEncode p = none := by rwa [hpauses.dataEncode]
    have hpoll : (ConnectHelper.peer env).poll (st'.helper, st'.recvBuffer) (.received raw) =
        .raised (st'.helper, st'.recvBuffer ++ strip raw) := receive_of_undecoded ht hparse hnone
    rw [turned, Peer.turn, hpoll]
  | _ => exact absurd rfl ht

/-- The value `\xgg`, whose two digits `bytes_decode` takes for hexadecimal: a connection comes, and the byte `A`. -/
theorem undecodable_gg :
    ∃ st', Life (fun _ => ⟨none, false, false⟩)
        ⟨{ newClient with client := { dataEncode := true } },
          (Packet.init "data" [0x5c, 0x78, 0x67, 0x67]).core, false⟩ [0x41] st' ∧
      st'.recvBuffer = (Packet.init "data" [0x5c, 0x78, 0x67, 0x67]).core ++ [0x41] ∧
      (st'.helper.log = [] ∧ written st'.helper.client.events = []) ∧
      ∀ t : Turn, t.arrived ≠ [] → (st'.turned (fun _ => ⟨none, false, false⟩) t).connected = false := by
  have hconnected : Life (fun _ => ⟨none, false, false⟩)
      ⟨{ newClient with client := { dataEncode := true } },
        (Packet.init "data" [0x5c, 0x78, 0x67, 0x67]).core, false⟩ [] _ :=
    .pause .here rfl (.connects ⟨none, false, false⟩ _ rfl)
  have hall := hconnected.turn ⟨.received [0x41], .bytes []⟩ rfl
  exact ⟨_, hall, undecodable (p := .init "data" [0x5c, 0x78, 0x67, 0x67]) hall (by decide +kernel)
    (by decide +kernel)⟩

end Life

end Forever

/-! ### The end of the stream -/

/-- Nothing arrives: a time-out, white space only, or the end of the stream. -/
def Turn.Silent (t : Turn) : Prop := t.poll = .idle ∨ ∃ raw, t.poll = .received raw ∧ strip raw = []

/-- What `read_all` returns, turn after turn, until the device raises. -/
def readsOf : List Turn → List Bytes
  | [] => []
  | ⟨_, .raises⟩ :: _ => []
  | ⟨_, .bytes rxBytes⟩ :: ts => if rxBytes.length > 0 then rxBytes :: readsOf ts else readsOf ts

theorem Peer.poll_of_silent {σ : Type*} (E : Peer σ) (st : σ × Bytes) {t : Turn} (ht : t.Silent) :
    E.poll st t.poll = .ok st := by
  rcases ht with h | ⟨raw, h, hr⟩
  · rw [h]
    rfl
  · rw [h]
    show receive _ _ st raw = _
    rw [receive, if_neg (by simp [hr])]

namespace Forever

variable {env : Nat → Env} {h : ConnectHelper} {s : Forever} {t : Turn}

/-- The turns of a connection, up to the one that ends it. -/
def turnedAll (env : Nat → Env) (s : Forever) : List Turn → Forever
  | [] => s
  | t :: ts => if s.connected then (s.turned env t).turnedAll env ts else s

/-- They are steps of `start_forever`. -/
theorem reaches_turnedAll (env : Nat → Env) (s : Forever) (ts : List Turn) :
    Relation.ReflTransGen (Step env) s (s.turnedAll env ts) := by
  induction ts generalizing s with
  | nil => exact .refl
  | cons t ts ih =>
    rw [turnedAll]
    split
    · rename_i hcon
      have hstep : Step env s (s.turned env t) := by
        unfold turned
        cases hturn : (ConnectHelper.peer env).turn (s.helper, s.recvBuffer) t with
        | ok r => exact .turn t s r.1 r.2 hcon hturn
        | raised r => exact .ends t s r.1 r.2 hcon hturn
      exact (Relation.ReflTransGen.single hstep).trans (ih _)
    · exact .refl

/-- In a silent turn only the device matters. -/
theorem turned_of_silent (env : Nat → Env) {dev : Serial} (hdev : s.helper.client.uartDev = some dev)
    (ht : t.Silent) :
    s.turned env t =
      match t.waiting with
      | .raises => ⟨s.helper.setRunning false, s.recvBuffer, false⟩
      | .bytes rxBytes => ⟨(ConnectHelper.peer env).forward s.helper rxBytes, s.recvBuffer, true⟩ := by
  have hdevice : (ConnectHelper.peer env).uartDev s.helper ≠ none := by
    rw [show (ConnectHelper.peer env).uartDev s.helper = some dev from hdev]
    exact Option.some_ne_none dev
  rw [turned, Peer.turn, Peer.poll_of_silent _ _ ht]
  dsimp only
  rw [Peer.readDevice.eq_def, if_neg hdevice]
  cases t.waiting <;> rfl

/-- A running client sends what the device gives. -/
theorem forward_of_running (env : Nat → Env) (hrun : h.client.isRunning = true) (rxBytes : Bytes) :
    (ConnectHelper.peer env).forward h rxBytes =
      if rxBytes.length > 0 then h.send "data" (.bytes rxBytes) else h := by
  unfold Peer.forward
  by_cases hlen : rxBytes.length > 0
  · rw [if_pos hlen, if_pos ⟨hrun, hlen⟩]
    rfl
  · rw [if_neg hlen, if_neg fun hc => hlen hc.2]

/-- Any number of turns in which nothing arrives. -/
theorem turnedAll_of_silent (env : Nat → Env) (hcon : s.connected = true) (hrun : s.helper.client.isRunning = true)
    {dev : Serial} (hdev : s.helper.client.uartDev = some dev) {ts : List Turn} (hts : ∀ t ∈ ts, t.Silent) :
    ((s.turnedAll env ts).connected = true ↔ ∀ t ∈ ts, t.waiting ≠ .raises) ∧
      (s.turnedAll env ts).recvBuffer = s.recvBuffer ∧ (s.turnedAll env ts).helper.log = s.helper.log ∧
      (s.turnedAll env ts).helper.client.events = s.helper.client.events ++
        (readsOf ts).map fun v => .sent (sendPacket s.helper.client.dataEncode "data" (.bytes v)) := by
  induction ts generalizing s with
  | nil => exact ⟨by simp [turnedAll, hcon], rfl, rfl, (List.append_nil _).symm⟩
  | cons t ts ih =>
    rw [turnedAll, if_pos hcon, turned_of_silent env hdev (hts t List.mem_cons_self)]
    obtain ⟨poll, waiting⟩ := t
    cases waiting with
    | raises =>
      have hover : turnedAll env ⟨s.helper.setRunning false, s.recvBuffer, false⟩ ts =
          ⟨s.helper.setRunning false, s.recvBuffer, false⟩ := by
        cases ts <;> rfl
      show ((turnedAll env ⟨s.helper.setRunning false, s.recvBuffer, false⟩ ts).connected = true ↔ _) ∧ _
      dsimp only
      rw [hover]
      refine ⟨iff_of_false Bool.false_ne_true fun hall => ?_, rfl, rfl, (List.append_nil _).symm⟩
      exact hall _ List.mem_cons_self rfl
    | bytes rxBytes =>
      dsimp only
      rw [forward_of_running env hrun, readsOf]
      have hcons : (∀ t ∈ (⟨poll, .bytes rxBytes⟩ : Turn) :: ts, t.waiting ≠ .raises) ↔
          ∀ t ∈ ts, t.waiting ≠ .raises := by
        rw [List.forall_mem_cons]
        exact and_iff_right Waiting.noConfusion
      have hrest : ∀ t ∈ ts, t.Silent := fun t ht => hts t (List.mem_cons_of_mem _ ht)
      rw [hcons]
      split
      · -- the value is sent, as those of the other turns are
        obtain ⟨hc, hb, hl, he⟩ := ih (s := ⟨s.helper.send "data" (.bytes rxBytes), s.recvBuffer, true⟩)
          rfl hrun hdev hrest
        refine ⟨hc, hb, hl, he.trans ?_⟩
        rw [List.map_cons, ← List.singleton_append, ← List.append_assoc]
        rfl
      · exact ih (s := ⟨s.helper, s.recvBuffer, true⟩) rfl hrun hdev hrest

/-- Without a device, nothing happens in a silent turn. -/
theorem turnedAll_of_no_device (env : Nat → Env) (hcon : s.connected = true)
    (hdev : s.helper.client.uartDev = none) {ts : List Turn} (hts : ∀ t ∈ ts, t.Silent) : s.turnedAll env ts = s := by
  induction ts with
  | nil => rfl
  | cons t ts ih =>
    have hturned : s.turned env t = s := by
      rw [turned, Peer.turn, Peer.poll_of_silent _ _ (hts t List.mem_cons_self)]
      dsimp only
      rw [Peer.readDevice.eq_def, if_pos (show (ConnectHelper.peer env).uartDev s.helper = none from hdev)]
      rw [← hcon]
    rw [turnedAll, if_pos hcon, hturned, ih fun u hu => hts u (List.mem_cons_of_mem _ hu)]

/-- In any state of its life: a client to which nothing arrives any more, since the server has closed the connection,
leaves the loop of `handle` only when its own device raises.  Until then it sends what the device gives to where
nobody reads it; it makes no other connection and handles nothing. -/
theorem closed_by_server (hn : h.New) (hreach : Relation.ReflTransGen (Step env) ⟨h, [], false⟩ s)
    (hcon : s.connected = true) {ts : List Turn} (hts : ∀ t ∈ ts, t.Silent) :
    Relation.ReflTransGen (Step env) s (s.turnedAll env ts) ∧
      ((s.turnedAll env ts).connected = true ↔
        s.helper.client.uartDev = none ∨ ∀ t ∈ ts, t.waiting ≠ .raises) ∧
      (s.turnedAll env ts).recvBuffer = s.recvBuffer ∧ (s.turnedAll env ts).helper.log = s.helper.log ∧
      (s.turnedAll env ts).helper.client.events = s.helper.client.events ++
        (if s.helper.client.uartDev = none then [] else readsOf ts).map fun v =>
          .sent (sendPacket s.helper.client.dataEncode "data" (.bytes v)) := by
  have ha : Alive h s := invariant_of_reaches (fun _ _ => Alive.step) hreach (.of_new hn)
  have hrun : s.helper.client.isRunning = true := ha.running.trans hcon
  refine ⟨reaches_turnedAll env s ts, ?_⟩
  cases hdev : s.helper.client.uartDev with
  | none =>
    rw [turnedAll_of_no_device env hcon hdev hts]
    exact ⟨iff_of_true hcon (.inl rfl), rfl, rfl, (List.append_nil _).symm⟩
  | some dev =>
    obtain ⟨hc, hb, hl, he⟩ := turnedAll_of_silent env hcon hrun hdev hts
    refine ⟨?_, hb, hl, he⟩
    rw [hc]
    exact (or_iff_right (Option.some_ne_none dev)).symm

/-- The server closes the connection; two turns later the client has sent what it has read, and is still connected. -/
theorem closed_by_server_two_turns :
    ∃ s, Relation.ReflTransGen (Step fun _ => ⟨none, false, false⟩) ⟨newClient, [], false⟩ s ∧
      (s.turnedAll (fun _ => ⟨none, false, false⟩)
        [⟨.received [], .bytes [0x41]⟩, ⟨.received [], .bytes []⟩]).connected = true ∧
      (s.turnedAll (fun _ => ⟨none, false, false⟩)
        [⟨.received [], .bytes [0x41]⟩, ⟨.received [], .bytes []⟩]).helper.client.events =
        s.helper.client.events ++ [.sent (sendPacket false "data" (.bytes [0x41]))] := by
  have hstep : Step (fun _ => ⟨none, false, false⟩) ⟨newClient, [], false⟩ _ := .connects ⟨none, false, false⟩ _ rfl
  have hts : ∀ t ∈ ([⟨.received [], .bytes [0x41]⟩, ⟨.received [], .bytes []⟩] : List Turn), t.Silent := by
    simp [Turn.Silent, strip, trim]
  obtain ⟨-, hc, -, -, he⟩ := closed_by_server ⟨rfl, rfl, rfl, rfl⟩ (.single hstep) rfl hts
  exact ⟨_, .single hstep, hc.2 (.inr (by simp)), he⟩

end Forever

end WirelessUart
