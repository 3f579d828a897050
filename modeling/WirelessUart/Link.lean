import WirelessUart.Encoded
import WirelessUart.Reassembly
import WirelessUart.Relay

/-!
# The bridge, byte by byte

The two loops of `handle` with the bytes in flight between them: the frames that `sendall` was given, in order, and what
`recv` is going to return of the first ones (`Port`).  When and how frames are cut or joined is up to the network.  What
`recv` returns is one of the kinds of `Segment`, for each of which the receive loop passes on the packets that were sent
(`Segment.arriving`).

Each end simulates a station of the bridge (`Port.simulates`), so the bridge of bytes inherits what holds of the bridge
of packets: each direction is a lossy channel, whatever the devices do and however the frames are cut and joined in
the ways of `Segment`.
-/

namespace WirelessUart

open ByteLib Relation

/-! ### What `recv` returns -/

/-- From these results of `recv` the receive loop passes on the packets `ps`, and its buffer is empty in the end. -/
def Arriving (dataEncode : Bool) (b : Bytes) (cs : List Bytes) (ps : List Packet) : Prop :=
  receiveAll dataEncode record ([], b) cs = .ok (ps, [])

/-- How frames reach the receive loop: a frame in chunks that are cut cleanly, a batch of frames that do not disturb one
another, or one frame with what the loop leaves of it in the buffer.  In the first two the values need no escapes when
they are encoded. -/
inductive Segment (dataEncode : Bool) : List Bytes → List Bytes → Prop
  | cut (p : Packet) (cs : List Bytes) : p.Sendable → framed dataEncode p = p → CleanCut p cs →
      Segment dataEncode [cs.flatten] cs
  | batch (ps : List Packet) (raws : List Bytes) : (∀ p ∈ ps, p.Sendable ∧ framed dataEncode p = p) →
      ps.mapM Packet.getBytes = some raws → Undisturbed ps → Segment dataEncode raws [raws.flatten]
  | whole (p : Packet) (raw : Bytes) : p.keyStr ≠ "" ∧ '=' ∉ p.keyStr.toList →
      (framed dataEncode p).getBytes = some raw → ¬ symbolStartBytes <:+: raw.drop (7 + p.dataSize) →
      Segment dataEncode [raw] [raw]

section Arriving

variable {dataEncode : Bool} {b b' : Bytes} {c : Bytes} {cs raws : List Bytes} {l ps : List Packet}

/-- The recording handler keeps what it has recorded. -/
theorem receive_record_append (l : List Packet) (b raw : Bytes) :
    receive dataEncode record (l, b) raw = (receive dataEncode record ([], b) raw).map fun r => (l ++ r.1, r.2) := by
  by_cases hr : strip raw = []
  · rw [receive, receive, if_neg (by simp [hr]), if_neg (by simp [hr]), Outcome.map, List.append_nil]
  · rw [receive_of_ne hr, receive_of_ne hr, recvLoop_record_append]
    cases recvLoop dataEncode record [] (b ++ strip raw) <;> rfl

theorem receiveAll_record_append (l : List Packet) (b : Bytes) (cs : List Bytes) :
    receiveAll dataEncode record (l, b) cs =
      (receiveAll dataEncode record ([], b) cs).map fun r => (l ++ r.1, r.2) := by
  induction cs generalizing l b with
  | nil => simp [receiveAll, Outcome.map]
  | cons c cs ih =>
    rw [receiveAll, receiveAll, receive_record_append l]
    cases receive dataEncode record ([], b) c with
    | raised r => rfl
    | ok r =>
      show receiveAll dataEncode record (l ++ r.1, r.2) cs = Outcome.map _ (receiveAll dataEncode record (r.1, r.2) cs)
      rw [ih (l ++ r.1), ih r.1]
      cases receiveAll dataEncode record ([], r.2) cs <;> simp [Outcome.map]

/-- The first chunk, and what it leaves for the others. -/
theorem Arriving.cons (h : Arriving dataEncode b (c :: cs) ps) :
    ∃ qs b' rs, receive dataEncode record ([], b) c = .ok (qs, b') ∧ Arriving dataEncode b' cs rs ∧ ps = qs ++ rs := by
  unfold Arriving at h
  rw [receiveAll] at h
  cases hc : receive dataEncode record ([], b) c with
  | raised r =>
    rw [hc] at h
    cases h
  | ok r =>
    obtain ⟨qs, b'⟩ := r
    rw [hc] at h
    dsimp only at h
    rw [receiveAll_record_append] at h
    cases hcs : receiveAll dataEncode record ([], b') cs with
    | raised r =>
      rw [hcs] at h
      cases h
    | ok r =>
      obtain ⟨rs, b''⟩ := r
      rw [hcs] at h
      injection h with h
      obtain ⟨rfl, rfl⟩ := Prod.mk.inj h
      exact ⟨qs, b', rs, rfl, hcs, rfl⟩

/-- Packets that decoding leaves alone are passed on in either mode. -/
theorem recvLoop_of_drain (h : ∀ p ∈ (drain b).1, received dataEncode p = some p) :
    recvLoop dataEncode record l b = .ok (l ++ (drain b).1, (drain b).2) := by
  induction b using drain_induction generalizing l with
  | none b hp => rw [recvLoop_of_none hp, drain_of_none hp, List.append_nil]
  | some b p hp ih =>
    rw [drain_of_some hp] at h ⊢
    have hfirst : recvLoop dataEncode record l b = recvLoop dataEncode record (l ++ [p]) (b.drop (7 + p.dataSize)) :=
      recvLoop_of_some hp (h p List.mem_cons_self) rfl
    rw [hfirst, ih fun q hq => h q (List.mem_cons_of_mem _ hq), List.append_assoc, List.singleton_append]

theorem receive_of_pass (h : ∀ p ∈ (pass b c).1, received dataEncode p = some p) :
    receive dataEncode record (l, b) c = .ok (l ++ (pass b c).1, (pass b c).2) := by
  by_cases hc : strip c = []
  · rw [receive, if_neg (by simp [hc]), pass, if_pos hc, List.append_nil]
  · rw [pass, if_neg hc] at h ⊢
    rw [receive_of_ne hc, recvLoop_of_drain h]

theorem receiveAll_of_deliver (h : ∀ p ∈ (deliver b cs).1, received dataEncode p = some p) :
    receiveAll dataEncode record (l, b) cs = .ok (l ++ (deliver b cs).1, (deliver b cs).2) := by
  induction cs generalizing l b with
  | nil => rw [receiveAll, deliver, List.append_nil]
  | cons c cs ih =>
    rw [deliver] at h ⊢
    rw [receiveAll, receive_of_pass fun p hp => h p (List.mem_append_left _ hp)]
    dsimp only
    rw [ih fun p hp => h p (List.mem_append_right _ hp), List.append_assoc]

theorem arriving_of_deliver (h : deliver b cs = (ps, [])) (hps : ∀ p ∈ ps, framed dataEncode p = p) :
    Arriving dataEncode b cs ps := by
  have hrecv (p : Packet) (hp : p ∈ (deliver b cs).1) : received dataEncode p = some p := by
    rw [h] at hp
    have := received_framed dataEncode p
    rwa [hps p hp] at this
  rw [Arriving, receiveAll_of_deliver hrecv, h]
  rfl

/-- What is left of frames ends with the last byte of the end symbol. -/
private theorem flush_of_suffix {s : Bytes} (hb : b <:+ s ++ symbolEndBytes) (hs : ¬ symbolStartBytes <:+: b) :
    flush b = [] := by
  refine flush_of_no_start hs fun hl => ?_
  have hlast : (s ++ symbolEndBytes).getLast? = some 0x23 := by simp [symbolEndBytes]
  obtain ⟨t, ht⟩ := hb
  have hne : b ≠ [] := by
    rintro rfl
    cases hl
  rw [← ht, List.getLast?_append_of_ne_nil _ hne, hl] at hlast
  exact absurd hlast (by decide)

private theorem stream_end (ps : List Packet) : stream ps = [] ∨ ∃ s, stream ps = s ++ symbolEndBytes := by
  induction ps using List.reverseRecOn with
  | nil => exact .inl rfl
  | append_singleton ps p _ =>
    refine .inr ⟨stream ps ++ p.core, ?_⟩
    rw [stream_append, List.append_assoc]
    exact congrArg (stream ps ++ ·) (List.append_nil _)

/-- A batch that is undisturbed is received as a whole. -/
theorem deliver_batch (h : Undisturbed ps) : deliver [] [stream ps] = (ps, []) := by
  obtain ⟨h1, h2⟩ := (drain_leftover_iff [] ps).2 (by rw [List.nil_append]; exact h)
  have hnil : leftover [] ++ stream ps = stream ps := rfl
  rw [hnil] at h1 h2
  rw [deliver_singleton, pass_stream, h1]
  rcases stream_end ps with hs | ⟨s, hs⟩
  · rw [hs, drain_of_none (parse_of_no_start (by decide))]
    rfl
  · rw [flush_of_suffix (s := s) (hs ▸ drain_suffix (stream ps)) h2]

/-- A frame that arrives alone is found as it is. -/
theorem receive_frame {q : Packet} {raw : Bytes} (hq : q.Sendable) (h : q.getBytes = some raw) :
    parse raw = some q ∧ receive dataEncode record ([], []) raw =
      match recvLoop dataEncode record [] raw with
      | .ok (s, recvBuffer) => .ok (s, flush recvBuffer)
      | .raised st => .raised st := by
  obtain ⟨-, rfl⟩ := Packet.getBytes_eq_some.1 h
  have hone : q.core ++ symbolEndBytes = stream [q] := (List.append_nil _).symm
  have hstrip : strip (q.core ++ symbolEndBytes) = q.core ++ symbolEndBytes := by
    rw [hone]
    exact strip_stream _
  refine ⟨hq.parse_core _, ?_⟩
  rw [receive_of_ne (by rw [hstrip]; simp [symbolEndBytes]), hstrip, List.nil_append]
  dsimp only
  cases recvLoop dataEncode record [] (q.core ++ symbolEndBytes) <;> rfl

/-- One frame, decoded into `p`, of which no start symbol stays in the buffer. -/
theorem arriving_frame {p q : Packet} {raw : Bytes} (hq : q.Sendable) (h : q.getBytes = some raw)
    (hp : received dataEncode q = some p) (hs : ¬ symbolStartBytes <:+: raw.drop (7 + p.dataSize)) :
    Arriving dataEncode [] [raw] [p] := by
  obtain ⟨hparse, hreceive⟩ := receive_frame hq h
  have hloop : recvLoop dataEncode record [] raw = .ok ([p], raw.drop (7 + p.dataSize)) := by
    rw [recvLoop_of_some hparse hp rfl]
    exact recvLoop_of_none (parse_of_no_start hs)
  have hflush : flush (raw.drop (7 + p.dataSize)) = [] :=
    flush_of_suffix (s := q.core) ((Packet.getBytes_eq_some.1 h).2 ▸ List.drop_suffix _ _) hs
  rw [Arriving, receiveAll, hreceive, hloop]
  dsimp only
  rw [hflush]
  rfl

/-- The receive loop passes on the packets of the frames. -/
theorem Segment.arriving (h : Segment dataEncode raws cs) :
    Arriving dataEncode [] cs (raws.filterMap (readWhole dataEncode)) := by
  cases h with
  | cut p _ hp hf hcut =>
    have hread : readWhole dataEncode cs.flatten = some p :=
      readWhole_of_getBytes hp.key_ne hp.key_equals (by rw [hf]; exact hcut.bytes)
    rw [List.filterMap_cons, hread, List.filterMap_nil]
    exact arriving_of_deliver (hcut.deliver_eq hp) (by simpa using hf)
  | batch ps _ hps hraws hu =>
    have hread : raws.filterMap (readWhole dataEncode) = ps := by
      clear hu
      induction ps generalizing raws with
      | nil =>
        rw [List.mapM_nil] at hraws
        cases hraws
        rfl
      | cons p ps ih =>
        rw [List.mapM_cons] at hraws
        obtain ⟨raw, hraw, hraws⟩ := Option.bind_eq_some_iff.1 hraws
        obtain ⟨raws', hraws', hraws⟩ := Option.bind_eq_some_iff.1 hraws
        cases hraws
        obtain ⟨hp, hf⟩ := hps p (by simp)
        rw [List.filterMap_cons, readWhole_of_getBytes hp.key_ne hp.key_equals (by rw [hf]; exact hraw),
          ih (fun q hq => hps q (List.mem_cons_of_mem _ hq)) hraws']
    rw [hread, flatten_eq_stream hraws]
    exact arriving_of_deliver (deliver_batch hu) fun p hp => (hps p hp).2
  | whole p raw hkey hraw hs =>
    rw [List.filterMap_cons, readWhole_of_getBytes hkey.1 hkey.2 hraw, List.filterMap_nil]
    exact arriving_frame (sendable_framed hkey hraw) hraw (received_framed dataEncode p) hs

end Arriving

/-! ### An end with the bytes in flight to it -/

/-- What `recv` takes of the chunks; at the end of the stream it returns the empty byte string. -/
inductive Takes : Poll → List Bytes → List Bytes → Prop
  | selectRaises (cs : List Bytes) : Takes .selectRaises cs cs
  | idle (cs : List Bytes) : Takes .idle cs cs
  | recvRaises (cs : List Bytes) : Takes .recvRaises cs cs
  | nothing (cs : List Bytes) : Takes (.received []) cs cs
  | chunk (c : Bytes) (cs : List Bytes) : Takes (.received c) (c :: cs) cs

/-- The failures of a turn, and what the device reads in it, are allowed. -/
structure Turn.Allowed (allowed : Option Bytes → Prop) (t : Turn) : Prop where
  poll : t.poll = .selectRaises ∨ t.poll = .recvRaises → allowed none
  raises : t.waiting = .raises → allowed none
  bytes : ∀ rxBytes, t.waiting = .bytes rxBytes → rxBytes ≠ [] → allowed (some rxBytes)

/-- What a turn adds to the events. -/
def Peer.turnEvents {σ : Type*} (E : Peer σ) (st : σ × Bytes) (t : Turn) : List Event :=
  (E.events (E.turn st t).state.1).drop (E.events st.1).length

/-- What `read_all` returns in the second half of a turn, if it is called. -/
def Peer.reads {σ : Type*} (E : Peer σ) (s : σ) : Waiting → List Bytes
  | .raises => []
  | .bytes rxBytes => if E.uartDev s ≠ none ∧ rxBytes.length > 0 then [rxBytes] else []

/-- What `read_all` returns in a turn. -/
def Peer.readAll {σ : Type*} (E : Peer σ) (st : σ × Bytes) (t : Turn) : List Bytes :=
  match E.poll st t.poll with
  | .ok st => E.reads st.1 t.waiting
  | .raised _ => []

/-- An end with its `recv_buffer`, what `recv` is going to return, and the frames behind that.  An end whose loop is
over keeps what is in flight to it. -/
structure Port (σ : Type*) where
  state : σ
  recvBuffer : Bytes := []
  up : Bool := true
  chunks : List Bytes := []
  frames : List Bytes := []
  read : List Bytes := []
  wrote : List Bytes := []

/-- The bytes that events send. -/
def sentFrames (es : List Event) : List Bytes :=
  es.filterMap fun e =>
    match e with
    | .sent raw => raw
    | _ => none

/-- The packets of the frames that are sent. -/
theorem filterMap_sentFrames (dataEncode : Bool) (es : List Event) :
    (sentFrames es).filterMap (readWhole dataEncode) = messages dataEncode es := by
  rw [messages, sentFrames, List.filterMap_filterMap]
  refine List.filterMap_congr fun e _ => ?_
  cases e with
  | sent raw => cases raw <;> rfl
  | _ => rfl

namespace Port

variable {σ τ : Type*}

/-- The network cuts or joins the first frames in flight, or the end makes a turn of its loop. -/
inductive Act (E : Peer σ) (allowed : Option Bytes → Prop) : Port σ → Port σ → List Event → Prop
  | network (x : Port σ) (raws rest cs : List Bytes) : x.chunks = [] → x.frames = raws ++ rest →
      Segment (E.dataEncode x.state) raws cs → Act E allowed x { x with chunks := cs, frames := rest } []
  | turn (x : Port σ) (t : Turn) (rest : List Bytes) : x.up = true → Takes t.poll x.chunks rest →
      t.Allowed allowed →
      Act E allowed x
        ⟨(E.turn (x.state, x.recvBuffer) t).state.1, (E.turn (x.state, x.recvBuffer) t).state.2,
          (E.turn (x.state, x.recvBuffer) t).isOk, rest, x.frames, x.read ++ E.readAll (x.state, x.recvBuffer) t,
          x.wrote ++ written (E.turnEvents (x.state, x.recvBuffer) t)⟩
        (E.turnEvents (x.state, x.recvBuffer) t)

/-- `sendall` of the other end puts frames behind those in flight. -/
def machine (E : Peer σ) (allowed : Option Bytes → Prop) : Machine (Port σ) Event where
  act := Act E allowed
  accept x es := { x with frames := x.frames ++ sentFrames es }
  accept_nil x := by rw [sentFrames, List.filterMap_nil, List.append_nil]
  accept_append x es fs := by rw [sentFrames, List.filterMap_append, List.append_assoc]; rfl

/-- The station has the packets of the bytes in flight. -/
structure Refines (E : Peer σ) (dataEncode : Bool) (x : Port σ) (y : Station σ) : Prop where
  same : y.state = x.state ∧ y.up = x.up ∧ y.read = x.read ∧ y.wrote = x.wrote
  encode : E.dataEncode x.state = dataEncode
  inbox : ∃ ps, y.inbox = ps ++ x.frames.filterMap (readWhole dataEncode) ∧
    (x.up = true → Arriving dataEncode x.recvBuffer x.chunks ps)

end Port

/-! ### A turn, packet by packet -/

section Turns

variable {σ : Type*} {E : Peer σ} {allowed : Option Bytes → Prop} {dataEncode : Bool}

/-- Handling some packets is as many dispatches, the last of which may fail. -/
theorem Station.acts_handleAll (E : Peer σ) (allowed : Option Bytes → Prop) (dataEncode : Bool) (ps rest : List Packet)
    (s : σ) (read wrote : List Bytes) :
    ∃ es left, (E.events (handleAll E.handlePacket s ps).state = E.events s ++ es ∧
        E.dataEncode (handleAll E.handlePacket s ps).state = E.dataEncode s) ∧
      ((handleAll E.handlePacket s ps).isOk = true → left = []) ∧
      (Station.machine E allowed dataEncode).Acts ⟨s, true, ps ++ rest, read, wrote⟩
        ⟨(handleAll E.handlePacket s ps).state, (handleAll E.handlePacket s ps).isOk, left ++ rest, read,
          wrote ++ written es⟩ es := by
  induction ps generalizing s wrote with
  | nil =>
    refine ⟨[], [], ⟨(List.append_nil _).symm, rfl⟩, fun _ => rfl, ?_⟩
    have hwrote : wrote ++ written [] = wrote := List.append_nil wrote
    rw [hwrote]
    exact .refl _
  | cons p ps ih =>
    obtain ⟨hevents, -⟩ := E.newEvents_spec s p
    have hencode := E.dataEncode_handlePacket s p
    have hact : (Station.machine E allowed dataEncode).act ⟨s, true, p :: (ps ++ rest), read, wrote⟩ _ _ :=
      .dispatch _ p (ps ++ rest) rfl rfl
    cases hs : E.handlePacket s p with
    | raised s' =>
      simp only [hs, Outcome.isOk] at hact
      rw [hs] at hevents hencode
      have hall : handleAll E.handlePacket s (p :: ps) = .raised s' := by rw [handleAll, hs]
      rw [hall]
      exact ⟨E.newEvents s p, ps, ⟨hevents, hencode⟩, fun h => absurd h (by simp [Outcome.isOk]), .single hact⟩
    | ok s' =>
      simp only [hs, Outcome.isOk] at hact
      rw [hs] at hevents hencode
      have hall : handleAll E.handlePacket s (p :: ps) = handleAll E.handlePacket s' ps := by rw [handleAll, hs]
      obtain ⟨es, left, ⟨hes, henc⟩, hleft, hacts⟩ := ih s' (wrote ++ written (E.newEvents s p))
      rw [hall]
      refine ⟨E.newEvents s p ++ es, left, ⟨?_, henc.trans hencode⟩, hleft, ?_⟩
      · rw [hes, ← List.append_assoc]
        exact congrArg (· ++ es) hevents
      · rw [written_append, ← List.append_assoc]
        exact .head hact hacts

/-- Waiting for the socket and handling what it gives. -/
theorem Station.acts_poll (E : Peer σ) (allowed : Option Bytes → Prop) {s : σ} {b : Bytes} {poll : Poll}
    {cs rest : List Bytes} {ps : List Packet} (hencode : E.dataEncode s = dataEncode)
    (ha : Arriving dataEncode b cs ps) (ht : Takes poll cs rest)
    (hfail : poll = .selectRaises ∨ poll = .recvRaises → allowed none) (qs : List Packet) (read wrote : List Bytes) :
    ∃ es left, (E.events (E.poll (s, b) poll).state.1 = E.events s ++ es ∧
        E.dataEncode (E.poll (s, b) poll).state.1 = dataEncode) ∧
      ((E.poll (s, b) poll).isOk = true → Arriving dataEncode (E.poll (s, b) poll).state.2 rest left) ∧
      (Station.machine E allowed dataEncode).Acts ⟨s, true, ps ++ qs, read, wrote⟩
        ⟨(E.poll (s, b) poll).state.1, (E.poll (s, b) poll).isOk, left ++ qs, read, wrote ++ written es⟩ es := by
  have hnone : wrote ++ written [] = wrote := List.append_nil wrote
  have hstay : (Station.machine E allowed dataEncode).Acts ⟨s, true, ps ++ qs, read, wrote⟩
      ⟨s, true, ps ++ qs, read, wrote ++ written []⟩ [] := by
    rw [hnone]
    exact .refl _
  have hraise (hallowed : allowed none) :
      (Station.machine E allowed dataEncode).Acts ⟨s, true, ps ++ qs, read, wrote⟩
        ⟨s, false, ps ++ qs, read, wrote ++ written []⟩ [] := by
    rw [hnone]
    exact .single (Act.fail _ hallowed)
  cases ht with
  | selectRaises =>
    exact ⟨[], ps, ⟨(List.append_nil _).symm, hencode⟩, fun h => (by cases h), hraise (hfail (.inl rfl))⟩
  | idle => exact ⟨[], ps, ⟨(List.append_nil _).symm, hencode⟩, fun _ => ha, hstay⟩
  | recvRaises =>
    exact ⟨[], ps, ⟨(List.append_nil _).symm, hencode⟩, fun h => (by cases h), hraise (hfail (.inr rfl))⟩
  | nothing => exact ⟨[], ps, ⟨(List.append_nil _).symm, hencode⟩, fun _ => ha, hstay⟩
  | chunk c _ =>
    obtain ⟨now, b', later, hc, hlater, rfl⟩ := ha.cons
    obtain ⟨es, left, ⟨hes, henc⟩, hleft, hacts⟩ :=
      Station.acts_handleAll E allowed dataEncode now (later ++ qs) s read wrote
    have hrecv := receive_of_record E.handlePacket hc s
    have hpoll : E.poll (s, b) (.received c) = receive dataEncode E.handlePacket (s, b) c := by
      rw [← hencode]
      rfl
    cases hall : handleAll E.handlePacket s now with
    | ok s' =>
      rw [hall] at hrecv hes henc hleft hacts
      dsimp only at hrecv
      rw [hleft rfl, List.nil_append, ← List.append_assoc] at hacts
      rw [hpoll, hrecv]
      exact ⟨es, later, ⟨hes, henc.trans hencode⟩, fun _ => hlater, hacts⟩
    | raised s' =>
      rw [hall] at hrecv hes henc hacts
      obtain ⟨b'', hrecv⟩ := hrecv
      rw [← List.append_assoc, ← List.append_assoc] at hacts
      rw [hpoll, hrecv]
      exact ⟨es, left ++ later, ⟨hes, henc.trans hencode⟩, fun h => (by cases h), hacts⟩

/-- Reading from the device, and sending what was read. -/
theorem Station.acts_readDevice (E : Peer σ) (allowed : Option Bytes → Prop) (dataEncode : Bool) {s : σ}
    {waiting : Waiting} (hraises : waiting = .raises → allowed none)
    (hbytes : ∀ rxBytes, waiting = .bytes rxBytes → rxBytes ≠ [] → allowed (some rxBytes)) (b : Bytes)
    (inbox : List Packet) (read wrote : List Bytes) :
    ∃ es, (E.events (E.readDevice (s, b) waiting).state.1 = E.events s ++ es ∧ written es = [] ∧
        E.dataEncode (E.readDevice (s, b) waiting).state.1 = E.dataEncode s ∧
        (E.readDevice (s, b) waiting).state.2 = b) ∧
      (Station.machine E allowed dataEncode).Acts ⟨s, true, inbox, read, wrote⟩
        ⟨(E.readDevice (s, b) waiting).state.1, (E.readDevice (s, b) waiting).isOk, inbox,
          read ++ E.reads s waiting, wrote⟩ es := by
  by_cases hdev : E.uartDev s = none
  · have hread : E.readDevice (s, b) waiting = .ok (s, b) := if_pos hdev
    refine ⟨[], ?_, ?_⟩
    · rw [hread]
      exact ⟨(List.append_nil _).symm, rfl, rfl, rfl⟩
    · have hnothing : E.reads s waiting = [] := by
        cases waiting with
        | raises => rfl
        | bytes rxBytes => exact if_neg (by simp [hdev])
      rw [hread, hnothing, List.append_nil]
      exact .refl _
  · cases waiting with
    | raises =>
      have hread : E.readDevice (s, b) .raises = .raised (s, b) := if_neg hdev
      refine ⟨[], ?_, ?_⟩
      · rw [hread]
        exact ⟨(List.append_nil _).symm, rfl, rfl, rfl⟩
      · rw [hread, Peer.reads, List.append_nil]
        exact .single (.fail _ (hraises rfl))
    | bytes rxBytes =>
      have hread : E.readDevice (s, b) (.bytes rxBytes) = .ok (E.forward s rxBytes, b) := if_neg hdev
      by_cases hne : rxBytes = []
      · have hforward : E.forward s rxBytes = s := if_neg (by simp [hne])
        refine ⟨[], ?_, ?_⟩
        · rw [hread, hforward]
          exact ⟨(List.append_nil _).symm, rfl, rfl, rfl⟩
        · rw [hread, hforward, Peer.reads, if_neg (by simp [hne]), List.append_nil]
          exact .refl _
      · refine ⟨E.readEvents s rxBytes, ?_, ?_⟩
        · rw [hread]
          refine ⟨E.events_forward s rxBytes, ?_, (E.forward_fields s rxBytes).1, rfl⟩
          by_cases hrun : E.isRunning s = true
          · rw [Peer.readEvents_of_running hrun hne]
            rfl
          · rw [Peer.readEvents_of_not_running hrun]
            rfl
        · rw [hread, Peer.reads, if_pos ⟨hdev, List.length_pos_iff.2 hne⟩]
          exact .single (.read _ rxBytes rfl hdev hne (hbytes rxBytes rfl hne))

end Turns

namespace Port

variable {σ τ : Type*} {E : Peer σ} {F : Peer τ} {allowed : Option Bytes → Prop} {dataEncode : Bool}

/-- A turn of the loop is what the station does with the packets that the chunk completes, and then with its device. -/
theorem Refines.turn {x : Port σ} {y : Station σ} (hr : Refines E dataEncode x y) {t : Turn} {rest : List Bytes}
    (hup : x.up = true) (ht : Takes t.poll x.chunks rest) (hallowed : t.Allowed allowed) :
    ∃ y', (Station.machine E allowed dataEncode).Acts y y' (E.turnEvents (x.state, x.recvBuffer) t) ∧
      Refines E dataEncode
        ⟨(E.turn (x.state, x.recvBuffer) t).state.1, (E.turn (x.state, x.recvBuffer) t).state.2,
          (E.turn (x.state, x.recvBuffer) t).isOk, rest, x.frames, x.read ++ E.readAll (x.state, x.recvBuffer) t,
          x.wrote ++ written (E.turnEvents (x.state, x.recvBuffer) t)⟩ y' := by
  obtain ⟨⟨hstate, hyup, hread, hwrote⟩, hencode, ps, hinbox, harriving⟩ := hr
  obtain ⟨ystate, yup, yinbox, yread, ywrote⟩ := y
  dsimp only at hstate hyup hread hwrote hinbox
  subst hstate hyup hread hwrote hinbox
  rw [hup]
  obtain ⟨es, left, ⟨hes, henc⟩, hleft, hacts⟩ := Station.acts_poll E allowed hencode
    (harriving hup) ht hallowed.poll (x.frames.filterMap (readWhole dataEncode)) x.read x.wrote
  cases hpoll : E.poll (x.state, x.recvBuffer) t.poll with
  | raised st =>
    have hturn : E.turn (x.state, x.recvBuffer) t = .raised st := by rw [Peer.turn, hpoll]
    have hnothing : E.readAll (x.state, x.recvBuffer) t = [] := by rw [Peer.readAll, hpoll]
    rw [hpoll] at hes henc hacts
    have hevents : E.turnEvents (x.state, x.recvBuffer) t = es := by
      rw [Peer.turnEvents, hturn]
      exact (congrArg (List.drop _) hes).trans List.drop_left
    rw [hturn, hevents, hnothing, List.append_nil]
    exact ⟨_, hacts, ⟨rfl, rfl, rfl, rfl⟩, henc, left, rfl, fun h => (by cases h)⟩
  | ok st =>
    have hturn : E.turn (x.state, x.recvBuffer) t = E.readDevice st t.waiting := by rw [Peer.turn, hpoll]
    rw [hpoll] at hes henc hleft hacts
    obtain ⟨es', ⟨hes', hwritten, henc', hbuffer⟩, hacts'⟩ := Station.acts_readDevice E allowed dataEncode (s := st.1)
      hallowed.raises hallowed.bytes st.2 (left ++ x.frames.filterMap (readWhole dataEncode)) x.read
      (x.wrote ++ written es)
    have hevents : E.turnEvents (x.state, x.recvBuffer) t = es ++ es' := by
      rw [Peer.turnEvents, hturn]
      have : E.events (E.readDevice st t.waiting).state.1 = E.events x.state ++ (es ++ es') := by
        rw [← List.append_assoc, ← hes]
        exact hes'
      rw [this]
      exact List.drop_left
    rw [hturn, hevents, written_append, hwritten, List.append_nil]
    refine ⟨_, hacts.trans hacts', ⟨rfl, rfl, ?_, rfl⟩, henc'.trans henc, left, rfl, fun _ => ?_⟩
    · unfold Peer.readAll
      rw [hpoll]
    · rw [hbuffer]
      exact hleft rfl

/-- An end with bytes in flight to it simulates a station. -/
theorem simulates (E : Peer σ) (allowed : Option Bytes → Prop) (dataEncode : Bool) :
    (machine E allowed).Simulates (Station.machine E allowed dataEncode) (Refines E dataEncode) where
  act x x' y es hr hact := by
    cases hact with
    | network raws rest cs hchunks hframes hseg =>
      obtain ⟨hsame, hencode, ps, hinbox, harriving⟩ := hr
      refine ⟨y, .refl y, hsame, hencode, ps ++ raws.filterMap (readWhole dataEncode), ?_, fun hup => ?_⟩
      · rw [hinbox, hframes, List.filterMap_append, List.append_assoc]
      · -- nothing was left in the buffer
        have hnil := harriving hup
        rw [hchunks] at hnil
        injection hnil with hnil
        obtain ⟨rfl, hbuffer⟩ := Prod.mk.inj hnil
        rw [hencode] at hseg
        rw [List.nil_append]
        show Arriving dataEncode x.recvBuffer cs _
        rw [hbuffer]
        exact hseg.arriving
    | turn t rest hup ht hallowed => exact hr.turn hup ht hallowed
  accept x y es hr := by
    obtain ⟨hsame, hencode, ps, hinbox, harriving⟩ := hr
    refine ⟨hsame, hencode, ps, ?_, harriving⟩
    show y.inbox ++ messages dataEncode es = ps ++ (x.frames ++ sentFrames es).filterMap (readWhole dataEncode)
    rw [hinbox, List.filterMap_append, filterMap_sentFrames, List.append_assoc]

end Port

end WirelessUart
