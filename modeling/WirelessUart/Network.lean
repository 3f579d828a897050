import WirelessUart.ByteLib.Run
import WirelessUart.Client

/-!
# The two ends together

Client and server with the packets in flight in each direction.  A step dispatches the first packet in flight to an
end; what this end sends while it handles the packet is in flight behind the others.  An end that raises handles no
further packet.

An `error` packet is not answered, and any other packet by at most two, which are `error` packets
(`Session.answers_newEvents`, `Client.answers_newEvents`).  So the ends do not go on answering each other's errors:
every run is over after three steps for each packet and one for each error (`error_answers_end`).
-/

namespace WirelessUart

open ByteLib

/-! ### What is sent -/

/-- The packet that the other end reads, if the event sends one. -/
def Event.packet : Event → Option Packet
  | .sent (some raw) => parse raw
  | _ => none

/-- The packets that the events send, in order. -/
def sentPackets (es : List Event) : List Packet := es.filterMap Event.packet

/-- At most `n` packets are sent, and the other end reads each as an error. -/
def Answers (n : Nat) (es : List Event) : Prop :=
  es.countP Event.isSent ≤ n ∧ ∀ raw, .sent (some raw) ∈ es → ∃ q, parse raw = some q ∧ q.keyStr = "error"

section Sent

variable {dataEncode : Bool} {n : Nat} {es : List Event}

/-- What is sent as an error is read as one. -/
theorem parse_sendPacket_error {msg : String} {raw : Bytes}
    (h : sendPacket dataEncode "error" (.str msg) = some raw) : ∃ q, parse raw = some q ∧ q.keyStr = "error" := by
  have hraw : ∃ q : Packet, q.keyStr = "error" ∧ q.getBytes = some raw := by
    cases dataEncode with
    | false => exact ⟨Packet.init "error" (encode msg), rfl, h⟩
    | true => exact ⟨(Packet.init "error" (encode msg)).doEncode, Packet.keyStr_doEncode _, h⟩
  obtain ⟨q, hkey, hq⟩ := hraw
  obtain ⟨hlt, rfl⟩ := Packet.getBytes_eq_some.1 hq
  have hs : q.Sendable := ⟨by rw [hkey]; decide, by rw [hkey]; decide, hlt⟩
  exact ⟨q, hs.parse_core symbolEndBytes, hkey⟩

theorem Quiet.answers (h : Quiet dataEncode n es) : Answers n es := by
  refine ⟨h.count, fun raw hmem => ?_⟩
  obtain ⟨msg, hmsg⟩ := h.errors _ hmem
  exact parse_sendPacket_error hmsg.symm

theorem Answers.mono {m : Nat} (h : Answers m es) (hmn : m ≤ n) : Answers n es := ⟨h.1.trans hmn, h.2⟩

theorem answers_wrote (n : Nat) (dev : Option Serial) (v : Bytes) : Answers n [.wrote dev v] := by
  refine ⟨by simp [Event.isSent], fun raw hmem => ?_⟩
  cases List.mem_singleton.1 hmem

theorem Answers.keyStr (h : Answers n es) : ∀ q ∈ sentPackets es, q.keyStr = "error" := by
  intro q hq
  obtain ⟨e, he, heq⟩ := List.mem_filterMap.1 hq
  unfold Event.packet at heq
  split at heq
  · obtain ⟨q', hparse, hkey⟩ := h.2 _ he
    rw [hparse] at heq
    cases heq
    exact hkey
  · cases heq

theorem Answers.length_le (h : Answers n es) : (sentPackets es).length ≤ n := by
  refine le_trans ?_ h.1
  rw [sentPackets, List.length_filterMap_eq_countP]
  refine List.countP_mono_left fun e _ he => ?_
  cases e with
  | sent raw => rfl
  | _ => cases he

end Sent

namespace Session

theorem command_eq_noted_or {p : Packet} (h : p.keyStr = "error") : p.command = .noted ∨ p.command = .unreadable := by
  cases hdec : decode p.valBytes with
  | none => exact .inr (by simp [Packet.command, h, hdec])
  | some text => exact .inl (by simp [Packet.command, h, hdec])

/-- The server does not answer an error, and answers any other packet by at most two. -/
theorem answers_newEvents (env : Env) (s : Session) (p : Packet) :
    Answers (if p.keyStr = "error" then 0 else 2) (s.newEvents env p) := by
  rcases (newEvents_spec env s p).2 with ⟨val, -, -, hes⟩ | hq
  · rw [hes]
    exact answers_wrote _ _ _
  · split
    case isTrue h =>
      rw [if_pos (command_eq_noted_or h)] at hq
      exact hq.answers
    case isFalse =>
      refine (hq.mono ?_).answers
      split <;> omega

end Session

/-- The client does not answer an error, and answers any other packet by at most one. -/
theorem Client.answers_newEvents (env : Env) (c : Client) (p : Packet) :
    Answers (if p.keyStr = "error" then 0 else 1) (c.newEvents env p) := by
  rcases (Client.newEvents_spec env c p).2 with ⟨-, -, hes⟩ | hq
  · rw [hes]
    exact answers_wrote _ _ _
  · exact hq.answers

/-! ### Steps -/

/-- The two ends, whether their loops go on, and the packets in flight. -/
structure Network where
  server : Session
  client : Client
  serverUp : Bool := true
  clientUp : Bool := true
  toServer : List Packet
  toClient : List Packet
deriving DecidableEq

namespace Network

/-- The server receives `p`; `rest` stays in flight. -/
def dispatchServer (env : Env) (p : Packet) (rest : List Packet) (net : Network) : Network :=
  match received net.server.dataEncode p with
  | some q =>
    { net with
      server := (net.server.handlePacket env q).state
      serverUp := (net.server.handlePacket env q).isOk
      toServer := rest
      toClient := net.toClient ++ sentPackets (net.server.newEvents env q) }
  | none => { net with serverUp := false, toServer := rest }

/-- The client receives `p`; `rest` stays in flight. -/
def dispatchClient (env : Env) (p : Packet) (rest : List Packet) (net : Network) : Network :=
  match received net.client.dataEncode p with
  | some q =>
    { net with
      client := (net.client.handlePacket env q).state
      clientUp := (net.client.handlePacket env q).isOk
      toClient := rest
      toServer := net.toServer ++ sentPackets (net.client.newEvents env q) }
  | none => { net with clientUp := false, toClient := rest }

/-- One packet is dispatched, on either side. -/
inductive Dispatch : Network → Network → Prop
  | server (env : Env) (p : Packet) (rest : List Packet) (net : Network) :
      net.serverUp = true → net.toServer = p :: rest → Dispatch net (net.dispatchServer env p rest)
  | client (env : Env) (p : Packet) (rest : List Packet) (net : Network) :
      net.clientUp = true → net.toClient = p :: rest → Dispatch net (net.dispatchClient env p rest)

/-- The packets in flight. -/
def inFlight (net : Network) : List Packet := net.toServer ++ net.toClient

/-- The errors in flight. -/
def errors (net : Network) : Nat := net.inFlight.countP fun p => p.keyStr = "error"

/-- The packets in flight that are not errors. -/
def others (net : Network) : Nat := net.inFlight.countP fun p => p.keyStr ≠ "error"

/-! ### The measure -/

/-- How many steps a packet can cause. -/
def weight (p : Packet) : Nat := if p.keyStr = "error" then 1 else 3

def weights (ps : List Packet) : Nat := (ps.map weight).sum

theorem weight_pos (p : Packet) : 0 < weight p := by
  rw [weight]
  split <;> omega

theorem weights_eq (ps : List Packet) :
    weights ps = 3 * ps.countP (fun p => p.keyStr ≠ "error") + ps.countP fun p => p.keyStr = "error" := by
  induction ps with
  | nil => rfl
  | cons p ps ih =>
    have hcons : weights (p :: ps) = weight p + weights ps := rfl
    rw [hcons, ih, weight, List.countP_cons, List.countP_cons]
    by_cases h : p.keyStr = "error"
    · simp [h]
      omega
    · simp [h]
      omega

theorem weights_append (ps qs : List Packet) : weights (ps ++ qs) = weights ps + weights qs := by
  rw [weights, List.map_append, List.sum_append]
  rfl

/-- What a packet is answered by weighs less than the packet. -/
theorem weights_sentPackets_lt {p : Packet} {es : List Event}
    (h : Answers (if p.keyStr = "error" then 0 else 2) es) : weights (sentPackets es) < weight p := by
  have hothers : (sentPackets es).countP (fun q => q.keyStr ≠ "error") = 0 :=
    List.countP_eq_zero.2 fun q hq => by simp [h.keyStr q hq]
  have herrors := (sentPackets es).countP_le_length (p := fun q => q.keyStr = "error")
  have hlen := h.length_le
  rw [weights_eq, hothers, weight]
  by_cases hp : p.keyStr = "error"
  · rw [if_pos hp] at hlen ⊢
    omega
  · rw [if_neg hp] at hlen ⊢
    omega

theorem keyStr_received {dataEncode : Bool} {p q : Packet} (h : received dataEncode p = some q) :
    q.keyStr = p.keyStr := by
  unfold received at h
  split at h
  · unfold Packet.doDecode at h
    split at h
    · cases h
      rfl
    · obtain ⟨val, -, rfl⟩ := Option.map_eq_some_iff.1 h
      rfl
  · cases h
    rfl

/-- A dispatch takes more out of what is in flight than it brings in. -/
theorem Dispatch.weights_lt {net net' : Network} (h : Dispatch net net') :
    weights net'.inFlight < weights net.inFlight := by
  cases h with
  | server env p rest net _ hp =>
    have hcons : weights (p :: rest) = weight p + weights rest := rfl
    rw [dispatchServer, inFlight, inFlight, hp, weights_append, weights_append, hcons]
    split
    case h_1 q hq =>
      have hlt := weights_sentPackets_lt (Session.answers_newEvents env net.server q)
      have hw : weight q = weight p := by rw [weight, weight, keyStr_received hq]
      show weights rest + weights (net.toClient ++ sentPackets (net.server.newEvents env q)) < _
      rw [weights_append]
      omega
    case h_2 =>
      have hpos : 0 < weight p := weight_pos p
      show weights rest + weights net.toClient < _
      omega
  | client env p rest net _ hp =>
    have hcons : weights (p :: rest) = weight p + weights rest := rfl
    rw [dispatchClient, inFlight, inFlight, hp, weights_append, weights_append, hcons]
    split
    case h_1 q hq =>
      have hanswers : Answers (if q.keyStr = "error" then 0 else 2) (net.client.newEvents env q) :=
        (Client.answers_newEvents env net.client q).mono (by split <;> omega)
      have hlt := weights_sentPackets_lt hanswers
      have hw : weight q = weight p := by rw [weight, weight, keyStr_received hq]
      show weights (net.toServer ++ sentPackets (net.client.newEvents env q)) + weights rest < _
      rw [weights_append]
      omega
    case h_2 =>
      have hpos : 0 < weight p := weight_pos p
      show weights net.toServer + weights rest < _
      omega

/-- Errors are not answered, other packets by at most two errors, and so every run is over after three steps for each
packet in flight and one for each error. -/
theorem error_answers_end :
    (∀ (env : Env) (s : Session) (p : Packet), Answers (if p.keyStr = "error" then 0 else 2) (s.newEvents env p)) ∧
    (∀ (env : Env) (c : Client) (p : Packet), Answers (if p.keyStr = "error" then 0 else 2) (c.newEvents env p)) ∧
    ∀ (n : Nat) (net net' : Network), RunsIn Dispatch n net net' → n ≤ 3 * net.others + net.errors := by
  refine ⟨Session.answers_newEvents, fun env c p => ?_, fun n net net' h => ?_⟩
  · exact (Client.answers_newEvents env c p).mono (by split <;> omega)
  · have hrun := RunsIn.add_measure_le (fun net => weights net.inFlight) (fun _ _ h => h.weights_lt) h
    have hstart : weights net.inFlight = 3 * net.others + net.errors := weights_eq net.inFlight
    omega

/-- The bound is reached: a baud rate that `int` refuses, and settings that cannot be opened. -/
example : ∃ net', RunsIn Dispatch 3 ⟨{ uartPath := "a", uartBaud := 9, dataEncode := false }, { dataEncode := false },
    true, true, [.init "baud" [0x78]], []⟩ net' :=
  ⟨_, .head (.server ⟨some "x", false, false⟩ (.init "baud" [0x78]) [] _ rfl rfl)
    (.head (.client ⟨none, false, false⟩ (.init "error" (encode "baudrate invalid."))
        [.init "error" (encode "uart open fail: x")] _ (by decide +kernel) (by decide +kernel))
      (.head (.client ⟨none, false, false⟩ (.init "error" (encode "uart open fail: x")) [] _ (by decide +kernel)
        (by decide +kernel)) (.refl _)))⟩

end Network

end WirelessUart
