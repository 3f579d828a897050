import WirelessUart.Release

/-!
# The loop of a server session

`WirelessUartClientHandler.handle`, turn after turn.  What `select`, `recv`, `in_waiting` and `read_all` do is outside,
and given by a `Turn`; so is what the methods of the serial device do while the `n`-th packet is handled.  Only an
exception ends the loop.

The end of the stream does not: `recv` returns the empty byte string again and again.  Nor does anything close the
device when the loop ends.  The session releases its devices exactly when no `recv` returns the empty byte string and
every exception comes when there is no device to be closed (`released_iff`).
-/

namespace WirelessUart

open ByteLib

/-! ### The loop of the source -/

/-- What `select` and `recv` do. -/
inductive Poll
  | selectRaises
  | idle
  | recvRaises
  | received (raw : Bytes)
deriving DecidableEq

/-- What `in_waiting` and `read_all` do; without waiting bytes there is nothing to read. -/
inductive Waiting
  | raises
  | bytes (rxBytes : Bytes)
deriving DecidableEq

/-- What is outside in one turn of the loop. -/
structure Turn where
  poll : Poll
  waiting : Waiting
deriving DecidableEq

/-- `recv` is called. -/
def Turn.recvs (turn : Turn) : Bool :=
  match turn.poll with
  | .recvRaises => true
  | .received _ => true
  | _ => false

/-- A session with the packets that it has handled: what its device did, and the session before. -/
structure Handling where
  session : Session
  log : List (Env × Session × Packet) := []

namespace Handling

/-- `handle_packet` -/
def handlePacket (env : Nat → Env) (self : Handling) (newPacket : Packet) : Outcome Handling :=
  let now := env self.log.length
  let log := self.log ++ [(now, self.session, newPacket)]
  match self.session.handlePacket now newPacket with
  | .ok s => .ok ⟨s, log⟩
  | .raised s => .raised ⟨s, log⟩

/-- The first half of a turn: wait for the socket and handle what it gives. -/
def poll (env : Nat → Env) (st : Handling × Bytes) : Poll → Outcome (Handling × Bytes)
  | .selectRaises => .raised st
  | .idle => .ok st
  | .recvRaises => .raised st
  | .received raw => receive st.1.session.dataEncode (handlePacket env) st raw

/-- The second half of a turn: send what the device has read. -/
def readDevice (st : Handling × Bytes) (waiting : Waiting) : Outcome (Handling × Bytes) :=
  if st.1.session.uartDev = none then .ok st
  else
    match waiting with
    | .raises => .raised st
    | .bytes rxBytes =>
      if st.1.session.isRunning ∧ rxBytes.length > 0 then
        let raw := sendPacket st.1.session.dataEncode "data" (.bytes rxBytes)
        .ok ({ st.1 with session := st.1.session.emit (.sent raw) }, st.2)
      else .ok st

/-- One turn of the loop of `handle`. -/
def turn (env : Nat → Env) (st : Handling × Bytes) (t : Turn) : Outcome (Handling × Bytes) :=
  match poll env st t.poll with
  | .ok st => readDevice st t.waiting
  | .raised st => .raised st

end Handling

/-- A run of `handle`: the settings of the server, what the device does, and the turns of the loop. -/
structure HandleRun where
  dataEncode : Bool
  env : Nat → Env
  turns : Nat → Turn

namespace HandleRun

/-- The state after `n` turns; an exception ends the loop. -/
def after (run : HandleRun) : Nat → Outcome (Handling × Bytes)
  | 0 => .ok (⟨{ dataEncode := run.dataEncode }, []⟩, [])
  | n + 1 =>
    match run.after n with
    | .ok st => Handling.turn run.env st (run.turns n)
    | .raised st => .raised st

/-- Turn `n` takes place. -/
def Reaches (run : HandleRun) (n : Nat) : Prop := ∃ st, run.after n = .ok st

/-- The exception of turn `n` ends the loop, in the state `st`. -/
def Ends (run : HandleRun) (n : Nat) (st : Handling × Bytes) : Prop :=
  run.Reaches n ∧ run.after (n + 1) = .raised st

/-- At the end of the stream the socket stays ready, so that the next turn calls `recv`. -/
def StaysReady (run : HandleRun) : Prop :=
  ∀ n, (run.turns n).poll = .received [] → (run.turns (n + 1)).recvs = true

/-- The session is over at the end of the stream, and it has then closed its devices, as at every other end. -/
structure Released (run : HandleRun) : Prop where
  no_recv : ∀ m n, m < n → run.Reaches m → (run.turns m).poll = .received [] → run.Reaches n →
    (run.turns n).recvs = false
  closed : ∀ n st, run.Ends n st → st.1.session.AllClosed

end HandleRun

/-! ### What the loop keeps -/

section Invariant

variable {σ : Type*} {Inv : σ → Prop} {handlePacket : σ → Packet → Outcome σ}

theorem recvLoop_invariant (hstep : ∀ s p, Inv s → Inv (handlePacket s p).state) (dataEncode : Bool) {s : σ}
    (hs : Inv s) (b : Bytes) : Inv (recvLoop dataEncode handlePacket s b).state.1 := by
  fun_induction recvLoop dataEncode handlePacket s b with
  | case1 s b _ p _ q _ s' hok ih =>
    have hstate := hstep s q hs
    rw [hok] at hstate
    exact ih hstate
  | case2 s b _ p _ q _ s' hraised =>
    have hstate := hstep s q hs
    rw [hraised] at hstate
    exact hstate
  | _ => exact hs

theorem receive_invariant (hstep : ∀ s p, Inv s → Inv (handlePacket s p).state) (dataEncode : Bool) {st : σ × Bytes}
    (hs : Inv st.1) (raw : Bytes) : Inv (receive dataEncode handlePacket st raw).state.1 := by
  have hloop := recvLoop_invariant hstep dataEncode hs (st.2 ++ strip raw)
  unfold receive
  dsimp only
  split
  · split
    case h_1 heq =>
      rw [heq] at hloop
      exact hloop
    case h_2 heq =>
      rw [heq] at hloop
      exact hloop
  · exact hs

end Invariant

namespace Handling

/-- The devices are accounted for; they are tidy unless a packet of the log has leaked one, which is then lost. -/
structure Kept (h : Handling) : Prop where
  accounted : h.session.Accounted
  tidy : (∀ step ∈ h.log, ¬ Session.Leaks step.1 step.2.1 step.2.2) → h.session.Tidy
  lost : (∃ step ∈ h.log, Session.Leaks step.1 step.2.1 step.2.2) → ∃ dev, Session.Lost dev h.session

variable {env : Nat → Env} {st st' : Handling × Bytes}

theorem kept_init (dataEncode : Bool) : Kept ⟨{ dataEncode := dataEncode }, []⟩ where
  accounted := ⟨fun _ h => (by cases h), fun _ h => (by cases h), fun _ h => (by cases h)⟩
  tidy _ := fun _ h => (by cases h)
  lost h := by simp at h

theorem handlePacket_state (env : Nat → Env) (h : Handling) (p : Packet) :
    (h.handlePacket env p).state =
      ⟨(h.session.handlePacket (env h.log.length) p).state, h.log ++ [(env h.log.length, h.session, p)]⟩ := by
  unfold handlePacket
  dsimp only
  cases h.session.handlePacket (env h.log.length) p <;> rfl

/-- Handling a packet either leaks a device, or leaves the devices as tidy as they are. -/
theorem Kept.handlePacket {h : Handling} (hk : h.Kept) (p : Packet) : (h.handlePacket env p).state.Kept := by
  rw [handlePacket_state]
  refine ⟨Session.deviceInvariant_accounted.handlePacket _ hk.accounted p, fun hall => ?_, fun hex => ?_⟩
  · have hlog : ∀ step ∈ h.log, ¬ Session.Leaks step.1 step.2.1 step.2.2 := fun step hmem =>
      hall step (List.mem_append_left _ hmem)
    exact (hk.tidy hlog).handlePacket (hall (env h.log.length, h.session, p) (by simp))
  · obtain ⟨step, hmem, hl⟩ := hex
    rcases List.mem_append.1 hmem with hmem | hmem
    · obtain ⟨dev, hlost⟩ := hk.lost ⟨step, hmem, hl⟩
      exact ⟨dev, ((Session.deviceInvariant_lost dev).handlePacket _ ⟨hk.accounted, hlost⟩ p).2⟩
    · rw [List.mem_singleton.1 hmem] at hl
      exact hl.lost hk.accounted

theorem Kept.poll (hk : st.1.Kept) (env : Nat → Env) (p : Poll) : (poll env st p).state.1.Kept := by
  cases p with
  | received raw => exact receive_invariant (fun _ p hk => hk.handlePacket p) _ hk raw
  | _ => exact hk

/-- What is sent does not matter. -/
theorem Kept.emit {h : Handling} (hk : h.Kept) (raw : Option Bytes) :
    Kept { h with session := h.session.emit (.sent raw) } where
  accounted := Session.deviceInvariant_accounted.emit _ _ rfl hk.accounted
  tidy hall := Session.eventInvariant_tidy.emit _ _ rfl (hk.tidy hall)
  lost hex := by
    obtain ⟨dev, hlost⟩ := hk.lost hex
    exact ⟨dev, ((Session.deviceInvariant_lost dev).emit _ _ rfl ⟨hk.accounted, hlost⟩).2⟩

theorem Kept.readDevice (hk : st.1.Kept) (waiting : Waiting) : (readDevice st waiting).state.1.Kept := by
  unfold Handling.readDevice
  split
  · exact hk
  · split
    · exact hk
    · split
      · exact hk.emit _
      · exact hk

theorem Kept.turn (hk : st.1.Kept) (t : Turn) : (turn env st t).state.1.Kept := by
  have hpoll := hk.poll env t.poll
  unfold Handling.turn
  split
  case h_1 st' heq =>
    rw [heq] at hpoll
    exact Kept.readDevice hpoll t.waiting
  case h_2 st' heq =>
    rw [heq] at hpoll
    exact hpoll

/-- A packet that raises leaves the device as it is. -/
theorem uartDev_of_raised {env : Env} {s t : Session} {p : Packet} (h : s.handlePacket env p = .raised t) :
    t.uartDev = s.uartDev := by
  rw [Session.handlePacket_eq_exec] at h
  have hstate : (s.exec env p.command).state = t := by rw [h]; rfl
  rw [← hstate]
  cases hc : p.command with
  | data val =>
    by_cases hrun : s.isRunning = true
    · rw [Session.exec_data_of_running hrun]
      split <;> rfl
    · rw [Session.exec_data_of_not_running hrun]
      rfl
  | unreadable => rfl
  | baud baud => cases baud <;> (rw [hc] at h; cases h)
  | noted => rfl
  | unknown keyStr => rfl
  | _ =>
    rw [hc] at h
    cases h

/-- The second half of a turn raises only with a device in place. -/
theorem readDevice_raised {waiting : Waiting} (h : readDevice st waiting = .raised st') :
    st' = st ∧ st.1.session.uartDev ≠ none := by
  unfold readDevice at h
  split at h
  · cases h
  · rename_i hdev
    split at h
    · cases h
      exact ⟨rfl, hdev⟩
    · split at h <;> cases h

end Handling

/-! ### The end of a session -/

namespace HandleRun

variable {run : HandleRun}

theorem kept_after (run : HandleRun) (n : Nat) : (run.after n).state.1.Kept := by
  induction n with
  | zero => exact Handling.kept_init run.dataEncode
  | succ n ih =>
    rw [after]
    split
    case h_1 st heq =>
      rw [heq] at ih
      exact Handling.Kept.turn ih _
    case h_2 st heq =>
      rw [heq] at ih
      exact ih

theorem reaches_iff {n : Nat} : run.Reaches n ↔ (run.after n).isOk = true := by
  rw [Reaches]
  cases run.after n <;> simp [Outcome.isOk]

/-- The packets handled so far, and the device in place, tell whether all devices have been closed. -/
theorem allClosed_iff {h : Handling} (hk : h.Kept) :
    h.session.AllClosed ↔ h.session.uartDev = none ∧ ∀ step ∈ h.log, ¬ Session.Leaks step.1 step.2.1 step.2.2 := by
  constructor
  · refine fun hall => ⟨?_, fun step hmem hl => ?_⟩
    · by_contra hdev
      obtain ⟨dev, hdev⟩ := Option.ne_none_iff_exists'.1 hdev
      obtain ⟨hopened, hclosed⟩ := hk.accounted.inPlace dev hdev
      exact hclosed (hall dev hopened)
    · obtain ⟨dev, hlost⟩ := hk.lost ⟨step, hmem, hl⟩
      exact hlost.not_closed (hall dev hlost.opened)
  · rintro ⟨hdev, hlog⟩ dev hopened
    rcases hk.tidy hlog dev hopened with hclosed | hin
    · exact hclosed
    · rw [hdev] at hin
      cases hin

/-- The empty byte string leads to another `recv`, or ends the loop with a device in place. -/
theorem after_empty (hr : run.StaysReady) {n : Nat} (hn : run.Reaches n) (h : (run.turns n).poll = .received []) :
    (run.Reaches (n + 1) ∧ (run.turns (n + 1)).recvs = true) ∨
      ∃ st, run.Ends n st ∧ st.1.session.uartDev ≠ none := by
  obtain ⟨st, hst⟩ := hn
  have hturn : run.after (n + 1) = Handling.readDevice st (run.turns n).waiting := by
    rw [after, hst]
    show Handling.turn run.env st (run.turns n) = _
    rw [Handling.turn, h]
    rfl
  cases hread : Handling.readDevice st (run.turns n).waiting with
  | ok st' => exact .inl ⟨⟨st', hturn.trans hread⟩, hr n h⟩
  | raised st' =>
    obtain ⟨rfl, hdev⟩ := Handling.readDevice_raised hread
    exact .inr ⟨st', ⟨⟨_, hst⟩, hturn.trans hread⟩, hdev⟩

/-- A session releases its devices exactly when `recv` does not return the empty byte string, and every exception comes
while no device is in place and after no device has been leaked. -/
theorem released_iff (hr : run.StaysReady) :
    run.Released ↔ (∀ n, run.Reaches n → (run.turns n).poll ≠ .received []) ∧
      ∀ n st, run.Ends n st →
        st.1.session.uartDev = none ∧ ∀ step ∈ st.1.log, ¬ Session.Leaks step.1 step.2.1 step.2.2 := by
  have hclosed (n : Nat) (st : Handling × Bytes) (hend : run.Ends n st) : st.1.session.AllClosed ↔
      st.1.session.uartDev = none ∧ ∀ step ∈ st.1.log, ¬ Session.Leaks step.1 step.2.1 step.2.2 := by
    have hk := run.kept_after (n + 1)
    rw [hend.2] at hk
    exact allClosed_iff hk
  constructor
  · intro h
    refine ⟨fun n hn hempty => ?_, fun n st hend => (hclosed n st hend).1 (h.closed n st hend)⟩
    rcases after_empty hr hn hempty with ⟨hnext, hrecv⟩ | ⟨st, hend, hdev⟩
    · rw [h.no_recv n (n + 1) (Nat.lt_succ_self n) hn hempty hnext] at hrecv
      cases hrecv
    · exact hdev ((hclosed n st hend).1 (h.closed n st hend)).1
  · rintro ⟨hempty, hends⟩
    exact ⟨fun m _ _ hm h => absurd h (hempty m hm), fun n st hend => (hclosed n st hend).2 (hends n st hend)⟩

/-- The client sends `path` and `baud` and closes the connection, and the second `recv` after that raises. -/
def closedByPeer : HandleRun where
  dataEncode := false
  env _ := ⟨none, false, false⟩
  turns
    | 0 => ⟨.received [0x23, 0x24, 6, 0, 0, 0, 0x70, 0x61, 0x74, 0x68, 0x3d, 0x61, 0x51, 0x24, 0x23], .bytes []⟩
    | 1 => ⟨.received [0x23, 0x24, 6, 0, 0, 0, 0x62, 0x61, 0x75, 0x64, 0x3d, 0x39, 0x16, 0x24, 0x23], .bytes []⟩
    | 2 => ⟨.received [], .bytes []⟩
    | _ => ⟨.recvRaises, .bytes []⟩

theorem staysReady_closedByPeer : closedByPeer.StaysReady := by
  intro n h
  rcases n with _ | _ | _ | n
  · cases h
  · cases h
  · rfl
  · cases h

theorem reaches_closedByPeer : closedByPeer.Reaches 2 ∧ closedByPeer.Reaches 3 := by
  rw [reaches_iff, reaches_iff]
  decide +kernel

theorem not_released_closedByPeer : ¬ closedByPeer.Released :=
  fun h => ((released_iff staysReady_closedByPeer).1 h).1 2 reaches_closedByPeer.1 rfl

/-- After the empty byte string `recv` is called again, and when this raises the device is still open. -/
theorem not_released_every_run :
    ¬ (∀ run : HandleRun, run.StaysReady → ∀ m n, m < n → run.Reaches m → (run.turns m).poll = .received [] →
        run.Reaches n → (run.turns n).recvs = false) ∧
    ¬ ∀ run : HandleRun, run.StaysReady → ∀ n st, run.Ends n st → st.1.session.AllClosed := by
  have hend : closedByPeer.Ends 3 (closedByPeer.after 4).state := by
    refine ⟨reaches_closedByPeer.2, ?_⟩
    have hraised : (closedByPeer.after 4).isOk = false := by decide +kernel
    cases heq : closedByPeer.after 4 with
    | ok st =>
      rw [heq] at hraised
      cases hraised
    | raised st => rfl
  constructor
  · intro h
    cases h closedByPeer staysReady_closedByPeer 2 3 (by decide) reaches_closedByPeer.1 rfl reaches_closedByPeer.2
  · intro h
    have hdev : (closedByPeer.after 4).state.1.session.uartDev = some ⟨0, "a", 9, true⟩ := by decide +kernel
    obtain ⟨hnone, -⟩ := (allClosed_iff (closedByPeer.kept_after 4)).1 (h closedByPeer staysReady_closedByPeer 3 _ hend)
    rw [hdev] at hnone
    cases hnone

end HandleRun

end WirelessUart
