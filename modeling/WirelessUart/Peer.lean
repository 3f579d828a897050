import WirelessUart.Handle

/-!
# The two ends have one loop

The loop of `handle` is the same text in `WirelessUartClientHandler` (server) and in `WirelessUartConnectHelper`
(client).  A `Peer` is what the loop uses of an end, with the facts that hold at either one: what handling a packet
adds to the events is one write or `Quiet`.  `Peer.turn` is the turn of the loop; for the server it is `Handling.turn`
(`Handling.turn_eq`).

The loop is decided by the bytes alone: what it does with one result of `recv` follows from what the recording handler
sees of it (`receive_of_record`).
-/

namespace WirelessUart

open ByteLib

/-! ### The recording handler -/

section Record

variable {σ : Type*} {dataEncode : Bool} {handlePacket : σ → Packet → Outcome σ} {s : σ} {ps : List Packet}

/-- The packets one after the other, until one raises. -/
def handleAll (handlePacket : σ → Packet → Outcome σ) : σ → List Packet → Outcome σ
  | s, [] => .ok s
  | s, p :: ps =>
    match handlePacket s p with
    | .ok s' => handleAll handlePacket s' ps
    | .raised s' => .raised s'

/-- A function on the states, however the call ends. -/
def Outcome.map {τ : Type*} (f : σ → τ) : Outcome σ → Outcome τ
  | .ok s => .ok (f s)
  | .raised s => .raised (f s)

/-- The recording handler keeps what it has recorded. -/
theorem recvLoop_record_append (l : List Packet) (b : Bytes) :
    recvLoop dataEncode record l b = (recvLoop dataEncode record [] b).map fun r => (l ++ r.1, r.2) := by
  induction hn : b.length using Nat.strong_induction_on generalizing l b with
  | _ n ih =>
    cases hp : parse b with
    | none => rw [recvLoop_of_none hp, recvLoop_of_none hp, Outcome.map, List.append_nil]
    | some p =>
      cases hq : received dataEncode p with
      | none => rw [recvLoop_of_undecoded hp hq, recvLoop_of_undecoded hp hq, Outcome.map, List.append_nil]
      | some q =>
        have hlt : (b.drop (7 + q.dataSize)).length < n := by
          have := length_pos_of_find (find_isSome_of_parse hp)
          rw [List.length_drop]
          omega
        have hfirst (l : List Packet) :
            recvLoop dataEncode record l b = recvLoop dataEncode record (l ++ [q]) (b.drop (7 + q.dataSize)) :=
          recvLoop_of_some hp hq rfl
        rw [hfirst l, hfirst [], ih _ hlt (l ++ [q]) _ rfl, ih _ hlt ([] ++ [q]) _ rfl]
        cases recvLoop dataEncode record [] (b.drop (7 + q.dataSize)) with
        | ok r => simp [Outcome.map]
        | raised r => simp [Outcome.map]

/-- What the recording handler is given, every handler is given, until it raises. -/
theorem recvLoop_of_record (handlePacket : σ → Packet → Outcome σ) {b b' : Bytes}
    (h : recvLoop dataEncode record [] b = .ok (ps, b')) (s : σ) :
    match handleAll handlePacket s ps with
    | .ok s' => recvLoop dataEncode handlePacket s b = .ok (s', b')
    | .raised s' => ∃ c, recvLoop dataEncode handlePacket s b = .raised (s', c) := by
  induction hn : b.length using Nat.strong_induction_on generalizing s b ps b' with
  | _ n ih =>
    rcases recvLoop_ok_cases h with ⟨hp, heq⟩ | ⟨p, q, l, hp, hq, hl, hrest⟩
    · cases heq
      exact recvLoop_of_none hp
    · cases hl
      have hlt : (b.drop (7 + q.dataSize)).length < n := by
        have := length_pos_of_find (find_isSome_of_parse hp)
        rw [List.length_drop]
        omega
      rw [recvLoop_record_append] at hrest
      cases htail : recvLoop dataEncode record [] (b.drop (7 + q.dataSize)) with
      | raised r =>
        rw [htail] at hrest
        cases hrest
      | ok r =>
        rw [htail] at hrest
        obtain ⟨qs, c⟩ := r
        injection hrest with hrest
        obtain ⟨rfl, rfl⟩ := Prod.mk.inj hrest
        cases hs : handlePacket s q with
        | raised s' =>
          simp only [List.nil_append, List.singleton_append, handleAll, hs]
          exact ⟨_, recvLoop_of_raised hp hq hs⟩
        | ok s' =>
          simp only [List.nil_append, List.singleton_append, handleAll, hs]
          rw [recvLoop_of_some hp hq hs]
          exact ih _ hlt htail s' rfl

/-- The same for one result of `recv`. -/
theorem receive_of_record (handlePacket : σ → Packet → Outcome σ) {b b' raw : Bytes}
    (h : receive dataEncode record ([], b) raw = .ok (ps, b')) (s : σ) :
    match handleAll handlePacket s ps with
    | .ok s' => receive dataEncode handlePacket (s, b) raw = .ok (s', b')
    | .raised s' => ∃ c, receive dataEncode handlePacket (s, b) raw = .raised (s', c) := by
  by_cases hr : strip raw = []
  · rw [receive, if_neg (by simp [hr])] at h
    cases h
    exact if_neg (by simp [hr])
  · rw [receive_of_ne hr] at h
    cases hloop : recvLoop dataEncode record [] (b ++ strip raw) with
    | raised r =>
      rw [hloop] at h
      cases h
    | ok r =>
      rw [hloop] at h
      injection h with h
      obtain ⟨hps, hb⟩ := Prod.mk.inj h
      have hrecord : recvLoop dataEncode record [] (b ++ strip raw) = .ok (ps, r.2) := by rw [hloop, ← hps]
      have hall := recvLoop_of_record handlePacket hrecord s
      cases hhandle : handleAll handlePacket s ps with
      | ok s' =>
        rw [hhandle] at hall
        dsimp only at hall ⊢
        rw [receive_of_ne hr, hall]
        exact congrArg (fun b => Outcome.ok (s', b)) hb
      | raised s' =>
        rw [hhandle] at hall
        obtain ⟨c, hc⟩ := hall
        exact ⟨c, by rw [receive_of_ne hr, hc]⟩

end Record

/-! ### Ends -/

/-- What the loop of `handle` uses of an end. -/
structure Peer (σ : Type*) where
  dataEncode : σ → Bool
  handlePacket : σ → Packet → Outcome σ
  uartDev : σ → Option Serial
  isRunning : σ → Bool
  events : σ → List Event
  emit : σ → Event → σ
  emit_fields : ∀ s e, dataEncode (emit s e) = dataEncode s ∧ uartDev (emit s e) = uartDev s ∧
    isRunning (emit s e) = isRunning s ∧ events (emit s e) = events s ++ [e]
  dataEncode_handlePacket : ∀ s p, dataEncode (handlePacket s p).state = dataEncode s
  events_handlePacket : ∀ s p, ∃ es, events (handlePacket s p).state = events s ++ es ∧
    ((p.keyStr = "data" ∧ isRunning s = true ∧ es = [.wrote (uartDev s) p.valBytes]) ∨ Quiet (dataEncode s) 2 es)

namespace Peer

variable {σ : Type*} (E : Peer σ)

/-- The first half of a turn: wait for the socket and handle what it gives. -/
def poll (st : σ × Bytes) : Poll → Outcome (σ × Bytes)
  | .selectRaises => .raised st
  | .idle => .ok st
  | .recvRaises => .raised st
  | .received raw => receive (E.dataEncode st.1) E.handlePacket st raw

/-- Send what the device has read, while the end is running. -/
def forward (s : σ) (rxBytes : Bytes) : σ :=
  if E.isRunning s ∧ rxBytes.length > 0 then
    E.emit s (.sent (sendPacket (E.dataEncode s) "data" (.bytes rxBytes)))
  else s

/-- The second half of a turn. -/
def readDevice (st : σ × Bytes) (waiting : Waiting) : Outcome (σ × Bytes) :=
  if E.uartDev st.1 = none then .ok st
  else
    match waiting with
    | .raises => .raised st
    | .bytes rxBytes => .ok (E.forward st.1 rxBytes, st.2)

/-- One turn of the loop of `handle`. -/
def turn (st : σ × Bytes) (t : Turn) : Outcome (σ × Bytes) :=
  match E.poll st t.poll with
  | .ok st => E.readDevice st t.waiting
  | .raised st => .raised st

/-- What handling a packet adds to the events. -/
def newEvents (s : σ) (p : Packet) : List Event := (E.events (E.handlePacket s p).state).drop (E.events s).length

variable {E} {s : σ} {p : Packet}

theorem newEvents_spec (E : Peer σ) (s : σ) (p : Packet) :
    E.events (E.handlePacket s p).state = E.events s ++ E.newEvents s p ∧
      ((p.keyStr = "data" ∧ E.isRunning s = true ∧ E.newEvents s p = [.wrote (E.uartDev s) p.valBytes]) ∨
        Quiet (E.dataEncode s) 2 (E.newEvents s p)) := by
  obtain ⟨es, hes, h⟩ := E.events_handlePacket s p
  have hnew : E.newEvents s p = es := by rw [newEvents, hes, List.drop_left]
  rw [hnew]
  exact ⟨hes, h⟩

end Peer

/-! ### The server -/

namespace Session

/-- No packet changes the setting `data_encode`. -/
theorem dataEncode_handlePacket (env : Env) (s : Session) (p : Packet) :
    (s.handlePacket env p).state.dataEncode = s.dataEncode := by
  have hstart (t : Session) : (t.handleStart env).dataEncode = t.dataEncode := by
    unfold handleStart
    dsimp only
    split <;> exact (uartOpen_fields env t).2.2.2
  have hrestart (t : Session) : (t.restart env).dataEncode = t.dataEncode := by
    rw [restart_eq]
    split
    · exact hstart t
    · rfl
  rw [handlePacket_eq_exec]
  cases p.command with
  | path path => exact hrestart { s with uartPath := path }
  | baud baud =>
    cases baud with
    | some baud => exact hrestart { s with uartBaud := baud }
    | none => exact hrestart (s.error "baudrate invalid.")
  | start => exact hstart s
  | stop => exact (uartClose_fields env s).2.2.2.1
  | data val =>
    by_cases hrun : s.isRunning = true
    · rw [exec_data_of_running hrun]
      split <;> rfl
    · rw [exec_data_of_not_running hrun]
      rfl
  | _ => rfl

theorem keyStr_of_data {p : Packet} {v : Bytes} (h : p.command = .data v) : p.keyStr = "data" ∧ p.valBytes = v := by
  unfold Packet.command at h
  cases hdec : decode p.valBytes with
  | none =>
    simp only [hdec] at h
    split_ifs at h with _ _ _ _ hdata
    exact ⟨hdata, Command.data.inj h⟩
  | some text =>
    simp only [hdec] at h
    split_ifs at h with _ _ _ _ hdata
    exact ⟨hdata, Command.data.inj h⟩

end Session

namespace Handling

/-- The server's end; `env` says what the device does while a packet is handled. -/
def peer (env : Nat → Env) : Peer Handling where
  dataEncode h := h.session.dataEncode
  handlePacket := handlePacket env
  uartDev h := h.session.uartDev
  isRunning h := h.session.isRunning
  events h := h.session.events
  emit h e := { h with session := h.session.emit e }
  emit_fields _ _ := ⟨rfl, rfl, rfl, rfl⟩
  dataEncode_handlePacket h p := by
    rw [handlePacket_state]
    exact Session.dataEncode_handlePacket _ h.session p
  events_handlePacket h p := by
    rw [handlePacket_state]
    obtain ⟨hes, hcases⟩ := Session.newEvents_spec (env h.log.length) h.session p
    refine ⟨_, hes, ?_⟩
    rcases hcases with ⟨val, hc, hrun, hnew⟩ | hq
    · obtain ⟨hkey, rfl⟩ := Session.keyStr_of_data hc
      exact .inl ⟨hkey, hrun, hnew⟩
    · exact .inr (hq.mono (by split <;> omega))

/-- The loop of the server is that of its end. -/
theorem turn_eq (env : Nat → Env) (st : Handling × Bytes) (t : Turn) :
    turn env st t = (peer env).turn st t := by
  have hread (st : Handling × Bytes) (waiting : Waiting) :
      readDevice st waiting = (peer env).readDevice st waiting := by
    unfold readDevice Peer.readDevice
    refine if_congr Iff.rfl rfl ?_
    cases waiting with
    | raises => rfl
    | bytes rxBytes =>
      by_cases h : st.1.session.isRunning ∧ rxBytes.length > 0
      · have hforward : (peer env).forward st.1 rxBytes =
            (peer env).emit st.1 (.sent (sendPacket st.1.session.dataEncode "data" (.bytes rxBytes))) := if_pos h
        exact (if_pos h).trans (congrArg (fun h => Outcome.ok (h, st.2)) hforward.symm)
      · have hforward : (peer env).forward st.1 rxBytes = st.1 := if_neg h
        exact (if_neg h).trans (congrArg (fun h => Outcome.ok (h, st.2)) hforward.symm)
  have hpoll : poll env st t.poll = (peer env).poll st t.poll := by
    cases t.poll <;> rfl
  unfold turn Peer.turn
  rw [hpoll]
  cases (peer env).poll st t.poll with
  | ok st' => exact hread st' t.waiting
  | raised st' => rfl

end Handling

end WirelessUart
