import WirelessUart.Client
import WirelessUart.OpenDevice
import WirelessUart.ParseSpec

/-!
# Packets that end a session

An exception that leaves `handle_packet` ends the session.  While a running side holds an open device whose `write` and
`flush` succeed, only text that is not UTF-8 raises: in a `path` packet on the server, and in an `error` packet on
either side (`handlePacket_returns_iff`).  A baud rate that `int` refuses is reported instead.
-/

namespace WirelessUart

namespace Session

variable {env : Env} {s : Session} {p : Packet}

/-- The value of a packet is reported as unusable: an error packet is among what handling it sends. -/
def Reported (env : Env) (s : Session) (p : Packet) : Prop :=
  ∃ msg, .sent (sendPacket s.dataEncode "error" (.str msg)) ∈ s.newEvents env p

/-- Only unreadable text raises. -/
theorem exec_ok_iff (hs : s.Consistent) (hw : env.writeRaises = false) (c : Command) :
    (∃ t, s.exec env c = .ok t) ↔ c ≠ .unreadable := by
  cases c with
  | unreadable =>
    refine iff_of_false ?_ fun h => h rfl
    rintro ⟨t, h⟩
    cases h
  | data val =>
    refine iff_of_true ?_ Command.noConfusion
    by_cases hrun : s.isRunning = true
    · obtain ⟨dev, hdev, -⟩ := hs hrun
      rw [exec_data_of_running hrun, hdev, hw, if_neg (by simp)]
      exact ⟨_, rfl⟩
    · exact ⟨_, exec_data_of_not_running hrun env val⟩
  | baud baud => cases baud <;> exact iff_of_true ⟨_, rfl⟩ Command.noConfusion
  | _ => exact iff_of_true ⟨_, rfl⟩ Command.noConfusion

theorem command_eq_unreadable :
    p.command = .unreadable ↔ (p.keyStr = "path" ∨ p.keyStr = "error") ∧ decode p.valBytes = none := by
  unfold Packet.command
  by_cases hpath : p.keyStr = "path"
  · rw [if_pos hpath]
    cases decode p.valBytes <;> simp [hpath]
  by_cases herror : p.keyStr = "error"
  · rw [herror, if_neg (by decide), if_neg (by decide), if_neg (by decide), if_neg (by decide), if_neg (by decide),
      if_pos rfl]
    cases decode p.valBytes <;> simp
  · rw [if_neg hpath, if_neg herror]
    split_ifs <;> simp [hpath, herror]

/-- A value that `int` refuses is reported. -/
theorem reported_of_baud (env : Env) (s : Session) (h : p.command = .baud none) : Reported env s p := by
  refine ⟨"baudrate invalid.", ?_⟩
  obtain ⟨es, hes, -⟩ := restart_events env (s.error "baudrate invalid.")
  have hstate : (s.handlePacket env p).state = (s.error "baudrate invalid.").restart env := by
    rw [handlePacket_eq_exec, h]
    rfl
  have hnew := (newEvents_spec env s p).1
  rw [hstate, hes, error, emit, List.append_assoc, List.append_cancel_left_eq] at hnew
  rw [← hnew]
  exact List.mem_append_left _ (List.mem_singleton_self _)

end Session

/-- The server's and the client's `handle_packet` return, and the server reports what it cannot use, exactly when the
packet holds no text that is decoded and is not UTF-8. -/
theorem handlePacket_returns_iff {s : Session} {c : Client} (hs : s.Consistent) (hc : c.Consistent) {env : Env}
    (hw : env.writeRaises = false) (p : Packet) :
    (((∃ t, s.handlePacket env p = .ok t) ∧ (p.keyStr = "baud" → (decode p.valBytes).bind pyInt = none →
        Session.Reported env s p)) ↔
      ¬ ((p.keyStr = "path" ∨ p.keyStr = "error") ∧ decode p.valBytes = none)) ∧
    ((∃ t, c.handlePacket env p = .ok t) ↔ ¬ (p.keyStr = "error" ∧ decode p.valBytes = none)) := by
  constructor
  · rw [← Session.command_eq_unreadable, Session.handlePacket_eq_exec, Session.exec_ok_iff hs hw]
    refine and_iff_left_of_imp fun _ hkey hint => ?_
    apply Session.reported_of_baud
    rw [Packet.command, if_neg (by rw [hkey]; decide), if_pos hkey, hint]
  · by_cases hd : p.keyStr = "data"
    · refine iff_of_true ?_ fun h => by rw [hd] at h; exact absurd h.1 (by decide)
      rw [Client.handlePacket_data env c hd]
      split
      · rename_i hrun
        obtain ⟨dev, hdev, -⟩ := hc hrun
        rw [hdev, hw, if_neg (by simp)]
        exact ⟨_, rfl⟩
      · exact ⟨_, rfl⟩
    by_cases he : p.keyStr = "error"
    · rw [Client.handlePacket_error env c he]
      cases hdec : decode p.valBytes with
      | none =>
        refine iff_of_false ?_ (not_not.2 ⟨he, rfl⟩)
        rintro ⟨t, h⟩
        cases h
      | some text => exact iff_of_true ⟨_, rfl⟩ (by simp)
    · exact iff_of_true ⟨_, Client.handlePacket_unknown env c hd he⟩ fun h => he h.1

theorem handlePacket_returns_iff_baud :
    (((∃ t, (⟨"", 0, none, false, false, 0, []⟩ : Session).handlePacket ⟨none, false, false⟩
          (Packet.init "baud" [0x78]) = .ok t) ∧
        ((Packet.init "baud" [0x78]).keyStr = "baud" → (decode (Packet.init "baud" [0x78]).valBytes).bind pyInt = none →
          Session.Reported ⟨none, false, false⟩ ⟨"", 0, none, false, false, 0, []⟩ (Packet.init "baud" [0x78]))) ↔
      ¬ (((Packet.init "baud" [0x78]).keyStr = "path" ∨ (Packet.init "baud" [0x78]).keyStr = "error") ∧
        decode (Packet.init "baud" [0x78]).valBytes = none)) ∧
    ((∃ t, (⟨some ⟨0, "/a", 9600, true⟩, true, false, []⟩ : Client).handlePacket ⟨none, false, false⟩
        (Packet.init "baud" [0x78]) = .ok t) ↔
      ¬ ((Packet.init "baud" [0x78]).keyStr = "error" ∧ decode (Packet.init "baud" [0x78]).valBytes = none)) :=
  handlePacket_returns_iff (fun h => by cases h) (fun _ => ⟨_, rfl, rfl⟩) rfl _

/-- A path that is not UTF-8 ends the session at once. -/
theorem not_handlePacket_every_packet :
    ¬ ∀ (dataEncode : Bool) (steps : List (Env × Packet)) (env : Env) (b : Bytes) (p : Packet),
      Server.parse b = some p → (Session.run { dataEncode := dataEncode } steps).Consistent → env.writeRaises = false →
        ∃ t, (Session.run { dataEncode := dataEncode } steps).handlePacket env p = .ok t := by
  intro h
  obtain ⟨t, ht⟩ := h false [] ⟨none, false, false⟩
    [0x23, 0x24, 6, 0, 0, 0, 0x70, 0x61, 0x74, 0x68, 0x3d, 0xff, 0xcf] (Packet.init "path" [0xff])
    (by decide +kernel) (fun h => by cases h) rfl
  have hrun : (Session.run { dataEncode := false } []).handlePacket ⟨none, false, false⟩ (Packet.init "path" [0xff]) =
      .raised { dataEncode := false } := by decide +kernel
  rw [hrun] at ht
  cases ht

end WirelessUart
