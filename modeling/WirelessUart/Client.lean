import WirelessUart.Command

/-!
# The client's side of a session

`WirelessUartConnectHelper.handle_packet`: the client writes data to its own device and answers every packet that is
neither data nor an error with an error.  What it adds to the events is one write, or it is `Quiet`.
-/

namespace WirelessUart

/-- The fields of `WirelessUartConnectHelper` that `handle_packet` uses, with the events so far. -/
structure Client where
  uartDev : Option Serial := none
  isRunning : Bool := false
  dataEncode : Bool
  events : List Event := []
deriving DecidableEq

namespace Client

def emit (self : Client) (e : Event) : Client := { self with events := self.events ++ [e] }

/-- `error` -/
def error (self : Client) (msg : String) : Client := self.emit (.sent (sendPacket self.dataEncode "error" (.str msg)))

/-- `handle_packet` -/
def handlePacket (env : Env) (self : Client) (newPacket : Packet) : Outcome Client :=
  if newPacket.keyStr = "data" then
    if ¬ self.isRunning then .ok (self.error "task not ready.")
    else if newPacket.dataSize ≤ 0 then .ok (self.error "recv empty data.")
    else
      let c := self.emit (.wrote self.uartDev newPacket.valBytes)
      if self.uartDev = none ∨ env.writeRaises then .raised c else .ok c
  else if newPacket.keyStr = "error" then
    match decode newPacket.valBytes with
    | some _ => .ok self
    | none => .raised self
  else .ok (self.error ("unknown keyword: " ++ newPacket.keyStr))

/-- A running client has an open device. -/
def Consistent (c : Client) : Prop := c.isRunning = true → ∃ dev, c.uartDev = some dev ∧ dev.isOpen = true

/-- What handling a packet adds to the events. -/
def newEvents (c : Client) (env : Env) (p : Packet) : List Event :=
  (c.handlePacket env p).state.events.drop c.events.length

variable {env : Env} {c : Client} {p : Packet}

theorem handlePacket_data (env : Env) (c : Client) (h : p.keyStr = "data") :
    c.handlePacket env p =
      if c.isRunning then
        if c.uartDev = none ∨ env.writeRaises then .raised (c.emit (.wrote c.uartDev p.valBytes))
        else .ok (c.emit (.wrote c.uartDev p.valBytes))
      else .ok (c.error "task not ready.") := by
  have hsize : ¬ p.dataSize ≤ 0 := Nat.not_le_of_gt (p.dataSize_pos_of_key (by rw [h]; decide))
  unfold handlePacket
  rw [if_pos h]
  by_cases hrun : c.isRunning = true
  · rw [if_neg (not_not.2 hrun), if_neg hsize, if_pos hrun]
  · rw [if_pos hrun, if_neg hrun]

theorem handlePacket_error (env : Env) (c : Client) (h : p.keyStr = "error") :
    c.handlePacket env p = if decode p.valBytes = none then .raised c else .ok c := by
  unfold handlePacket
  rw [if_neg (by rw [h]; decide), if_pos h]
  cases decode p.valBytes <;> rfl

theorem handlePacket_unknown (env : Env) (c : Client) (hd : p.keyStr ≠ "data") (he : p.keyStr ≠ "error") :
    c.handlePacket env p = .ok (c.error ("unknown keyword: " ++ p.keyStr)) := by
  unfold handlePacket
  rw [if_neg hd, if_neg he]

theorem newEvents_spec (env : Env) (c : Client) (p : Packet) :
    (c.handlePacket env p).state.events = c.events ++ c.newEvents env p ∧
      ((p.keyStr = "data" ∧ c.isRunning = true ∧ c.newEvents env p = [.wrote c.uartDev p.valBytes]) ∨
        Quiet c.dataEncode (if p.keyStr = "error" then 0 else 1) (c.newEvents env p)) := by
  have hdrop {es : List Event} (h : (c.handlePacket env p).state.events = c.events ++ es) : c.newEvents env p = es := by
    rw [newEvents, h, List.drop_left]
  by_cases hd : p.keyStr = "data"
  · have hne : p.keyStr ≠ "error" := by rw [hd]; decide
    have heq := handlePacket_data env c hd
    by_cases hrun : c.isRunning = true
    · rw [if_pos hrun] at heq
      have hes : (c.handlePacket env p).state.events = c.events ++ [.wrote c.uartDev p.valBytes] := by
        rw [heq]
        split <;> rfl
      rw [hdrop hes]
      exact ⟨hes, .inl ⟨hd, hrun, rfl⟩⟩
    · rw [if_neg hrun] at heq
      have hes : (c.handlePacket env p).state.events =
          c.events ++ [.sent (sendPacket c.dataEncode "error" (.str "task not ready."))] := by
        rw [heq]
        rfl
      rw [hdrop hes, if_neg hne]
      exact ⟨hes, .inr (quiet_error _ _)⟩
  by_cases he : p.keyStr = "error"
  · have hes : (c.handlePacket env p).state.events = c.events ++ [] := by
      rw [handlePacket_error env c he, List.append_nil]
      split <;> rfl
    rw [hdrop hes]
    exact ⟨hes, .inr .nil⟩
  · have hes : (c.handlePacket env p).state.events =
        c.events ++ [.sent (sendPacket c.dataEncode "error" (.str ("unknown keyword: " ++ p.keyStr)))] := by
      rw [handlePacket_unknown env c hd he]
      rfl
    rw [hdrop hes, if_neg he]
    exact ⟨hes, .inr (quiet_error _ _)⟩

end Client

end WirelessUart
