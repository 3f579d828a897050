import WirelessUart.Session

/-!
# What a packet asks a session to do

The branch that `handle_packet` takes depends on the packet alone: `Packet.command` names it, with the value as the
branch reads it, and `Session.exec` carries it out (`handlePacket_eq_exec`).  Proofs about sessions go by cases on the
command.

A command opens the device through `uart_open`, on the session with its new settings (`opening`), or leaves the device
alone; `uart_open` itself has three cases (`uartOpen_cases_eq`).  What a packet adds to the events is `newEvents`;
unless it is written to the device, it is `Quiet`: some packets with the key `error`, at most two.
-/

namespace WirelessUart

/-- The branches of `handle_packet`, with the value as the branch reads it: `baud none` is a value that `int` refuses,
and `unreadable` a value that is not UTF-8 where the branch decodes it. -/
inductive Command
  | path (path : String)
  | baud (baud : Option Int)
  | start
  | stop
  | data (val : Bytes)
  | noted
  | unreadable
  | unknown (keyStr : String)
deriving DecidableEq

def Packet.command (p : Packet) : Command :=
  if p.keyStr = "path" then
    match decode p.valBytes with
    | some path => .path path
    | none => .unreadable
  else if p.keyStr = "baud" then .baud ((decode p.valBytes).bind pyInt)
  else if p.keyStr = "start" then .start
  else if p.keyStr = "stop" then .stop
  else if p.keyStr = "data" then .data p.valBytes
  else if p.keyStr = "error" then
    match decode p.valBytes with
    | some _ => .noted
    | none => .unreadable
  else .unknown p.keyStr

theorem Packet.command_of_stop {p : Packet} (h : p.keyStr = "stop") : p.command = .stop := by
  rw [command, h]
  rfl

namespace Session

def exec (env : Env) (s : Session) : Command → Outcome Session
  | .path path => .ok ({ s with uartPath := path }.restart env)
  | .baud (some baud) => .ok ({ s with uartBaud := baud }.restart env)
  | .baud none => .ok ((s.error "baudrate invalid.").restart env)
  | .start => .ok (s.handleStart env)
  | .stop => .ok { (s.uartClose env).1 with isRunning := false }
  | .data val =>
    if s.isRunning then
      if s.uartDev = none ∨ env.writeRaises then .raised (s.emit (.wrote s.uartDev val))
      else .ok (s.emit (.wrote s.uartDev val))
    else .ok (s.error "service is not running.")
  | .noted => .ok s
  | .unreadable => .raised s
  | .unknown keyStr => .ok (s.error ("unknown keyword: " ++ keyStr))

theorem handlePacket_eq_exec (env : Env) (s : Session) (p : Packet) : s.handlePacket env p = s.exec env p.command := by
  unfold handlePacket Packet.command
  by_cases hpath : p.keyStr = "path"
  · rw [if_pos hpath, if_pos hpath]
    cases decode p.valBytes <;> rfl
  rw [if_neg hpath, if_neg hpath]
  by_cases hbaud : p.keyStr = "baud"
  · rw [if_pos hbaud, if_pos hbaud]
    cases (decode p.valBytes).bind pyInt <;> rfl
  rw [if_neg hbaud, if_neg hbaud]
  by_cases hstart : p.keyStr = "start"
  · rw [if_pos hstart, if_pos hstart]
    rfl
  rw [if_neg hstart, if_neg hstart]
  by_cases hstop : p.keyStr = "stop"
  · rw [if_pos hstop, if_pos hstop]
    rfl
  rw [if_neg hstop, if_neg hstop]
  by_cases hdata : p.keyStr = "data"
  · -- a packet with a key is not empty, so `recv empty data.` is never reported
    have hsize : ¬ p.dataSize ≤ 0 := Nat.not_le_of_gt (p.dataSize_pos_of_key (by rw [hdata]; decide))
    rw [if_pos hdata, if_pos hdata, exec, if_neg hsize]
    by_cases hrun : s.isRunning = true
    · rw [if_neg (not_not.2 hrun), if_pos hrun]
    · rw [if_pos hrun, if_neg hrun]
  rw [if_neg hdata, if_neg hdata]
  by_cases herror : p.keyStr = "error"
  · rw [if_pos herror, if_pos herror]
    cases decode p.valBytes <;> rfl
  · rw [if_neg herror, if_neg herror]
    rfl

theorem run_concat (s : Session) (steps : List (Env × Packet)) (step : Env × Packet) :
    s.run (steps ++ [step]) = ((s.run steps).exec step.1 step.2.command).state := by
  rw [← handlePacket_eq_exec, run, List.foldl_concat]
  rfl

/-! ### The device -/

/-- The settings name a device that can be opened. -/
def Complete (s : Session) : Prop := s.uartBaud > 0 ∧ s.uartPath.length > 0

/-- A device was opened with the settings of the session. -/
def Matches (s : Session) (dev : Serial) : Prop := dev.portstr = s.uartPath ∧ dev.baudrate = s.uartBaud

instance (s : Session) : Decidable s.Complete := inferInstanceAs (Decidable (_ ∧ _))
instance (s : Session) (dev : Serial) : Decidable (s.Matches dev) := inferInstanceAs (Decidable (_ ∧ _))

/-- The session on which a command calls `uart_open`, if it does. -/
def opening (s : Session) : Command → Option Session
  | .path path => if { s with uartPath := path }.Complete then some { s with uartPath := path } else none
  | .baud (some baud) => if { s with uartBaud := baud }.Complete then some { s with uartBaud := baud } else none
  | .baud none => if s.Complete then some (s.error "baudrate invalid.") else none
  | .start => some s
  | _ => none

section Device

variable {env : Env} {s t : Session}

theorem restart_eq (env : Env) (s : Session) : s.restart env = if s.Complete then s.handleStart env else s := by
  unfold restart Complete
  exact if_congr and_comm rfl rfl

theorem exec_of_opening {c : Command} (h : s.opening c = some t) : s.exec env c = .ok (t.handleStart env) := by
  cases c with
  | path path =>
    obtain ⟨hc, h⟩ := Option.ite_none_right_eq_some.1 h
    cases h
    rw [exec, restart_eq, if_pos hc]
  | baud baud =>
    cases baud with
    | some baud =>
      obtain ⟨hc, h⟩ := Option.ite_none_right_eq_some.1 h
      cases h
      rw [exec, restart_eq, if_pos hc]
    | none =>
      obtain ⟨hc, h⟩ := Option.ite_none_right_eq_some.1 h
      cases h
      have hc' : (s.error "baudrate invalid.").Complete := hc
      rw [exec, restart_eq, if_pos hc']
  | start =>
    cases h
    rfl
  | _ => cases h

theorem exec_data_of_running (h : s.isRunning = true) (env : Env) (val : Bytes) :
    s.exec env (.data val) = if s.uartDev = none ∨ env.writeRaises then .raised (s.emit (.wrote s.uartDev val))
      else .ok (s.emit (.wrote s.uartDev val)) := if_pos h

theorem exec_data_of_not_running (h : ¬ s.isRunning = true) (env : Env) (val : Bytes) :
    s.exec env (.data val) = .ok (s.error "service is not running.") := if_neg h

theorem uartClose_of_none (env : Env) (h : s.uartDev = none) : s.uartClose env = (s, false) := by
  rw [uartClose, h]

theorem uartClose_of_raises {dev : Serial} (h : s.uartDev = some dev) (hc : env.closeRaises = true) :
    s.uartClose env = (s.emit (.closeFailed dev), false) := by
  rw [uartClose, h]
  exact if_pos hc

theorem uartClose_of_closes {dev : Serial} (h : s.uartDev = some dev) (hc : env.closeRaises = false) :
    s.uartClose env = ({ s with uartDev := none }.emit (.closed dev), true) := by
  rw [uartClose, h]
  exact if_neg (by simp [hc])

/-- The device that the constructor returns. -/
def newDevice (s : Session) : Serial := ⟨s.opens, s.uartPath, s.uartBaud, true⟩

theorem construct_of_opens (s : Session) (h : env.openError = none) :
    s.construct env =
      ({ s with uartDev := some s.newDevice, opens := s.opens + 1 }.emit (.opened s.newDevice), true) := by
  rw [construct, h]
  rfl

theorem construct_of_raises (s : Session) {text : String} (h : env.openError = some text) :
    s.construct env =
      ((s.emit (.openFailed s.uartPath s.uartBaud)).error ("uart open fail: " ++ text), false) := by
  rw [construct, h]

/-- `uart_close` changes neither the settings nor the counter of devices. -/
theorem uartClose_fields (env : Env) (s : Session) :
    (s.uartClose env).1.uartPath = s.uartPath ∧ (s.uartClose env).1.uartBaud = s.uartBaud ∧
      (s.uartClose env).1.isRunning = s.isRunning ∧ (s.uartClose env).1.dataEncode = s.dataEncode ∧
        (s.uartClose env).1.opens = s.opens := by
  cases hdev : s.uartDev with
  | none => simp [uartClose_of_none env hdev]
  | some dev =>
    cases hc : env.closeRaises with
    | true => simp [uartClose_of_raises hdev hc, emit]
    | false => simp [uartClose_of_closes hdev hc, emit]

theorem construct_fields (env : Env) (s : Session) :
    (s.construct env).1.uartPath = s.uartPath ∧ (s.construct env).1.uartBaud = s.uartBaud ∧
      (s.construct env).1.isRunning = s.isRunning ∧ (s.construct env).1.dataEncode = s.dataEncode := by
  cases ho : env.openError with
  | none => simp [construct_of_opens s ho, emit]
  | some text => simp [construct_of_raises s ho, emit, error]

/-- `uart_open` refuses incomplete settings, keeps a device that has the settings, or closes a device that is in place
and calls the constructor. -/
theorem uartOpen_cases_eq (env : Env) (s : Session) :
    (¬ s.Complete ∧ s.uartOpen env = (s.error "uart setup not ready.", false)) ∨
    (s.Complete ∧ (∃ dev, s.uartDev = some dev ∧ s.Matches dev) ∧ s.uartOpen env = (s, true)) ∨
    (s.Complete ∧ (∀ dev, s.uartDev = some dev → ¬ s.Matches dev) ∧
      s.uartOpen env = (s.uartClose env).1.construct env) := by
  by_cases hc : s.Complete
  · right
    have hset : s.uartBaud > 0 ∧ s.uartPath.length > 0 := hc
    rw [uartOpen, if_pos hset]
    cases hdev : s.uartDev with
    | none =>
      right
      refine ⟨hc, fun dev h => (by cases h), ?_⟩
      rw [uartClose, hdev]
    | some dev =>
      by_cases hm : s.Matches dev
      · exact .inl ⟨hc, ⟨dev, rfl, hm⟩, if_pos hm⟩
      · refine .inr ⟨hc, ?_, if_neg hm⟩
        intro dev' h
        cases h
        exact hm
  · exact .inl ⟨hc, if_neg hc⟩

theorem uartOpen_fields (env : Env) (s : Session) :
    (s.uartOpen env).1.uartPath = s.uartPath ∧ (s.uartOpen env).1.uartBaud = s.uartBaud ∧
      (s.uartOpen env).1.isRunning = s.isRunning ∧ (s.uartOpen env).1.dataEncode = s.dataEncode := by
  rcases uartOpen_cases_eq env s with ⟨-, heq⟩ | ⟨-, -, heq⟩ | ⟨-, -, heq⟩
  · simp [heq, error, emit]
  · simp [heq]
  · obtain ⟨hp, hb, hr, he⟩ := construct_fields env (s.uartClose env).1
    obtain ⟨hp', hb', hr', he', -⟩ := uartClose_fields env s
    rw [heq]
    exact ⟨hp.trans hp', hb.trans hb', hr.trans hr', he.trans he'⟩

theorem handleStart_fields (env : Env) (s : Session) :
    (s.handleStart env).uartPath = s.uartPath ∧ (s.handleStart env).uartBaud = s.uartBaud ∧
      (s.handleStart env).uartDev = (s.uartOpen env).1.uartDev ∧
        (s.handleStart env).events = (s.uartOpen env).1.events ∧
          (s.handleStart env).isRunning = ((s.uartOpen env).2 || s.isRunning) := by
  obtain ⟨hp, hb, hr, -⟩ := uartOpen_fields env s
  unfold handleStart
  dsimp only
  split
  case isTrue h => exact ⟨hp, hb, rfl, rfl, by rw [h, Bool.true_or]⟩
  case isFalse h => exact ⟨hp, hb, rfl, rfl, by rw [Bool.eq_false_iff.2 h, Bool.false_or, hr]⟩

/-- With incomplete settings `start` only reports that. -/
theorem handleStart_of_incomplete (env : Env) (h : ¬ s.Complete) :
    s.handleStart env = s.error "uart setup not ready." := by
  have hopen : s.uartOpen env = (s.error "uart setup not ready.", false) := if_neg h
  rw [handleStart, hopen]
  rfl

theorem restart_settings (env : Env) (s : Session) :
    (s.restart env).uartPath = s.uartPath ∧ (s.restart env).uartBaud = s.uartBaud := by
  rw [restart_eq]
  split
  · exact ⟨(handleStart_fields env s).1, (handleStart_fields env s).2.1⟩
  · exact ⟨rfl, rfl⟩

/-- The settings that `uart_open` sees, when the command may call it. -/
def settings (s : Session) : Command → Option (String × Int)
  | .path path => some (path, s.uartBaud)
  | .baud baud => some (s.uartPath, baud.getD s.uartBaud)
  | .start => some (s.uartPath, s.uartBaud)
  | _ => none

/-- A command starts the session again with its settings, starts it, stops it, or changes neither the settings nor the
device. -/
theorem exec_cases (env : Env) (s : Session) (c : Command) :
    (∃ t : Session, s.settings c = some (t.uartPath, t.uartBaud) ∧ t.uartDev = s.uartDev ∧ t.isRunning = s.isRunning ∧
      (s.exec env c).state = t.restart env) ∨
    (c = .start ∧ (s.exec env c).state = s.handleStart env) ∨
    (c = .stop ∧ (s.exec env c).state = { (s.uartClose env).1 with isRunning := false }) ∨
    (s.settings c = none ∧ (s.exec env c).state.uartPath = s.uartPath ∧ (s.exec env c).state.uartBaud = s.uartBaud ∧
      (s.exec env c).state.uartDev = s.uartDev ∧ (s.exec env c).state.isRunning = s.isRunning) := by
  cases c with
  | path path => exact .inl ⟨{ s with uartPath := path }, rfl, rfl, rfl, rfl⟩
  | baud baud =>
    cases baud with
    | some baud => exact .inl ⟨{ s with uartBaud := baud }, rfl, rfl, rfl, rfl⟩
    | none => exact .inl ⟨s.error "baudrate invalid.", rfl, rfl, rfl, rfl⟩
  | start => exact .inr (.inl ⟨rfl, rfl⟩)
  | stop => exact .inr (.inr (.inl ⟨rfl, rfl⟩))
  | data val =>
    refine .inr (.inr (.inr ⟨rfl, ?_⟩))
    by_cases hrun : s.isRunning = true
    · rw [exec_data_of_running hrun]
      split <;> exact ⟨rfl, rfl, rfl, rfl⟩
    · rw [exec_data_of_not_running hrun]
      exact ⟨rfl, rfl, rfl, rfl⟩
  | noted => exact .inr (.inr (.inr ⟨rfl, rfl, rfl, rfl, rfl⟩))
  | unreadable => exact .inr (.inr (.inr ⟨rfl, rfl, rfl, rfl, rfl⟩))
  | unknown keyStr => exact .inr (.inr (.inr ⟨rfl, rfl, rfl, rfl, rfl⟩))

/-- A command sets the setting that it names. -/
theorem exec_settings (env : Env) (s : Session) (c : Command) :
    (s.exec env c).state.uartPath = (match c with
      | .path path => path
      | _ => s.uartPath) ∧
    (s.exec env c).state.uartBaud = (match c with
      | .baud (some baud) => baud
      | _ => s.uartBaud) := by
  cases c with
  | path path => exact restart_settings env { s with uartPath := path }
  | baud baud =>
    cases baud with
    | some baud => exact restart_settings env { s with uartBaud := baud }
    | none => exact restart_settings env (s.error "baudrate invalid.")
  | start => exact ⟨(handleStart_fields env s).1, (handleStart_fields env s).2.1⟩
  | stop => exact ⟨(uartClose_fields env s).1, (uartClose_fields env s).2.1⟩
  | data val =>
    by_cases hrun : s.isRunning = true
    · rw [exec_data_of_running hrun]
      split <;> exact ⟨rfl, rfl⟩
    · rw [exec_data_of_not_running hrun]
      exact ⟨rfl, rfl⟩
  | noted => exact ⟨rfl, rfl⟩
  | unreadable => exact ⟨rfl, rfl⟩
  | unknown keyStr => exact ⟨rfl, rfl⟩

end Device

/-! ### Events -/

/-- What handling a packet adds to the events. -/
def newEvents (s : Session) (env : Env) (p : Packet) : List Event :=
  (s.handlePacket env p).state.events.drop s.events.length

end Session

def Event.isSent : Event → Bool
  | .sent _ => true
  | _ => false

/-- The events write to no device, and what they send is at most `n` packets with the key `error`. -/
structure Quiet (dataEncode : Bool) (n : Nat) (es : List Event) : Prop where
  not_wrote : ∀ dev v, .wrote dev v ∉ es
  errors : ∀ raw, .sent raw ∈ es → ∃ msg, raw = sendPacket dataEncode "error" (.str msg)
  count : es.countP Event.isSent ≤ n

section Quiet

variable {dataEncode : Bool} {m n : Nat} {es es' : List Event}

theorem Quiet.nil : Quiet dataEncode n [] := ⟨by simp, by simp, by simp⟩

theorem Quiet.append (h : Quiet dataEncode m es) (h' : Quiet dataEncode n es') :
    Quiet dataEncode (m + n) (es ++ es') := by
  constructor
  · intro dev v hmem
    rcases List.mem_append.1 hmem with hmem | hmem
    · exact h.not_wrote dev v hmem
    · exact h'.not_wrote dev v hmem
  · intro raw hmem
    rcases List.mem_append.1 hmem with hmem | hmem
    · exact h.errors raw hmem
    · exact h'.errors raw hmem
  · rw [List.countP_append]
    exact Nat.add_le_add h.count h'.count

theorem Quiet.mono (h : Quiet dataEncode m es) (hmn : m ≤ n) : Quiet dataEncode n es :=
  ⟨h.not_wrote, h.errors, h.count.trans hmn⟩

theorem quiet_error (dataEncode : Bool) (msg : String) :
    Quiet dataEncode 1 [.sent (sendPacket dataEncode "error" (.str msg))] := by
  refine ⟨by simp, fun raw hraw => ⟨msg, ?_⟩, by simp [Event.isSent]⟩
  exact Event.sent.inj (List.mem_singleton.1 hraw)

/-- An event of the device that is neither a write nor a packet. -/
theorem quiet_device {e : Event} (hw : ∀ dev v, e ≠ .wrote dev v) (hs : e.isSent = false) :
    Quiet dataEncode 0 [e] := by
  refine ⟨fun dev v hmem => hw dev v (List.mem_singleton.1 hmem).symm, fun raw hmem => ?_, by simp [hs]⟩
  rw [← List.mem_singleton.1 hmem] at hs
  cases hs

end Quiet

namespace Session

section Events

variable {env : Env} {s : Session}

theorem uartClose_events (env : Env) (s : Session) (dataEncode : Bool) :
    ∃ es, (s.uartClose env).1.events = s.events ++ es ∧ Quiet dataEncode 0 es := by
  unfold uartClose
  split
  · split
    · exact ⟨_, rfl, quiet_device (by simp) rfl⟩
    · exact ⟨_, rfl, quiet_device (by simp) rfl⟩
  · exact ⟨[], (List.append_nil _).symm, .nil⟩

theorem construct_events (env : Env) (s : Session) :
    ∃ es, (s.construct env).1.events = s.events ++ es ∧ Quiet s.dataEncode 1 es := by
  unfold construct
  split
  · refine ⟨_, List.append_assoc _ _ _, ?_⟩
    exact (quiet_device (by simp) rfl).append (quiet_error s.dataEncode _)
  · exact ⟨_, rfl, (quiet_device (by simp) rfl).mono (Nat.zero_le 1)⟩

theorem uartOpen_events (env : Env) (s : Session) :
    ∃ es, (s.uartOpen env).1.events = s.events ++ es ∧ Quiet s.dataEncode 1 es := by
  rcases uartOpen_cases_eq env s with ⟨-, heq⟩ | ⟨-, -, heq⟩ | ⟨-, -, heq⟩
  · rw [heq]
    exact ⟨_, rfl, quiet_error _ _⟩
  · rw [heq]
    exact ⟨[], (List.append_nil _).symm, .nil⟩
  · obtain ⟨es, hes, hq⟩ := uartClose_events env s s.dataEncode
    obtain ⟨es', hes', hq'⟩ := construct_events env (s.uartClose env).1
    rw [(uartClose_fields env s).2.2.2.1] at hq'
    rw [heq, hes', hes, List.append_assoc]
    exact ⟨_, rfl, hq.append hq'⟩

theorem handleStart_events (env : Env) (s : Session) :
    ∃ es, (s.handleStart env).events = s.events ++ es ∧ Quiet s.dataEncode 1 es := by
  unfold handleStart
  dsimp only
  split <;> exact uartOpen_events env s

theorem restart_events (env : Env) (s : Session) :
    ∃ es, (s.restart env).events = s.events ++ es ∧ Quiet s.dataEncode 1 es := by
  rw [restart_eq]
  split
  · exact handleStart_events env s
  · exact ⟨[], (List.append_nil _).symm, .nil⟩

/-- What a command adds to the events. -/
theorem exec_events (env : Env) (s : Session) (c : Command) :
    ∃ es, (s.exec env c).state.events = s.events ++ es ∧
      ((∃ val, c = .data val ∧ s.isRunning = true ∧ es = [.wrote s.uartDev val]) ∨
        Quiet s.dataEncode (if c = .noted ∨ c = .unreadable then 0 else 2) es) := by
  cases c with
  | path path =>
    obtain ⟨es, hes, hq⟩ := restart_events env { s with uartPath := path }
    exact ⟨es, hes, .inr (hq.mono (by simp))⟩
  | baud baud =>
    cases baud with
    | some baud =>
      obtain ⟨es, hes, hq⟩ := restart_events env { s with uartBaud := baud }
      exact ⟨es, hes, .inr (hq.mono (by simp))⟩
    | none =>
      -- the invalid value is reported, and then `uart_open` may report something
      obtain ⟨es, hes, hq⟩ := restart_events env (s.error "baudrate invalid.")
      refine ⟨_, hes.trans (List.append_assoc _ _ _), .inr ?_⟩
      exact (quiet_error s.dataEncode "baudrate invalid.").append hq
  | start =>
    obtain ⟨es, hes, hq⟩ := handleStart_events env s
    exact ⟨es, hes, .inr (hq.mono (by simp))⟩
  | stop =>
    obtain ⟨es, hes, hq⟩ := uartClose_events env s s.dataEncode
    exact ⟨es, hes, .inr (hq.mono (by simp))⟩
  | data val =>
    by_cases hrun : s.isRunning = true
    · rw [exec_data_of_running hrun]
      refine ⟨[.wrote s.uartDev val], ?_, .inl ⟨val, rfl, hrun, rfl⟩⟩
      split <;> rfl
    · rw [exec_data_of_not_running hrun]
      exact ⟨_, rfl, .inr ((quiet_error _ _).mono (by simp))⟩
  | noted => exact ⟨[], (List.append_nil _).symm, .inr .nil⟩
  | unreadable => exact ⟨[], (List.append_nil _).symm, .inr .nil⟩
  | unknown keyStr => exact ⟨_, rfl, .inr ((quiet_error _ _).mono (by simp))⟩

theorem newEvents_spec (env : Env) (s : Session) (p : Packet) :
    (s.handlePacket env p).state.events = s.events ++ s.newEvents env p ∧
      ((∃ val, p.command = .data val ∧ s.isRunning = true ∧ s.newEvents env p = [.wrote s.uartDev val]) ∨
        Quiet s.dataEncode (if p.command = .noted ∨ p.command = .unreadable then 0 else 2) (s.newEvents env p)) := by
  obtain ⟨es, hes, h⟩ := exec_events env s p.command
  rw [← handlePacket_eq_exec] at hes
  have hnew : s.newEvents env p = es := by rw [newEvents, hes, List.drop_left]
  rw [hnew]
  exact ⟨hes, h⟩

/-- Handling the packet writes `v` to the device `dev`. -/
def Writes (env : Env) (s : Session) (p : Packet) (dev : Serial) (v : Bytes) : Prop :=
  .wrote (some dev) v ∈ s.newEvents env p

instance (env : Env) (s : Session) (p : Packet) (dev : Serial) (v : Bytes) : Decidable (Writes env s p dev v) :=
  inferInstanceAs (Decidable (_ ∈ _))

/-- A value is written only by a running session, to the device in place. -/
theorem wrote_of_mem_newEvents {env : Env} {s : Session} {p : Packet} {dev : Option Serial} {v : Bytes}
    (h : .wrote dev v ∈ s.newEvents env p) : p.command = .data v ∧ s.isRunning = true ∧ s.uartDev = dev := by
  rcases (newEvents_spec env s p).2 with ⟨val, hc, hrun, hes⟩ | hq
  · rw [hes, List.mem_singleton] at h
    obtain ⟨rfl, rfl⟩ := Event.wrote.inj h
    exact ⟨hc, hrun, rfl⟩
  · exact absurd h (hq.not_wrote dev v)

end Events

end Session

end WirelessUart
