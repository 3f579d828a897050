import Mathlib.Data.List.Induction
import WirelessUart.Command

/-!
# What the events of a session say about its device

A property of the device and of the events is kept by every packet when it is kept by the few changes that a session
makes to them (`EventInvariant`, `DeviceInvariant`).  So the device in place is always the one opened last, and it has
not been closed since (`recorded_run`).  A session is running only when `uart_open` has returned `True` since the last
`stop` (`openedSinceStop_of_running`).  A value is thus never written to an old device (`run_writes_lastOpened`).
-/

namespace WirelessUart

/-- The event tells nothing about which device is in place. -/
def Event.isNeutral : Event → Bool
  | .opened _ => false
  | .closed _ => false
  | _ => true

/-- The last device of the events is `dev`, and it is not closed. -/
def LastOpened (dev : Serial) (es : List Event) : Prop :=
  ∃ before since, es = before ++ .opened dev :: since ∧ (∀ dev', .opened dev' ∉ since) ∧ .closed dev ∉ since

theorem LastOpened.append_neutral {dev : Serial} {es : List Event} (h : LastOpened dev es) {e : Event}
    (he : e.isNeutral = true) : LastOpened dev (es ++ [e]) := by
  obtain ⟨before, since, rfl, hopened, hclosed⟩ := h
  refine ⟨before, since ++ [e], by simp, ?_, ?_⟩
  · intro dev' hmem
    rcases List.mem_append.1 hmem with hmem | hmem
    · exact hopened dev' hmem
    · rw [← List.mem_singleton.1 hmem] at he
      cases he
  · intro hmem
    rcases List.mem_append.1 hmem with hmem | hmem
    · exact hclosed hmem
    · rw [← List.mem_singleton.1 hmem] at he
      cases he

theorem lastOpened_opened (dev : Serial) (es : List Event) : LastOpened dev (es ++ [.opened dev]) :=
  ⟨es, [], rfl, by simp, by simp⟩

namespace Session

/-! ### Properties of the device and the events -/

/-- The property is kept by what a session does without opening a device: it changes fields that the property does not
look at, sends packets and reports failures, and closes the device. -/
structure EventInvariant (Inv : Session → Prop) : Prop where
  congr : ∀ s t, s.uartDev = t.uartDev → s.events = t.events → s.opens = t.opens → Inv s → Inv t
  emit : ∀ s e, e.isNeutral = true → Inv s → Inv (s.emit e)
  closed : ∀ s dev, s.uartDev = some dev → Inv s → Inv ({ s with uartDev := none }.emit (.closed dev))

/-- The property is also kept when a device is opened. -/
structure DeviceInvariant (Inv : Session → Prop) : Prop extends EventInvariant Inv where
  opened : ∀ s, Inv s →
    Inv ({ s with uartDev := some s.newDevice, opens := s.opens + 1 }.emit (.opened s.newDevice))

section Invariants

variable {Inv : Session → Prop} {env : Env} {s : Session}

theorem EventInvariant.error (h : EventInvariant Inv) (hs : Inv s) (msg : String) : Inv (s.error msg) :=
  h.emit s _ rfl hs

theorem EventInvariant.uartClose (h : EventInvariant Inv) (env : Env) (hs : Inv s) : Inv (s.uartClose env).1 := by
  cases hdev : s.uartDev with
  | none =>
    rw [uartClose_of_none env hdev]
    exact hs
  | some dev =>
    cases hc : env.closeRaises with
    | true =>
      rw [uartClose_of_raises hdev hc]
      exact h.emit s _ rfl hs
    | false =>
      rw [uartClose_of_closes hdev hc]
      exact h.closed s dev hdev hs

theorem EventInvariant.handleStart (h : EventInvariant Inv) (hopen : Inv (s.uartOpen env).1) :
    Inv (s.handleStart env) := by
  unfold Session.handleStart
  dsimp only
  split
  · exact h.congr (s.uartOpen env).1 _ rfl rfl rfl hopen
  · exact hopen

/-- The session on which `uart_open` is called has the property. -/
theorem EventInvariant.opening (h : EventInvariant Inv) {c : Command} {t : Session} (ht : s.opening c = some t)
    (hs : Inv s) : Inv t := by
  cases c with
  | path path =>
    cases (Option.ite_none_right_eq_some.1 ht).2
    exact h.congr s _ rfl rfl rfl hs
  | baud baud =>
    cases baud with
    | some baud =>
      cases (Option.ite_none_right_eq_some.1 ht).2
      exact h.congr s _ rfl rfl rfl hs
    | none =>
      cases (Option.ite_none_right_eq_some.1 ht).2
      exact h.error hs _
  | start =>
    cases ht
    exact hs
  | _ => cases ht

/-- A command keeps the property when its call of `uart_open` does. -/
theorem EventInvariant.exec (h : EventInvariant Inv) {c : Command}
    (hopen : ∀ t, s.opening c = some t → Inv t → Inv (t.uartOpen env).1) (hs : Inv s) : Inv (s.exec env c).state := by
  have hrestart (t : Session) (ht : Inv t) (hstart : t.Complete → s.opening c = some t) : Inv (t.restart env) := by
    rw [restart_eq]
    split
    case isTrue hc => exact h.handleStart (hopen t (hstart hc) ht)
    case isFalse => exact ht
  cases c with
  | path path => exact hrestart _ (h.congr s _ rfl rfl rfl hs) fun hc => if_pos hc
  | baud baud =>
    cases baud with
    | some baud => exact hrestart _ (h.congr s _ rfl rfl rfl hs) fun hc => if_pos hc
    | none => exact hrestart _ (h.error hs _) fun hc => if_pos hc
  | start => exact h.handleStart (hopen s rfl hs)
  | stop => exact h.congr (s.uartClose env).1 _ rfl rfl rfl (h.uartClose env hs)
  | data val =>
    by_cases hrun : s.isRunning = true
    · rw [exec_data_of_running hrun]
      split <;> exact h.emit s _ rfl hs
    · rw [exec_data_of_not_running hrun]
      exact h.error hs _
  | noted => exact hs
  | unreadable => exact hs
  | unknown keyStr => exact h.error hs _

theorem DeviceInvariant.uartOpen (h : DeviceInvariant Inv) (env : Env) (hs : Inv s) : Inv (s.uartOpen env).1 := by
  rcases uartOpen_cases_eq env s with ⟨-, heq⟩ | ⟨-, -, heq⟩ | ⟨-, -, heq⟩
  · rw [heq]
    exact h.error hs _
  · rw [heq]
    exact hs
  · rw [heq]
    have hclose := h.uartClose env hs
    cases ho : env.openError with
    | none =>
      rw [construct_of_opens _ ho]
      exact h.opened _ hclose
    | some text =>
      rw [construct_of_raises _ ho]
      exact h.error (h.emit _ _ rfl hclose) _

theorem DeviceInvariant.handlePacket (h : DeviceInvariant Inv) (env : Env) (hs : Inv s) (p : Packet) :
    Inv (s.handlePacket env p).state := by
  rw [handlePacket_eq_exec]
  exact h.exec (fun t _ ht => h.uartOpen env ht) hs

theorem DeviceInvariant.run (h : DeviceInvariant Inv) (hs : Inv s) (steps : List (Env × Packet)) :
    Inv (s.run steps) :=
  List.foldlRecOn steps _ hs fun _ ht step _ => h.handlePacket step.1 ht step.2

end Invariants

/-- The device in place is the one opened last, and it is not closed. -/
def Recorded (s : Session) : Prop := ∀ dev, s.uartDev = some dev → LastOpened dev s.events

theorem deviceInvariant_recorded : DeviceInvariant Recorded where
  congr s t hdev hevents _ hs := by
    rw [Recorded, ← hdev, ← hevents]
    exact hs
  emit s e he hs dev hdev := (hs dev hdev).append_neutral he
  closed s dev _ _ dev' hdev' := by cases hdev'
  opened s _ dev hdev := by
    cases hdev
    exact lastOpened_opened s.newDevice s.events

theorem recorded_run (dataEncode : Bool) (steps : List (Env × Packet)) :
    (run { dataEncode := dataEncode } steps).Recorded :=
  deviceInvariant_recorded.run (fun dev hdev => (by cases hdev)) steps

/-! ### Running -/

/-- Handling the packet calls `uart_open`, which returns `True`. -/
def OpenReturnsTrue (env : Env) (s : Session) (p : Packet) : Prop :=
  ∃ t, s.opening p.command = some t ∧ (t.uartOpen env).2 = true

/-- Some `uart_open` has returned `True` since the last packet `stop`, or since the session began. -/
def OpenedSinceStop (s : Session) (steps : List (Env × Packet)) : Prop :=
  ∃ pre step post, steps = pre ++ step :: post ∧ OpenReturnsTrue step.1 (s.run pre) step.2 ∧
    ∀ later ∈ post, later.2.keyStr ≠ "stop"

/-- What runs after a new start was running before, or `uart_open` has returned `True`. -/
theorem running_of_restart {env : Env} {s : Session} (h : (s.restart env).isRunning = true) :
    (s.Complete ∧ (s.uartOpen env).2 = true) ∨ s.isRunning = true := by
  rw [restart_eq] at h
  split at h
  case isTrue hc =>
    rw [(handleStart_fields env _).2.2.2.2, Bool.or_eq_true] at h
    exact h.imp_left fun hopen => ⟨hc, hopen⟩
  case isFalse => exact .inr h

/-- A session that is running after a command was so before, or `uart_open` has returned `True`. -/
theorem running_of_exec {env : Env} {s : Session} {c : Command} (h : (s.exec env c).state.isRunning = true) :
    (∃ t, s.opening c = some t ∧ (t.uartOpen env).2 = true) ∨ (c ≠ .stop ∧ s.isRunning = true) := by
  have hrestart (t : Session) (hne : c ≠ .stop) (hrun : t.isRunning = s.isRunning)
      (hstart : t.Complete → s.opening c = some t) (ht : (t.restart env).isRunning = true) :
      (∃ t, s.opening c = some t ∧ (t.uartOpen env).2 = true) ∨ (c ≠ .stop ∧ s.isRunning = true) := by
    rcases running_of_restart ht with ⟨hc, hopen⟩ | hrunning
    · exact .inl ⟨t, hstart hc, hopen⟩
    · exact .inr ⟨hne, hrun.symm.trans hrunning⟩
  cases c with
  | path path => exact hrestart { s with uartPath := path } (by simp) rfl (fun hc => if_pos hc) h
  | baud baud =>
    cases baud with
    | some baud => exact hrestart { s with uartBaud := baud } (by simp) rfl (fun hc => if_pos hc) h
    | none => exact hrestart (s.error "baudrate invalid.") (by simp) rfl (fun hc => if_pos hc) h
  | start =>
    have hrun : (s.handleStart env).isRunning = true := h
    rw [(handleStart_fields env _).2.2.2.2, Bool.or_eq_true] at hrun
    rcases hrun with hopen | hrun
    · exact .inl ⟨s, rfl, hopen⟩
    · exact .inr ⟨by simp, hrun⟩
  | stop => cases h
  | data val =>
    by_cases hrun : s.isRunning = true
    · exact .inr ⟨by simp, hrun⟩
    · rw [exec_data_of_not_running hrun] at h
      exact absurd h hrun
  | noted => exact .inr ⟨by simp, h⟩
  | unreadable => exact .inr ⟨by simp, h⟩
  | unknown keyStr => exact .inr ⟨by simp, h⟩

/-- Some `uart_open` has returned `True` in a running session since the last `stop`. -/
theorem openedSinceStop_of_running {s : Session} (hs : ¬ s.isRunning = true) (steps : List (Env × Packet))
    (h : (s.run steps).isRunning = true) : OpenedSinceStop s steps := by
  induction steps using List.reverseRecOn with
  | nil => exact absurd h hs
  | append_singleton steps step ih =>
    rw [run_concat] at h
    rcases running_of_exec h with hopen | ⟨hstop, hrun⟩
    · exact ⟨steps, step, [], rfl, hopen, by simp⟩
    · obtain ⟨pre, step', post, rfl, hopen, hpost⟩ := ih hrun
      refine ⟨pre, step', post ++ [step], by simp, hopen, ?_⟩
      intro later hmem
      rcases List.mem_append.1 hmem with hmem | hmem
      · exact hpost later hmem
      · rw [List.mem_singleton.1 hmem]
        exact fun hkey => hstop (Packet.command_of_stop hkey)

/-! ### Writes -/

/-- A value is written only when `uart_open` has returned `True` since the last `stop`, and only to the device that was
opened last and is not closed. -/
theorem run_writes_lastOpened (dataEncode : Bool) (steps : List (Env × Packet)) (env : Env) (p : Packet) (dev : Serial)
    (v : Bytes) (h : Writes env (run { dataEncode := dataEncode } steps) p dev v) :
    OpenedSinceStop { dataEncode := dataEncode } steps ∧
      LastOpened dev (run { dataEncode := dataEncode } steps).events := by
  obtain ⟨-, hrun, hdev⟩ := wrote_of_mem_newEvents h
  exact ⟨openedSinceStop_of_running (by simp) steps hrun, recorded_run dataEncode steps dev hdev⟩

theorem run_writes_lastOpened_data :
    OpenedSinceStop { dataEncode := false } [(⟨none, false, false⟩, .init "path" [0x61]),
        (⟨none, false, false⟩, .init "baud" [0x39])] ∧
      LastOpened ⟨0, "a", 9, true⟩ (run { dataEncode := false } [(⟨none, false, false⟩, .init "path" [0x61]),
        (⟨none, false, false⟩, .init "baud" [0x39])]).events :=
  run_writes_lastOpened false _ ⟨none, false, false⟩ (.init "data" [0]) _ [0] (by decide +kernel)

end Session

end WirelessUart
