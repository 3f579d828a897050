import WirelessUart.ByteLib.Run
import WirelessUart.Command

/-!
# Running sessions and their devices

A running session without an open device comes about in one way only: a packet makes `uart_open` change the device,
the old one is closed, and the constructor raises (`LosesDevice`).  A session has an open device in every running
state, and never calls `write` on `None`, exactly when this does not happen (`run_consistent_iff`).

The functions are described once by what they do to the device (`uartClose_cases`, `construct_cases`,
`uartOpen_cases`); the step lemma `handlePacket_spec` follows from these.
-/

namespace WirelessUart

open ByteLib

namespace Session

/-! ### Open devices -/

/-- A running session has an open device. -/
def Consistent (s : Session) : Prop := s.isRunning = true → ∃ dev, s.uartDev = some dev ∧ dev.isOpen = true

/-- A device that the session still has is open. -/
def DeviceOpen (s : Session) : Prop := ∀ dev, s.uartDev = some dev → dev.isOpen = true

/-- The settings with which a packet calls `uart_open`, if they are complete. -/
def newSettings (s : Session) (p : Packet) : Option (String × Int) :=
  if p.keyStr = "path" then (decode p.valBytes).map fun path => (path, s.uartBaud)
  else if p.keyStr = "baud" then some (s.uartPath, ((decode p.valBytes).bind pyInt).getD s.uartBaud)
  else if p.keyStr = "start" then some (s.uartPath, s.uartBaud)
  else none

/-- A change of the device fails halfway: the settings are complete and not those of the device of a running session,
which is closed, and the constructor raises. -/
def ChangeFails (env : Env) (s : Session) (path : String) (baud : Int) : Prop :=
  s.isRunning = true ∧ 0 < path.length ∧ 0 < baud ∧
    (∃ dev, s.uartDev = some dev ∧ ¬ (dev.portstr = path ∧ dev.baudrate = baud)) ∧
    env.closeRaises = false ∧ env.openError ≠ none

/-- The packet makes a running session lose its device. -/
def LosesDevice (env : Env) (s : Session) (p : Packet) : Prop :=
  ∃ path baud, s.newSettings p = some (path, baud) ∧ ChangeFails env s path baud

section Steps

variable {env : Env} {s t : Session} {p : Packet}

/-- The new settings in terms of the command. -/
theorem newSettings_eq (s : Session) (p : Packet) : s.newSettings p = s.settings p.command := by
  unfold newSettings Packet.command
  by_cases hpath : p.keyStr = "path"
  · rw [if_pos hpath, if_pos hpath]
    cases decode p.valBytes <;> rfl
  rw [if_neg hpath, if_neg hpath]
  by_cases hbaud : p.keyStr = "baud"
  · rw [if_pos hbaud, if_pos hbaud]
    rfl
  rw [if_neg hbaud, if_neg hbaud]
  by_cases hstart : p.keyStr = "start"
  · rw [if_pos hstart, if_pos hstart]
    rfl
  · rw [if_neg hstart, if_neg hstart]
    split_ifs
    · rfl
    · rfl
    · cases decode p.valBytes <;> rfl
    · rfl

/-- Both properties look at the device and at `is_running` only. -/
theorem consistent_congr (hd : s.uartDev = t.uartDev) (hr : s.isRunning = t.isRunning) :
    s.Consistent ↔ t.Consistent := by
  rw [Consistent, Consistent, hd, hr]

theorem deviceOpen_congr (hd : s.uartDev = t.uartDev) : s.DeviceOpen ↔ t.DeviceOpen := by
  rw [DeviceOpen, DeviceOpen, hd]

/-- What `uart_close` does. -/
theorem uartClose_cases (env : Env) (s : Session) :
    (s.uartClose env).1.isRunning = s.isRunning ∧
      ((s.uartClose env).1.uartDev = s.uartDev ∧ (env.closeRaises = true ∨ s.uartDev = none) ∨
        (s.uartClose env).1.uartDev = none ∧ env.closeRaises = false) := by
  unfold uartClose
  cases hdev : s.uartDev with
  | none => exact ⟨rfl, .inl ⟨hdev, .inr rfl⟩⟩
  | some dev =>
    cases hc : env.closeRaises with
    | true => exact ⟨rfl, .inl ⟨hdev, .inl rfl⟩⟩
    | false => exact ⟨rfl, .inr ⟨rfl, rfl⟩⟩

theorem construct_cases (env : Env) (s : Session) :
    (s.construct env).1.isRunning = s.isRunning ∧
      ((s.construct env).2 = true ∧ env.openError = none ∧
          (∃ dev, (s.construct env).1.uartDev = some dev ∧ dev.isOpen = true) ∨
        (s.construct env).2 = false ∧ env.openError ≠ none ∧ (s.construct env).1.uartDev = s.uartDev) := by
  unfold construct
  cases ho : env.openError with
  | none => exact ⟨rfl, .inl ⟨rfl, rfl, _, rfl, rfl⟩⟩
  | some text => exact ⟨rfl, .inr ⟨rfl, by simp, rfl⟩⟩

/-- What `uart_open` does: it succeeds with an open device, or it keeps the device, or it loses it. -/
theorem uartOpen_cases (env : Env) (hs : s.DeviceOpen) :
    (s.uartOpen env).1.isRunning = s.isRunning ∧
      ((s.uartOpen env).2 = true ∧ (∃ dev, (s.uartOpen env).1.uartDev = some dev ∧ dev.isOpen = true) ∧
          ¬ ChangeFails env s s.uartPath s.uartBaud ∨
        (s.uartOpen env).2 = false ∧ (s.uartOpen env).1.uartDev = s.uartDev ∧
          ¬ ChangeFails env s s.uartPath s.uartBaud ∨
        (s.uartOpen env).2 = false ∧ (s.uartOpen env).1.uartDev = none ∧
          (s.isRunning = true → ChangeFails env s s.uartPath s.uartBaud)) := by
  rcases uartOpen_cases_eq env s with ⟨hinc, heq⟩ | ⟨-, ⟨dev, hdev, hm⟩, heq⟩ | ⟨hready, hne, heq⟩
  · rw [heq]
    exact ⟨rfl, .inr (.inl ⟨rfl, rfl, fun h => hinc ⟨h.2.2.1, h.2.1⟩⟩)⟩
  · rw [heq]
    refine ⟨rfl, .inl ⟨rfl, ⟨dev, hdev, hs dev hdev⟩, ?_⟩⟩
    rintro ⟨-, -, -, ⟨dev', hd, hne⟩, -⟩
    rw [hdev, Option.some.injEq] at hd
    exact hne (hd ▸ hm)
  · -- a device that is in place is closed first
    rw [heq]
    obtain ⟨hr1, hclose⟩ := uartClose_cases env s
    obtain ⟨hr2, ⟨hok, hopen, hnew⟩ | ⟨hfail, hopen, hold⟩⟩ := construct_cases env (s.uartClose env).1
    · exact ⟨hr2.trans hr1, .inl ⟨hok, hnew, fun h => h.2.2.2.2.2 hopen⟩⟩
    · refine ⟨hr2.trans hr1, .inr ?_⟩
      rcases hclose with ⟨hkeep, hc⟩ | ⟨hlost, hc⟩
      · refine .inl ⟨hfail, hold.trans hkeep, ?_⟩
        rintro ⟨-, -, -, ⟨dev, hdev, -⟩, hno, -⟩
        rcases hc with hraise | hnone
        · rw [hno] at hraise
          cases hraise
        · rw [hdev] at hnone
          cases hnone
      · cases hdev : s.uartDev with
        | none =>
          refine .inl ⟨hfail, hold.trans hlost, ?_⟩
          rintro ⟨-, -, -, ⟨dev, hd, -⟩, -⟩
          rw [hdev] at hd
          cases hd
        | some dev =>
          exact .inr ⟨hfail, hold.trans hlost, fun hrun =>
            ⟨hrun, hready.2, hready.1, ⟨dev, hdev, hne dev hdev⟩, hc, hopen⟩⟩

theorem handleStart_spec (env : Env) (hs : s.DeviceOpen) :
    (s.handleStart env).DeviceOpen ∧
      (s.Consistent → ((s.handleStart env).Consistent ↔ ¬ ChangeFails env s s.uartPath s.uartBaud)) := by
  unfold handleStart
  dsimp only
  obtain ⟨hr, ⟨hok, ⟨dev, hdev, hopen⟩, hno⟩ | ⟨hfail, hkeep, hno⟩ | ⟨hfail, hlost, hyes⟩⟩ := uartOpen_cases env hs
  · rw [if_pos hok]
    refine ⟨fun d hd => ?_, fun _ => iff_of_true (fun _ => ⟨dev, hdev, hopen⟩) hno⟩
    have hd : (s.uartOpen env).1.uartDev = some d := hd
    rw [hdev, Option.some.injEq] at hd
    exact hd ▸ hopen
  · rw [if_neg (by simp [hfail])]
    exact ⟨(deviceOpen_congr hkeep).2 hs, fun hc => iff_of_true ((consistent_congr hkeep hr).2 hc) hno⟩
  · rw [if_neg (by simp [hfail])]
    refine ⟨fun d hd => absurd (hlost.symm.trans hd) (by simp), fun hc => ?_⟩
    by_cases hrun : s.isRunning = true
    · refine iff_of_false (fun h => ?_) (not_not.2 (hyes hrun))
      obtain ⟨d, hd, -⟩ := h (hr.trans hrun)
      rw [hlost] at hd
      cases hd
    · exact iff_of_true (fun h => absurd (hr.symm.trans h) hrun) fun h => hrun h.1

theorem restart_spec (env : Env) (hs : s.DeviceOpen) :
    (s.restart env).DeviceOpen ∧
      (s.Consistent → ((s.restart env).Consistent ↔ ¬ ChangeFails env s s.uartPath s.uartBaud)) := by
  unfold restart
  split
  · exact handleStart_spec env hs
  · rename_i hready
    exact ⟨hs, fun hc => iff_of_true hc fun h => hready ⟨h.2.1, h.2.2.1⟩⟩

/-- A packet that leads to `uart_open` with the settings of `t`. -/
private theorem losesDevice_iff (h : s.newSettings p = some (t.uartPath, t.uartBaud)) (hd : t.uartDev = s.uartDev)
    (hr : t.isRunning = s.isRunning) : LosesDevice env s p ↔ ChangeFails env t t.uartPath t.uartBaud := by
  unfold LosesDevice ChangeFails
  rw [h, hd, hr]
  constructor
  · rintro ⟨path, baud, heq, hrest⟩
    cases heq
    exact hrest
  · exact fun h => ⟨_, _, rfl, h⟩

private theorem not_losesDevice (env : Env) (h : s.newSettings p = none) : ¬ LosesDevice env s p := by
  rintro ⟨path, baud, heq, -⟩
  rw [h] at heq
  cases heq

/-- A packet that changes the settings to those of `t` and starts again. -/
private theorem restart_newSettings (env : Env) (h : s.newSettings p = some (t.uartPath, t.uartBaud))
    (hd : t.uartDev = s.uartDev) (hr : t.isRunning = s.isRunning) (hs : s.DeviceOpen) :
    (t.restart env).DeviceOpen ∧ (s.Consistent → ((t.restart env).Consistent ↔ ¬ LosesDevice env s p)) := by
  obtain ⟨hopen, hiff⟩ := restart_spec env ((deviceOpen_congr hd).2 hs)
  rw [losesDevice_iff h hd hr]
  refine ⟨hopen, fun hc => ?_⟩
  exact hiff ((consistent_congr hd hr).2 hc)

/-- One packet: a device that is kept is open, and the session stays consistent unless it loses its device. -/
theorem handlePacket_spec (env : Env) (hs : s.DeviceOpen) (p : Packet) :
    (s.handlePacket env p).state.DeviceOpen ∧
      (s.Consistent → ((s.handlePacket env p).state.Consistent ↔ ¬ LosesDevice env s p)) := by
  rw [handlePacket_eq_exec]
  have hset := newSettings_eq s p
  rcases exec_cases env s p.command with ⟨t, ht, hd, hr, heq⟩ | ⟨hc, heq⟩ | ⟨hc, heq⟩ | ⟨hn, -, -, hd, hr⟩
  · rw [heq]
    exact restart_newSettings env (hset.trans ht) hd hr hs
  · rw [hc] at hset
    rw [heq, losesDevice_iff (t := s) hset rfl rfl]
    exact handleStart_spec env hs
  · rw [hc] at hset
    rw [heq]
    refine ⟨fun dev hd => ?_, fun _ => iff_of_true (fun h => by cases h) (not_losesDevice env hset)⟩
    have hd : (s.uartClose env).1.uartDev = some dev := hd
    rcases (uartClose_cases env s).2 with ⟨hkeep, -⟩ | ⟨hlost, -⟩
    · exact hs dev (hkeep ▸ hd)
    · rw [hlost] at hd
      cases hd
  · refine ⟨(deviceOpen_congr hd).2 hs, fun hc => iff_of_true ((consistent_congr hd hr).2 hc) ?_⟩
    exact not_losesDevice env (hset.trans hn)

end Steps

/-! ### Writes -/

/-- `write` has never been called on `None`. -/
def NoneNotWritten (s : Session) : Prop := ∀ v, .wrote none v ∉ s.events

/-- A consistent session writes to a device. -/
theorem noneNotWritten_handlePacket {env : Env} {s : Session} (hc : s.Consistent) (h : s.NoneNotWritten) (p : Packet) :
    (s.handlePacket env p).state.NoneNotWritten := by
  intro v hv
  rw [(newEvents_spec env s p).1] at hv
  rcases List.mem_append.1 hv with hv | hv
  · exact h v hv
  · obtain ⟨-, hrun, hnone⟩ := wrote_of_mem_newEvents hv
    obtain ⟨dev, hdev, -⟩ := hc hrun
    rw [hnone] at hdev
    cases hdev

/-! ### Runs -/

/-- The invariant of a session that never loses its device. -/
structure Sane (s : Session) : Prop where
  deviceOpen : s.DeviceOpen
  consistent : s.Consistent
  noneNotWritten : s.NoneNotWritten

theorem sane_handlePacket_iff {s : Session} (hs : s.Sane) (env : Env) (p : Packet) :
    (s.handlePacket env p).state.Sane ↔ ¬ LosesDevice env s p := by
  obtain ⟨hopen, hiff⟩ := handlePacket_spec env hs.deviceOpen p
  rw [← hiff hs.consistent]
  exact ⟨Sane.consistent, fun h => ⟨hopen, h, noneNotWritten_handlePacket hs.consistent hs.noneNotWritten p⟩⟩

theorem deviceOpen_run {s : Session} (hs : s.DeviceOpen) (steps : List (Env × Packet)) : (s.run steps).DeviceOpen :=
  List.foldlRecOn steps _ hs fun _ h step _ => (handlePacket_spec step.1 h step.2).1

/-- In every state of a session a running session has an open device, and `write` has not been called on `None`,
exactly when no packet makes the session lose its device. -/
theorem run_consistent_iff (dataEncode : Bool) (steps : List (Env × Packet)) :
    (∀ pre, pre <+: steps →
        (run { dataEncode := dataEncode } pre).Consistent ∧ (run { dataEncode := dataEncode } pre).NoneNotWritten) ↔
      ∀ pre step post, steps = pre ++ step :: post →
        ¬ LosesDevice step.1 (run { dataEncode := dataEncode } pre) step.2 := by
  have hinit : Sane { dataEncode := dataEncode } :=
    ⟨fun dev hd => (by cases hd), fun h => (by cases h), fun v hv => (by cases hv)⟩
  have hiff := foldl_invariant_iff (fun s (step : Env × Packet) (h : s.Sane) =>
    sane_handlePacket_iff h step.1 step.2) steps hinit
  refine Iff.trans ?_ hiff
  constructor
  · exact fun h pre hpre => ⟨deviceOpen_run hinit.deviceOpen pre, (h pre hpre).1, (h pre hpre).2⟩
  · exact fun h pre hpre => ⟨(h pre hpre).consistent, (h pre hpre).noneNotWritten⟩

/-- The second device cannot be opened: the session goes on running without a device. -/
theorem not_run_consistent :
    ¬ ∀ (dataEncode : Bool) (steps : List (Env × Packet)) (pre : List (Env × Packet)), pre <+: steps →
      (run { dataEncode := dataEncode } pre).Consistent ∧ (run { dataEncode := dataEncode } pre).NoneNotWritten := by
  intro h
  have hbad := (h false _ [(⟨none, false, false⟩, Packet.init "path" [0x2f, 0x61]),
    (⟨none, false, false⟩, Packet.init "baud" [0x39, 0x36, 0x30, 0x30]),
    (⟨some "no device", false, false⟩, Packet.init "path" [0x2f, 0x62])] (List.prefix_refl _)).1
  have hrun : (run { dataEncode := false } [(⟨none, false, false⟩, Packet.init "path" [0x2f, 0x61]),
      (⟨none, false, false⟩, Packet.init "baud" [0x39, 0x36, 0x30, 0x30]),
      (⟨some "no device", false, false⟩, Packet.init "path" [0x2f, 0x62])]).isRunning = true ∧
    (run { dataEncode := false } [(⟨none, false, false⟩, Packet.init "path" [0x2f, 0x61]),
      (⟨none, false, false⟩, Packet.init "baud" [0x39, 0x36, 0x30, 0x30]),
      (⟨some "no device", false, false⟩, Packet.init "path" [0x2f, 0x62])]).uartDev = none := by decide +kernel
  obtain ⟨dev, hdev, -⟩ := hbad hrun.1
  rw [hrun.2] at hdev
  cases hdev

end Session

end WirelessUart
