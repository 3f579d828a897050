import WirelessUart.OpenDevice
import WirelessUart.Command

/-!
# Settings and the device in place

A running session writes data to the device in place, whatever its settings say by then.  A packet makes them differ in
two ways (`Detaches`): the new settings are incomplete, so the device is not opened again; or the device is to be
replaced, and both `close` and the constructor raise, so the old one stays.  Data goes to the configured port in every
state of a session exactly when no packet does so (`run_written_to_port_iff`).
-/

namespace WirelessUart

open ByteLib

namespace Session

/-- The device in place has the settings of a running session. -/
def Attached (s : Session) : Prop := s.isRunning = true → ∀ dev, s.uartDev = some dev → s.Matches dev

/-- The device in place was opened with complete settings. -/
def DeviceComplete (s : Session) : Prop :=
  ∀ dev, s.uartDev = some dev → 0 < dev.baudrate ∧ 0 < dev.portstr.length

/-- The packet leaves a running session with a device that has other settings: the new settings are incomplete, or the
device cannot be closed and the new one cannot be opened. -/
def Detaches (env : Env) (s : Session) (p : Packet) : Prop :=
  s.isRunning = true ∧ ∃ dev path baud, s.uartDev = some dev ∧ s.newSettings p = some (path, baud) ∧
    ¬ (dev.portstr = path ∧ dev.baudrate = baud) ∧
      (¬ (baud > 0 ∧ path.length > 0) ∨ env.closeRaises = true ∧ env.openError ≠ none)

section Steps

variable {env : Env} {s t : Session} {p : Packet}

/-- Both properties look at four fields only. -/
theorem attached_congr (hp : s.uartPath = t.uartPath) (hb : s.uartBaud = t.uartBaud) (hd : s.uartDev = t.uartDev)
    (hr : s.isRunning = t.isRunning) : s.Attached ↔ t.Attached := by
  rw [Attached, Attached, hd, hr]
  unfold Matches
  rw [hp, hb]

theorem deviceComplete_congr (hd : s.uartDev = t.uartDev) : s.DeviceComplete ↔ t.DeviceComplete := by
  rw [DeviceComplete, DeviceComplete, hd]

/-- Opening the device with complete settings fails to replace the one in place. -/
def Blocked (env : Env) (t : Session) : Prop :=
  t.isRunning = true ∧ (∃ dev, t.uartDev = some dev ∧ ¬ t.Matches dev) ∧ env.closeRaises = true ∧ env.openError ≠ none

/-- `uart_close` leaves a device with other settings in place only when `close` raises. -/
theorem uartClose_attached (env : Env) (ht : t.DeviceComplete) (hne : ∀ dev, t.uartDev = some dev → ¬ t.Matches dev) :
    (t.uartClose env).1.DeviceComplete ∧ ((t.uartClose env).1.Attached ↔
      ¬ (t.isRunning = true ∧ (∃ dev, t.uartDev = some dev ∧ ¬ t.Matches dev) ∧ env.closeRaises = true)) := by
  cases hdev : t.uartDev with
  | none =>
    rw [uartClose_of_none env hdev]
    refine ⟨ht, iff_of_true (fun _ dev h => ?_) fun h => ?_⟩
    · rw [hdev] at h
      cases h
    · obtain ⟨-, ⟨dev, h, -⟩, -⟩ := h
      cases h
  | some dev =>
    cases hcl : env.closeRaises with
    | true =>
      rw [uartClose_of_raises hdev hcl]
      refine ⟨fun dev h => ht dev h, ?_⟩
      constructor
      · rintro h ⟨hrun, -, -⟩
        exact hne dev hdev (h hrun dev hdev)
      · intro h hrun
        exact absurd ⟨hrun, ⟨dev, rfl, hne dev hdev⟩, rfl⟩ h
    | false =>
      rw [uartClose_of_closes hdev hcl]
      refine ⟨fun dev h => (by cases h), iff_of_true (fun _ dev h => (by cases h)) fun h => ?_⟩
      cases h.2.2

theorem handleStart_attached (env : Env) (hc : t.Complete) (ht : t.DeviceComplete) :
    (t.handleStart env).DeviceComplete ∧ ((t.handleStart env).Attached ↔ ¬ Blocked env t) := by
  unfold handleStart
  rcases uartOpen_cases_eq env t with ⟨hinc, -⟩ | ⟨-, ⟨dev, hdev, hm⟩, heq⟩ | ⟨-, hne, heq⟩
  · exact absurd hc hinc
  · -- the device has the settings already
    rw [heq]
    refine ⟨ht, iff_of_true ?_ ?_⟩
    · intro _ dev' hdev'
      have : some dev' = some dev := hdev'.symm.trans hdev
      cases this
      exact hm
    · rintro ⟨-, ⟨dev', hdev', hne⟩, -⟩
      rw [hdev] at hdev'
      cases hdev'
      exact hne hm
  · rw [heq]
    obtain ⟨hp, hb, hr, -⟩ := uartClose_fields env t
    cases ho : env.openError with
    | none =>
      rw [construct_of_opens _ ho]
      refine ⟨?_, iff_of_true ?_ fun h => h.2.2.2 ho⟩
      · intro dev hdev
        cases hdev
        show 0 < (t.uartClose env).1.uartBaud ∧ 0 < (t.uartClose env).1.uartPath.length
        rw [hp, hb]
        exact hc
      · intro _ dev hdev
        cases hdev
        exact ⟨rfl, rfl⟩
    | some text =>
      -- what is in place is what `uart_close` left
      obtain ⟨hcomplete, hiff⟩ := uartClose_attached env ht hne
      rw [construct_of_raises _ ho]
      refine ⟨hcomplete, hiff.trans (not_congr ?_)⟩
      rw [Blocked, ho]
      simp

/-- New settings take effect, or they are incomplete and the device in place keeps its own. -/
theorem restart_attached (env : Env) (ht : t.DeviceComplete) :
    (t.restart env).DeviceComplete ∧
      ((t.restart env).Attached ↔
        ¬ (t.isRunning = true ∧ (∃ dev, t.uartDev = some dev ∧ ¬ t.Matches dev) ∧
          (¬ t.Complete ∨ env.closeRaises = true ∧ env.openError ≠ none))) := by
  rw [restart_eq]
  by_cases hc : t.Complete
  · rw [if_pos hc]
    obtain ⟨hdev, hiff⟩ := handleStart_attached env hc ht
    refine ⟨hdev, hiff.trans ?_⟩
    rw [Blocked, or_iff_right (not_not.2 hc)]
  · rw [if_neg hc]
    refine ⟨ht, ?_⟩
    constructor
    · rintro h ⟨hrun, ⟨dev, hdev, hne⟩, -⟩
      exact hne (h hrun dev hdev)
    · intro h hrun dev hdev
      by_contra hne
      exact h ⟨hrun, ⟨dev, hdev, hne⟩, .inl hc⟩

private theorem detaches_iff (h : s.newSettings p = some (t.uartPath, t.uartBaud)) (hd : t.uartDev = s.uartDev)
    (hr : t.isRunning = s.isRunning) :
    Detaches env s p ↔ t.isRunning = true ∧ (∃ dev, t.uartDev = some dev ∧ ¬ t.Matches dev) ∧
      (¬ t.Complete ∨ env.closeRaises = true ∧ env.openError ≠ none) := by
  unfold Detaches Complete Matches
  rw [h, hd, hr]
  constructor
  · rintro ⟨hrun, dev, path, baud, hdev, heq, hne, hrest⟩
    cases heq
    exact ⟨hrun, ⟨dev, hdev, hne⟩, hrest⟩
  · rintro ⟨hrun, ⟨dev, hdev, hne⟩, hrest⟩
    exact ⟨hrun, dev, _, _, hdev, rfl, hne, hrest⟩

/-- A packet that starts again with the settings of `t`. -/
private theorem restart_detaches (env : Env) (h : s.newSettings p = some (t.uartPath, t.uartBaud))
    (hd : t.uartDev = s.uartDev) (hr : t.isRunning = s.isRunning) (hs : s.DeviceComplete) :
    (t.restart env).DeviceComplete ∧ ((t.restart env).Attached ↔ ¬ Detaches env s p) := by
  rw [detaches_iff h hd hr]
  exact restart_attached env ((deviceComplete_congr hd).2 hs)

/-- One packet keeps the device attached exactly when it does not detach it. -/
theorem handlePacket_attached (env : Env) (hs : s.DeviceComplete) (p : Packet) :
    (s.handlePacket env p).state.DeviceComplete ∧
      (s.Attached → ((s.handlePacket env p).state.Attached ↔ ¬ Detaches env s p)) := by
  rw [handlePacket_eq_exec]
  have hset := newSettings_eq s p
  have hkeep (hn : s.newSettings p = none) : ¬ Detaches env s p := by
    rintro ⟨-, dev, path, baud, -, h, -⟩
    rw [hn] at h
    cases h
  rcases exec_cases env s p.command with ⟨t, ht, hd, hr, heq⟩ | ⟨hc, heq⟩ | ⟨hc, heq⟩ | ⟨hn, hp, hb, hd, hr⟩
  · rw [heq]
    obtain ⟨hdev, hiff⟩ := restart_detaches env (hset.trans ht) hd hr hs
    exact ⟨hdev, fun _ => hiff⟩
  · rw [heq]
    rw [hc] at hset
    have hno (ha : s.Attached) : ¬ Detaches env s p := by
      rintro ⟨hrun, dev, path, baud, hdev, heq, hne, -⟩
      rw [hset] at heq
      cases heq
      exact hne (ha hrun dev hdev)
    by_cases hcomp : s.Complete
    · obtain ⟨hdev, hiff⟩ := handleStart_attached env hcomp hs
      refine ⟨hdev, fun ha => iff_of_true (hiff.2 ?_) (hno ha)⟩
      rintro ⟨hrun, ⟨dev, hdev, hne⟩, -⟩
      exact hne (ha hrun dev hdev)
    · rw [handleStart_of_incomplete env hcomp]
      exact ⟨hs, fun ha => iff_of_true ha (hno ha)⟩
  · rw [hc] at hset
    rw [heq]
    refine ⟨fun dev hdev => ?_, fun _ => iff_of_true (fun h => by cases h) (hkeep hset)⟩
    have hdev : (s.uartClose env).1.uartDev = some dev := hdev
    rcases (uartClose_cases env s).2 with ⟨hk, -⟩ | ⟨hl, -⟩
    · exact hs dev (hk ▸ hdev)
    · rw [hl] at hdev
      cases hdev
  · refine ⟨(deviceComplete_congr hd).2 hs, fun ha => iff_of_true ?_ (hkeep (hset.trans hn))⟩
    exact (attached_congr hp hb hd hr).2 ha

/-- A state in which data goes to the configured port. -/
theorem attached_iff_writes (s : Session) :
    s.Attached ↔ ∀ env p dev v, Writes env s p dev v → s.Matches dev := by
  constructor
  · intro h env p dev v hw
    obtain ⟨-, hrun, hdev⟩ := wrote_of_mem_newEvents hw
    exact h hrun dev hdev
  · intro h hrun dev hdev
    apply h ⟨none, false, false⟩ (Packet.init "data" [0]) dev [0]
    have hc : (Packet.init "data" [0]).command = .data [0] := by decide
    have hstate : (s.handlePacket ⟨none, false, false⟩ (Packet.init "data" [0])).state.events =
        s.events ++ [.wrote (some dev) [0]] := by
      rw [handlePacket_eq_exec, hc, exec_data_of_running hrun, hdev, if_neg (by simp)]
      rfl
    rw [Writes, newEvents, hstate, List.drop_left]
    exact List.mem_singleton_self _

end Steps

/-! ### Runs -/

theorem deviceComplete_run {s : Session} (hs : s.DeviceComplete) (steps : List (Env × Packet)) :
    (s.run steps).DeviceComplete :=
  List.foldlRecOn steps _ hs fun _ h step _ => (handlePacket_attached step.1 h step.2).1

theorem configured_handlePacket_iff {s : Session} (hs : s.DeviceComplete ∧ s.Attached) (env : Env) (p : Packet) :
    ((s.handlePacket env p).state.DeviceComplete ∧ Attached (s.handlePacket env p).state) ↔ ¬ Detaches env s p := by
  obtain ⟨hdev, hiff⟩ := handlePacket_attached env hs.1 p
  rw [← hiff hs.2]
  exact and_iff_right hdev

/-- In every state of a session data goes to a device with the settings of the session, exactly when no packet detaches
the device. -/
theorem run_written_to_port_iff (dataEncode : Bool) (steps : List (Env × Packet)) :
    (∀ pre, pre <+: steps → ∀ env p dev v, Writes env (run { dataEncode := dataEncode } pre) p dev v →
        (run { dataEncode := dataEncode } pre).Matches dev) ↔
      ∀ pre step post, steps = pre ++ step :: post →
        ¬ Detaches step.1 (run { dataEncode := dataEncode } pre) step.2 := by
  have hinit : ({ dataEncode := dataEncode } : Session).DeviceComplete ∧ Attached { dataEncode := dataEncode } :=
    ⟨fun dev hd => (by cases hd), fun h => (by cases h)⟩
  have hdev (pre : List (Env × Packet)) : (run { dataEncode := dataEncode } pre).DeviceComplete :=
    deviceComplete_run hinit.1 pre
  have hiff := foldl_invariant_iff (fun (s : Session) (step : Env × Packet) (h : s.DeviceComplete ∧ s.Attached) =>
    configured_handlePacket_iff h step.1 step.2) steps hinit
  refine Iff.trans ?_ hiff
  constructor
  · exact fun h pre hpre => ⟨hdev pre, (attached_iff_writes _).2 (h pre hpre)⟩
  · exact fun h pre hpre => (attached_iff_writes _).1 (h pre hpre).2

/-- After `path` with an empty value the session goes on writing to the device of the old path. -/
theorem not_run_written_to_port :
    ¬ ∀ (dataEncode : Bool) (steps : List (Env × Packet)) (env : Env) (p : Packet) (dev : Serial) (v : Bytes),
      Writes env (run { dataEncode := dataEncode } steps) p dev v →
        (run { dataEncode := dataEncode } steps).Matches dev := by
  intro h
  have hw : Writes ⟨none, false, false⟩ (run { dataEncode := false } [(⟨none, false, false⟩, Packet.init "path" [0x61]),
      (⟨none, false, false⟩, Packet.init "baud" [0x39, 0x36, 0x30, 0x30]),
      (⟨none, false, false⟩, Packet.init "path" [])]) (Packet.init "data" [0]) ⟨0, "a", 9600, true⟩ [0] := by
    decide +kernel
  have hm := (h _ _ _ _ _ _ hw).1
  revert hm
  decide +kernel

end Session

end WirelessUart
