import WirelessUart.History

/-!
# Closing the devices of a session

The constructor numbers the devices, so the events tell which of them have been closed (`Accounted`).  All devices other
than the one in place have been (`Tidy`), until a packet makes `uart_open` replace a device whose `close` raises
(`Leaks`): nothing refers to that device any more, and it is never closed (`Lost`).
-/

namespace WirelessUart

namespace Session

/-- Every device that the session has opened has been closed. -/
def AllClosed (s : Session) : Prop := ∀ dev, .opened dev ∈ s.events → .closed dev ∈ s.events

/-- Every device that the session has opened has been closed or is in place. -/
def Tidy (s : Session) : Prop := ∀ dev, .opened dev ∈ s.events → .closed dev ∈ s.events ∨ s.uartDev = some dev

/-- The device is neither closed nor in place. -/
structure Lost (dev : Serial) (s : Session) : Prop where
  opened : .opened dev ∈ s.events
  not_closed : .closed dev ∉ s.events
  not_inPlace : s.uartDev ≠ some dev

/-- Devices have different numbers, and what is closed was opened before. -/
structure Accounted (s : Session) : Prop where
  number_lt : ∀ dev, .opened dev ∈ s.events → dev.number < s.opens
  opened : ∀ dev, .closed dev ∈ s.events → .opened dev ∈ s.events
  inPlace : ∀ dev, s.uartDev = some dev → .opened dev ∈ s.events ∧ .closed dev ∉ s.events

/-- `uart_open` replaces a device that it cannot close. -/
def Leaking (env : Env) (s : Session) : Prop :=
  s.Complete ∧ (∃ dev, s.uartDev = some dev ∧ ¬ s.Matches dev) ∧ env.closeRaises = true ∧ env.openError = none

/-- The packet makes `uart_open` replace a device that it cannot close. -/
def Leaks (env : Env) (s : Session) (p : Packet) : Prop := ∃ t, s.opening p.command = some t ∧ Leaking env t

section Steps

variable {env : Env} {s t : Session} {dev : Serial}

theorem opened_mem_emit {e : Event} (he : e.isNeutral = true) :
    .opened dev ∈ (s.emit e).events ↔ .opened dev ∈ s.events := by
  have hne : e ≠ .opened dev := by
    rintro rfl
    cases he
  simp [emit, hne.symm]

theorem closed_mem_emit {e : Event} (he : e.isNeutral = true) :
    .closed dev ∈ (s.emit e).events ↔ .closed dev ∈ s.events := by
  have hne : e ≠ .closed dev := by
    rintro rfl
    cases he
  simp [emit, hne.symm]

theorem deviceInvariant_accounted : DeviceInvariant Accounted where
  congr s t hd he ho hs := by
    refine ⟨?_, ?_, ?_⟩
    · rw [← he, ← ho]
      exact hs.number_lt
    · rw [← he]
      exact hs.opened
    · rw [← he, ← hd]
      exact hs.inPlace
  emit s e he hs := by
    refine ⟨fun dev => ?_, fun dev => ?_, fun dev => ?_⟩
    · rw [opened_mem_emit he]
      exact hs.number_lt dev
    · rw [opened_mem_emit he, closed_mem_emit he]
      exact hs.opened dev
    · rw [opened_mem_emit he, closed_mem_emit he]
      exact hs.inPlace dev
  closed s dev hdev hs := by
    have hopened := (hs.inPlace dev hdev).1
    refine ⟨fun dev' h => ?_, fun dev' h => ?_, fun dev' h => (by cases h)⟩
    · exact hs.number_lt dev' (by simpa [emit] using h)
    · have h : .closed dev' ∈ s.events ∨ dev' = dev := by simpa [emit] using h
      have : .opened dev' ∈ s.events := by
        rcases h with h | rfl
        · exact hs.opened dev' h
        · exact hopened
      simpa [emit] using this
  opened s hs := by
    -- the number of the new device is larger than those of the others
    have hnew (dev : Serial) (h : .opened dev ∈ s.events) : dev ≠ s.newDevice := by
      rintro rfl
      exact absurd (hs.number_lt _ h) (Nat.lt_irrefl _)
    refine ⟨fun dev h => ?_, fun dev h => ?_, fun dev h => ?_⟩
    · have h : .opened dev ∈ s.events ∨ dev = s.newDevice := by simpa [emit] using h
      rcases h with h | rfl
      · exact Nat.lt_succ_of_lt (hs.number_lt dev h)
      · exact Nat.lt_succ_self _
    · have h : .closed dev ∈ s.events := by simpa [emit] using h
      simpa [emit] using Or.inl (hs.opened dev h)
    · cases h
      refine ⟨by simp [emit], fun h => ?_⟩
      have h : .closed s.newDevice ∈ s.events := by simpa [emit] using h
      exact hnew _ (hs.opened _ h) rfl

theorem eventInvariant_tidy : EventInvariant Tidy where
  congr s t hd he _ hs := by
    rw [Tidy, ← hd, ← he]
    exact hs
  emit s e he hs dev h := by
    rw [closed_mem_emit he]
    exact hs dev ((opened_mem_emit he).1 h)
  closed s dev hdev hs dev' h := by
    left
    have h : .opened dev' ∈ s.events := by simpa [emit] using h
    rcases hs dev' h with h | h
    · simp [emit, h]
    · rw [hdev] at h
      cases h
      simp [emit]

/-- `uart_open` leaves no device behind, unless it replaces one that it cannot close. -/
theorem Tidy.uartOpen (hs : s.Tidy) (hl : ¬ Leaking env s) : (s.uartOpen env).1.Tidy := by
  rcases uartOpen_cases_eq env s with ⟨-, heq⟩ | ⟨-, -, heq⟩ | ⟨hc, hne, heq⟩
  · rw [heq]
    exact eventInvariant_tidy.error hs _
  · rw [heq]
    exact hs
  · rw [heq]
    have hclose := eventInvariant_tidy.uartClose env hs
    cases ho : env.openError with
    | some text =>
      rw [construct_of_raises _ ho]
      exact eventInvariant_tidy.error (eventInvariant_tidy.emit _ _ rfl hclose) _
    | none =>
      have hnone : (s.uartClose env).1.uartDev = none := by
        cases hdev : s.uartDev with
        | none =>
          rw [uartClose_of_none env hdev]
          exact hdev
        | some dev =>
          cases hcl : env.closeRaises with
          | true => exact absurd ⟨hc, ⟨dev, hdev, hne dev hdev⟩, hcl, ho⟩ hl
          | false => rw [uartClose_of_closes hdev hcl, emit]
      rw [construct_of_opens _ ho]
      intro dev h
      have h : .opened dev ∈ (s.uartClose env).1.events ∨ dev = (s.uartClose env).1.newDevice := by
        simpa [emit] using h
      rcases h with h | rfl
      · rcases hclose dev h with h | h
        · left
          simp [emit, h]
        · rw [hnone] at h
          cases h
      · exact .inr rfl

theorem Tidy.handlePacket (hs : s.Tidy) {p : Packet} (hl : ¬ Leaks env s p) : (s.handlePacket env p).state.Tidy := by
  rw [handlePacket_eq_exec]
  exact eventInvariant_tidy.exec (fun t ht htidy => htidy.uartOpen fun h => hl ⟨t, ht, h⟩) hs

/-- A device that is lost stays so. -/
theorem deviceInvariant_lost (dev : Serial) : DeviceInvariant fun s => s.Accounted ∧ Lost dev s where
  congr s t hd he ho hs := by
    refine ⟨deviceInvariant_accounted.congr s t hd he ho hs.1, ?_, ?_, ?_⟩
    · rw [← he]
      exact hs.2.opened
    · rw [← he]
      exact hs.2.not_closed
    · rw [← hd]
      exact hs.2.not_inPlace
  emit s e he hs := by
    refine ⟨deviceInvariant_accounted.emit s e he hs.1, (opened_mem_emit he).2 hs.2.opened, ?_, hs.2.not_inPlace⟩
    rw [closed_mem_emit he]
    exact hs.2.not_closed
  closed s dev' hdev hs := by
    refine ⟨deviceInvariant_accounted.closed s dev' hdev hs.1, ?_, ?_, fun h => (by cases h)⟩
    · simpa [emit] using hs.2.opened
    · have hne : dev ≠ dev' := by
        rintro rfl
        exact hs.2.not_inPlace hdev
      simpa [emit, hne] using hs.2.not_closed
  opened s hs := by
    refine ⟨deviceInvariant_accounted.opened s hs.1, ?_, ?_, ?_⟩
    · simpa [emit] using Or.inl hs.2.opened
    · simpa [emit] using hs.2.not_closed
    · intro h
      cases h
      exact absurd (hs.1.number_lt _ hs.2.opened) (Nat.lt_irrefl _)

/-- The device that cannot be closed is lost. -/
theorem Leaking.lost (hs : s.Accounted) (h : Leaking env s) : ∃ dev, Lost dev (s.uartOpen env).1 := by
  obtain ⟨hc, ⟨dev, hdev, hm⟩, hcl, ho⟩ := h
  refine ⟨dev, ?_⟩
  rcases uartOpen_cases_eq env s with ⟨hinc, -⟩ | ⟨-, ⟨dev', hdev', hm'⟩, -⟩ | ⟨-, -, heq⟩
  · exact absurd hc hinc
  · rw [hdev] at hdev'
    cases hdev'
    exact absurd hm' hm
  · obtain ⟨hopened, hclosed⟩ := hs.inPlace dev hdev
    rw [heq, uartClose_of_raises hdev hcl, construct_of_opens _ ho]
    refine ⟨by simp [emit, hopened], by simp [emit, hclosed], fun h => ?_⟩
    have hnumber : s.opens = dev.number := congrArg Serial.number (Option.some.inj h)
    have := hs.number_lt dev hopened
    omega

theorem Leaks.lost (hs : s.Accounted) {p : Packet} (h : Leaks env s p) :
    ∃ dev, Lost dev (s.handlePacket env p).state := by
  obtain ⟨t, ht, hl⟩ := h
  obtain ⟨dev, hlost⟩ := hl.lost (deviceInvariant_accounted.opening ht hs)
  obtain ⟨-, -, hdev, hevents, -⟩ := handleStart_fields env t
  rw [handlePacket_eq_exec, exec_of_opening ht]
  show ∃ dev, Lost dev (t.handleStart env)
  refine ⟨dev, ?_, ?_, ?_⟩
  · rw [hevents]
    exact hlost.opened
  · rw [hevents]
    exact hlost.not_closed
  · rw [hdev]
    exact hlost.not_inPlace

end Steps

end Session

end WirelessUart
