import Mathlib.Data.List.Induction
import WirelessUart.Command

/-!
# The handshake

The client begins with `path`, `baud` and `start`.  Whatever the order and the number of these packets, once the path
and the baud rate have arrived the session has both settings, and its device is open and running after one call of the
constructor, or there is no device when the constructor always raises (`run_handshake`).

While the settings are incomplete the session is `Fresh`; the packet that completes them makes it `Served`, and every
further one finds the device already opened.
-/

namespace WirelessUart

open ByteLib

/-! ### The packets -/

/-- The packet sets the path to `path`, sets the baud rate to `baud`, or is `start`. -/
def Greets (path : String) (baud : Int) (p : Packet) : Prop :=
  p.command = .path path ∨ p.command = .baud (some baud) ∨ p.command = .start

instance (path : String) (baud : Int) (p : Packet) : Decidable (Greets path baud p) :=
  inferInstanceAs (Decidable (_ ∨ _))

theorem command_init_path (path : String) : (Packet.init "path" (encode path)).command = .path path := by
  rw [Packet.command, Packet.keyStr_init, if_pos rfl, Packet.valBytes_init, decode_encode]

theorem decimal_of_isDigit {d : Char} (h : d.isDigit = true) : decimal d = some (d.toNat - '0'.toNat) := by
  obtain ⟨hlow, hhigh⟩ := isDigit_bounds h
  rw [decimal, decimalZeros, List.find?_cons_of_pos (by simp [hlow]; omega)]
  rfl

theorem mapM_decimal {ds : List Char} (h : ∀ d ∈ ds, d.isDigit = true) :
    ds.mapM decimal = some (ds.map fun d => d.toNat - '0'.toNat) := by
  induction ds with
  | nil => rfl
  | cons d ds ih =>
    rw [List.mapM_cons, decimal_of_isDigit (h d List.mem_cons_self), ih fun d hd => h d (List.mem_cons_of_mem _ hd)]
    rfl

/-- `int` reads back what `str` writes, up to its limit. -/
theorem pyInt_toString {n : Nat} (h : (Nat.toDigits 10 n).length ≤ 4300) :
    pyInt (toString (n : Int)) = some (n : Int) := by
  have hdigit (d : Char) (hd : d ∈ Nat.toDigits 10 n) : d.isDigit = true :=
    Nat.isDigit_of_mem_toDigits (by decide) (by decide) hd
  have hlist : (toString (n : Int)).toList = Nat.toDigits 10 n := Nat.toList_repr
  have hspace (d : Char) (hd : d ∈ Nat.toDigits 10 n) : ¬ isNumberSpace d = true := by
    obtain ⟨hlow, hhigh⟩ := isDigit_bounds (hdigit d hd)
    simp [isNumberSpace]
    omega
  have htrim : trim isNumberSpace (Nat.toDigits 10 n) = Nat.toDigits 10 n :=
    trim_eq_self.2 ⟨fun d hd => hspace d (List.mem_of_mem_head? hd), fun d hd => hspace d (List.mem_of_getLast? hd)⟩
  have hvalue : digitsValue (Nat.toDigits 10 n) = some (n : Int) := by
    have hne : Nat.toDigits 10 n ≠ [] := Nat.toDigits_ne_nil
    rw [digitsValue, List.splitOn_eq_singleton Nat.underscore_not_in_toDigits]
    simp [hne, h, mapM_decimal hdigit, List.foldl_map]
    exact Nat.ofDigitChars_ten_toDigits
  rw [pyInt, hlist, htrim]
  split
  · rename_i heq
    exact absurd (hdigit '-' (by rw [heq]; exact List.mem_cons_self)) (by decide)
  · rename_i heq
    exact absurd (hdigit '+' (by rw [heq]; exact List.mem_cons_self)) (by decide)
  · exact hvalue

theorem command_init_baud {n : Nat} (h : (Nat.toDigits 10 n).length ≤ 4300) :
    (Packet.init "baud" (encode (toString (n : Int)))).command = .baud (some (n : Int)) := by
  rw [Packet.command, Packet.keyStr_init, if_neg (by decide), if_pos rfl, Packet.valBytes_init, decode_encode,
    Option.bind_some, pyInt_toString h]

/-! ### Sessions before and after the settings are complete -/

/-- The event is a call of the constructor. -/
def Event.isConstruct : Event → Bool
  | .opened _ => true
  | .openFailed _ _ => true
  | _ => false

namespace Session

/-- The number of calls of the constructor. -/
def constructions (s : Session) : Nat := s.events.countP Event.isConstruct

/-- Nothing has been opened. -/
structure Fresh (s : Session) : Prop where
  uartDev : s.uartDev = none
  isRunning : s.isRunning = false
  opens : s.opens = 0
  constructions : s.constructions = 0

/-- The first device has been opened, and is in place. -/
structure Served (path : String) (baud : Int) (s : Session) : Prop where
  uartDev : s.uartDev = some ⟨0, path, baud, true⟩
  isRunning : s.isRunning = true
  constructions : s.constructions = 1

section Steps

variable {env : Env} {s t : Session} {path : String} {baud : Int}

/-- Both look at the device, the flag and the events only. -/
theorem Fresh.congr (h : s.Fresh) (hd : t.uartDev = s.uartDev) (hr : t.isRunning = s.isRunning)
    (ho : t.opens = s.opens) (he : t.events = s.events) : t.Fresh :=
  ⟨hd.trans h.uartDev, hr.trans h.isRunning, ho.trans h.opens, by rw [Session.constructions, he]; exact h.constructions⟩

theorem Served.congr (h : s.Served path baud) (hd : t.uartDev = s.uartDev) (hr : t.isRunning = s.isRunning)
    (he : t.events = s.events) : t.Served path baud :=
  ⟨hd.trans h.uartDev, hr.trans h.isRunning, by rw [Session.constructions, he]; exact h.constructions⟩

theorem Fresh.error (h : s.Fresh) (msg : String) : (s.error msg).Fresh := by
  refine ⟨h.uartDev, h.isRunning, h.opens, ?_⟩
  show (s.events ++ [_]).countP Event.isConstruct = 0
  rw [List.countP_append]
  exact h.constructions

/-- `start` on a fresh session with both settings opens the device. -/
theorem Fresh.handleStart (h : s.Fresh) (hc : s.Complete) (ho : env.openError = none) :
    (s.handleStart env).Served s.uartPath s.uartBaud := by
  have hopen : s.uartOpen env = s.construct env := by
    rcases uartOpen_cases_eq env s with ⟨hinc, -⟩ | ⟨-, ⟨dev, hdev, -⟩, -⟩ | ⟨-, -, heq⟩
    · exact absurd hc hinc
    · rw [h.uartDev] at hdev
      cases hdev
    · rw [heq, uartClose_of_none env h.uartDev]
  obtain ⟨-, -, hdev, hevents, hrun⟩ := handleStart_fields env s
  rw [hopen, construct_of_opens s ho] at hdev hevents hrun
  refine ⟨?_, hrun, ?_⟩
  · rw [hdev, ← h.opens]
    rfl
  · rw [Session.constructions, hevents]
    show (s.events ++ [_]).countP Event.isConstruct = 1
    rw [List.countP_append]
    exact congrArg (· + 1) h.constructions

/-- `start` on a served session finds its device. -/
theorem Served.handleStart (h : s.Served s.uartPath s.uartBaud) (hc : s.Complete) :
    (s.handleStart env).Served s.uartPath s.uartBaud := by
  have hopen : s.uartOpen env = (s, true) := by
    rcases uartOpen_cases_eq env s with ⟨hinc, -⟩ | ⟨-, -, heq⟩ | ⟨-, hne, -⟩
    · exact absurd hc hinc
    · exact heq
    · exact absurd ⟨rfl, rfl⟩ (hne _ h.uartDev)
  obtain ⟨-, -, hdev, hevents, hrun⟩ := handleStart_fields env s
  rw [hopen] at hdev hevents hrun
  exact h.congr hdev (hrun.trans h.isRunning.symm) hevents

/-- A fresh session without both settings, or a served one that has them. -/
structure Greeted (path : String) (baud : Int) (s : Session) : Prop where
  settings : (s.uartPath = "" ∨ s.uartPath = path) ∧ (s.uartBaud = 0 ∨ s.uartBaud = baud)
  fresh : ¬ s.Complete → s.Fresh
  served : s.Complete → s.Served path baud

/-- Complete settings are those of the packets. -/
theorem settings_of_complete (h : (s.uartPath = "" ∨ s.uartPath = path) ∧ (s.uartBaud = 0 ∨ s.uartBaud = baud))
    (hc : s.Complete) : s.uartPath = path ∧ s.uartBaud = baud := by
  constructor
  · apply h.1.resolve_left
    intro hempty
    exact absurd hc.2 (by rw [hempty]; decide)
  · apply h.2.resolve_left
    intro hzero
    exact absurd hc.1 (by rw [hzero]; decide)

/-- A new start with settings of the packets. -/
theorem Greeted.restart (ho : env.openError = none) (hset : (t.uartPath = "" ∨ t.uartPath = path) ∧
    (t.uartBaud = 0 ∨ t.uartBaud = baud)) (ht : t.Fresh ∨ t.Served path baud) (hinc : ¬ t.Complete → t.Fresh) :
    (t.restart env).Greeted path baud := by
  rw [restart_eq]
  by_cases hc : t.Complete
  · rw [if_pos hc]
    obtain ⟨hp, hb, -⟩ := handleStart_fields env t
    obtain ⟨hpath, hbaud⟩ := settings_of_complete hset hc
    have hserved : (t.handleStart env).Served path baud := by
      rw [← hpath, ← hbaud] at ht ⊢
      rcases ht with ht | ht
      · exact ht.handleStart hc ho
      · exact ht.handleStart hc
    refine ⟨by rw [hp, hb]; exact hset, fun h => absurd ?_ h, fun _ => hserved⟩
    rw [Complete, hp, hb]
    exact hc
  · rw [if_neg hc]
    exact ⟨hset, fun _ => hinc hc, fun h => absurd h hc⟩

/-- Each packet of the handshake keeps this, while the constructor succeeds. -/
theorem Greeted.exec (h : s.Greeted path baud) (ho : env.openError = none) (hpath : 0 < path.length) (hbaud : 0 < baud)
    {p : Packet} (hp : Greets path baud p) : (s.exec env p.command).state.Greeted path baud := by
  have hs : s.Fresh ∨ s.Served path baud := by
    by_cases hc : s.Complete
    · exact .inr (h.served hc)
    · exact .inl (h.fresh hc)
  rcases hp with hp | hp | hp
  · rw [hp]
    refine Greeted.restart (t := { s with uartPath := path }) ho ⟨.inr rfl, h.settings.2⟩ ?_ ?_
    · exact hs.imp (·.congr rfl rfl rfl rfl) (·.congr rfl rfl rfl)
    · intro hc
      exact (h.fresh fun hcs => hc ⟨hcs.1, hpath⟩).congr rfl rfl rfl rfl
  · rw [hp]
    refine Greeted.restart (t := { s with uartBaud := baud }) ho ⟨h.settings.1, .inr rfl⟩ ?_ ?_
    · exact hs.imp (·.congr rfl rfl rfl rfl) (·.congr rfl rfl rfl)
    · intro hc
      exact (h.fresh fun hcs => hc ⟨hbaud, hcs.2⟩).congr rfl rfl rfl rfl
  · rw [hp]
    show (s.handleStart env).Greeted path baud
    by_cases hc : s.Complete
    · have hrestart : s.restart env = s.handleStart env := by rw [restart_eq, if_pos hc]
      rw [← hrestart]
      exact Greeted.restart ho h.settings hs h.fresh
    · rw [handleStart_of_incomplete env hc]
      exact ⟨h.settings, fun _ => (h.fresh hc).error _, fun h => absurd h hc⟩

/-- Without a device, and with a constructor that raises, `uart_open` fails and leaves none. -/
theorem uartOpen_of_none (ho : env.openError ≠ none) (hd : s.uartDev = none) :
    (s.uartOpen env).1.uartDev = none ∧ (s.uartOpen env).2 = false := by
  rcases uartOpen_cases_eq env s with ⟨-, heq⟩ | ⟨-, ⟨dev, hdev, -⟩, -⟩ | ⟨-, -, heq⟩
  · rw [heq]
    exact ⟨hd, rfl⟩
  · rw [hd] at hdev
    cases hdev
  · obtain ⟨text, htext⟩ := Option.ne_none_iff_exists'.1 ho
    rw [heq, uartClose_of_none env hd, construct_of_raises s htext]
    exact ⟨hd, rfl⟩

theorem handleStart_of_none (ho : env.openError ≠ none) (h : s.uartDev = none ∧ s.isRunning = false) :
    (s.handleStart env).uartDev = none ∧ (s.handleStart env).isRunning = false := by
  obtain ⟨-, -, hdev, -, hrun⟩ := handleStart_fields env s
  obtain ⟨hd, hfail⟩ := uartOpen_of_none ho h.1
  rw [hdev, hrun, hfail, h.2]
  exact ⟨hd, rfl⟩

theorem restart_of_none (ho : env.openError ≠ none) (h : s.uartDev = none ∧ s.isRunning = false) :
    (s.restart env).uartDev = none ∧ (s.restart env).isRunning = false := by
  rw [restart_eq]
  split
  · exact handleStart_of_none ho h
  · exact h

/-- While the constructor raises, no packet of the handshake gives the session a device. -/
theorem exec_greets_of_none (ho : env.openError ≠ none) (h : s.uartDev = none ∧ s.isRunning = false) {p : Packet}
    (hp : Greets path baud p) :
    (s.exec env p.command).state.uartDev = none ∧ (s.exec env p.command).state.isRunning = false := by
  rcases hp with hp | hp | hp
  · rw [hp]
    exact restart_of_none (s := { s with uartPath := path }) ho h
  · rw [hp]
    exact restart_of_none (s := { s with uartBaud := baud }) ho h
  · rw [hp]
    exact handleStart_of_none ho h

end Steps

/-! ### Runs -/

section Runs

variable {path : String} {baud : Int} {steps : List (Env × Packet)}

/-- A setting that has been sent is the one of the session. -/
theorem run_settings (s : Session) (hsteps : ∀ step ∈ steps, Greets path baud step.2) :
    ((∃ step ∈ steps, step.2.command = .path path) → (s.run steps).uartPath = path) ∧
      ((∃ step ∈ steps, step.2.command = .baud (some baud)) → (s.run steps).uartBaud = baud) := by
  induction steps using List.reverseRecOn with
  | nil => exact ⟨by simp, by simp⟩
  | append_singleton steps step ih =>
    obtain ⟨ihpath, ihbaud⟩ := ih fun step h => hsteps step (List.mem_append_left _ h)
    have hlast : Greets path baud step.2 := hsteps step (by simp)
    obtain ⟨hpath, hbaud⟩ := exec_settings step.1 (s.run steps) step.2.command
    rw [run_concat, hpath, hbaud]
    simp only [List.mem_append, List.mem_singleton, or_and_right, exists_or, exists_eq_left]
    rcases hlast with hp | hp | hp
    · rw [hp]
      exact ⟨fun _ => rfl, fun h => ihbaud (h.resolve_right (by simp))⟩
    · rw [hp]
      exact ⟨fun h => ihpath (h.resolve_right (by simp)), fun _ => rfl⟩
    · rw [hp]
      exact ⟨fun h => ihpath (h.resolve_right (by simp)), fun h => ihbaud (h.resolve_right (by simp))⟩

/-- A session whose constructor succeeds is greeted after every run of such packets. -/
theorem greeted_run (dataEncode : Bool) (hpath : path ≠ "") (hbaud : 0 < baud)
    (hsteps : ∀ step ∈ steps, Greets path baud step.2) (hopen : ∀ step ∈ steps, step.1.openError = none) :
    (run { dataEncode := dataEncode } steps).Greeted path baud := by
  have hlen : 0 < path.length := Nat.pos_of_ne_zero (mt String.length_eq_zero_iff.1 hpath)
  refine List.foldlRecOn steps _ ?_ fun s hs step hmem => ?_
  · exact ⟨⟨.inl rfl, .inl rfl⟩, fun _ => ⟨rfl, rfl, rfl, rfl⟩, fun h => absurd h.1 (by simp)⟩
  · rw [handlePacket_eq_exec]
    exact hs.exec (hopen step hmem) hlen hbaud (hsteps step hmem)

theorem run_of_none (dataEncode : Bool) (hsteps : ∀ step ∈ steps, Greets path baud step.2)
    (hopen : ∀ step ∈ steps, step.1.openError ≠ none) :
    (run { dataEncode := dataEncode } steps).uartDev = none ∧
      (run { dataEncode := dataEncode } steps).isRunning = false := by
  refine List.foldlRecOn (motive := fun s : Session => s.uartDev = none ∧ s.isRunning = false) steps _
    ⟨rfl, rfl⟩ ?_
  intro s hs step hmem
  rw [handlePacket_eq_exec]
  exact exec_greets_of_none (hopen step hmem) hs (hsteps step hmem)

/-- The packets of the handshake in any order and number, with both settings among them: the session has the settings,
and is running on its only device, or has none when the constructor always raises. -/
theorem run_handshake (dataEncode : Bool) (hpath : path ≠ "") (hbaud : 0 < baud)
    (hsteps : ∀ step ∈ steps, Greets path baud step.2) (hp : ∃ step ∈ steps, step.2.command = .path path)
    (hb : ∃ step ∈ steps, step.2.command = .baud (some baud)) :
    ((run { dataEncode := dataEncode } steps).uartPath = path ∧
      (run { dataEncode := dataEncode } steps).uartBaud = baud) ∧
    ((∀ step ∈ steps, step.1.openError = none) →
      (run { dataEncode := dataEncode } steps).uartDev = some ⟨0, path, baud, true⟩ ∧
        (run { dataEncode := dataEncode } steps).isRunning = true ∧
          (run { dataEncode := dataEncode } steps).constructions = 1) ∧
    ((∀ step ∈ steps, step.1.openError ≠ none) →
      (run { dataEncode := dataEncode } steps).uartDev = none ∧
        (run { dataEncode := dataEncode } steps).isRunning = false) := by
  have hlen : 0 < path.length := Nat.pos_of_ne_zero (mt String.length_eq_zero_iff.1 hpath)
  have hset := run_settings { dataEncode := dataEncode } hsteps
  refine ⟨⟨hset.1 hp, hset.2 hb⟩, fun hopen => ?_, run_of_none dataEncode hsteps⟩
  have hgreeted := greeted_run dataEncode hpath hbaud hsteps hopen
  have hserved : (run { dataEncode := dataEncode } steps).Served path baud := by
    apply hgreeted.served
    rw [Complete, hset.1 hp, hset.2 hb]
    exact ⟨hbaud, hlen⟩
  exact ⟨hserved.uartDev, hserved.isRunning, hserved.constructions⟩

theorem run_handshake_client :
    (run { dataEncode := false } [(⟨none, false, false⟩, .init "path" [0x61]), (⟨none, false, false⟩,
        .init "baud" [0x39]), (⟨none, false, false⟩, .init "start")]).uartDev = some ⟨0, "a", 9, true⟩ ∧
      (run { dataEncode := false } [(⟨none, false, false⟩, .init "path" [0x61]), (⟨none, false, false⟩,
        .init "baud" [0x39]), (⟨none, false, false⟩, .init "start")]).isRunning = true ∧
      (run { dataEncode := false } [(⟨none, false, false⟩, .init "path" [0x61]), (⟨none, false, false⟩,
        .init "baud" [0x39]), (⟨none, false, false⟩, .init "start")]).constructions = 1 :=
  (run_handshake false (by decide) (by decide) (by decide +kernel) (by decide +kernel) (by decide +kernel)).2.1
    (by decide)

end Runs

end Session

end WirelessUart
