import WirelessUart.ConnectHelper
import WirelessUart.Relay

/-!
# Where the written values come from

The loop of `handle` on any stream of bytes, however `recv` cuts it and whatever junk it holds.  Frames may be missed,
and a frame may be read more than once, but nothing else goes wrong: the packets that are handled are read from intact
frames at positions of the stream that never decrease (`InOrder`), and what is written to a device are values of data
packets among them, in this order (`HandleRun.handles_in_order`).

The stream is that of the results of `recv` after `strip()` (`Turn.arrived`), which is all that the loop sees.  A frame
of it need not be one of the bytes as they were sent: the white space that `strip()` removes may have stood within.

The reason is that a start symbol is skipped for good: behind a position that has been read no earlier start symbol
comes to life, whatever arrives (`Scanned`).
-/

namespace WirelessUart

open ByteLib

/-! ### Positions in the stream -/

/-- At position `i` of the stream there is an intact frame whose packet is passed on as `p`. -/
def Carries (dataEncode : Bool) (stream : Bytes) (i : Nat) (p : Packet) : Prop :=
  ∃ d q, (d.length < 2 ^ 32 ∧ splitData d = some q ∧ received dataEncode q = some p) ∧
    frameBytes d (calcChecksum d) <+: stream.drop i

/-- The packets are read at positions of the stream that do not decrease, from `m` to `n`. -/
inductive InOrder (dataEncode : Bool) (stream : Bytes) : Nat → List Packet → Nat → Prop
  | nil (m : Nat) : InOrder dataEncode stream m [] m
  | cons {m i n : Nat} {p : Packet} {ps : List Packet} : m ≤ i → Carries dataEncode stream i p →
      InOrder dataEncode stream i ps n → InOrder dataEncode stream m (p :: ps) n

/-- Before position `i` no start symbol is live, whatever arrives. -/
def Scanned (b : Bytes) (i : Nat) : Prop := i ≤ b.length ∧ ∀ j s, j < i → ¬ Live (b.drop j ++ s)

/-- The buffer is the end of the stream, and before position `m` of the stream it has been scanned. -/
def Behind (stream b : Bytes) (m : Nat) : Prop :=
  ∃ o, o ≤ stream.length ∧ b = stream.drop o ∧ Scanned b (m - o)

section Positions

variable {dataEncode : Bool} {stream b : Bytes} {m n k i : Nat} {p : Packet} {ps qs : List Packet}

theorem Carries.append (h : Carries dataEncode stream i p) (s : Bytes) : Carries dataEncode (stream ++ s) i p := by
  obtain ⟨d, q, hq, hf⟩ := h
  refine ⟨d, q, hq, hf.trans ?_⟩
  rw [List.drop_append]
  exact List.prefix_append _ _

theorem InOrder.append_stream (h : InOrder dataEncode stream m ps n) (s : Bytes) :
    InOrder dataEncode (stream ++ s) m ps n := by
  induction h with
  | nil m => exact .nil m
  | cons hle hc _ ih => exact .cons hle (hc.append s) ih

theorem InOrder.trans (h : InOrder dataEncode stream m ps k) (h' : InOrder dataEncode stream k qs n) :
    InOrder dataEncode stream m (ps ++ qs) n := by
  induction h with
  | nil m => exact h'
  | cons hle hc _ ih => exact .cons hle hc (ih h')

theorem Scanned.append (h : Scanned b i) (s : Bytes) : Scanned (b ++ s) i := by
  refine ⟨?_, fun j s' hj => ?_⟩
  · rw [List.length_append]
    exact Nat.le_add_right_of_le h.1
  · have := h.1
    rw [List.drop_append_of_le_length (by omega), List.append_assoc]
    exact h.2 j (s ++ s') hj

theorem Scanned.drop (h : Scanned b i) (k : Nat) : Scanned (b.drop k) (i - k) := by
  refine ⟨?_, fun j s hj => ?_⟩
  · have := h.1
    rw [List.length_drop]
    omega
  · rw [List.drop_drop]
    exact h.2 (k + j) s (by omega)

/-- What follows does not bring a start symbol to life. -/
theorem not_live_append (hlen : symbolStartBytes.length ≤ b.length) (h : ¬ Live b) (s : Bytes) : ¬ Live (b ++ s) :=
  fun hl => h ⟨List.prefix_of_prefix_length_le hl.1 (List.prefix_append _ _) hlen, fun hr => hl.2 (hr.append s)⟩

/-- A live start symbol lies behind what has been scanned. -/
theorem Scanned.le_of_live (h : Scanned b m) (hl : Live (b.drop i)) : m ≤ i := by
  by_contra hlt
  refine h.2 i [] (by omega) ?_
  rwa [List.append_nil]

/-- Where a packet is read everything before has been scanned. -/
theorem scanned_of_parse (h : parse b = some p) :
    ∃ i d, (Scanned b i ∧ Live (b.drop i)) ∧ d.length < 2 ^ 32 ∧ splitData d = some p ∧
      frameBytes d (calcChecksum d) <+: b.drop i := by
  obtain ⟨g, d, s, rfl, -, hlt, hd, hg⟩ := parse_eq_some_iff.1 h
  have hstart : symbolStartBytes <+: frameBytes d (calcChecksum d) ++ s :=
    (start_prefix_frameBytes d _).trans (List.prefix_append _ _)
  refine ⟨g.length, d, ⟨⟨?_, fun j s' hj => ?_⟩, ?_⟩, hlt, hd, ?_⟩
  · rw [List.length_append]
    exact Nat.le_add_right _ _
  · -- a start symbol in front of the frame is rejected, and stays so
    have hne : g.drop j ≠ [] := by
      intro hnil
      have := List.drop_eq_nil_iff.1 hnil
      omega
    rw [List.drop_append_of_le_length (by omega)]
    refine not_live_append ?_ (hg (g.drop j) (List.drop_suffix j g) hne) s'
    have := hstart.length_le
    rw [List.length_append]
    omega
  · rw [List.drop_left]
    exact ⟨hstart, fun hr => (rejected_frameBytes hlt s).1 hr rfl⟩
  · rw [List.drop_left]
    exact List.prefix_append _ _

theorem behind_self (b : Bytes) : Behind b b 0 :=
  ⟨0, Nat.zero_le _, rfl, Nat.zero_le _, fun _ _ hj => absurd hj (Nat.not_lt_zero _)⟩

theorem Behind.le (h : Behind stream b m) : m ≤ stream.length := by
  obtain ⟨o, ho, rfl, hs⟩ := h
  have := hs.1
  rw [List.length_drop] at this
  omega

theorem Behind.append (h : Behind stream b m) (s : Bytes) : Behind (stream ++ s) (b ++ s) m := by
  obtain ⟨o, ho, rfl, hs⟩ := h
  refine ⟨o, ?_, ?_, hs.append s⟩
  · rw [List.length_append]
    exact Nat.le_add_right_of_le ho
  · rw [List.drop_append_of_le_length ho]

theorem Behind.flush (h : Behind stream b m) : Behind stream (flush b) m := by
  rcases flush_eq b with hb | hb <;> rw [hb]
  · have hle := h.le
    refine ⟨stream.length, Nat.le_refl _, List.drop_length.symm, ?_⟩
    rw [Nat.sub_eq_zero_of_le hle]
    exact ⟨Nat.zero_le _, fun j s hj => absurd hj (Nat.not_lt_zero j)⟩
  · exact h

/-- A packet is read behind the position up to which the stream has been scanned; then so are the bytes that stay. -/
theorem Behind.parse (h : Behind stream b m) (hp : parse b = some p) {q : Packet}
    (hq : received dataEncode p = some q) :
    ∃ i, m ≤ i ∧ Carries dataEncode stream i q ∧ Behind stream (b.drop (7 + q.dataSize)) i := by
  obtain ⟨o, ho, rfl, hs⟩ := h
  obtain ⟨i, d, ⟨hscanned, hlive⟩, hlt, hd, hframe⟩ := scanned_of_parse hp
  have hmi := hs.le_of_live hlive
  have hi := hscanned.1
  rw [List.length_drop] at hi
  rw [List.drop_drop] at hframe
  refine ⟨o + i, by omega, ⟨d, p, ⟨hlt, hd, hq⟩, hframe⟩, min (o + (7 + q.dataSize)) stream.length, by omega, ?_, ?_⟩
  · rw [List.drop_drop]
    rcases Nat.le_total (o + (7 + q.dataSize)) stream.length with hle | hle
    · rw [Nat.min_eq_left hle]
    · rw [Nat.min_eq_right hle, List.drop_length, List.drop_eq_nil_of_le hle]
  · have hdrop := hscanned.drop (7 + q.dataSize)
    have heq : o + i - min (o + (7 + q.dataSize)) stream.length = i - (7 + q.dataSize) := by omega
    rwa [heq]

end Positions

/-! ### The loop -/

section Loop

variable {σ : Type*} {T : List Packet → σ → Prop} {handlePacket : σ → Packet → Outcome σ} {dataEncode : Bool}
variable {stream b : Bytes} {m : Nat} {s : σ} {qs : List Packet}

/-- The inner loop handles packets that are read at positions that do not decrease.  `T` is any property of the packets
handled so far and of the state. -/
theorem recvLoop_in_order (dataEncode : Bool)
    (hT : ∀ ps s p, T ps s → T (ps ++ [p]) (handlePacket s p).state) (h : Behind stream b m) (hs : T qs s) :
    ∃ ps n, InOrder dataEncode stream m ps n ∧ Behind stream (recvLoop dataEncode handlePacket s b).state.2 n ∧
      T (qs ++ ps) (recvLoop dataEncode handlePacket s b).state.1 := by
  have hnil : T (qs ++ []) s := by rwa [List.append_nil]
  induction hn : b.length using Nat.strong_induction_on generalizing s b m qs with
  | _ k ih =>
    cases hp : parse b with
    | none =>
      rw [recvLoop_of_none hp]
      exact ⟨[], m, .nil m, h, hnil⟩
    | some p =>
      cases hq : received dataEncode p with
      | none =>
        rw [recvLoop_of_undecoded hp hq]
        exact ⟨[], m, .nil m, h, hnil⟩
      | some q =>
        obtain ⟨i, hmi, hcarries, hbehind⟩ := h.parse hp hq
        have hstep := hT qs s q hs
        cases hhandle : handlePacket s q with
        | raised s' =>
          rw [hhandle] at hstep
          rw [recvLoop_of_raised hp hq hhandle]
          exact ⟨[q], i, .cons hmi hcarries (.nil i), hbehind, hstep⟩
        | ok s' =>
          rw [hhandle] at hstep
          have hlt : (b.drop (7 + q.dataSize)).length < k := by
            have := length_pos_of_find (find_isSome_of_parse hp)
            rw [List.length_drop]
            omega
          obtain ⟨ps, n, horder, hbehind', hps⟩ :=
            ih _ hlt hbehind hstep (by rw [List.append_nil]; exact hstep) rfl
          rw [recvLoop_of_some hp hq hhandle]
          refine ⟨q :: ps, n, .cons hmi hcarries horder, hbehind', ?_⟩
          rwa [List.append_assoc] at hps

/-- So does the loop on one result of `recv`. -/
theorem receive_in_order (hT : ∀ ps s p, T ps s → T (ps ++ [p]) (handlePacket s p).state) (h : Behind stream b m)
    (hs : T qs s) (raw : Bytes) :
    ∃ ps n, InOrder dataEncode (stream ++ strip raw) m ps n ∧
      Behind (stream ++ strip raw) (receive dataEncode handlePacket (s, b) raw).state.2 n ∧
      T (qs ++ ps) (receive dataEncode handlePacket (s, b) raw).state.1 := by
  by_cases hr : strip raw = []
  · have hnothing : receive dataEncode handlePacket (s, b) raw = .ok (s, b) := if_neg (by simp [hr])
    rw [hnothing, hr, List.append_nil]
    exact ⟨[], m, .nil m, h, by rwa [List.append_nil]⟩
  · obtain ⟨ps, n, horder, hbehind, hps⟩ := recvLoop_in_order dataEncode hT (h.append (strip raw)) hs
    rw [receive_of_ne hr]
    cases hloop : recvLoop dataEncode handlePacket s (b ++ strip raw) with
    | ok r =>
      rw [hloop] at hbehind hps
      exact ⟨ps, n, horder, hbehind.flush, hps⟩
    | raised r =>
      rw [hloop] at hbehind hps
      exact ⟨ps, n, horder, hbehind, hps⟩

end Loop

/-! ### Runs -/

/-- What a turn adds to the stream: the result of `recv` after `strip()`. -/
def Turn.arrived (t : Turn) : Bytes :=
  match t.poll with
  | .received raw => strip raw
  | _ => []

namespace Peer

variable {σ : Type*}

/-- Some turns of the loop of `handle`; an exception ends it. -/
def after (E : Peer σ) : σ × Bytes → List Turn → Outcome (σ × Bytes)
  | st, [] => .ok st
  | st, t :: turns =>
    match E.turn st t with
    | .ok st' => E.after st' turns
    | .raised st' => .raised st'

/-- The property of the packets handled so far and of the state is kept by handling a packet and by sending what the
device has read. -/
structure Traces (E : Peer σ) (T : List Packet → σ → Prop) : Prop where
  handlePacket : ∀ ps s p, T ps s → T (ps ++ [p]) (E.handlePacket s p).state
  forward : ∀ ps s rxBytes, T ps s → T ps (E.forward s rxBytes)

variable {E : Peer σ} {T : List Packet → σ → Prop} {stream b : Bytes} {m : Nat} {s : σ} {qs : List Packet}

theorem Traces.and {T' : List Packet → σ → Prop} (hT : E.Traces T) (hT' : E.Traces T') :
    E.Traces fun ps s => T ps s ∧ T' ps s where
  handlePacket ps s p hs := ⟨hT.handlePacket ps s p hs.1, hT'.handlePacket ps s p hs.2⟩
  forward ps s rxBytes hs := ⟨hT.forward ps s rxBytes hs.1, hT'.forward ps s rxBytes hs.2⟩

/-- The setting `data_encode` stays as it is. -/
theorem traces_dataEncode (E : Peer σ) (dataEncode : Bool) : E.Traces fun _ s => E.dataEncode s = dataEncode where
  handlePacket _ s p hs := (E.dataEncode_handlePacket s p).trans hs
  forward _ s rxBytes hs := (E.forward_fields s rxBytes).1.trans hs

theorem turn_in_order (hT : E.Traces T) (h : Behind stream b m) (hs : T qs s) (t : Turn) :
    ∃ ps n, InOrder (E.dataEncode s) (stream ++ t.arrived) m ps n ∧
      Behind (stream ++ t.arrived) (E.turn (s, b) t).state.2 n ∧ T (qs ++ ps) (E.turn (s, b) t).state.1 := by
  have hpoll : ∃ ps n, InOrder (E.dataEncode s) (stream ++ t.arrived) m ps n ∧
      Behind (stream ++ t.arrived) (E.poll (s, b) t.poll).state.2 n ∧
      T (qs ++ ps) (E.poll (s, b) t.poll).state.1 := by
    obtain ⟨poll, waiting⟩ := t
    have hnothing : ∃ ps n, InOrder (E.dataEncode s) (stream ++ []) m ps n ∧ Behind (stream ++ []) b n ∧
        T (qs ++ ps) s := by
      rw [List.append_nil]
      exact ⟨[], m, .nil m, h, by rwa [List.append_nil]⟩
    cases poll with
    | received raw => exact receive_in_order hT.handlePacket h hs raw
    | _ => exact hnothing
  obtain ⟨ps, n, horder, hbehind, hps⟩ := hpoll
  unfold turn
  cases hp : E.poll (s, b) t.poll with
  | raised st =>
    rw [hp] at hbehind hps
    exact ⟨ps, n, horder, hbehind, hps⟩
  | ok st =>
    rw [hp] at hbehind hps
    refine ⟨ps, n, horder, ?_⟩
    dsimp only
    unfold readDevice
    split
    · exact ⟨hbehind, hps⟩
    · cases t.waiting with
      | raises => exact ⟨hbehind, hps⟩
      | bytes rxBytes => exact ⟨hbehind, hT.forward _ _ rxBytes hps⟩

/-- The packets that some turns handle are read at positions of the stream that do not decrease. -/
theorem after_in_order (hT : E.Traces T) (h : Behind stream b m) (hs : T qs s) (turns : List Turn) :
    ∃ ps n, InOrder (E.dataEncode s) (stream ++ (turns.map Turn.arrived).flatten) m ps n ∧
      T (qs ++ ps) (E.after (s, b) turns).state.1 := by
  induction turns generalizing s b m stream qs with
  | nil => exact ⟨[], m, .nil m, by rwa [List.append_nil]⟩
  | cons t turns ih =>
    obtain ⟨ps, n, horder, hbehind, hps, hencode⟩ :=
        turn_in_order (hT.and (E.traces_dataEncode (E.dataEncode s))) h ⟨hs, rfl⟩ t
    rw [List.map_cons, List.flatten_cons, ← List.append_assoc]
    cases ht : E.turn (s, b) t with
    | raised st =>
      rw [ht] at hps
      rw [after, ht]
      exact ⟨ps, n, horder.append_stream _, hps⟩
    | ok st =>
      rw [ht] at hbehind hps hencode
      obtain ⟨ps', n', horder', hps'⟩ := ih hbehind hps
      rw [hencode] at horder'
      rw [after, ht]
      refine ⟨ps ++ ps', n', (horder.append_stream _).trans horder', ?_⟩
      rw [← List.append_assoc]
      exact hps'

theorem after_append (E : Peer σ) (st : σ × Bytes) (turns turns' : List Turn) :
    E.after st (turns ++ turns') =
      match E.after st turns with
      | .ok st' => E.after st' turns'
      | .raised st' => .raised st' := by
  induction turns generalizing st with
  | nil => rfl
  | cons t turns ih =>
    rw [List.cons_append, after, after]
    cases E.turn st t with
    | ok st' => exact ih st'
    | raised st' => rfl

/-- Since the events `es`, only values of the data packets among `ps` have been written, in their order. -/
def WritesOf (E : Peer σ) (es : List Event) (ps : List Packet) (s : σ) : Prop :=
  ∃ ws, ws.Sublist (values ps) ∧ written (E.events s) = written es ++ ws

theorem traces_writesOf (E : Peer σ) (es : List Event) : E.Traces (E.WritesOf es) where
  handlePacket ps s p hs := by
    obtain ⟨ws, hsub, hws⟩ := hs
    obtain ⟨hevents, hcases⟩ := E.newEvents_spec s p
    refine ⟨ws ++ written (E.newEvents s p), ?_, ?_⟩
    · rw [values_append]
      refine hsub.append ?_
      rcases hcases with ⟨hkey, -, hnew⟩ | hq
      · have hone : values [p] = [p.valBytes] := by
          rw [Station.values_cons, if_pos hkey]
          rfl
        rw [hnew, hone]
        cases E.uartDev s with
        | none => exact List.nil_sublist _
        | some dev => exact List.Sublist.refl _
      · rw [hq.written_eq]
        exact List.nil_sublist _
    · rw [hevents, written_append, hws, List.append_assoc]
  forward ps s rxBytes hs := by
    obtain ⟨ws, hsub, hws⟩ := hs
    refine ⟨ws, hsub, ?_⟩
    unfold forward
    split
    · rw [(E.emit_fields s _).2.2.2, written_append]
      exact (List.append_nil _).trans hws
    · exact hws

end Peer

/-! ### The server -/

namespace Session

/-- The device has the path and the baud rate of packets among `ps`. -/
def AskedFor (ps : List Packet) (dev : Serial) : Prop :=
  (∃ p ∈ ps, p.command = .path dev.portstr) ∧ ∃ p ∈ ps, p.command = .baud (some dev.baudrate)

/-- The settings, as far as they are set, and the devices that were opened come from packets among `ps`. -/
structure Sourced (ps : List Packet) (s : Session) : Prop where
  path : s.uartPath = "" ∨ ∃ p ∈ ps, p.command = .path s.uartPath
  baud : s.uartBaud = 0 ∨ ∃ p ∈ ps, p.command = .baud (some s.uartBaud)
  opened : ∀ dev, .opened dev ∈ s.events → AskedFor ps dev

section Sourced

variable {ps qs : List Packet} {env : Env} {s t : Session} {p : Packet} {dev : Serial}

theorem AskedFor.mono (h : AskedFor ps dev) (hsub : ps ⊆ qs) : AskedFor qs dev := by
  obtain ⟨⟨p, hp, hpath⟩, q, hq, hbaud⟩ := h
  exact ⟨⟨p, hsub hp, hpath⟩, q, hsub hq, hbaud⟩

/-- Whether all devices that were opened were asked for is a matter of the events. -/
theorem eventInvariant_askedFor (ps : List Packet) :
    EventInvariant fun s => ∀ dev, .opened dev ∈ s.events → AskedFor ps dev where
  congr s t _ hevents _ hs := by
    rw [← hevents]
    exact hs
  emit s e he hs dev hmem := by
    rcases List.mem_append.1 hmem with hmem | hmem
    · exact hs dev hmem
    · rw [← List.mem_singleton.1 hmem] at he
      cases he
  closed s d _ hs dev hmem := by
    rcases List.mem_append.1 hmem with hmem | hmem
    · exact hs dev hmem
    · cases List.mem_singleton.1 hmem

/-- The settings after a packet are those before it, or its own. -/
theorem Sourced.settings (hs : Sourced ps s) (env : Env) (p : Packet) :
    ((s.exec env p.command).state.uartPath = "" ∨
        ∃ q ∈ ps ++ [p], q.command = .path (s.exec env p.command).state.uartPath) ∧
      ((s.exec env p.command).state.uartBaud = 0 ∨
        ∃ q ∈ ps ++ [p], q.command = .baud (some (s.exec env p.command).state.uartBaud)) := by
  have hp : p ∈ ps ++ [p] := List.mem_append_right _ (List.mem_singleton_self p)
  have hpath : s.uartPath = "" ∨ ∃ q ∈ ps ++ [p], q.command = .path s.uartPath :=
    hs.path.imp_right fun ⟨q, hq, hc⟩ => ⟨q, List.mem_append_left _ hq, hc⟩
  have hbaud : s.uartBaud = 0 ∨ ∃ q ∈ ps ++ [p], q.command = .baud (some s.uartBaud) :=
    hs.baud.imp_right fun ⟨q, hq, hc⟩ => ⟨q, List.mem_append_left _ hq, hc⟩
  obtain ⟨h1, h2⟩ := exec_settings env s p.command
  cases hc : p.command with
  | path path =>
    rw [hc] at h1 h2
    rw [h1, h2]
    exact ⟨.inr ⟨p, hp, hc⟩, hbaud⟩
  | baud baud =>
    rw [hc] at h1 h2
    cases baud with
    | some baud =>
      rw [h1, h2]
      exact ⟨hpath, .inr ⟨p, hp, hc⟩⟩
    | none =>
      rw [h1, h2]
      exact ⟨hpath, hbaud⟩
  | _ =>
    rw [hc] at h1 h2
    rw [h1, h2]
    exact ⟨hpath, hbaud⟩

/-- The session on which `uart_open` is called has the settings of the session afterwards. -/
theorem settings_of_opening (env : Env) {c : Command} (h : s.opening c = some t) :
    (s.exec env c).state.uartPath = t.uartPath ∧ (s.exec env c).state.uartBaud = t.uartBaud := by
  rw [exec_of_opening h]
  exact ⟨(handleStart_fields env t).1, (handleStart_fields env t).2.1⟩

theorem Sourced.handlePacket (hs : Sourced ps s) (env : Env) (p : Packet) :
    Sourced (ps ++ [p]) (s.handlePacket env p).state := by
  have hset := hs.settings env p
  have hinv := eventInvariant_askedFor (ps ++ [p])
  rw [handlePacket_eq_exec]
  refine ⟨hset.1, hset.2, hinv.exec (fun t ht hopened => ?_) fun dev hmem =>
    (hs.opened dev hmem).mono (List.subset_append_left _ _)⟩
  rcases uartOpen_cases_eq env t with ⟨-, heq⟩ | ⟨-, -, heq⟩ | ⟨hc, -, heq⟩
  · rw [heq]
    exact hinv.error hopened _
  · rw [heq]
    exact hopened
  · rw [heq]
    have hclose := hinv.uartClose env hopened
    cases ho : env.openError with
    | some text =>
      rw [construct_of_raises _ ho]
      exact hinv.error (hinv.emit _ _ rfl hclose) _
    | none =>
      -- the settings are complete, so they were set
      rw [construct_of_opens _ ho]
      intro dev hmem
      rcases List.mem_append.1 hmem with hmem | hmem
      · exact hclose dev hmem
      · obtain ⟨hp, hb⟩ := settings_of_opening env ht
        rw [hp, hb] at hset
        obtain ⟨hfp, hfb, -⟩ := uartClose_fields env t
        rw [Event.opened.inj (List.mem_singleton.1 hmem)]
        refine ⟨?_, ?_⟩
        · show ∃ q ∈ ps ++ [p], q.command = .path (t.uartClose env).1.uartPath
          rw [hfp]
          refine hset.1.resolve_left fun hempty => ?_
          have := hc.2
          rw [hempty] at this
          exact absurd this (by decide)
        · show ∃ q ∈ ps ++ [p], q.command = .baud (some (t.uartClose env).1.uartBaud)
          rw [hfb]
          refine hset.2.resolve_left fun hzero => ?_
          have := hc.1
          omega

end Sourced

end Session

namespace Handling

theorem traces_sourced (env : Nat → Env) : (peer env).Traces fun ps h => h.session.Sourced ps where
  handlePacket ps h p hs := by
    show (h.handlePacket env p).state.session.Sourced (ps ++ [p])
    rw [handlePacket_state]
    exact hs.handlePacket _ p
  forward ps h rxBytes hs := by
    unfold Peer.forward
    split
    · refine ⟨hs.path, hs.baud, fun dev hmem => ?_⟩
      rcases List.mem_append.1 hmem with hmem | hmem
      · exact hs.opened dev hmem
      · cases List.mem_singleton.1 hmem
    · exact hs

end Handling

namespace HandleRun

/-- The stream that `n` turns receive, each result of `recv` after `strip()`. -/
def stream (run : HandleRun) (n : Nat) : Bytes := (((List.range n).map run.turns).map Turn.arrived).flatten

/-- The turns of the server are those of its end. -/
theorem after_eq (run : HandleRun) (n : Nat) :
    run.after n = (Handling.peer run.env).after (⟨{ dataEncode := run.dataEncode }, []⟩, [])
      ((List.range n).map run.turns) := by
  induction n with
  | zero => rfl
  | succ n ih =>
    rw [List.range_succ, List.map_append, Peer.after_append, ← ih, after]
    cases run.after n with
    | raised st => rfl
    | ok st =>
      show Handling.turn run.env st (run.turns n) = (Handling.peer run.env).after st [run.turns n]
      rw [Handling.turn_eq, Peer.after]
      cases (Handling.peer run.env).turn st (run.turns n) <;> rfl

/-- Whatever a server session receives, in whatever pieces: the packets that it handles are read from intact frames at
positions of the stripped stream that do not decrease, what it writes are values of data packets among them in this
order, and the devices that it opens are those that they name. -/
theorem handles_in_order (run : HandleRun) (n : Nat) :
    ∃ ps m, InOrder run.dataEncode (run.stream n) 0 ps m ∧
      (written (run.after n).state.1.session.events).Sublist (values ps) ∧
      ∀ dev, .opened dev ∈ (run.after n).state.1.session.events → Session.AskedFor ps dev := by
  let E := Handling.peer run.env
  have hstart : E.WritesOf [] [] ⟨{ dataEncode := run.dataEncode }, []⟩ ∧
      Session.Sourced [] { dataEncode := run.dataEncode } :=
    ⟨⟨[], List.Sublist.refl [], rfl⟩, .inl rfl, .inl rfl, fun dev hmem => (by cases hmem)⟩
  obtain ⟨ps, m, horder, ⟨ws, hsub, hws⟩, hsourced⟩ :=
    Peer.after_in_order ((E.traces_writesOf []).and (Handling.traces_sourced run.env)) (behind_self []) hstart
      ((List.range n).map run.turns)
  rw [List.nil_append] at hsub hsourced
  rw [after_eq]
  refine ⟨ps, m, horder, ?_, hsourced.opened⟩
  exact hws ▸ hsub

end HandleRun

end WirelessUart
