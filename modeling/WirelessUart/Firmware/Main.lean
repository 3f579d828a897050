import WirelessUart.Firmware.Lifetime
import WirelessUart.Firmware.Text

/-!
# The main program of the firmware

`app_main` prints the text of a packet to its log before it has filled the packet, after it has filled it with a key,
and after it has filled it with a key and a value.  Here the calls of `wuart_packet.c` and the texts come in any order
and number.  On a packet that begins with zeros such a run can only fail for want of memory for a text, and it leaves
no memory behind (`runLogged_zero`).

The comment in `packet_to_string` promises the length of the value.  No run ever shows it: `val_size` is always 0.
-/

namespace WirelessUart.Firmware.PacketT

open ByteLib

/-! ### The program -/

/-- A text is printed, logged, and freed. -/
def logText (al : Allocator UInt8) (self : PacketT) (mem : Memory) : Option (Bytes × Memory) := do
  let (str, mem) ← toText al (some self) mem
  let text ← cString str mem
  let mem ← mem.free str
  return (text, mem)

inductive Op
  | call (c : Call)
  | log
deriving DecidableEq

/-- Calls and logged texts one after the other: the texts, and the packet and the memory afterwards. -/
def runLogged (al : Allocator UInt8) : PacketT × Memory → List Op → Option (List Bytes × PacketT × Memory)
  | st, [] => some ([], st)
  | st, .call c :: ops => (c.exec al st.1 st.2).bind fun st => runLogged al st ops
  | st, .log :: ops =>
    (logText al st.1 st.2).bind fun r => (runLogged al (st.1, r.2) ops).map fun q => (r.1 :: q.1, q.2)

/-- What `app_main` does with its packet `pack`, which it has not initialised; the literals are at `key1`, `key2` and
`val`. -/
def appMain (al : Allocator UInt8) (pack : PacketT) (key1 key2 val : Nat) (mem : Memory) :
    Option (List Bytes × PacketT × Memory) :=
  runLogged al (pack, mem)
    [.log, .call (.init (some key1) none 0), .log, .call (.init (some key2) (some val) 3), .log]

/-- The request of one of the texts is refused: the run up to this text has a result, and there is no memory then. -/
def TextRefused (al : Allocator UInt8) (st : PacketT × Memory) (ops : List Op) : Prop :=
  ∃ before after texts self mem, ops = before ++ .log :: after ∧
    runLogged al st before = some (texts, self, mem) ∧ al.grants mem.requests = false

/-! ### What is logged -/

/-- The text of a packet without a value; up to 26 characters of the key are printed when the packet is valid. -/
def Shows (text : Bytes) : Prop :=
  text = encode "Packet(ready=0)" ∨ text = encode "Packet(ready=1)" ∨
    ∃ key : Bytes, key ≠ [] ∧ text = encode "Packet(ready=1,key=" ++ key.take 26 ++ encode ",val=0)"

section Log

variable {al : Allocator UInt8} {base mem : Memory} {self : PacketT} {key s : Bytes} {valid : Bool}

theorem truncated_key (key : Bytes) : truncated 32 (encode ",key=" ++ key) = encode ",key=" ++ key.take 26 := by
  have hfive : (encode ",key=").length = 5 := by decide +kernel
  rw [truncated, List.take_append, hfive, List.take_of_length_le (by rw [hfive]; decide)]

/-- A valid packet of size 0. -/
theorem fieldsText_valid (hready : self.ready = true) (hsize : self.valSize = 0) (key : Bytes) :
    self.fieldsText true key = encode "ready=1,key=" ++ key.take 26 ++ encode ",val=0" := by
  have hval : truncated 16 (encode ",val=" ++ decimalText (asInt 0)) = encode ",val=0" := by decide +kernel
  have hone : encode "ready=" ++ decimalText (if true then 1 else 0) ++ encode ",key=" = encode "ready=1,key=" := by
    decide +kernel
  rw [fieldsText, if_pos rfl, hready, hsize, hval, truncated_key, ← hone]
  simp only [List.append_assoc]

theorem fieldsText_invalid : ∀ ready : Bool, encode "Packet(" ++
    (encode "ready=" ++ decimalText (if ready then 1 else 0)) ++ [0x29] =
      if ready then encode "Packet(ready=1)" else encode "Packet(ready=0)" := by
  decide +kernel

theorem textOf_of_printedKey (hvalid : self.isValid mem = some valid) (hkey : self.printedKey valid mem = some key) :
    textOf (some self) mem = some (encode "Packet(" ++ self.fieldsText valid key ++ [0x29]) := by
  unfold textOf
  simp only [hvalid, hkey, Option.bind_eq_bind, Option.bind_some]
  rfl

/-- A packet in its life always has a text, which shows no value. -/
theorem Lives.textOf (h : Lives base self mem) : ∃ s, textOf (some self) mem = some s ∧ Shows s := by
  obtain ⟨valid, hvalid⟩ := h.isValid
  cases valid with
  | false =>
    refine ⟨_, textOf_of_printedKey hvalid rfl, ?_⟩
    have htext : self.fieldsText false [] = encode "ready=" ++ decimalText (if self.ready then 1 else 0) :=
      List.append_nil _
    rw [htext, fieldsText_invalid]
    cases self.ready with
    | false => exact .inl rfl
    | true => exact .inr (.inl rfl)
  | true =>
    have hready := ready_of_isValid hvalid
    have hkey : ∃ p, self.keyStr = some p := by
      rw [PacketT.isValid, if_pos hready] at hvalid
      cases hk : self.keyStr with
      | none =>
        rw [hk] at hvalid
        cases hvalid
      | some p => exact ⟨p, rfl⟩
    obtain ⟨p, hp⟩ := hkey
    obtain ⟨key, hstr, hne⟩ := h.key p hp
    have hprinted : self.printedKey true mem = some key := by
      rw [printedKey, if_pos rfl, hp]
      exact hstr
    refine ⟨_, textOf_of_printedKey hvalid hprinted, .inr (.inr ⟨key, hne, ?_⟩)⟩
    have hleft : encode "Packet(" ++ encode "ready=1,key=" = encode "Packet(ready=1,key=" := by decide +kernel
    have hright : encode ",val=0" ++ [0x29] = encode ",val=0)" := by decide +kernel
    rw [fieldsText_valid hready h.valSize, ← hleft, ← hright]
    simp only [List.append_assoc]

/-- Logging leaves the packet and the memory as they are, unless the memory for the text is refused. -/
theorem Lives.logText (al : Allocator UInt8) (h : Lives base self mem) :
    (∃ text mem', logText al self mem = some (text, mem') ∧ Shows text ∧ Lives base self mem') ∨
      (logText al self mem = none ∧ al.grants mem.requests = false) := by
  obtain ⟨s, hs, hshows⟩ := h.textOf
  cases hal : al.grants mem.requests with
  | false =>
    right
    unfold PacketT.logText
    rw [toText_of_refuses _ hal]
    exact ⟨rfl, rfl⟩
  | true =>
    left
    obtain ⟨mem₁, htext, hstr, hnew⟩ := toText_of_grants hs hal
    obtain ⟨mem₂, hfree, hback, -⟩ := hnew.free rfl
    have hblocks : mem₂.blocks = mem.blocks := (hback.congr fun q => by simp).blocks_eq
    refine ⟨s, mem₂, ?_, hshows, h.of_blocks (h.beside.of_blocks_eq hback.requests_le hblocks) fun q _ => ?_⟩
    · unfold PacketT.logText
      simp only [htext, hstr, hfree, Option.bind_eq_bind, Option.bind_some]
      rfl
    · rw [hblocks]

theorem runLogged_call {st st' : PacketT × Memory} {c : Call} (h : c.exec al st.1 st.2 = some st') (ops : List Op) :
    runLogged al st (.call c :: ops) = runLogged al st' ops := by
  rw [PacketT.runLogged, h, Option.bind_some]

theorem runLogged_log {mem' : Memory} {text : Bytes} (h : logText al self mem = some (text, mem')) (ops : List Op) :
    runLogged al (self, mem) (.log :: ops) = (runLogged al (self, mem') ops).map fun q => (text :: q.1, q.2) := by
  rw [PacketT.runLogged, h, Option.bind_some]

theorem TextRefused.call {st st' : PacketT × Memory} {c : Call} {ops : List Op} (h : TextRefused al st' ops)
    (hexec : c.exec al st.1 st.2 = some st') : TextRefused al st (.call c :: ops) := by
  obtain ⟨before, after, texts, self, mem, rfl, hrun, hrefused⟩ := h
  exact ⟨.call c :: before, after, texts, self, mem, rfl, (runLogged_call hexec before).trans hrun, hrefused⟩

theorem TextRefused.log {mem' : Memory} {text : Bytes} {ops : List Op} (h : TextRefused al (self, mem') ops)
    (hlog : logText al self mem = some (text, mem')) : TextRefused al (self, mem) (.log :: ops) := by
  obtain ⟨before, after, texts, self', mem'', rfl, hrun, hrefused⟩ := h
  refine ⟨.log :: before, after, text :: texts, self', mem'', rfl, ?_, hrefused⟩
  rw [runLogged_log hlog, hrun]
  rfl

/-- A run of calls and logged texts. -/
theorem Lives.runLogged (al : Allocator UInt8) (h : Lives base self mem) {ops : List Op}
    (hops : ∀ c, .call c ∈ ops → c.Passes base) :
    (∃ texts self' mem', runLogged al (self, mem) ops = some (texts, self', mem') ∧
        texts.length = ops.count .log ∧ (∀ text ∈ texts, Shows text) ∧ Lives base self' mem') ∨
      (runLogged al (self, mem) ops = none ∧ TextRefused al (self, mem) ops) := by
  induction ops generalizing self mem with
  | nil => exact .inl ⟨[], self, mem, rfl, rfl, by simp, h⟩
  | cons op ops ih =>
    have hrest : ∀ c, .call c ∈ ops → c.Passes base := fun c hc => hops c (List.mem_cons_of_mem _ hc)
    cases op with
    | call c =>
      obtain ⟨self₁, mem₁, hexec, h₁⟩ := h.exec al (hops c List.mem_cons_self)
      have hcount : (Op.call c :: ops).count .log = ops.count .log := List.count_cons_of_ne (by simp)
      rw [runLogged_call hexec, hcount]
      rcases ih h₁ hrest with hrun | ⟨hnone, hrefused⟩
      · exact .inl hrun
      · exact .inr ⟨hnone, hrefused.call hexec⟩
    | log =>
      rcases h.logText al with ⟨text, mem₁, hlog, hshows, h₁⟩ | ⟨hlog, hrefused⟩
      · rw [runLogged_log hlog, List.count_cons_self]
        rcases ih h₁ hrest with ⟨texts, self₂, mem₂, hrun, hlen, hall, h₂⟩ | ⟨hnone, hn⟩
        · refine .inl ⟨text :: texts, self₂, mem₂, by rw [hrun]; rfl, by rw [List.length_cons, hlen], ?_, h₂⟩
          exact List.forall_mem_cons.2 ⟨hshows, hall⟩
        · exact .inr ⟨by rw [hnone]; rfl, hn.log hlog⟩
      · refine .inr ⟨?_, [], ops, [], self, mem, rfl, rfl, hrefused⟩
        rw [PacketT.runLogged, hlog]
        rfl

/-- Any calls and logged texts on a packet of zeros: the run is undefined only when the memory for a text is refused;
else every text shows a packet without a value, and a last `packet_release` leaves no block behind. -/
theorem runLogged_zero (al : Allocator UInt8) (base : Memory) (ops : List Op)
    (hops : ∀ c, .call c ∈ ops → c.Passes base) :
    (∃ texts self mem, runLogged al ({}, base) ops = some (texts, self, mem) ∧ texts.length = ops.count .log ∧
        (∀ text ∈ texts, Shows text) ∧ ∃ mem', self.release mem = some ({}, mem') ∧ mem'.blocks = base.blocks) ∨
      (runLogged al ({}, base) ops = none ∧ TextRefused al ({}, base) ops) := by
  rcases (lives_zero base).runLogged al hops with ⟨texts, self, mem, hrun, hlen, hall, h⟩ | hnone
  · obtain ⟨mem', hrelease, hblocks, -⟩ := h.release
    exact .inl ⟨texts, self, mem, hrun, hlen, hall, mem', hrelease, hblocks⟩
  · exact .inr hnone

end Log

/-- The literals of `app_main`. -/
def literals : Memory :=
  ((Heap.empty.request (some (encode "key1" ++ [0]))).request (some (encode "key2" ++ [0]))).request
    (some (encode "123" ++ [0]))

/-- `app_main` on a packet that happens to hold zeros: the three bytes of the value are not shown. -/
theorem runLogged_zero_main :
    ∃ self mem, appMain ⟨fun _ => true, fun _ _ => 0xff⟩ {} 0 1 2 literals =
        some ([encode "Packet(ready=0)", encode "Packet(ready=1,key=key1,val=0)",
          encode "Packet(ready=1,key=key2,val=0)"], self, mem) ∧
      ∃ mem', self.release mem = some ({}, mem') ∧ mem'.blocks = literals.blocks := by
  have hops : ∀ c, Op.call c ∈ ([.log, .call (.init (some 0) none 0), .log, .call (.init (some 1) (some 2) 3), .log] :
      List Op) → c.Passes literals := by
    intro c hc
    simp only [List.mem_cons, Op.call.injEq, reduceCtorEq, List.not_mem_nil, or_false, false_or] at hc
    rcases hc with rfl | rfl
    · exact ⟨fun p hp => by cases hp; decide +kernel, fun p hp => by cases hp⟩
    · exact ⟨fun p hp => by cases hp; decide +kernel, fun p hp _ => by cases hp; decide +kernel⟩
  have htexts : (appMain ⟨fun _ => true, fun _ _ => 0xff⟩ {} 0 1 2 literals).map Prod.fst =
      some [encode "Packet(ready=0)", encode "Packet(ready=1,key=key1,val=0)",
        encode "Packet(ready=1,key=key2,val=0)"] := by
    decide +kernel
  rcases runLogged_zero ⟨fun _ => true, fun _ _ => 0xff⟩ literals _ hops with
    ⟨texts, self, mem, hrun, -, -, hrelease⟩ | ⟨-, _, _, _, _, _, -, -, hrefused⟩
  · have hmain : appMain ⟨fun _ => true, fun _ _ => 0xff⟩ {} 0 1 2 literals = some (texts, self, mem) := hrun
    rw [hmain] at htexts
    refine ⟨self, mem, ?_, hrelease⟩
    rw [hmain, ← Option.some.inj htexts]
  · cases hrefused

/-- Whatever else was on the stack may end `app_main` at its first text. -/
example : (appMain ⟨fun _ => true, fun _ _ => 0xff⟩ ⟨true, some 9, none, 0, 1⟩ 0 1 2 literals).isNone := by
  decide +kernel

end WirelessUart.Firmware.PacketT
