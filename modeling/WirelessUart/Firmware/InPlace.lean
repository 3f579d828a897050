import WirelessUart.Firmware.Capacity
import WirelessUart.Firmware.Update
import WirelessUart.PacketAgreement

/-!
# Encoding and decoding in place

`packet_do_encode` and `packet_do_decode` write to an output buffer, give the packet what was written as its value, and
free the buffer: once in the branch that succeeds, and once more behind it.  So neither of them ever returns true for a
packet with a value (`doEncode_ne_true`, `doDecode_ne_true`), and `packet_do_encode` does what it should only when it
fails (`doEncode_iff`): there is no buffer, or too little room in it.  The size of the buffer is a `size_t` of 32 bits,
so even four times the size of a long value may be too little.
-/

namespace WirelessUart.Firmware.PacketT

open ByteLib

/-! ### The functions -/

/-- A call of `bytes_encode` or `bytes_decode` with a block as the output; `none` when a store misses the output. -/
def callCodec (codec : Bytes → Buffer UInt8 → Option Result) (input : Option Nat) (ilen output olen : Nat)
    (mem : Memory) : Option (Nat × Memory) :=
  match input with
  | none => some (0, mem)
  | some input => do
    let bytes ← mem.read input ilen
    let cells ← mem.read output olen
    let res ← codec bytes ⟨cells, false⟩
    if res.2.overrun then
      none
    else
      let mem ← mem.write output 0 res.2.cells
      return (res.1, mem)

/-- The end of `packet_do_encode` and `packet_do_decode`, where `done` is the test on `rlen`. -/
def takeOutput (al : Allocator UInt8) (self : PacketT) (done : Bool) (output rlen : Nat) (mem : Memory) :
    Option (Bool × PacketT × Memory) := do
  let (ret, self, mem) ←
    if done then do
      let (_, self, mem) ← self.setKeyValue al self.keyStr (some output) rlen mem
      let mem ← mem.free output
      pure (true, self, mem)
    else pure (false, self, mem)
  let mem ← mem.free output
  return (ret, self, mem)

/-- The buffer of `packet_do_encode`, of `ilen*4` bytes or else of `ilen*2`, as a `size_t` of 32 bits. -/
def mallocOutput (al : Allocator UInt8) (ilen : Nat) (mem : Memory) : Option Nat × Nat × Memory :=
  match mem.malloc al (ilen * 4 % 2 ^ 32) with
  | (some output, mem) => (some output, ilen * 4 % 2 ^ 32, mem)
  | (none, mem) =>
    let (output, mem) := mem.malloc al (ilen * 2 % 2 ^ 32)
    (output, ilen * 2 % 2 ^ 32, mem)

/-- `packet_do_encode` -/
def doEncode (al : Allocator UInt8) (self : PacketT) (mem : Memory) : Option (Bool × PacketT × Memory) := do
  if ¬ (← self.isValid mem) then
    return (false, self, mem)
  if self.valSize = 0 then
    return (true, self, mem)
  let ilen := self.valSize
  match mallocOutput al ilen mem with
  | (none, _, mem) => return (false, self, mem)
  | (some output, olen, mem) =>
    let (rlen, mem) ← callCodec (fun bytes out => some (bytesEncode bytes out)) self.valBytes ilen output olen mem
    self.takeOutput al (rlen ≥ ilen) output rlen mem

/-- `packet_do_decode` -/
def doDecode (al : Allocator UInt8) (self : PacketT) (mem : Memory) : Option (Bool × PacketT × Memory) := do
  if ¬ (← self.isValid mem) then
    return (false, self, mem)
  if self.valSize = 0 then
    return (true, self, mem)
  let ilen := self.valSize
  match mem.malloc al ilen with
  | (none, mem) => return (false, self, mem)
  | (some output, mem) =>
    let (rlen, mem) ← callCodec bytesDecode self.valBytes ilen output ilen mem
    self.takeOutput al (rlen > 0) output rlen mem

/-! ### The output is freed twice -/

section Twice

variable {al : Allocator UInt8} {self self' : PacketT} {mem mem' : Memory} {output rlen : Nat}

theorem takeOutput_true (al : Allocator UInt8) (self : PacketT) (output rlen : Nat) (mem : Memory) :
    self.takeOutput al true output rlen mem = none := by
  unfold takeOutput
  simp only [if_true, Option.bind_eq_bind]
  cases self.setKeyValue al self.keyStr (some output) rlen mem with
  | none => rfl
  | some res =>
    have htwice := Heap.free_free output res.2.2
    cases hfree : res.2.2.free output with
    | none => simp [hfree]
    | some mem' =>
      rw [hfree, Option.bind_some] at htwice
      simp [hfree, htwice]

/-- Nothing is freed before the end of a call that fails. -/
theorem takeOutput_false (al : Allocator UInt8) (self : PacketT) (rlen : Nat) {cells : Bytes}
    (h : mem.blocks output = some cells) :
    ∃ mem', self.takeOutput al false output rlen mem = some (false, self, mem') ∧ mem.Changes output mem' := by
  obtain ⟨mem', hfree, hc, -⟩ := Heap.free_spec h
  refine ⟨mem', ?_, hc⟩
  unfold takeOutput
  simp [hfree]

theorem takeOutput_ne_true (done : Bool) : self.takeOutput al done output rlen mem ≠ some (true, self', mem') := by
  cases done with
  | true =>
    rw [takeOutput_true]
    exact (Option.some_ne_none _).symm
  | false =>
    unfold takeOutput
    cases hfree : mem.free output <;> simp [hfree]

/-- Behind the two tests at the beginning of both functions. -/
theorem guarded_ne_true {body : Option (Bool × PacketT × Memory)} (hsize : self.valSize ≠ 0)
    (hbody : body ≠ some (true, self', mem')) :
    ((self.isValid mem).bind fun valid =>
      if ¬ valid = true then some (false, self, mem)
      else if self.valSize = 0 then some (true, self, mem)
      else body) ≠ some (true, self', mem') := by
  intro h
  obtain ⟨valid, -, h⟩ := Option.bind_eq_some_iff.1 h
  cases valid with
  | false => cases h
  | true =>
    simp only [not_true_eq_false, if_false, if_neg hsize] at h
    exact hbody h

/-- `packet_do_encode` never returns true for a packet with a value. -/
theorem doEncode_ne_true (hsize : self.valSize ≠ 0) : self.doEncode al mem ≠ some (true, self', mem') := by
  refine guarded_ne_true hsize fun h => ?_
  dsimp only at h
  rcases hout : mallocOutput al self.valSize mem with ⟨_ | output, olen, mem₁⟩ <;> rw [hout] at h
  · cases h
  · obtain ⟨⟨rlen, mem₂⟩, -, h⟩ := Option.bind_eq_some_iff.1 h
    exact takeOutput_ne_true _ h

/-- `packet_do_decode` never returns true for a packet with a value. -/
theorem doDecode_ne_true (hsize : self.valSize ≠ 0) : self.doDecode al mem ≠ some (true, self', mem') := by
  refine guarded_ne_true hsize fun h => ?_
  dsimp only at h
  rcases hout : mem.malloc al self.valSize with ⟨_ | output, mem₁⟩ <;> rw [hout] at h
  · cases h
  · obtain ⟨⟨rlen, mem₂⟩, -, h⟩ := Option.bind_eq_some_iff.1 h
    exact takeOutput_ne_true _ h

end Twice

/-! ### Packets with a value -/

/-- The packet is ready, its value is the whole block, and its checksum is that of its data and not 0. -/
structure Consistent (packet : PacketT) (mem : Memory) (key val : Bytes) : Prop where
  ready : packet.ready = true
  holds : packet.Holds mem key val
  whole : packet.valBlock mem = some val
  key_ne : key ≠ []
  checksum : packet.checksum = calcXorChecksum (dataOf key val)
  checksum_ne : packet.checksum ≠ 0

/-- The address of the output buffer of `packet_do_encode`. -/
def outputOf (al : Allocator UInt8) (mem : Memory) : Nat :=
  if al.grants mem.requests then mem.requests else mem.requests + 1

/-- What `packet_do_encode` is to do.  When it returns true, the packet has the encoded value and its checksum, the
buffer has been freed, and `packet_do_decode` with memory at hand gives the old value back.  When it returns false, the
packet is what it was.  A block that is freed twice leaves no result at all. -/
def EncodesInPlace (al : Allocator UInt8) (self : PacketT) (mem : Memory) (key val : Bytes) : Prop :=
  ∃ ret self' mem', self.doEncode al mem = some (ret, self', mem') ∧
    (ret = true → self'.Holds mem' key (WirelessUart.bytesEncode val) ∧
      self'.valBlock mem' = some (WirelessUart.bytesEncode val) ∧
      self'.checksum = calcXorChecksum (dataOf key (WirelessUart.bytesEncode val)) ∧
      mem'.blocks (outputOf al mem) = none ∧
      ((∀ n, al.grants n = true) → ∃ self'' mem'', self'.doDecode al mem' = some (true, self'', mem'') ∧
        self''.Holds mem'' key val ∧ self''.valBlock mem'' = some val ∧ self''.checksum = self.checksum)) ∧
    (ret = false → self.Unchanged mem self' mem')

/-- `bytes_encode` runs out of `olen` bytes, and `sprintf` has not stored its NUL behind them before that. -/
def RunsOut (val : Bytes) (olen : Nat) : Prop :=
  olen < (WirelessUart.bytesEncode val).length ∧ ¬ ∃ pre r post, val = pre ++ r :: post ∧
    isWord r = false ∧ (WirelessUart.bytesEncode pre).length + 4 = olen

section Encode

variable {al : Allocator UInt8} {self : PacketT} {mem mem' : Memory} {key val : Bytes} {output olen : Nat}

theorem runsOut_iff {cells : Bytes} :
    RunsOut val cells.length ↔ (bytesEncode val ⟨cells, false⟩).2.overrun = false ∧
      cells.length < (WirelessUart.bytesEncode val).length := by
  rw [RunsOut, ← overrun_bytesEncode_iff, Bool.not_eq_true, and_comm]

theorem Consistent.isValid (h : self.Consistent mem key val) : self.isValid mem = some true := by
  obtain ⟨p, hp, hstr⟩ := h.holds.key
  simp [PacketT.isValid, h.ready, hp, hstr, h.checksum_ne, List.length_pos_iff, h.key_ne]

/-- What is behind the requests of a call that fails does not matter. -/
theorem Consistent.unchanged (h : self.Consistent mem key val) (hext : mem.Extends mem') :
    self.Unchanged mem self mem' := by
  obtain ⟨p, hp, hstr⟩ := h.holds.key
  obtain ⟨q, hq, hblock⟩ := Option.bind_eq_some_iff.1 h.whole
  refine ⟨rfl, keyText_congr rfl fun p' hp' => ?_, valBlock_congr rfl fun q' hq' => ?_, rfl, rfl⟩
  · obtain rfl : p = p' := Option.some.inj (hp.symm.trans hp')
    exact hext.blocks_eq p (lt_requests_of_cString hstr)
  · obtain rfl : q = q' := Option.some.inj (hq.symm.trans hq')
    exact hext.blocks_eq q (Heap.lt_requests hblock)

/-- `bytes_encode` on the value of a packet: a store outside of the output is undefined, and else nothing but the output
is written. -/
theorem callCodec_encode (h : self.Consistent mem key val) (hext : mem.Extends mem') {cells : Bytes}
    (hout : mem'.blocks output = some cells) :
    ((bytesEncode val ⟨cells, false⟩).2.overrun = true ∧
      callCodec (fun bytes out => some (bytesEncode bytes out)) self.valBytes self.valSize output cells.length mem' =
        none) ∨
    (bytesEncode val ⟨cells, false⟩).2.overrun = false ∧
      ∃ mem'' cells', callCodec (fun bytes out => some (bytesEncode bytes out)) self.valBytes self.valSize output
          cells.length mem' = some ((bytesEncode val ⟨cells, false⟩).1, mem'') ∧
        mem'.Changes output mem'' ∧ mem''.blocks output = some cells' := by
  obtain ⟨q, hq, hblock⟩ := Option.bind_eq_some_iff.1 h.whole
  have hread : mem'.read q self.valSize = some val := by
    rw [h.holds.valSize]
    exact Heap.read_eq_some.2 ⟨val, hext.blocks hblock, Nat.le_refl _, List.take_length⟩
  have hcells : mem'.read output cells.length = some cells :=
    Heap.read_eq_some.2 ⟨cells, hout, Nat.le_refl _, List.take_length⟩
  unfold callCodec
  simp only [hq, hread, hcells, Option.bind_eq_bind, Option.bind_some]
  cases hover : (bytesEncode val ⟨cells, false⟩).2.overrun with
  | true => exact .inl ⟨rfl, rfl⟩
  | false =>
    have hsize : (bytesEncode val ⟨cells, false⟩).2.cells.length = cells.length := size_encodeLoop val _
    obtain ⟨mem'', hwrite, hc, hblock'⟩ := Heap.write_all hout _ hsize
    refine .inr ⟨rfl, mem'', _, ?_, hc, hblock'⟩
    rw [hwrite]
    rfl

/-- With a buffer, `packet_do_encode` fails, or its behaviour is undefined. -/
theorem doEncode_with_output (h : self.Consistent mem key val) (hval : val ≠ []) {cells : Bytes}
    (hout : mallocOutput al self.valSize mem = (some output, cells.length, mem')) (hext : mem.Extends mem')
    (hlt : mem.requests ≤ output) (hblock : mem'.blocks output = some cells) :
    (RunsOut val cells.length ∧ ∃ mem'', self.doEncode al mem = some (false, self, mem'') ∧ mem.Extends mem'') ∨
    ¬ RunsOut val cells.length ∧ self.doEncode al mem = none := by
  rw [runsOut_iff]
  have hsize : ¬ self.valSize = 0 := by
    rw [h.holds.valSize]
    exact mt List.length_eq_zero_iff.1 hval
  unfold doEncode
  simp only [h.isValid, Option.bind_eq_bind, Option.bind_some, not_true_eq_false, if_false, if_neg hsize, hout]
  rcases callCodec_encode h hext hblock with ⟨hover, hcall⟩ | ⟨hover, mem₁, cells', hcall, hc, hblock₁⟩
  · refine .inr ⟨fun hand => ?_, ?_⟩
    · rw [hover] at hand
      cases hand.1
    · rw [hcall]
      rfl
  · rw [hcall, Option.bind_some]
    have hcount := encodeLoop_spec val (.start ⟨cells, false⟩)
    by_cases hfits : (WirelessUart.bytesEncode val).length ≤ cells.length
    · -- the output is taken, and freed twice
      have hrlen : (bytesEncode val ⟨cells, false⟩).1 ≥ self.valSize := by
        have hle := length_le_length_bytesEncode val
        rw [bytesEncode, (hcount.1 hfits).1, h.holds.valSize]
        omega
      refine .inr ⟨fun hand => absurd hand.2 (by omega), ?_⟩
      rw [decide_eq_true hrlen, takeOutput_true]
    · have hrlen : ¬ (bytesEncode val ⟨cells, false⟩).1 ≥ self.valSize := by
        rw [bytesEncode, hcount.2 (Nat.lt_of_not_le hfits)]
        omega
      obtain ⟨mem₂, htake, hc₂⟩ := takeOutput_false al self (bytesEncode val ⟨cells, false⟩).1 hblock₁
      refine .inl ⟨⟨hover, Nat.lt_of_not_le hfits⟩, mem₂, ?_, hext.changes hlt (hc.trans hc₂)⟩
      rw [decide_eq_false hrlen, htake]

theorem mallocOutput_cases (al : Allocator UInt8) (n : Nat) (mem : Memory) :
    (al.grants mem.requests = false ∧ al.grants (mem.requests + 1) = false ∧
      ∃ mem', mem.Extends mem' ∧ mallocOutput al n mem = (none, n * 2 % 2 ^ 32, mem')) ∨
    ∃ output mem' cells, mem.Extends mem' ∧ mem.requests ≤ output ∧ mem'.blocks output = some cells ∧
      mallocOutput al n mem = (some output, cells.length, mem') ∧
      (al.grants mem.requests = true ∧ cells.length = n * 4 % 2 ^ 32 ∨
        al.grants mem.requests = false ∧ al.grants (mem.requests + 1) = true ∧ cells.length = n * 2 % 2 ^ 32) := by
  unfold mallocOutput
  cases hal : al.grants mem.requests with
  | true =>
    obtain ⟨mem', cells, hmalloc, hext, hblock, hlen⟩ := Heap.malloc_of_grants hal (n * 4 % 2 ^ 32)
    refine .inr ⟨mem.requests, mem', cells, hext, Nat.le_refl _, hblock, ?_, .inl ⟨rfl, hlen⟩⟩
    rw [hmalloc, hlen]
  | false =>
    rw [Heap.malloc_of_refuses hal]
    dsimp only
    have hext : mem.Extends (mem.request none) := .request mem none
    cases hal' : al.grants (mem.requests + 1) with
    | true =>
      obtain ⟨mem', cells, hmalloc, hext', hblock, hlen⟩ :=
        Heap.malloc_of_grants (show al.grants (mem.request none).requests = true from hal') (n * 2 % 2 ^ 32)
      refine .inr ⟨mem.requests + 1, mem', cells, hext.trans hext', Nat.le_succ _, hblock, ?_, .inr ⟨rfl, rfl, hlen⟩⟩
      rw [hmalloc, hlen]
      rfl
    | false =>
      refine .inl ⟨rfl, rfl, (mem.request none).request none, hext.trans (.request _ none), ?_⟩
      rw [Heap.malloc_of_refuses (show al.grants (mem.request none).requests = false from hal')]

/-- A call that fails does what it should, and one whose behaviour is undefined does not. -/
theorem Consistent.encodesInPlace_of_failed (h : self.Consistent mem key val) (hext : mem.Extends mem')
    (hrun : self.doEncode al mem = some (false, self, mem')) : EncodesInPlace al self mem key val :=
  ⟨false, self, mem', hrun, fun h => (by cases h), fun _ => h.unchanged hext⟩

theorem not_encodesInPlace (hrun : self.doEncode al mem = none) : ¬ EncodesInPlace al self mem key val := by
  intro hin
  obtain ⟨ret, self', mem', heq, -⟩ := hin
  rw [hrun] at heq
  cases heq

/-- `packet_do_encode` does what it should exactly when it fails: there is too little room in the larger buffer, or
there is no memory for it, and none for the smaller one or too little room in that. -/
theorem doEncode_iff (h : self.Consistent mem key val) (hval : val ≠ []) :
    EncodesInPlace al self mem key val ↔
      (al.grants mem.requests = true ∧ RunsOut val (4 * val.length % 2 ^ 32)) ∨
        (al.grants mem.requests = false ∧
          (al.grants (mem.requests + 1) = false ∨ RunsOut val (2 * val.length % 2 ^ 32))) := by
  have hn := h.holds.valSize
  rcases mallocOutput_cases al self.valSize mem with ⟨hal, hal', mem', hext, hout⟩ |
    ⟨output, mem', cells, hext, hlt, hblock, hout, hsize⟩
  · have hzero : ¬ self.valSize = 0 := by
      rw [hn]
      exact mt List.length_eq_zero_iff.1 hval
    refine iff_of_true (h.encodesInPlace_of_failed hext ?_) (.inr ⟨hal, .inl hal'⟩)
    unfold doEncode
    simp only [h.isValid, Option.bind_eq_bind, Option.bind_some, not_true_eq_false, if_false, if_neg hzero, hout]
    rfl
  · have hiff : EncodesInPlace al self mem key val ↔ RunsOut val cells.length := by
      rcases doEncode_with_output h hval hout hext hlt hblock with ⟨hshort, mem'', hrun, hext'⟩ | ⟨hno, hrun⟩
      · exact iff_of_true (h.encodesInPlace_of_failed hext' hrun) hshort
      · exact iff_of_false (not_encodesInPlace hrun) hno
    rw [hiff]
    -- which of the two requests was granted
    rcases hsize with ⟨hal, hlen⟩ | ⟨hal, hal', hlen⟩
    · rw [hlen, hn, Nat.mul_comm val.length, hal]
      simp
    · rw [hlen, hn, Nat.mul_comm val.length, hal, hal']
      simp

end Encode

/-- The packet with the key `b` and the value `A`. -/
def packetB : PacketT := ⟨true, some 0, some 1, 1, 0x1e⟩

theorem consistent_packetB : packetB.Consistent (arguments [0x62] [0x41]) [0x62] [0x41] where
  ready := rfl
  holds := by
    have hargs : Args (arguments [0x62] [0x41]) (some 0) (some 1) [0x62] [0x41] := args_arguments (by decide) [0x41]
    exact ⟨hargs.key, rfl, hargs.val⟩
  whole := rfl
  key_ne := by decide
  checksum := by decide +kernel
  checksum_ne := by decide

theorem doEncode_iff_packetB :
    EncodesInPlace granting packetB (arguments [0x62] [0x41]) [0x62] [0x41] ↔
      (granting.grants (arguments [0x62] [0x41]).requests = true ∧
          RunsOut [0x41] (4 * ([0x41] : Bytes).length % 2 ^ 32)) ∨
        (granting.grants (arguments [0x62] [0x41]).requests = false ∧
          (granting.grants ((arguments [0x62] [0x41]).requests + 1) = false ∨
            RunsOut [0x41] (2 * ([0x41] : Bytes).length % 2 ^ 32))) :=
  doEncode_iff consistent_packetB (by decide)

/-- With memory for everything, the output is freed twice. -/
theorem not_doEncode_every_packet :
    ¬ ∀ (al : Allocator UInt8) (self : PacketT) (mem : Memory) (key val : Bytes), self.Consistent mem key val →
      val ≠ [] → EncodesInPlace al self mem key val := by
  intro h
  have hin := h granting packetB _ _ _ consistent_packetB (by decide)
  refine not_encodesInPlace ?_ hin
  rw [← Option.isNone_iff_eq_none]
  decide +kernel

end WirelessUart.Firmware.PacketT
