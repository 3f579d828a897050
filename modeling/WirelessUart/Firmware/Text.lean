import WirelessUart.ByteLib.Ownership
import WirelessUart.Firmware.Packet

/-!
# The text of a packet

`packet_to_string` prints into a block of 64 bytes, piece by piece, each behind what `strlen` finds.  The key may be of
any length: `snprintf` cuts it off, so that the text has at most 61 characters, and it is inside of the block
(`toText_spec`).  The answer of `malloc` is not tested: without memory the first piece is printed to `NULL`.
-/

namespace WirelessUart.Firmware

open ByteLib

/-! ### The function -/

/-- A `size_t` that is printed as an `int`, both of 32 bits. -/
def asInt (n : Nat) : Int := (BitVec.ofNat 32 n).toInt

/-- `sprintf` to `str_p + cur_len`, and `strlen` of what is then at `str_p`. -/
def printAt (strP curLen : Nat) (text : Bytes) (mem : Memory) : Option (Nat × Memory) := do
  let mem ← mem.write strP curLen (text ++ [0])
  let str ← cString strP mem
  return (str.length, mem)

/-- What `snprintf` prints with a limit of `n > 0` bytes. -/
def truncated (n : Nat) (text : Bytes) : Bytes := text.take (n - 1)

namespace PacketT

/-- The pieces of `packet_to_string` that are printed for a packet. -/
def printFields (self : PacketT) (strP curLen : Nat) (mem : Memory) : Option (Nat × Memory) := do
  let (curLen, mem) ← printAt strP curLen (encode "ready=" ++ decimalText (if self.ready then 1 else 0)) mem
  if ← self.isValid mem then
    let key ← self.keyStr.bind fun keyStr => cString keyStr mem
    let (curLen, mem) ← printAt strP curLen (truncated 32 (encode ",key=" ++ key)) mem
    printAt strP curLen (truncated 16 (encode ",val=" ++ decimalText (asInt self.valSize))) mem
  else
    return (curLen, mem)

/-- The branches of `packet_to_string`; `self` is `none` when it is `NULL`. -/
def printSelf (self : Option PacketT) (strP curLen : Nat) (mem : Memory) : Option (Nat × Memory) :=
  match self with
  | none => printAt strP curLen (encode "None") mem
  | some self => self.printFields strP curLen mem

/-- `packet_to_string` -/
def toText (al : Allocator UInt8) (self : Option PacketT) (mem : Memory) : Option (Nat × Memory) :=
  match mem.malloc al 64 with
  | (none, _) => none
  | (some strP, mem) => do
    let (curLen, mem) ← printAt strP 0 (encode "Packet(") mem
    let (curLen, mem) ← printSelf self strP curLen mem
    let mem ← mem.write strP curLen [0x29]
    let mem ← mem.write strP (curLen + 1) [0]
    return (strP, mem)

/-- What is printed for a packet with the key `key`. -/
def fieldsText (self : PacketT) (valid : Bool) (key : Bytes) : Bytes :=
  encode "ready=" ++ decimalText (if self.ready then 1 else 0) ++
    if valid then
      truncated 32 (encode ",key=" ++ key) ++ truncated 16 (encode ",val=" ++ decimalText (asInt self.valSize))
    else []

/-- The key that is printed, if one is. -/
def printedKey (self : PacketT) (valid : Bool) (mem : Memory) : Option Bytes :=
  if valid then self.keyStr.bind fun keyStr => cString keyStr mem else some []

/-- The whole text; `none` when the key cannot be read. -/
def textOf (self : Option PacketT) (mem : Memory) : Option Bytes :=
  match self with
  | none => some (encode "Packet(None)")
  | some self => do
    let valid ← self.isValid mem
    let key ← self.printedKey valid mem
    return encode "Packet(" ++ self.fieldsText valid key ++ [0x29]

end PacketT

/-! ### Printing -/

section Print

variable {mem mem' : Memory} {p q n : Nat} {w s : Bytes}

/-- A block of `n` bytes that begins with the text `w`. -/
structure Begins (mem : Memory) (p n : Nat) (w : Bytes) : Prop where
  block : ∃ rest, mem.blocks p = some (w ++ rest) ∧ (w ++ rest).length = n
  noNul : 0 ∉ w

/-- A piece that fits is printed behind the text. -/
theorem printAt_spec (h : Begins mem p n w) (hs : 0 ∉ s) (hroom : w.length + s.length < n) :
    ∃ mem', printAt p w.length s mem = some ((w ++ s).length, mem') ∧ Begins mem' p n (w ++ s) ∧
      mem.Changes p mem' := by
  obtain ⟨⟨rest, hb, hn⟩, h0⟩ := h
  have hlen : (s ++ [0]).length = s.length + 1 := List.length_append
  rw [List.length_append] at hn
  obtain ⟨mem', hwrite, hc, hb'⟩ := Heap.write_spec hb w.length (s ++ [0]) (by rw [hlen, List.length_append]; omega)
  rw [List.take_left, List.append_assoc w, List.append_assoc s, List.singleton_append, ← List.append_assoc w] at hb'
  have h0' : 0 ∉ w ++ s := fun hmem => (List.mem_append.1 hmem).elim h0 hs
  refine ⟨mem', ?_, ⟨⟨_, hb', ?_⟩, h0'⟩, hc⟩
  · unfold printAt
    rw [hwrite, Option.bind_eq_bind, Option.bind_some, cString_eq_some.2 ⟨_, hb', h0'⟩]
    rfl
  · simp only [List.length_append, List.length_cons, List.length_drop, List.length_nil]
    omega

/-- The last character and the NUL behind it. -/
theorem write_last (h : Begins mem p n w) (hroom : w.length + 1 < n) {c : UInt8} (hc : c ≠ 0) :
    ∃ mem₁ mem₂, mem.write p w.length [c] = some mem₁ ∧ mem₁.write p (w.length + 1) [0] = some mem₂ ∧
      cString p mem₂ = some (w ++ [c]) ∧ mem.Changes p mem₂ := by
  obtain ⟨⟨rest, hb, hn⟩, h0⟩ := h
  rw [List.length_append] at hn
  obtain ⟨mem₁, hwrite₁, hc₁, hb₁⟩ :=
    Heap.write_spec hb w.length [c] (by rw [List.length_append, List.length_singleton]; omega)
  rw [List.take_left] at hb₁
  have hlen : (w ++ [c]).length = w.length + 1 := List.length_append
  obtain ⟨mem₂, hwrite₂, hc₂, hb₂⟩ := Heap.write_spec hb₁ (w.length + 1) [0] (by
    rw [List.length_append, hlen, List.length_drop, List.length_append, List.length_singleton, List.length_singleton]
    omega)
  rw [List.take_left' hlen, List.append_assoc, List.singleton_append] at hb₂
  refine ⟨mem₁, mem₂, hwrite₁, hwrite₂, cString_eq_some.2 ⟨_, hb₂, fun hmem => ?_⟩, hc₁.trans hc₂⟩
  rcases List.mem_append.1 hmem with hmem | hmem
  · exact h0 hmem
  · exact hc (List.mem_singleton.1 hmem).symm

end Print

/-! ### The whole text -/

namespace PacketT

section Text

variable {al : Allocator UInt8} {mem mem' : Memory} {self : PacketT} {p n : Nat} {w key : Bytes} {valid : Bool}

/-- A piece that `snprintf` has cut off. -/
theorem truncated_spec {m : Nat} {s t : Bytes} (hs : 0 ∉ s) (ht : 0 ∉ t) :
    0 ∉ truncated m (s ++ t) ∧ (truncated m (s ++ t)).length ≤ m - 1 :=
  ⟨fun h => (List.mem_append.1 (List.mem_of_mem_take h)).elim hs ht, List.length_take_le _ _⟩

theorem readyText_spec : ∀ ready : Bool, (0 : UInt8) ∉ encode "ready=" ++ decimalText (if ready then 1 else 0) ∧
    (encode "ready=" ++ decimalText (if ready then 1 else 0)).length = 7 := by
  decide +kernel

theorem keyText_spec (hkey : 0 ∉ key) :
    0 ∉ truncated 32 (encode ",key=" ++ key) ∧ (truncated 32 (encode ",key=" ++ key)).length ≤ 31 :=
  truncated_spec (by decide +kernel) hkey

theorem valText_spec (n : Int) :
    0 ∉ truncated 16 (encode ",val=" ++ decimalText n) ∧ (truncated 16 (encode ",val=" ++ decimalText n)).length ≤ 15 :=
  truncated_spec (by decide +kernel) (zero_notMem_decimalText n)

/-- The fields take at most 53 characters. -/
theorem length_fieldsText_le (self : PacketT) (valid : Bool) (hkey : 0 ∉ key) :
    (self.fieldsText valid key).length ≤ 53 := by
  have hready := (readyText_spec self.ready).2
  have hkeyText := (keyText_spec hkey).2
  have hvalText := (valText_spec (asInt self.valSize)).2
  unfold fieldsText
  rw [List.length_append, hready]
  split
  · rw [List.length_append]
    omega
  · rw [List.length_nil]
    omega

/-- Whether a packet is valid is a matter of its key, when it is ready. -/
theorem isValid_congr (h : self.ready = true → ∀ q, self.keyStr = some q → mem'.blocks q = mem.blocks q) :
    self.isValid mem' = self.isValid mem := by
  unfold isValid
  by_cases hready : self.ready = true
  · rw [if_pos hready, if_pos hready]
    cases hk : self.keyStr with
    | none => rfl
    | some q =>
      dsimp only
      rw [cString_congr (h hready q hk)]
  · rw [if_neg hready, if_neg hready]

/-- The key of a packet that is ready was there before a later block. -/
theorem keyStr_ne_of_isValid (h : self.isValid mem = some valid) (hready : self.ready = true)
    (hp : mem.requests ≤ p) : self.keyStr ≠ some p := by
  intro hk
  rw [isValid, if_pos hready, hk] at h
  obtain ⟨key, hkey, -⟩ := Option.map_eq_some_iff.1 h
  have := lt_requests_of_cString hkey
  omega

theorem ready_of_isValid (h : self.isValid mem = some true) : self.ready = true := by
  by_contra hready
  rw [isValid, if_neg hready] at h
  cases h

/-- The key that is printed is a string. -/
theorem zero_notMem_printedKey (hkey : self.printedKey valid mem = some key) : 0 ∉ key := by
  cases valid with
  | false =>
    cases hkey
    exact List.not_mem_nil
  | true =>
    obtain ⟨q, -, hq⟩ := Option.bind_eq_some_iff.1 hkey
    obtain ⟨-, -, h0⟩ := cString_eq_some.1 hq
    exact h0

/-- The fields are printed behind the text when there is room for the longest ones. -/
theorem printFields_spec (h : Begins mem p n w) (hroom : w.length + 53 < n) (hvalid : self.isValid mem = some valid)
    (hne : self.ready = true → self.keyStr ≠ some p) (hkey : self.printedKey valid mem = some key) :
    ∃ mem', self.printFields p w.length mem = some ((w ++ self.fieldsText valid key).length, mem') ∧
      Begins mem' p n (w ++ self.fieldsText valid key) ∧ mem.Changes p mem' := by
  obtain ⟨hready0, hready⟩ := readyText_spec self.ready
  obtain ⟨hkey0, hkeyText⟩ := keyText_spec (zero_notMem_printedKey hkey)
  obtain ⟨hval0, hvalText⟩ := valText_spec (asInt self.valSize)
  obtain ⟨mem₁, hprint₁, h₁, hc₁⟩ := printAt_spec h hready0 (by omega)
  -- printing does not touch the key
  have hsame (hready : self.ready = true) (q : Nat) (hq : self.keyStr = some q) : mem₁.blocks q = mem.blocks q :=
    hc₁.blocks_eq q fun heq => hne hready (heq ▸ hq)
  have hvalid₁ : self.isValid mem₁ = some valid := (isValid_congr hsame).trans hvalid
  cases valid with
  | false =>
    have htext : self.fieldsText false key = encode "ready=" ++ decimalText (if self.ready then 1 else 0) :=
      List.append_nil _
    refine ⟨mem₁, ?_, htext ▸ h₁, hc₁⟩
    unfold printFields
    rw [htext, hprint₁]
    simp only [Option.bind_eq_bind, Option.bind_some, hvalid₁, Bool.false_eq_true, if_false]
    rfl
  | true =>
    obtain ⟨q, hq, hstr⟩ := Option.bind_eq_some_iff.1 hkey
    have hstr₁ : cString q mem₁ = some key := (cString_congr (hsame (ready_of_isValid hvalid) q hq)).trans hstr
    obtain ⟨mem₂, hprint₂, h₂, hc₂⟩ := printAt_spec h₁ hkey0 (by rw [List.length_append]; omega)
    obtain ⟨mem₃, hprint₃, h₃, hc₃⟩ := printAt_spec h₂ hval0 (by rw [List.length_append, List.length_append]; omega)
    have htext : w ++ self.fieldsText true key = w ++ (encode "ready=" ++ decimalText (if self.ready then 1 else 0)) ++
        truncated 32 (encode ",key=" ++ key) ++ truncated 16 (encode ",val=" ++ decimalText (asInt self.valSize)) := by
      rw [fieldsText, if_pos rfl]
      simp only [List.append_assoc]
    refine ⟨mem₃, ?_, htext ▸ h₃, (hc₁.trans hc₂).trans hc₃⟩
    unfold printFields
    rw [htext, hprint₁]
    simp only [Option.bind_eq_bind, Option.bind_some, hvalid₁, if_true, hq, hstr₁, hprint₂, hprint₃]

/-- However long the key is, the text has at most 61 characters. -/
theorem length_textOf_le {self : Option PacketT} {s : Bytes} (h : textOf self mem = some s) : s.length ≤ 61 := by
  cases self with
  | none =>
    cases h
    decide +kernel
  | some self =>
    obtain ⟨valid, -, h⟩ := Option.bind_eq_some_iff.1 h
    obtain ⟨key, hkey, h⟩ := Option.bind_eq_some_iff.1 h
    cases h
    have hseven : (encode "Packet(").length = 7 := by decide +kernel
    have hlen := length_fieldsText_le self valid (zero_notMem_printedKey hkey)
    rw [List.length_append, List.length_append, hseven, List.length_singleton]
    omega

/-- What is printed for the packet, or for `NULL`, stands behind `Packet(`, with room for the last character. -/
theorem printSelf_spec {self : Option PacketT} {s : Bytes} (h : textOf self mem = some s)
    (hext : mem.Extends mem') (hp : mem.requests ≤ p) (hb : Begins mem' p 64 (encode "Packet(")) :
    ∃ w mem'', printSelf self p (encode "Packet(").length mem' = some (w.length, mem'') ∧
      (s = w ++ [0x29] ∧ Begins mem'' p 64 w) ∧ mem'.Changes p mem'' := by
  have hseven : (encode "Packet(").length = 7 := by decide +kernel
  cases self with
  | none =>
    cases h
    have hfour : (encode "None").length = 4 := by decide +kernel
    obtain ⟨mem'', hprint, hb', hc⟩ := printAt_spec hb (s := encode "None") (by decide +kernel) (by omega)
    exact ⟨_, mem'', hprint, ⟨by decide +kernel, hb'⟩, hc⟩
  | some self =>
    obtain ⟨valid, hvalid, h⟩ := Option.bind_eq_some_iff.1 h
    obtain ⟨key, hkey, h⟩ := Option.bind_eq_some_iff.1 h
    cases h
    -- the new block is not the key
    have hsame (hready : self.ready = true) (q : Nat) (hq : self.keyStr = some q) : mem'.blocks q = mem.blocks q := by
      rw [isValid, if_pos hready, hq] at hvalid
      obtain ⟨str, hstr, -⟩ := Option.map_eq_some_iff.1 hvalid
      exact hext.blocks_eq q (lt_requests_of_cString hstr)
    have hkey' : self.printedKey valid mem' = some key := by
      cases valid with
      | false => exact hkey
      | true =>
        obtain ⟨q, hq, hstr⟩ := Option.bind_eq_some_iff.1 hkey
        exact Option.bind_eq_some_iff.2 ⟨q, hq, cString_extends hext hstr⟩
    have hlen := length_fieldsText_le self valid (zero_notMem_printedKey hkey)
    obtain ⟨mem'', hprint, hb', hc⟩ := printFields_spec hb (by omega) ((isValid_congr hsame).trans hvalid)
      (fun hready => keyStr_ne_of_isValid hvalid hready hp) hkey'
    exact ⟨_, mem'', hprint, ⟨rfl, hb'⟩, hc⟩

/-- A block of the program stays its own while it holds a text. -/
private theorem beside_begins {S : Set Nat} (h : mem.Beside mem' S) (hp : p ∈ S) {mem'' : Memory}
    (hc : mem'.Changes p mem'') (hb : Begins mem'' p n w) : mem.Beside mem'' S := by
  obtain ⟨rest, hblock, -⟩ := hb.block
  exact h.changes hc hp (by rw [hblock]; rfl)

/-- When memory is granted, the text of the packet is in a new block, and nothing else has changed. -/
theorem toText_of_grants {al : Allocator UInt8} {self : Option PacketT} {s : Bytes} (h : textOf self mem = some s)
    (hal : al.grants mem.requests = true) :
    ∃ mem', toText al self mem = some (mem.requests, mem') ∧ cString mem.requests mem' = some s ∧
      mem.Beside mem' {mem.requests} := by
  have hlen := length_textOf_le h
  let cells : Bytes := (List.range 64).map (al.junk mem.requests)
  have hmalloc : mem.malloc al 64 = (some mem.requests, mem.request (some cells)) := if_pos hal
  have hnew : mem.Beside (mem.request (some cells)) {mem.requests} :=
    ((Heap.beside_self mem).granted cells).congr fun q => by simp
  have hself : mem.requests ∈ ({mem.requests} : Set Nat) := rfl
  have hstart : Begins (mem.request (some cells)) mem.requests 64 [] :=
    ⟨⟨cells, if_pos rfl, by simp [cells]⟩, List.not_mem_nil⟩
  have hseven : (encode "Packet(").length = 7 := by decide +kernel
  obtain ⟨mem₁, hprint₁, h₁, hc₁⟩ := printAt_spec hstart (s := encode "Packet(") (by decide +kernel)
    (by rw [hseven]; decide)
  have hnew₁ := beside_begins hnew hself hc₁ h₁
  obtain ⟨w, mem₂, hprint₂, ⟨rfl, h₂⟩, hc₂⟩ := printSelf_spec h hnew₁.toExtends (Nat.le_refl _) h₁
  have hnew₂ := beside_begins hnew₁ hself hc₂ h₂
  rw [List.length_append, List.length_singleton] at hlen
  obtain ⟨mem₃, mem₄, hwrite₃, hwrite₄, hstr, hc₄⟩ := write_last h₂ (by omega) (c := 0x29) (by decide)
  obtain ⟨rest, hblock, -⟩ := cString_eq_some.1 hstr
  refine ⟨mem₄, ?_, hstr, hnew₂.changes hc₄ hself (by rw [hblock]; rfl)⟩
  rw [List.nil_append, List.length_nil] at hprint₁
  unfold toText
  rw [hmalloc]
  dsimp only
  rw [hprint₁]
  simp only [Option.bind_eq_bind, Option.bind_some, hprint₂, hwrite₃, hwrite₄]
  rfl

/-- Without memory the text is printed to `NULL`. -/
theorem toText_of_refuses {al : Allocator UInt8} (self : Option PacketT) (hal : al.grants mem.requests = false) :
    toText al self mem = none := by
  unfold toText
  rw [Heap.malloc_of_refuses hal]

/-- When memory is granted, the text of the packet is in a new block of 64 bytes, with at most 61 characters, and
nothing else has changed; when it is not, the call is undefined. -/
theorem toText_spec (al : Allocator UInt8) {self : Option PacketT} {s : Bytes} (h : textOf self mem = some s) :
    s.length ≤ 61 ∧
      (al.grants mem.requests = true → ∃ mem', toText al self mem = some (mem.requests, mem') ∧
        cString mem.requests mem' = some s ∧ mem.Beside mem' {mem.requests}) ∧
      (al.grants mem.requests = false → toText al self mem = none) :=
  ⟨length_textOf_le h, toText_of_grants h, toText_of_refuses self⟩

end Text

/-- A packet whose key has forty characters: 26 of them are printed. -/
theorem toText_spec_long_key :
    ∃ mem', toText ⟨fun _ => true, fun _ _ => 0xff⟩ (some ⟨true, some 0, none, 0, 1⟩)
        (Heap.empty.request (some (List.replicate 40 0x61 ++ [0]))) = some (1, mem') ∧
      cString 1 mem' = some (encode "Packet(ready=1,key=aaaaaaaaaaaaaaaaaaaaaaaaaa,val=0)") := by
  have htext : textOf (some ⟨true, some 0, none, 0, 1⟩)
      (Heap.empty.request (some (List.replicate 40 0x61 ++ [0]))) =
        some (encode "Packet(ready=1,key=aaaaaaaaaaaaaaaaaaaaaaaaaa,val=0)") := by decide +kernel
  obtain ⟨mem', htext', hstr, -⟩ := (toText_spec ⟨fun _ => true, fun _ _ => 0xff⟩ htext).2.1 rfl
  exact ⟨mem', htext', hstr⟩

end PacketT

end WirelessUart.Firmware
