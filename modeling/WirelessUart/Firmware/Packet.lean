import WirelessUart.ByteLib.CString
import WirelessUart.ByteLib.Heap
import WirelessUart.Packet

/-!
# The packets of the firmware

`wuart_packet.c` and the functions of `wuart_utils.c` that it uses to copy strings and bytes, with `char` unsigned.
Pointers are addresses of blocks, `NULL` is `none`; the pointer to the packet itself and the pointers to its fields are
never `NULL`.  A function returns `none` when its behaviour is undefined, and else its result with the memory it leaves.

`packet_set_key_value` never stores the length of the value: `val_size` stays 0 after `packet_release`, so a new packet
has its key only (`packetInit_spec`).
-/

namespace WirelessUart.Firmware

open ByteLib

/-! ### Strings and bytes -/

abbrev Memory := Heap UInt8

/-- `(null)` -/
def strNull : Bytes := [0x28, 0x6e, 0x75, 0x6c, 0x6c, 0x29]

/-- The characters in front of the terminating NUL. -/
def cString (p : Nat) (mem : Memory) : Option Bytes :=
  (mem.blocks p).bind fun b => if 0 ∈ b then some (b.takeWhile (· ≠ 0)) else none

/-- `if(p != NULL) free(p);` -/
def freeUnlessNull (p : Option Nat) (mem : Memory) : Option Memory :=
  match p with
  | some p => mem.free p
  | none => some mem

/-- The string that `set_str_auto_alloc` copies. -/
def source (src : Option Nat) (mem : Memory) : Option Bytes :=
  match src with
  | some p => cString p mem
  | none => some strNull

/-- `set_str_auto_alloc`; the second result is `*dest_p`. -/
def setStrAutoAlloc (al : Allocator UInt8) (dest src : Option Nat) (mem : Memory) :
    Option (Bool × Option Nat × Memory) := do
  let str ← source src mem
  if dest = src ∧ src ≠ none then
    return (true, dest, mem)
  match mem.calloc al 0 (str.length + 1) with
  | (none, mem) => return (false, dest, mem)
  | (some new, mem) =>
    let mem ← freeUnlessNull dest mem
    let str ← source src mem
    let mem ← mem.write new 0 (str ++ [0])
    return (true, some new, mem)

/-- `set_list_auto_alloc`; the second result is `*dest_p`. -/
def setListAutoAlloc (al : Allocator UInt8) (tsize : Nat) (dest src : Option Nat) (num : Nat) (mem : Memory) :
    Option (Bool × Option Nat × Memory) :=
  match src with
  | none => do
    let mem ← freeUnlessNull dest mem
    return (true, none, mem)
  | some src =>
    if num = 0 then do
      let mem ← freeUnlessNull dest mem
      return (true, none, mem)
    else
      match mem.calloc al 0 (tsize * num) with
      | (none, mem) => some (false, dest, mem)
      | (some new, mem) => do
        let mem ← freeUnlessNull dest mem
        let bytes ← mem.read src (tsize * num)
        let mem ← mem.write new 0 bytes
        return (true, some new, mem)

/-- `set_bytes_auto_alloc` -/
def setBytesAutoAlloc (al : Allocator UInt8) (dest src : Option Nat) (num : Nat) (mem : Memory) :
    Option (Bool × Option Nat × Memory) := setListAutoAlloc al 1 dest src num mem

/-- `calc_xor_checksum` -/
def calcXorChecksum (data : Bytes) : UInt8 := data.foldl (fun checksum b => checksum ^^^ b) 0

/-! ### Packets -/

/-- `Packet_t` -/
structure PacketT where
  ready : Bool := false
  keyStr : Option Nat := none
  valBytes : Option Nat := none
  valSize : Nat := 0
  checksum : UInt8 := 0
deriving DecidableEq

namespace PacketT

/-- `packet_is_valid` -/
def isValid (self : PacketT) (mem : Memory) : Option Bool :=
  if self.ready then
    match self.keyStr with
    | some keyStr => (cString keyStr mem).map fun key => key.length > 0 && self.checksum != 0
    | none => some false
  else some false

/-- `packet_release` -/
def release (self : PacketT) (mem : Memory) : Option (PacketT × Memory) := do
  let mem ← freeUnlessNull self.keyStr mem
  let mem ← freeUnlessNull self.valBytes mem
  return ({}, mem)

/-- `packet_get_data_bytes`; the first result is the number of bytes, or 0 when there is no key or no room. -/
def getDataBytes (self : PacketT) (buf bufLen : Nat) (mem : Memory) : Option (Nat × Memory) :=
  match self.keyStr with
  | none => some (0, mem)
  | some keyStr => do
    let key ← cString keyStr mem
    if key.length = 0 then
      return (0, mem)
    else if self.valSize > 0 then
      if bufLen ≥ key.length + 1 + self.valSize then
        let mem ← mem.write buf 0 (key ++ [0x3d, 0])
        let val ← self.valBytes.bind fun valBytes => mem.read valBytes self.valSize
        let mem ← mem.write buf (key.length + 1) val
        return (key.length + 1 + self.valSize, mem)
      else return (0, mem)
    else if bufLen ≥ key.length then
      let mem ← mem.write buf 0 key
      return (key.length, mem)
    else return (0, mem)

/-- `packet_calc_checksum`; the first result is the checksum, or 0 when there is no key or no memory. -/
def calcChecksum (al : Allocator UInt8) (self : PacketT) (mem : Memory) : Option (UInt8 × PacketT × Memory) :=
  let self := { self with checksum := 0 }
  match self.keyStr with
  | none => some (0, self, mem)
  | some keyStr => do
    let key ← cString keyStr mem
    if key.length = 0 then
      return (0, self, mem)
    let bufLen := key.length + self.valSize + 1
    match mem.malloc al bufLen with
    | (none, mem) => return (0, self, mem)
    | (some buf, mem) =>
      let (realLen, mem) ← self.getDataBytes buf bufLen mem
      let data ← mem.read buf realLen
      let mem ← mem.free buf
      return (calcXorChecksum data, { self with checksum := calcXorChecksum data }, mem)

/-- `packet_set_key_value` -/
def setKeyValue (al : Allocator UInt8) (self : PacketT) (keyStr valBytes : Option Nat) (valLen : Nat) (mem : Memory) :
    Option (Bool × PacketT × Memory) :=
  match keyStr with
  | none => some (false, self, mem)
  | some key => do
    let str ← cString key mem
    if str.length = 0 then
      return (false, self, mem)
    let (ok, dest, mem) ← setStrAutoAlloc al self.keyStr keyStr mem
    let self := { self with keyStr := dest }
    if ¬ ok then
      return (false, self, mem)
    let (ok, dest, mem) ← setBytesAutoAlloc al self.valBytes valBytes valLen mem
    let self := { self with valBytes := dest }
    if ¬ ok then
      return (false, self, mem)
    let (checksum, self, mem) ← self.calcChecksum al mem
    return (checksum ≠ 0, self, mem)

/-- `packet_init` -/
def init (al : Allocator UInt8) (self : PacketT) (keyStr valBytes : Option Nat) (valLen : Nat) (mem : Memory) :
    Option (Bool × PacketT × Memory) := do
  let (self, mem) ← self.release mem
  let (ready, self, mem) ← self.setKeyValue al keyStr valBytes valLen mem
  return (ready, { self with ready := ready }, mem)

end PacketT

/-! ### Copies of strings and bytes -/

section Copies

variable {al : Allocator UInt8} {mem mem' : Memory} {p : Nat} {str : Bytes}

theorem cString_eq_some :
    cString p mem = some str ↔ ∃ rest, mem.blocks p = some (str ++ 0 :: rest) ∧ 0 ∉ str := by
  unfold cString
  constructor
  · intro h
    obtain ⟨b, hb, h⟩ := Option.bind_eq_some_iff.1 h
    obtain ⟨hmem, h⟩ := Option.ite_none_right_eq_some.1 h
    obtain ⟨first, rest, rfl, hfirst⟩ := List.eq_append_cons_of_mem hmem
    rw [takeWhile_terminated hfirst] at h
    cases h
    exact ⟨rest, hb, hfirst⟩
  · rintro ⟨rest, hb, h0⟩
    rw [hb, Option.bind_some, if_pos (by simp), takeWhile_terminated h0]

theorem cString_extends (hext : mem.Extends mem') (h : cString p mem = some str) : cString p mem' = some str := by
  obtain ⟨rest, hb, h0⟩ := cString_eq_some.1 h
  exact cString_eq_some.2 ⟨rest, hext.blocks hb, h0⟩

theorem read_extends (hext : mem.Extends mem') {n : Nat} (h : mem.read p n = some str) : mem'.read p n = some str := by
  obtain ⟨b, hb, hlen, htake⟩ := Heap.read_eq_some.1 h
  exact Heap.read_eq_some.2 ⟨b, hext.blocks hb, hlen, htake⟩

variable {dest src : Option Nat}

theorem freeUnlessNull_spec {ptr : Option Nat} (h : ∀ p, ptr = some p → (mem.blocks p).isSome) :
    ∃ mem', freeUnlessNull ptr mem = some mem' ∧ mem'.requests = mem.requests ∧
      (∀ q, ptr ≠ some q → mem'.blocks q = mem.blocks q) ∧ ∀ q, ptr = some q → mem'.blocks q = none := by
  cases ptr with
  | none => exact ⟨mem, rfl, rfl, fun _ _ => rfl, by simp⟩
  | some p =>
    obtain ⟨b, hb⟩ := Option.isSome_iff_exists.1 (h p rfl)
    obtain ⟨mem', hfree, hc, hgone⟩ := Heap.free_spec hb
    refine ⟨mem', hfree, hc.requests_eq, fun q hq => hc.blocks_eq q fun heq => hq (by rw [heq]), fun q hq => ?_⟩
    cases hq
    exact hgone

/-- A new block is filled in place of `dest`, which is freed in between. -/
theorem copy_spec (hdest : ∀ p, dest = some p → (mem.blocks p).isSome) {cells block : Bytes}
    (hlen : block.length = cells.length) :
    ∃ mem₁ mem₂, freeUnlessNull dest (mem.request (some cells)) = some mem₁ ∧
      (∀ q, q < mem.requests → dest ≠ some q → mem₁.blocks q = mem.blocks q) ∧
      (∀ q, dest = some q → mem₁.blocks q = none) ∧ mem₁.write mem.requests 0 block = some mem₂ ∧
      Heap.Replaces dest block mem mem₂ := by
  have hlt (p : Nat) (hp : dest = some p) : p < mem.requests := by
    obtain ⟨b, hb⟩ := Option.isSome_iff_exists.1 (hdest p hp)
    exact Heap.lt_requests hb
  have hext : mem.Extends (mem.request (some cells)) := .request mem _
  have hlive (p : Nat) (hp : dest = some p) : ((mem.request (some cells)).blocks p).isSome := by
    rw [hext.blocks_eq p (hlt p hp)]
    exact hdest p hp
  obtain ⟨mem₁, hfree, hreq, hother, hgone⟩ := freeUnlessNull_spec hlive
  have hnew : mem₁.blocks mem.requests = some cells := by
    rw [hother _ fun hp => Nat.lt_irrefl _ (hlt _ hp)]
    exact if_pos rfl
  have hold (q : Nat) (hq : q < mem.requests) (hne : dest ≠ some q) : mem₁.blocks q = mem.blocks q := by
    rw [hother q hne, hext.blocks_eq q hq]
  obtain ⟨mem₂, hwrite, hc, hblock⟩ := Heap.write_all hnew block hlen
  refine ⟨mem₁, mem₂, hfree, hold, hgone, hwrite, ⟨?_, hblock, fun q hq hne => ?_, fun q hq => ?_⟩⟩
  · rw [hc.requests_eq, hreq]
    rfl
  · rw [hc.blocks_eq q (Nat.ne_of_lt hq), hold q hq hne]
  · rw [hc.blocks_eq q (Nat.ne_of_lt (hlt q hq)), hgone q hq]

theorem cString_congr (h : mem'.blocks p = mem.blocks p) : cString p mem' = cString p mem := by
  rw [cString, cString, h]

theorem lt_requests_of_cString (h : cString p mem = some str) : p < mem.requests := by
  obtain ⟨rest, hb, -⟩ := cString_eq_some.1 h
  exact Heap.lt_requests hb

/-- A string that is copied to itself stays where it is. -/
theorem setStrAutoAlloc_self (al : Allocator UInt8) (h : cString p mem = some str) :
    setStrAutoAlloc al (some p) (some p) mem = some (true, some p, mem) := by
  simp [setStrAutoAlloc, source, h]

theorem setStrAutoAlloc_refused (hal : al.grants mem.requests = false) (h : cString p mem = some str)
    (hne : dest ≠ some p) : setStrAutoAlloc al dest (some p) mem = some (false, dest, mem.request none) := by
  simp [setStrAutoAlloc, source, h, hne, Heap.calloc_of_refuses hal]

/-- A string is copied to a new block. -/
theorem setStrAutoAlloc_granted (hal : al.grants mem.requests = true)
    (hdest : ∀ p, dest = some p → (mem.blocks p).isSome) (h : cString p mem = some str) (hne : dest ≠ some p) :
    ∃ mem', setStrAutoAlloc al dest (some p) mem = some (true, some mem.requests, mem') ∧
      Heap.Replaces dest (str ++ [0]) mem mem' := by
  obtain ⟨mem₁, mem₂, hfree, hold, -, hwrite, hrep⟩ := copy_spec hdest
    (show (str ++ [0]).length = (List.replicate (str.length + 1) (0 : UInt8)).length by simp)
  have hcopy : cString p mem₁ = some str := (cString_congr (hold p (lt_requests_of_cString h) hne)).trans h
  refine ⟨mem₂, ?_, hrep⟩
  simp [setStrAutoAlloc, source, h, hne, Heap.calloc_of_grants hal, hfree, hcopy, hwrite]

theorem setStrAutoAlloc_new (hal : ∀ n, al.grants n = true) (h : cString p mem = some str) :
    ∃ mem', setStrAutoAlloc al none (some p) mem = some (true, some mem.requests, mem') ∧
      mem.Extends mem' ∧ mem'.blocks mem.requests = some (str ++ [0]) := by
  have hnone : ∀ q, (none : Option Nat) = some q → (mem.blocks q).isSome := by simp
  obtain ⟨mem', hset, hrep⟩ := setStrAutoAlloc_granted (hal _) hnone h (by simp)
  exact ⟨mem', hset, hrep.extends, hrep.new⟩

theorem setBytesAutoAlloc_refused (hal : al.grants mem.requests = false) {num : Nat} (hnum : num ≠ 0) :
    setBytesAutoAlloc al dest (some p) num mem = some (false, dest, mem.request none) := by
  simp [setBytesAutoAlloc, setListAutoAlloc, hnum, Heap.calloc_of_refuses hal]

/-- Bytes are copied to a new block. -/
theorem setBytesAutoAlloc_granted (hal : al.grants mem.requests = true)
    (hdest : ∀ p, dest = some p → (mem.blocks p).isSome) {val : Bytes} (hval : val ≠ [])
    (h : mem.read p val.length = some val) (hne : dest ≠ some p) :
    ∃ mem', setBytesAutoAlloc al dest (some p) val.length mem = some (true, some mem.requests, mem') ∧
      Heap.Replaces dest val mem mem' := by
  obtain ⟨mem₁, mem₂, hfree, hold, -, hwrite, hrep⟩ := copy_spec hdest
    (show val.length = (List.replicate val.length (0 : UInt8)).length by simp)
  obtain ⟨b, hb, -⟩ := Heap.read_eq_some.1 h
  have hcopy : mem₁.read p val.length = some val :=
    (Heap.read_congr (hold p (Heap.lt_requests hb) hne) _).trans h
  refine ⟨mem₂, ?_, hrep⟩
  simp [setBytesAutoAlloc, setListAutoAlloc, hval, Heap.calloc_of_grants hal, hfree, hcopy, hwrite]

/-- Bytes are copied from a block after it has been freed. -/
theorem setBytesAutoAlloc_eq_none (hal : al.grants mem.requests = true)
    (hdest : ∀ p, dest = some p → (mem.blocks p).isSome) {num : Nat} (hnum : num ≠ 0)
    (h : dest = some p ∨ p < mem.requests ∧ mem.blocks p = none) :
    setBytesAutoAlloc al dest (some p) num mem = none := by
  obtain ⟨mem₁, -, hfree, hold, hgone, -⟩ := copy_spec hdest
    (show (List.replicate num (0 : UInt8)).length = (List.replicate num (0 : UInt8)).length from rfl)
  have hdead : mem₁.blocks p = none := by
    by_cases hp : dest = some p
    · exact hgone p hp
    · obtain ⟨hlt, hnone⟩ := h.resolve_left hp
      exact (hold p hlt hp).trans hnone
  have hread : mem₁.read p num = none := by rw [Heap.read, hdead]; rfl
  simp [setBytesAutoAlloc, setListAutoAlloc, hnum, Heap.calloc_of_grants hal, hfree, hread]

theorem setBytesAutoAlloc_new (hal : ∀ n, al.grants n = true) {val : Bytes} (hval : val ≠ [])
    (h : mem.read p val.length = some val) :
    ∃ mem', setBytesAutoAlloc al none (some p) val.length mem = some (true, some mem.requests, mem') ∧
      mem.Extends mem' ∧ mem'.blocks mem.requests = some val := by
  have hnone : ∀ q, (none : Option Nat) = some q → (mem.blocks q).isSome := by simp
  obtain ⟨mem', hset, hrep⟩ := setBytesAutoAlloc_granted (hal _) hnone hval h (by simp)
  exact ⟨mem', hset, hrep.extends, hrep.new⟩

/-- Without a value, the old one is freed. -/
theorem setBytesAutoAlloc_zero (al : Allocator UInt8) (hdest : ∀ p, dest = some p → (mem.blocks p).isSome)
    {num : Nat} (hsrc : src = none ∨ num = 0) :
    ∃ mem', setBytesAutoAlloc al dest src num mem = some (true, none, mem') ∧ mem'.requests = mem.requests ∧
      ∀ q, dest ≠ some q → mem'.blocks q = mem.blocks q := by
  obtain ⟨mem', hfree, hreq, hother, -⟩ := freeUnlessNull_spec hdest
  refine ⟨mem', ?_, hreq, hother⟩
  unfold setBytesAutoAlloc setListAutoAlloc
  cases src with
  | none => simp [hfree]
  | some p => simp [hsrc.resolve_left (by simp), hfree]

theorem setBytesAutoAlloc_nil (al : Allocator UInt8) (src : Option Nat) (mem : Memory) :
    setBytesAutoAlloc al none src 0 mem = some (true, none, mem) := by
  cases src <;> rfl

end Copies

/-! ### The data of a packet -/

/-- The data bytes of a key and a value. -/
def dataOf (key val : Bytes) : Bytes := if val.length > 0 then key ++ [0x3d] ++ val else key

theorem calcXorChecksum_eq (data : Bytes) : calcXorChecksum data = WirelessUart.calcChecksum data :=
  (WirelessUart.calcChecksum_eq data).symm

namespace PacketT

/-- The packet has the key and the value, as `val_size` counts it. -/
structure Holds (packet : PacketT) (mem : Memory) (key val : Bytes) : Prop where
  key : ∃ p, packet.keyStr = some p ∧ cString p mem = some key
  valSize : packet.valSize = val.length
  val : val ≠ [] → ∃ p, packet.valBytes = some p ∧ mem.read p val.length = some val

section Data

variable {al : Allocator UInt8} {self : PacketT} {mem mem' : Memory} {key val : Bytes} {buf bufLen : Nat}

theorem Holds.extends (h : self.Holds mem key val) (hext : mem.Extends mem') : self.Holds mem' key val := by
  obtain ⟨p, hp, hkey⟩ := h.key
  refine ⟨⟨p, hp, cString_extends hext hkey⟩, h.valSize, fun hne => ?_⟩
  obtain ⟨q, hq, hval⟩ := h.val hne
  exact ⟨q, hq, read_extends hext hval⟩

/-- The checksum does not matter. -/
theorem Holds.congr {self' : PacketT} (h : self.Holds mem key val) (hk : self'.keyStr = self.keyStr)
    (hv : self'.valBytes = self.valBytes) (hs : self'.valSize = self.valSize) : self'.Holds mem key val := by
  refine ⟨?_, ?_, ?_⟩
  · rw [hk]
    exact h.key
  · rw [hs]
    exact h.valSize
  · rw [hv]
    exact h.val

/-- `packet_get_data_bytes` fills the front of a buffer that is large enough and not that of the value. -/
theorem Holds.getDataBytes_spec (h : self.Holds mem key val) (hkey : key ≠ []) {cells : Bytes}
    (hbuf : mem.blocks buf = some cells) (hne : val ≠ [] → self.valBytes ≠ some buf)
    (hlen : (dataOf key val).length ≤ bufLen) (hcells : bufLen ≤ cells.length) :
    ∃ mem', self.getDataBytes buf bufLen mem = some ((dataOf key val).length, mem') ∧ mem.Changes buf mem' ∧
      mem'.blocks buf = some (dataOf key val ++ cells.drop (dataOf key val).length) := by
  obtain ⟨p, hp, hstr⟩ := h.key
  have hkeylen : ¬ key.length = 0 := mt List.length_eq_zero_iff.1 hkey
  unfold getDataBytes
  rw [hp]
  simp only [hstr, Option.bind_eq_bind, Option.bind_some, if_neg hkeylen, h.valSize]
  by_cases hval : val.length > 0
  · have hdata : dataOf key val = key ++ [0x3d] ++ val := if_pos hval
    have hsize : (key ++ [0x3d] ++ val).length = key.length + 1 + val.length := by simp; omega
    rw [hdata, hsize] at hlen ⊢
    obtain ⟨q, hq, hread⟩ := h.val (List.length_pos_iff.1 hval)
    have hqbuf : q ≠ buf := fun heq => hne (List.length_pos_iff.1 hval) (by rw [hq, heq])
    -- `sprintf` stores the key, the `=` and a NUL, which the first byte of the value replaces
    obtain ⟨mem₁, hfirst, hc₁, hbuf₁⟩ := Heap.write_spec hbuf 0 (key ++ [0x3d, 0]) (by simp; omega)
    rw [List.take_zero, List.nil_append, List.append_assoc] at hbuf₁
    obtain ⟨mem₂, hsecond, hc₂, hbuf₂⟩ := Heap.write_spec hbuf₁ (key.length + 1) val (by simp; omega)
    rw [List.take_length_add_append] at hbuf₂
    have hread₁ : mem₁.read q val.length = some val := (Heap.read_congr (hc₁.blocks_eq q hqbuf) _).trans hread
    have hrest : List.drop (key.length + 1 + val.length)
        (key ++ ([0x3d, 0] ++ cells.drop (0 + (key ++ [0x3d, 0]).length))) =
          cells.drop (key.length + 1 + val.length) := by
      have hsplit : key.length + 1 + val.length = (key ++ [0x3d, 0]).length + (val.length - 1) := by simp; omega
      rw [← List.append_assoc, hsplit, List.drop_length_add_append, List.drop_drop, Nat.zero_add]
    refine ⟨mem₂, ?_, hc₁.trans hc₂, ?_⟩
    · rw [if_pos hval, if_pos hlen, hfirst, Option.bind_some, hq, Option.bind_some, hread₁, Option.bind_some, hsecond]
      rfl
    · rw [hbuf₂, hrest]
      rfl
  · have hdata : dataOf key val = key := if_neg hval
    rw [hdata] at hlen ⊢
    obtain ⟨mem', hwrite, hc, hbuf'⟩ := Heap.write_spec hbuf 0 key (by omega)
    rw [if_neg hval, if_pos hlen, hwrite]
    refine ⟨mem', rfl, hc, ?_⟩
    rw [hbuf', List.take_zero, List.nil_append, Nat.zero_add]

/-- In a buffer that is too short, nothing is written. -/
theorem Holds.getDataBytes_short (h : self.Holds mem key val) (hlen : bufLen < (dataOf key val).length) :
    self.getDataBytes buf bufLen mem = some (0, mem) := by
  obtain ⟨p, hp, hstr⟩ := h.key
  unfold getDataBytes
  rw [hp]
  simp only [hstr, Option.bind_eq_bind, Option.bind_some, h.valSize]
  unfold dataOf at hlen
  by_cases hkeylen : key.length = 0
  · exact if_pos hkeylen
  rw [if_neg hkeylen]
  by_cases hval : val.length > 0
  · rw [if_pos hval, List.length_append, List.length_append, List.length_singleton] at hlen
    rw [if_pos hval, if_neg (by omega)]
    rfl
  · rw [if_neg hval] at hlen
    rw [if_neg hval, if_neg (by omega)]
    rfl

/-- `packet_calc_checksum` stores and returns the checksum of the data, and frees its buffer. -/
theorem Holds.calcChecksum_spec (hal : al.grants mem.requests = true) (h : self.Holds mem key val) (hkey : key ≠ []) :
    ∃ mem', self.calcChecksum al mem = some (calcXorChecksum (dataOf key val),
      { self with checksum := calcXorChecksum (dataOf key val) }, mem') ∧ mem.Extends mem' := by
  obtain ⟨p, hp, hstr⟩ := h.key
  have hkeylen : ¬ key.length = 0 := mt List.length_eq_zero_iff.1 hkey
  obtain ⟨mem₁, b, hmalloc, hext, hbuf, hlen⟩ := Heap.malloc_of_grants hal (key.length + self.valSize + 1)
  have hholds : Holds { self with checksum := 0 } mem₁ key val := (h.extends hext).congr rfl rfl rfl
  have hne : val ≠ [] → self.valBytes ≠ some mem.requests := by
    intro hval heq
    obtain ⟨q, hq, hread⟩ := h.val hval
    obtain ⟨b, hb, -⟩ := Heap.read_eq_some.1 hread
    rw [hq, Option.some.injEq] at heq
    exact absurd (Heap.lt_requests hb) (by omega)
  have hroom : (dataOf key val).length ≤ key.length + self.valSize + 1 := by
    rw [h.valSize, dataOf]
    split
    · simp only [List.length_append, List.length_singleton]
      omega
    · omega
  obtain ⟨mem₂, hdata, hc₂, hb₂⟩ := hholds.getDataBytes_spec hkey hbuf hne hroom (by omega)
  have hread := Heap.read_of_append hb₂
  obtain ⟨mem₃, hfree, hc₃, -⟩ := Heap.free_spec hb₂
  refine ⟨mem₃, ?_, hext.changes (Nat.le_refl _) (hc₂.trans hc₃)⟩
  rw [hp] at hdata
  unfold calcChecksum
  simp only [hp, hstr, Option.bind_eq_bind, Option.bind_some, if_neg hkeylen, hmalloc, hdata, hread, hfree]
  rfl

end Data

/-! ### A new packet -/

/-- The packet owns its blocks: they are live, different, and none of them is an argument. -/
structure Owns (packet : PacketT) (mem : Memory) (args : List (Option Nat)) : Prop where
  key : ∀ p, packet.keyStr = some p → (mem.blocks p).isSome ∧ some p ∉ args
  val : ∀ p, packet.valBytes = some p → (mem.blocks p).isSome ∧ some p ∉ args
  ne : ∀ p, packet.keyStr = some p → packet.valBytes ≠ some p

/-- The arguments are a string with the characters `key`, and `val.length` bytes. -/
structure Args (mem : Memory) (keyStr valBytes : Option Nat) (key val : Bytes) : Prop where
  key : ∃ p, keyStr = some p ∧ cString p mem = some key
  val : val ≠ [] → ∃ p, valBytes = some p ∧ mem.read p val.length = some val

section Init

variable {al : Allocator UInt8} {self : PacketT} {mem mem' : Memory} {keyStr valBytes : Option Nat} {key val : Bytes}

theorem owns_zero (mem : Memory) (args : List (Option Nat)) : ({} : PacketT).Owns mem args :=
  ⟨fun _ h => (by cases h), fun _ h => (by cases h), fun _ h => (by cases h)⟩

/-- `packet_release` frees the blocks of the packet, and no argument. -/
theorem Owns.release_spec {args : List (Option Nat)} (h : self.Owns mem args) :
    ∃ mem', self.release mem = some ({}, mem') ∧ ∀ p, some p ∈ args → mem'.blocks p = mem.blocks p := by
  obtain ⟨mem₁, hkey, -, hother₁, -⟩ := freeUnlessNull_spec fun p hp => (h.key p hp).1
  have hval (p : Nat) (hp : self.valBytes = some p) : (mem₁.blocks p).isSome := by
    rw [hother₁ p fun hk => h.ne p hk hp]
    exact (h.val p hp).1
  obtain ⟨mem₂, hval, -, hother₂, -⟩ := freeUnlessNull_spec hval
  refine ⟨mem₂, ?_, fun p hp => ?_⟩
  · rw [release, hkey, Option.bind_eq_bind, Option.bind_some, hval]
    rfl
  · rw [hother₂ p fun hv => (h.val p hv).2 hp, hother₁ p fun hk => (h.key p hk).2 hp]

/-- `packet_set_key_value` on a packet without blocks: it gets the key and its checksum, but not the size of the
value. -/
theorem setKeyValue_spec (hal : ∀ n, al.grants n = true) (h : Args mem keyStr valBytes key val) (hkey : key ≠ []) :
    ∃ p r mem', setKeyValue al {} keyStr valBytes val.length mem =
        some (decide (calcXorChecksum key ≠ 0), ⟨false, some p, r, 0, calcXorChecksum key⟩, mem') ∧
      cString p mem' = some key ∧ ∀ q, r = some q → q < mem'.requests := by
  obtain ⟨k, rfl, hstr⟩ := h.key
  have hkeylen : ¬ key.length = 0 := mt List.length_eq_zero_iff.1 hkey
  obtain ⟨mem₁, hset, hext₁, hblock⟩ := setStrAutoAlloc_new hal hstr
  obtain ⟨rest, hb, h0⟩ := cString_eq_some.1 hstr
  have hstr₁ : cString mem.requests mem₁ = some key := cString_eq_some.2 ⟨[], hblock, h0⟩
  -- whatever the value is, it leaves the copy of the key alone
  obtain ⟨r, mem₂, hbytes, hext₂, hr⟩ : ∃ r mem₂, setBytesAutoAlloc al none valBytes val.length mem₁ =
      some (true, r, mem₂) ∧ mem₁.Extends mem₂ ∧ ∀ q, r = some q → q < mem₂.requests := by
    by_cases hval : val = []
    · rw [hval]
      exact ⟨none, mem₁, setBytesAutoAlloc_nil al valBytes mem₁, .refl mem₁, fun _ h => (by cases h)⟩
    · obtain ⟨q, rfl, hread⟩ := h.val hval
      obtain ⟨mem₂, hbytes, hext₂, hblock₂⟩ := setBytesAutoAlloc_new hal hval (read_extends hext₁ hread)
      refine ⟨_, mem₂, hbytes, hext₂, fun q hq => ?_⟩
      cases hq
      exact Heap.lt_requests hblock₂
  have hholds : Holds ⟨false, some mem.requests, r, 0, 0⟩ mem₂ key [] :=
    ⟨⟨_, rfl, cString_extends hext₂ hstr₁⟩, rfl, fun h => absurd rfl h⟩
  obtain ⟨mem₃, hcalc, hext₃⟩ := hholds.calcChecksum_spec (hal _) hkey
  refine ⟨mem.requests, r, mem₃, ?_, cString_extends hext₃ (cString_extends hext₂ hstr₁), fun q hq => ?_⟩
  case refine_2 => exact Nat.lt_of_lt_of_le (hr q hq) hext₃.requests_le
  have hdata : dataOf key [] = key := rfl
  rw [hdata] at hcalc
  unfold setKeyValue
  simp only [hstr, Option.bind_eq_bind, Option.bind_some, if_neg hkeylen, hset, hbytes, hcalc, not_true_eq_false,
    if_false]
  rfl

/-- `packet_init`: the new packet has the key and no value. -/
theorem init_spec (hal : ∀ n, al.grants n = true) (ho : self.Owns mem [keyStr, valBytes])
    (h : Args mem keyStr valBytes key val) (hkey : key ≠ []) :
    ∃ p r mem', init al self keyStr valBytes val.length mem = some (decide (calcXorChecksum key ≠ 0),
        ⟨decide (calcXorChecksum key ≠ 0), some p, r, 0, calcXorChecksum key⟩, mem') ∧
      cString p mem' = some key ∧ ∀ q, r = some q → q < mem'.requests := by
  obtain ⟨mem₁, hrelease, hkeep⟩ := ho.release_spec
  have hargs : Args mem₁ keyStr valBytes key val := by
    constructor
    · obtain ⟨p, rfl, hstr⟩ := h.key
      obtain ⟨rest, hb, h0⟩ := cString_eq_some.1 hstr
      exact ⟨p, rfl, cString_eq_some.2 ⟨rest, (hkeep p (by simp)).trans hb, h0⟩⟩
    · intro hval
      obtain ⟨p, rfl, hread⟩ := h.val hval
      exact ⟨p, rfl, (Heap.read_congr (hkeep p (by simp)) _).trans hread⟩
  obtain ⟨p, r, mem₂, hset, hstr, hr⟩ := setKeyValue_spec hal hargs hkey
  refine ⟨p, r, mem₂, ?_, hstr, hr⟩
  rw [init, hrelease]
  simp only [Option.bind_eq_bind, Option.bind_some, hset]
  rfl

end Init

end PacketT

end WirelessUart.Firmware
