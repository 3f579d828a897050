import WirelessUart.Firmware.Packet

/-!
# Updates that fail

`packet_set_key_value` copies the key, then the value, and computes the checksum last.  Each of the three steps may
fail, and what the steps before it have done is not undone: the packet is as it was only when the steps that were made
changed nothing (`setKeyValue_unchanged_iff`).  The value may also be gone before it is copied, or be shorter than
`val_size` says; then the call has no result (`setKeyValue_isSome_iff`).
-/

namespace WirelessUart.Firmware.PacketT

open ByteLib

/-! ### What a packet is -/

/-- The text of the key. -/
def keyText (self : PacketT) (mem : Memory) : Option Bytes := self.keyStr.bind fun p => cString p mem

/-- The block of the value. -/
def valBlock (self : PacketT) (mem : Memory) : Option Bytes := self.valBytes.bind mem.blocks

/-- The fields are what they were, wherever the key and the value are. -/
structure Unchanged (packet : PacketT) (mem : Memory) (packet' : PacketT) (mem' : Memory) : Prop where
  ready : packet'.ready = packet.ready
  key : packet'.keyText mem' = packet.keyText mem
  val : packet'.valBlock mem' = packet.valBlock mem
  valSize : packet'.valSize = packet.valSize
  checksum : packet'.checksum = packet.checksum

/-! ### The steps of an update -/

/-- The text and the bytes that a call passes. -/
def argKey (keyStr : Option Nat) (mem : Memory) : Option Bytes := keyStr.bind fun p => cString p mem

def argValue (valBytes : Option Nat) (valLen : Nat) (mem : Memory) : Option Bytes :=
  if valLen = 0 then none else valBytes.bind fun p => mem.read p valLen

/-- How many requests are made for a copy of the key. -/
def keyRequests (self : PacketT) (keyStr : Option Nat) : Nat := if keyStr = self.keyStr then 0 else 1

/-- How many requests are made for a copy of the value. -/
def valRequests (valBytes : Option Nat) (valLen : Nat) : Nat := if valBytes = none ∨ valLen = 0 then 0 else 1

/-- The value that is passed is freed before it is copied: it is the old value, or the old key and not the new one. -/
def SourceFreed (self : PacketT) (keyStr valBytes : Option Nat) (valLen : Nat) : Prop :=
  valLen ≠ 0 ∧ ∃ p, valBytes = some p ∧ (self.valBytes = some p ∨ self.keyStr = some p ∧ keyStr ≠ self.keyStr)

/-- The first `count` requests from `first` on are granted. -/
def Granted (al : Allocator UInt8) (first count : Nat) : Prop := ∀ i, i < count → al.grants (first + i) = true

/-- The data that the checksum is computed of: `val_size` is still the old one.  `none` when the value ends before
that. -/
def newData (self : PacketT) (key : Bytes) (new : Option Bytes) : Option Bytes :=
  if self.valSize = 0 then some key
  else new.bind fun val => if self.valSize ≤ val.length then some (dataOf key (val.take self.valSize)) else none

/-- The last step fails when there is no memory for it, and when the checksum is 0. -/
def ChecksumFails (al : Allocator UInt8) (self : PacketT) (request : Nat) (key : Bytes) (new : Option Bytes) : Prop :=
  al.grants request = false ∨ ∃ data, self.newData key new = some data ∧ calcXorChecksum data = 0

/-- Whatever the call reads is there: with memory for the key and the value, the value is not freed before it is copied,
and with memory for the checksum it is as long as `val_size` says. -/
def ReadsLive (al : Allocator UInt8) (self : PacketT) (keyStr valBytes : Option Nat) (valLen : Nat) (mem : Memory) :
    Prop :=
  ∀ key, argKey keyStr mem = some key → key ≠ [] → Granted al mem.requests (self.keyRequests keyStr) →
    Granted al (mem.requests + self.keyRequests keyStr) (valRequests valBytes valLen) →
      ¬ self.SourceFreed keyStr valBytes valLen ∧
        (al.grants (mem.requests + self.keyRequests keyStr + valRequests valBytes valLen) = true →
          (self.newData key (argValue valBytes valLen mem)).isSome)

/-- What a call that fails has done changes nothing: it fails before it has copied the key; or for want of memory for
the value, and the key is the old one; or at the checksum, and the key and the value are the old ones and the checksum
was 0 before. -/
def FailsClean (al : Allocator UInt8) (self : PacketT) (keyStr valBytes : Option Nat) (valLen : Nat) (mem : Memory) :
    Prop :=
  ∀ key, argKey keyStr mem = some key → key ≠ [] → Granted al mem.requests (self.keyRequests keyStr) →
    (¬ Granted al (mem.requests + self.keyRequests keyStr) (valRequests valBytes valLen) →
      self.keyText mem = some key) ∧
    (Granted al (mem.requests + self.keyRequests keyStr) (valRequests valBytes valLen) →
      ¬ self.SourceFreed keyStr valBytes valLen →
        ChecksumFails al self (mem.requests + self.keyRequests keyStr + valRequests valBytes valLen) key
            (argValue valBytes valLen mem) →
          self.keyText mem = some key ∧ self.valBlock mem = argValue valBytes valLen mem ∧ self.checksum = 0)

section Steps

variable {al : Allocator UInt8} {self : PacketT} {mem : Memory} {keyStr valBytes : Option Nat} {valLen k : Nat}
  {key : Bytes}

theorem granted_zero (al : Allocator UInt8) (first : Nat) : Granted al first 0 :=
  fun i hi => absurd hi (Nat.not_lt_zero i)

theorem granted_one {first : Nat} : Granted al first 1 ↔ al.grants first = true := by
  constructor
  · intro h
    exact h 0 Nat.one_pos
  · intro h i hi
    obtain rfl : i = 0 := by omega
    exact h

/-- The first step has left all blocks alone but the old key, which is freed unless it is the new one. -/
structure KeyStored (packet : PacketT) (keyStr : Option Nat) (mem mem' : Memory) : Prop where
  requests_eq : mem'.requests = mem.requests + packet.keyRequests keyStr
  other : ∀ q, q < mem.requests → packet.keyStr ≠ some q → mem'.blocks q = mem.blocks q
  old : ∀ q, packet.keyStr = some q → mem'.blocks q = if keyStr = packet.keyStr then mem.blocks q else none

/-- The first step: the key is copied, unless it is the packet's own. -/
theorem setKey_cases (al : Allocator UInt8) (hself : ∀ p, self.keyStr = some p → (mem.blocks p).isSome)
    (h : cString k mem = some key) :
    (¬ Granted al mem.requests (self.keyRequests (some k)) ∧
      setStrAutoAlloc al self.keyStr (some k) mem = some (false, self.keyStr, mem.request none)) ∨
    Granted al mem.requests (self.keyRequests (some k)) ∧
      ∃ p mem', setStrAutoAlloc al self.keyStr (some k) mem = some (true, some p, mem') ∧
        cString p mem' = some key ∧ (self.keyStr = some p ∨ p = mem.requests) ∧ self.KeyStored (some k) mem mem' := by
  by_cases hown : some k = self.keyStr
  · have hzero : self.keyRequests (some k) = 0 := if_pos hown
    rw [hzero]
    right
    refine ⟨granted_zero al _, k, mem, ?_, h, .inl hown.symm, ⟨by rw [hzero]; rfl, fun _ _ _ => rfl, fun q _ => ?_⟩⟩
    · rw [← hown]
      exact setStrAutoAlloc_self al h
    · rw [if_pos hown]
  · have hone : self.keyRequests (some k) = 1 := if_neg hown
    rw [hone, granted_one]
    have hne : self.keyStr ≠ some k := fun heq => hown heq.symm
    cases hal : al.grants mem.requests with
    | false => exact .inl ⟨by simp, setStrAutoAlloc_refused hal h hne⟩
    | true =>
      right
      obtain ⟨mem', hset, hrep⟩ := setStrAutoAlloc_granted hal hself h hne
      obtain ⟨rest, -, h0⟩ := cString_eq_some.1 h
      refine ⟨rfl, mem.requests, mem', hset, cString_eq_some.2 ⟨[], hrep.new, h0⟩, .inr rfl,
        ⟨by rw [hone, hrep.requests_eq], hrep.other, fun q hq => ?_⟩⟩
      rw [if_neg hown]
      exact hrep.freed q hq

/-- The second step: the value is copied, or freed when there is none. -/
theorem setVal_cases (al : Allocator UInt8) (hself : ∀ p, self.valBytes = some p → (mem.blocks p).isSome)
    (harg : ∀ p, valBytes = some p → valLen ≠ 0 → self.valBytes ≠ some p ∧ (mem.read p valLen).isSome) :
    (¬ Granted al mem.requests (valRequests valBytes valLen) ∧
      setBytesAutoAlloc al self.valBytes valBytes valLen mem = some (false, self.valBytes, mem.request none)) ∨
    Granted al mem.requests (valRequests valBytes valLen) ∧
      ∃ r mem', setBytesAutoAlloc al self.valBytes valBytes valLen mem = some (true, r, mem') ∧
        r.bind mem'.blocks = argValue valBytes valLen mem ∧ (∀ q, r = some q → (mem'.blocks q).isSome) ∧
        mem'.requests = mem.requests + valRequests valBytes valLen ∧
        ∀ q, q < mem.requests → self.valBytes ≠ some q → mem'.blocks q = mem.blocks q := by
  unfold valRequests
  by_cases hnone : valBytes = none ∨ valLen = 0
  · have hnew : argValue valBytes valLen mem = none := by
      unfold argValue
      rcases hnone with rfl | rfl <;> simp
    rw [if_pos hnone, hnew]
    right
    obtain ⟨mem', hset, hreq, hother⟩ := setBytesAutoAlloc_zero al hself hnone
    exact ⟨granted_zero al _, none, mem', hset, rfl, by simp, hreq, fun q _ hq => hother q hq⟩
  · rw [if_neg hnone, granted_one]
    obtain ⟨hsome, hlen⟩ := not_or.1 hnone
    obtain ⟨p, rfl⟩ := Option.ne_none_iff_exists'.1 hsome
    obtain ⟨hne, hread⟩ := harg p rfl hlen
    obtain ⟨val, hval⟩ := Option.isSome_iff_exists.1 hread
    have hnew : argValue (some p) valLen mem = some val := by
      rw [argValue, if_neg hlen, Option.bind_some, hval]
    rw [hnew]
    obtain ⟨b, hb, hle, htake⟩ := Heap.read_eq_some.1 hval
    have hsize : val.length = valLen := by
      rw [← htake, List.length_take]
      omega
    cases hal : al.grants mem.requests with
    | false => exact .inl ⟨by simp, setBytesAutoAlloc_refused hal hlen⟩
    | true =>
      right
      subst hsize
      have hvalne : val ≠ [] := fun h => hlen (by rw [h]; rfl)
      obtain ⟨mem', hset, hrep⟩ := setBytesAutoAlloc_granted hal hself hvalne hval hne
      refine ⟨rfl, some mem.requests, mem', hset, hrep.new, fun q hq => ?_, hrep.requests_eq, hrep.other⟩
      cases hq
      rw [hrep.new]
      rfl

/-- The second step with a value that has been freed, or is freed before it is copied. -/
theorem setVal_freed_cases {p : Nat} (al : Allocator UInt8)
    (hself : ∀ p, self.valBytes = some p → (mem.blocks p).isSome)
    (hlen : valLen ≠ 0) (hp : self.valBytes = some p ∨ p < mem.requests ∧ mem.blocks p = none) :
    (¬ Granted al mem.requests (valRequests (some p) valLen) ∧
      setBytesAutoAlloc al self.valBytes (some p) valLen mem = some (false, self.valBytes, mem.request none)) ∨
    Granted al mem.requests (valRequests (some p) valLen) ∧
      setBytesAutoAlloc al self.valBytes (some p) valLen mem = none := by
  have hone : valRequests (some p) valLen = 1 := if_neg (by simp [hlen])
  rw [hone, granted_one]
  cases hal : al.grants mem.requests with
  | false => exact .inl ⟨by simp, setBytesAutoAlloc_refused hal hlen⟩
  | true => exact .inr ⟨rfl, setBytesAutoAlloc_eq_none hal hself hlen hp⟩

/-- The data are those of a value that the packet holds. -/
theorem holds_of_newData {data : Bytes} (hk : self.keyText mem = some key)
    (h : self.newData key (self.valBlock mem) = some data) : ∃ val, self.Holds mem key val ∧ data = dataOf key val := by
  unfold newData at h
  have hkey : ∃ p, self.keyStr = some p ∧ cString p mem = some key := Option.bind_eq_some_iff.1 hk
  by_cases hsize : self.valSize = 0
  · rw [if_pos hsize, Option.some.injEq] at h
    exact ⟨[], ⟨hkey, hsize, fun hne => absurd rfl hne⟩, h.symm⟩
  · rw [if_neg hsize] at h
    obtain ⟨block, hblock, h⟩ := Option.bind_eq_some_iff.1 h
    obtain ⟨hle, h⟩ := Option.ite_none_right_eq_some.1 h
    obtain ⟨p, hp, hb⟩ := Option.bind_eq_some_iff.1 hblock
    have hlen : (block.take self.valSize).length = self.valSize := List.length_take_of_le hle
    refine ⟨block.take self.valSize, ⟨hkey, hlen.symm, fun _ => ⟨p, hp, ?_⟩⟩, (Option.some.inj h).symm⟩
    rw [hlen]
    exact Heap.read_eq_some.2 ⟨block, hb, hle, rfl⟩

/-- Without them, the bytes of the value cannot be read. -/
theorem read_of_newData_eq_none (h : self.newData key (self.valBlock mem) = none) :
    0 < self.valSize ∧ ∀ p, self.valBytes = some p → mem.read p self.valSize = none := by
  unfold newData at h
  by_cases hsize : self.valSize = 0
  · rw [if_pos hsize] at h
    cases h
  · refine ⟨Nat.pos_of_ne_zero hsize, fun p hp => ?_⟩
    rw [if_neg hsize, valBlock, hp, Option.bind_some] at h
    rw [Heap.read]
    cases hb : mem.blocks p with
    | none => rfl
    | some block =>
      rw [hb, Option.bind_some] at h
      refine if_neg fun hle => ?_
      rw [if_pos hle] at h
      cases h

/-- A value that cannot be read makes `packet_get_data_bytes` undefined. -/
theorem getDataBytes_eq_none {buf bufLen : Nat} (hk : self.keyText mem = some key) (hkey : key ≠ [])
    (hsize : 0 < self.valSize) (hlen : key.length + 1 + self.valSize ≤ bufLen) (hne : self.valBytes ≠ some buf)
    (hread : ∀ p, self.valBytes = some p → mem.read p self.valSize = none) :
    self.getDataBytes buf bufLen mem = none := by
  obtain ⟨p, hp, hstr⟩ := Option.bind_eq_some_iff.1 hk
  have hkeylen : ¬ key.length = 0 := mt List.length_eq_zero_iff.1 hkey
  unfold getDataBytes
  rw [hp]
  simp only [hstr, Option.bind_eq_bind, Option.bind_some, if_neg hkeylen]
  rw [if_pos hsize, if_pos hlen]
  cases hwrite : mem.write buf 0 (key ++ [0x3d, 0]) with
  | none => rfl
  | some mem' =>
    have hval : (self.valBytes.bind fun q => mem'.read q self.valSize) = none := by
      cases hq : self.valBytes with
      | none => rfl
      | some q =>
        have hqbuf : q ≠ buf := fun heq => hne (by rw [hq, heq])
        rw [Option.bind_some, ← hread q hq]
        exact Heap.read_congr ((Heap.changes_of_write hwrite).blocks_eq q hqbuf) _
    rw [Option.bind_some, hval]
    rfl

/-- `packet_calc_checksum` with the old size of the value. -/
theorem calcChecksum_cases (al : Allocator UInt8) (hk : self.keyText mem = some key) (hkey : key ≠ [])
    (hlive : ∀ p, self.valBytes = some p → (mem.blocks p).isSome) :
    (al.grants mem.requests = false ∧
      self.calcChecksum al mem = some (0, { self with checksum := 0 }, mem.request none)) ∨
    (al.grants mem.requests = true ∧ ∃ data mem', self.newData key (self.valBlock mem) = some data ∧
      self.calcChecksum al mem =
        some (calcXorChecksum data, { self with checksum := calcXorChecksum data }, mem') ∧ mem.Extends mem') ∨
    al.grants mem.requests = true ∧ self.newData key (self.valBlock mem) = none ∧
      self.calcChecksum al mem = none := by
  obtain ⟨p, hp, hstr⟩ := Option.bind_eq_some_iff.1 hk
  have hkeylen : ¬ key.length = 0 := mt List.length_eq_zero_iff.1 hkey
  cases hal : al.grants mem.requests with
  | false =>
    refine .inl ⟨rfl, ?_⟩
    unfold calcChecksum
    simp only [hp, hstr, Option.bind_eq_bind, Option.bind_some, if_neg hkeylen, Heap.malloc_of_refuses hal]
    rfl
  | true =>
    right
    cases hdata : self.newData key (self.valBlock mem) with
    | some data =>
      left
      obtain ⟨val, hholds, rfl⟩ := holds_of_newData hk hdata
      obtain ⟨mem', hcalc, hext⟩ := hholds.calcChecksum_spec hal hkey
      exact ⟨rfl, _, mem', rfl, hcalc, hext⟩
    | none =>
      refine .inr ⟨rfl, rfl, ?_⟩
      obtain ⟨hsize, hread⟩ := read_of_newData_eq_none hdata
      obtain ⟨mem₁, b, hmalloc, hext, hbuf, hlen⟩ := Heap.malloc_of_grants hal (key.length + self.valSize + 1)
      have hlt (q : Nat) (hq : self.valBytes = some q) : q < mem.requests := by
        obtain ⟨block, hb⟩ := Option.isSome_iff_exists.1 (hlive q hq)
        exact Heap.lt_requests hb
      have hk₁ : keyText { self with checksum := 0 } mem₁ = some key :=
        Option.bind_eq_some_iff.2 ⟨p, hp, cString_extends hext hstr⟩
      have hread₁ (q : Nat) (hq : self.valBytes = some q) : mem₁.read q self.valSize = none := by
        rw [Heap.read_congr (hext.blocks_eq q (hlt q hq))]
        exact hread q hq
      have hroom : key.length + 1 + self.valSize ≤ key.length + self.valSize + 1 := by omega
      have hget : getDataBytes { self with checksum := 0 } mem.requests (key.length + self.valSize + 1) mem₁ = none :=
        getDataBytes_eq_none hk₁ hkey hsize hroom (fun heq => Nat.lt_irrefl _ (hlt _ heq)) hread₁
      rw [hp] at hget
      unfold calcChecksum
      simp only [hp, hstr, Option.bind_eq_bind, Option.bind_some, if_neg hkeylen, hmalloc, hget]
      rfl

/-- The packet owns its blocks, the key that is passed is a string, and the value has its length. -/
structure ValidCall (packet : PacketT) (mem : Memory) (keyStr valBytes : Option Nat) (valLen : Nat) : Prop where
  owns : packet.Owns mem []
  key : ∀ p, keyStr = some p → (cString p mem).isSome
  val : ∀ p, valBytes = some p → valLen ≠ 0 → (mem.read p valLen).isSome

namespace ValidCall

variable {mem' : Memory}

/-- The first step keeps the old value. -/
theorem blocks_val (h : self.ValidCall mem keyStr valBytes valLen) (hs : self.KeyStored keyStr mem mem') {q : Nat}
    (hq : self.valBytes = some q) : q < mem.requests ∧ mem'.blocks q = mem.blocks q := by
  obtain ⟨b, hb⟩ := Option.isSome_iff_exists.1 (h.owns.val q hq).1
  have hlt := Heap.lt_requests hb
  exact ⟨hlt, hs.other q hlt fun hp => h.owns.ne q hp hq⟩

/-- The first step keeps the value that is passed, unless it frees it. -/
theorem read_arg (h : self.ValidCall mem keyStr valBytes valLen) (hfreed : ¬ self.SourceFreed keyStr valBytes valLen)
    (hs : self.KeyStored keyStr mem mem') {q : Nat} (hq : valBytes = some q) (hlen : valLen ≠ 0) :
    self.valBytes ≠ some q ∧ mem'.read q valLen = mem.read q valLen := by
  refine ⟨fun hv => hfreed ⟨hlen, q, hq, .inl hv⟩, ?_⟩
  obtain ⟨bytes, hread⟩ := Option.isSome_iff_exists.1 (h.val q hq hlen)
  obtain ⟨b, hb, -⟩ := Heap.read_eq_some.1 hread
  refine Heap.read_congr ?_ _
  by_cases hkey : self.keyStr = some q
  · have hsame : keyStr = self.keyStr := by
      by_contra hne
      exact hfreed ⟨hlen, q, hq, .inr ⟨hkey, hne⟩⟩
    rw [hs.old q hkey, if_pos hsame]
  · exact hs.other q (Heap.lt_requests hb) hkey

theorem argValue_eq (h : self.ValidCall mem keyStr valBytes valLen)
    (hfreed : ¬ self.SourceFreed keyStr valBytes valLen) (hs : self.KeyStored keyStr mem mem') :
    argValue valBytes valLen mem' = argValue valBytes valLen mem := by
  unfold argValue
  by_cases hlen : valLen = 0
  · rw [if_pos hlen, if_pos hlen]
  · rw [if_neg hlen, if_neg hlen]
    cases hq : valBytes with
    | none => rfl
    | some q => exact (h.read_arg hfreed hs hq hlen).2

/-- A value that the first step frees, or that the second one will, cannot be copied. -/
theorem source_gone (h : self.ValidCall mem keyStr valBytes valLen) (hs : self.KeyStored keyStr mem mem') {q : Nat}
    (hq : self.valBytes = some q ∨ self.keyStr = some q ∧ keyStr ≠ self.keyStr) :
    self.valBytes = some q ∨ q < mem'.requests ∧ mem'.blocks q = none := by
  refine hq.imp_right fun hkey => ⟨?_, ?_⟩
  · obtain ⟨b, hb⟩ := Option.isSome_iff_exists.1 (h.owns.key q hkey.1).1
    exact Nat.lt_of_lt_of_le (Heap.lt_requests hb) (hs.requests_eq ▸ Nat.le_add_right _ _)
  · rw [hs.old q hkey.1, if_neg hkey.2]

end ValidCall

theorem valBlock_congr {self' : PacketT} {mem' : Memory} (hv : self'.valBytes = self.valBytes)
    (h : ∀ q, self.valBytes = some q → mem'.blocks q = mem.blocks q) : self'.valBlock mem' = self.valBlock mem := by
  unfold valBlock
  rw [hv]
  cases hq : self.valBytes with
  | none => rfl
  | some q => exact h q hq

/-- The second step behind the first one, where the key is a string at `p`. -/
theorem setVal_after_key (al : Allocator UInt8) {mem' : Memory} {p : Nat}
    (ha : self.ValidCall mem keyStr valBytes valLen) (hs : self.KeyStored keyStr mem mem')
    (hstr : cString p mem' = some key) (hp : self.keyStr = some p ∨ p = mem.requests) :
    (¬ Granted al mem'.requests (valRequests valBytes valLen) ∧
      setBytesAutoAlloc al self.valBytes valBytes valLen mem' = some (false, self.valBytes, mem'.request none)) ∨
    (Granted al mem'.requests (valRequests valBytes valLen) ∧ self.SourceFreed keyStr valBytes valLen ∧
      setBytesAutoAlloc al self.valBytes valBytes valLen mem' = none) ∨
    Granted al mem'.requests (valRequests valBytes valLen) ∧ ¬ self.SourceFreed keyStr valBytes valLen ∧
      ∃ r mem'', setBytesAutoAlloc al self.valBytes valBytes valLen mem' = some (true, r, mem'') ∧
        cString p mem'' = some key ∧ r.bind mem''.blocks = argValue valBytes valLen mem ∧
        (∀ q, r = some q → (mem''.blocks q).isSome) ∧
        mem''.requests = mem'.requests + valRequests valBytes valLen := by
  have hlive (q : Nat) (hq : self.valBytes = some q) : (mem'.blocks q).isSome := by
    rw [(ha.blocks_val hs hq).2]
    exact (ha.owns.val q hq).1
  by_cases hfreed : self.SourceFreed keyStr valBytes valLen
  · obtain ⟨hlen, q, rfl, hq⟩ := hfreed
    refine (setVal_freed_cases al hlive hlen (ha.source_gone hs hq)).imp_right fun hnone => ?_
    exact .inl ⟨hnone.1, ⟨hlen, q, rfl, hq⟩, hnone.2⟩
  have harg (q : Nat) (hq : valBytes = some q) (hlen : valLen ≠ 0) :
      self.valBytes ≠ some q ∧ (mem'.read q valLen).isSome := by
    obtain ⟨hne, hread⟩ := ha.read_arg hfreed hs hq hlen
    rw [hread]
    exact ⟨hne, ha.val q hq hlen⟩
  rcases setVal_cases al hlive harg with hno | ⟨hgrant, r, mem'', hset, hblock, hr, hreq, hother⟩
  · exact .inl hno
  · -- the key is not the old value, which has been freed
    have hne : self.valBytes ≠ some p := by
      intro hv
      rcases hp with hown | rfl
      · exact ha.owns.ne p hown hv
      · exact Nat.lt_irrefl _ (ha.blocks_val hs hv).1
    rw [ha.argValue_eq hfreed hs] at hblock
    have hstr' := (cString_congr (hother p (lt_requests_of_cString hstr) hne)).trans hstr
    exact .inr (.inr ⟨hgrant, hfreed, r, mem'', hset, hstr', hblock, hr, hreq⟩)

/-- What `packet_set_key_value` has done when it comes to the checksum, or where it has stopped before. -/
theorem setKeyValue_cases (al : Allocator UInt8) (ha : self.ValidCall mem (some k) valBytes valLen)
    (h : cString k mem = some key) (hkey : key ≠ []) :
    (¬ Granted al mem.requests (self.keyRequests (some k)) ∧
      self.setKeyValue al (some k) valBytes valLen mem = some (false, self, mem.request none)) ∨
    (Granted al mem.requests (self.keyRequests (some k)) ∧
      ¬ Granted al (mem.requests + self.keyRequests (some k)) (valRequests valBytes valLen) ∧
      ∃ p mem', self.setKeyValue al (some k) valBytes valLen mem = some (false, { self with keyStr := some p }, mem') ∧
        cString p mem' = some key ∧ valBlock { self with keyStr := some p } mem' = self.valBlock mem) ∨
    (Granted al mem.requests (self.keyRequests (some k)) ∧
      Granted al (mem.requests + self.keyRequests (some k)) (valRequests valBytes valLen) ∧
      self.SourceFreed (some k) valBytes valLen ∧ self.setKeyValue al (some k) valBytes valLen mem = none) ∨
    Granted al mem.requests (self.keyRequests (some k)) ∧
      Granted al (mem.requests + self.keyRequests (some k)) (valRequests valBytes valLen) ∧
      ¬ self.SourceFreed (some k) valBytes valLen ∧
      ∃ p r mem', keyText { self with keyStr := some p, valBytes := r } mem' = some key ∧
        valBlock { self with keyStr := some p, valBytes := r } mem' = argValue valBytes valLen mem ∧
        (∀ q, r = some q → (mem'.blocks q).isSome) ∧
        mem'.requests = mem.requests + self.keyRequests (some k) + valRequests valBytes valLen ∧
        self.setKeyValue al (some k) valBytes valLen mem =
          (calcChecksum al { self with keyStr := some p, valBytes := r } mem').bind
            fun res => some (decide (res.1 ≠ 0), res.2.1, res.2.2) := by
  have hkeylen : ¬ key.length = 0 := mt List.length_eq_zero_iff.1 hkey
  unfold setKeyValue
  simp only [h, Option.bind_eq_bind, Option.bind_some, if_neg hkeylen]
  rcases setKey_cases al (fun p hp => (ha.owns.key p hp).1) h with ⟨hno, hset⟩ | ⟨hgrant, p, mem₁, hset, hstr, hp, hs⟩
  · refine .inl ⟨hno, ?_⟩
    rw [hset]
    rfl
  right
  rw [hset]
  simp only [Option.bind_some, not_true_eq_false, if_false]
  rw [← hs.requests_eq]
  rcases setVal_after_key al ha hs hstr hp with ⟨hno, hset'⟩ | ⟨hgrant', hfreed, hset'⟩ |
    ⟨hgrant', hfreed, r, mem₂, hset', hstr', hblock, hr, hreq⟩
  · -- the old value is still there
    have hkept : valBlock { self with keyStr := some p } (mem₁.request none) = self.valBlock mem := by
      refine valBlock_congr rfl fun q hq => ?_
      obtain ⟨hlt, hsame⟩ := ha.blocks_val hs hq
      have hext : mem₁.Extends (mem₁.request none) := .request mem₁ none
      rw [hext.blocks_eq q (by rw [hs.requests_eq]; omega), hsame]
    refine .inl ⟨hgrant, hno, p, _, ?_, cString_extends (.request mem₁ none) hstr, hkept⟩
    rw [hset']
    rfl
  · refine .inr (.inl ⟨hgrant, hgrant', hfreed, ?_⟩)
    rw [hset']
    rfl
  · refine .inr (.inr ⟨hgrant, hgrant', hfreed, p, r, mem₂, hstr', hblock, hr, hreq, ?_⟩)
    rw [hset']
    rfl

end Steps

/-! ### The size of the value -/

section ValSize

variable {al : Allocator UInt8} {self self' : PacketT} {mem mem' : Memory} {keyStr valBytes : Option Nat} {valLen : Nat}

theorem calcChecksum_valSize {checksum : UInt8} (h : self.calcChecksum al mem = some (checksum, self', mem')) :
    self'.valSize = self.valSize := by
  unfold calcChecksum at h
  cases hk : self.keyStr with
  | none =>
    simp only [hk] at h
    cases h
    rfl
  | some k =>
    simp only [hk, Option.bind_eq_bind] at h
    obtain ⟨key, -, h⟩ := Option.bind_eq_some_iff.1 h
    split_ifs at h
    · cases h
      rfl
    · rcases hmalloc : mem.malloc al (key.length + self.valSize + 1) with ⟨_ | buf, mem₁⟩
      · rw [hmalloc] at h
        cases h
        rfl
      · rw [hmalloc] at h
        obtain ⟨⟨realLen, mem₂⟩, -, h⟩ := Option.bind_eq_some_iff.1 h
        obtain ⟨data, -, h⟩ := Option.bind_eq_some_iff.1 h
        obtain ⟨mem₃, -, h⟩ := Option.bind_eq_some_iff.1 h
        cases h
        rfl

/-- `packet_set_key_value` never stores the size of the value. -/
theorem setKeyValue_valSize {ok : Bool}
    (h : self.setKeyValue al keyStr valBytes valLen mem = some (ok, self', mem')) : self'.valSize = self.valSize := by
  cases keyStr with
  | none =>
    cases h
    rfl
  | some k =>
    unfold setKeyValue at h
    obtain ⟨str, -, h⟩ := Option.bind_eq_some_iff.1 h
    split_ifs at h
    · cases h
      rfl
    obtain ⟨⟨ok₁, dest₁, mem₁⟩, -, h⟩ := Option.bind_eq_some_iff.1 h
    dsimp only at h
    split_ifs at h
    · obtain ⟨⟨ok₂, dest₂, mem₂⟩, -, h⟩ := Option.bind_eq_some_iff.1 h
      dsimp only at h
      split_ifs at h
      · obtain ⟨⟨checksum, self₃, mem₃⟩, hcalc, h⟩ := Option.bind_eq_some_iff.1 h
        have hsize := calcChecksum_valSize hcalc
        cases h
        exact hsize
      · cases h
        rfl
    · cases h
      rfl

end ValSize

/-! ### Failures -/

section Failures

variable {self : PacketT} {mem : Memory} {keyStr valBytes : Option Nat} {valLen : Nat}

theorem keyText_congr {self' : PacketT} {mem' : Memory} (hk : self'.keyStr = self.keyStr)
    (h : ∀ p, self.keyStr = some p → mem'.blocks p = mem.blocks p) : self'.keyText mem' = self.keyText mem := by
  unfold keyText
  rw [hk]
  cases hp : self.keyStr with
  | none => rfl
  | some p => exact cString_congr (h p hp)

theorem not_checksumFails {al : Allocator UInt8} {request : Nat} {key : Bytes} {new : Option Bytes}
    (hal : al.grants request = true)
    (h : ∀ data, self.newData key new = some data → calcXorChecksum data ≠ 0) :
    ¬ ChecksumFails al self request key new := by
  intro hfails
  rcases hfails with hno | ⟨data, hdata, hzero⟩
  · rw [hal] at hno
    cases hno
  · exact h data hdata hzero

/-- A request that is refused changes nothing. -/
theorem unchanged_request {args : List (Option Nat)} (h : self.Owns mem args) :
    self.Unchanged mem self (mem.request none) := by
  have hlt {p : Nat} (hlive : (mem.blocks p).isSome) : (mem.request none).blocks p = mem.blocks p := by
    obtain ⟨b, hb⟩ := Option.isSome_iff_exists.1 hlive
    exact (Heap.Extends.request mem none).blocks_eq p (Heap.lt_requests hb)
  refine ⟨rfl, keyText_congr rfl fun p hp => ?_, valBlock_congr rfl fun p hp => ?_, rfl, rfl⟩
  · exact hlt (h.key p hp).1
  · exact hlt (h.val p hp).1

/-- A packet that has got the key, the value and the checksum 0 is what it was when it had them before. -/
theorem unchanged_iff {p : Nat} {r : Option Nat} {new : Option Bytes} {key : Bytes} {mem₁ mem' : Memory}
    (hk : keyText { self with keyStr := some p, valBytes := r } mem₁ = some key)
    (hv : valBlock { self with keyStr := some p, valBytes := r } mem₁ = new)
    (hr : ∀ q, r = some q → (mem₁.blocks q).isSome) (hext : mem₁.Extends mem') :
    self.Unchanged mem { self with keyStr := some p, valBytes := r, checksum := 0 } mem' ↔
      self.keyText mem = some key ∧ self.valBlock mem = new ∧ self.checksum = 0 := by
  have hk' : keyText { self with keyStr := some p, valBytes := r, checksum := 0 } mem' = some key :=
    cString_extends hext hk
  have hv' : valBlock { self with keyStr := some p, valBytes := r, checksum := 0 } mem' = new := by
    rw [← hv]
    refine valBlock_congr rfl fun q hq => ?_
    obtain ⟨b, hb⟩ := Option.isSome_iff_exists.1 (hr q hq)
    exact hext.blocks_eq q (Heap.lt_requests hb)
  constructor
  · intro h
    exact ⟨h.key.symm.trans hk', h.val.symm.trans hv', h.checksum.symm⟩
  · intro h
    exact ⟨rfl, hk'.trans h.1.symm, hv'.trans h.2.1.symm, rfl, h.2.2.symm⟩

/-- The last step, on a packet that has got the key and the value. -/
theorem checksum_unchanged_iff (al : Allocator UInt8) {p : Nat} {r : Option Nat} {new : Option Bytes} {key : Bytes}
    {mem₁ : Memory} (hkey : key ≠ [])
    (hk : keyText { self with keyStr := some p, valBytes := r } mem₁ = some key)
    (hv : valBlock { self with keyStr := some p, valBytes := r } mem₁ = new)
    (hr : ∀ q, r = some q → (mem₁.blocks q).isSome) :
    (∀ self' mem', ((calcChecksum al { self with keyStr := some p, valBytes := r } mem₁).bind fun res =>
        some (decide (res.1 ≠ 0), res.2.1, res.2.2)) = some (false, self', mem') → self.Unchanged mem self' mem') ↔
      (ChecksumFails al self mem₁.requests key new →
        self.keyText mem = some key ∧ self.valBlock mem = new ∧ self.checksum = 0) := by
  rcases calcChecksum_cases al hk hkey hr with ⟨hal, hcalc⟩ | ⟨hal, data, mem₂, hdata, hcalc, hext⟩ |
    ⟨hal, hdata, hcalc⟩
  · rw [forall_prop_of_true (.inl hal), hcalc, ← unchanged_iff hk hv hr (.request mem₁ none)]
    simp
  · rw [hv] at hdata
    by_cases hzero : calcXorChecksum data = 0
    · rw [forall_prop_of_true (.inr ⟨data, hdata, hzero⟩), hcalc, ← unchanged_iff hk hv hr hext]
      simp [hzero]
    · -- the call succeeds
      have hno := not_checksumFails hal fun data' hdata' => by
        cases hdata.symm.trans hdata'
        exact hzero
      refine iff_of_true ?_ fun hfails => absurd hfails hno
      intro self' mem' h
      rw [hcalc] at h
      simp [hzero] at h
  · -- the value is read beyond its end
    rw [hv] at hdata
    have hno := not_checksumFails hal fun data' hdata' => by cases hdata.symm.trans hdata'
    refine iff_of_true ?_ fun hfails => absurd hfails hno
    intro self' mem' h
    rw [hcalc] at h
    cases h

/-- The last step has a result exactly when there is no memory for it, or the data can be read. -/
theorem checksum_isSome_iff (al : Allocator UInt8) {p : Nat} {r : Option Nat} {new : Option Bytes} {key : Bytes}
    {mem₁ : Memory} (hkey : key ≠ [])
    (hk : keyText { self with keyStr := some p, valBytes := r } mem₁ = some key)
    (hv : valBlock { self with keyStr := some p, valBytes := r } mem₁ = new)
    (hr : ∀ q, r = some q → (mem₁.blocks q).isSome) :
    ((calcChecksum al { self with keyStr := some p, valBytes := r } mem₁).bind fun res =>
        some (decide (res.1 ≠ 0), res.2.1, res.2.2)).isSome ↔
      (al.grants mem₁.requests = true → (self.newData key new).isSome) := by
  have hdata : newData { self with keyStr := some p, valBytes := r } key new = self.newData key new := rfl
  rcases calcChecksum_cases al hk hkey hr with ⟨hal, hcalc⟩ | ⟨hal, data, mem₂, hnew, hcalc, -⟩ | ⟨hal, hnew, hcalc⟩
  · rw [hcalc, hal]
    simp
  · rw [hv, hdata] at hnew
    rw [hcalc, hal, hnew]
    simp
  · rw [hv, hdata] at hnew
    rw [hcalc, hal, hnew]
    simp

/-- The key that a call is given is the text of its argument. -/
theorem forall_argKey {k : Nat} {key : Bytes} {P : Bytes → Prop} (hstr : cString k mem = some key) :
    (∀ key', argKey (some k) mem = some key' → P key') ↔ P key := by
  rw [argKey, Option.bind_some, hstr]
  simp

/-- The update has a result exactly when what it reads is there. -/
theorem setKeyValue_isSome_iff (al : Allocator UInt8) (ha : self.ValidCall mem keyStr valBytes valLen) :
    (self.setKeyValue al keyStr valBytes valLen mem).isSome ↔ ReadsLive al self keyStr valBytes valLen mem := by
  unfold ReadsLive
  cases keyStr with
  | none =>
    refine iff_of_true rfl ?_
    intro key hkey
    cases hkey
  | some k =>
  obtain ⟨key, hstr⟩ := Option.isSome_iff_exists.1 (ha.key k rfl)
  rw [forall_argKey hstr]
  by_cases hkey : key = []
  · subst hkey
    refine iff_of_true ?_ fun h => absurd rfl h
    rw [setKeyValue]
    simp [hstr]
  rw [forall_prop_of_true hkey]
  rcases setKeyValue_cases al ha hstr hkey with ⟨hno, heq⟩ | ⟨hgrant, hno, p, mem₁, heq, -, -⟩ |
    ⟨hgrant, hgrant', hfreed, heq⟩ | ⟨hgrant, hgrant', hfreed, p, r, mem₁, hk, hnew, hr, hreq, heq⟩
  · rw [heq]
    exact iff_of_true rfl fun hgrant => absurd hgrant hno
  · rw [heq]
    exact iff_of_true rfl fun _ hgrant' => absurd hgrant' hno
  · rw [heq, forall_prop_of_true hgrant, forall_prop_of_true hgrant']
    exact iff_of_false (by simp) fun h => h.1 hfreed
  · rw [forall_prop_of_true hgrant, forall_prop_of_true hgrant', and_iff_right hfreed, heq, ← hreq]
    exact checksum_isSome_iff al hkey hk hnew hr

/-- A call that fails leaves the packet as it was exactly when nothing that it has done before is a change. -/
theorem unchanged_of_failed_iff (al : Allocator UInt8) (ha : self.ValidCall mem keyStr valBytes valLen) :
    (∀ self' mem', self.setKeyValue al keyStr valBytes valLen mem = some (false, self', mem') →
      self.Unchanged mem self' mem') ↔ FailsClean al self keyStr valBytes valLen mem := by
  unfold FailsClean
  cases keyStr with
  | none =>
    refine iff_of_true ?_ ?_
    · intro self' mem' h
      cases h
      exact ⟨rfl, rfl, rfl, rfl, rfl⟩
    · intro key hkey
      cases hkey
  | some k =>
  obtain ⟨key, hstr⟩ := Option.isSome_iff_exists.1 (ha.key k rfl)
  rw [forall_argKey hstr]
  by_cases hkey : key = []
  · subst hkey
    refine iff_of_true ?_ fun h => absurd rfl h
    intro self' mem' h
    rw [setKeyValue] at h
    simp only [hstr, Option.bind_eq_bind, Option.bind_some, List.length_nil, if_true] at h
    cases h
    exact ⟨rfl, rfl, rfl, rfl, rfl⟩
  rw [forall_prop_of_true hkey]
  rcases setKeyValue_cases al ha hstr hkey with ⟨hno, heq⟩ | ⟨hgrant, hno, p, mem₁, heq, hp, hval⟩ |
    ⟨hgrant, hgrant', hfreed, heq⟩ | ⟨hgrant, hgrant', hfreed, p, r, mem₁, hk, hnew, hr, hreq, heq⟩
  · -- there is no memory for the key
    refine iff_of_true ?_ fun hgrant => absurd hgrant hno
    intro self' mem' h
    rw [heq] at h
    cases h
    exact unchanged_request ha.owns
  · -- there is no memory for the value
    rw [forall_prop_of_true hgrant, forall_prop_of_true hno, and_iff_left fun h => absurd h hno]
    constructor
    · intro h
      exact (h _ _ heq).key.symm.trans hp
    · intro h self' mem' h'
      rw [heq] at h'
      cases h'
      exact ⟨rfl, (show keyText { self with keyStr := some p } mem₁ = some key from hp).trans h.symm, hval, rfl, rfl⟩
  · -- the value is copied after it has been freed
    refine iff_of_true ?_ fun _ => ⟨fun hno => absurd hgrant' hno, fun _ h => absurd hfreed h⟩
    intro self' mem' h
    rw [heq] at h
    cases h
  · rw [forall_prop_of_true hgrant, forall_prop_of_true hgrant', forall_prop_of_true hfreed,
      and_iff_right fun h => absurd hgrant' h, heq, ← hreq]
    exact checksum_unchanged_iff al hkey hk hnew hr

/-- A call returns, and with the packet as it was when it returns false, exactly when what it reads is there and nothing
that it has done before it fails is a change. -/
theorem setKeyValue_unchanged_iff (al : Allocator UInt8) (ha : self.ValidCall mem keyStr valBytes valLen) :
    (∃ ok self' mem', self.setKeyValue al keyStr valBytes valLen mem = some (ok, self', mem') ∧
      (ok = false → self.Unchanged mem self' mem')) ↔
    ReadsLive al self keyStr valBytes valLen mem ∧ FailsClean al self keyStr valBytes valLen mem := by
  rw [← setKeyValue_isSome_iff al ha, ← unchanged_of_failed_iff al ha]
  constructor
  · intro h
    obtain ⟨ok, self', mem', heq, hsame⟩ := h
    rw [heq]
    refine ⟨rfl, fun self'' mem'' h => ?_⟩
    cases h
    exact hsame rfl
  · intro h
    obtain ⟨hsome, hsame⟩ := h
    obtain ⟨⟨ok, self', mem'⟩, heq⟩ := Option.isSome_iff_exists.1 hsome
    refine ⟨ok, self', mem', heq, ?_⟩
    rintro rfl
    exact hsame self' mem' heq

/-- A packet with the key `a` and no value. -/
def packetA : PacketT := ⟨true, some 0, none, 0, 0x61⟩

/-- The key of the packet, and the arguments `b` and `A`. -/
def memoryA : Memory :=
  ((Heap.empty.request (some [0x61, 0x00])).request (some [0x62, 0x00])).request (some [0x41])

/-- There is memory for one block more. -/
def grantingOne : Allocator UInt8 := ⟨fun n => n == 3, fun _ _ => 0⟩

theorem validCall_packetA : packetA.ValidCall memoryA (some 1) (some 2) 1 := by
  refine ⟨⟨fun p hp => ?_, fun p hp => ?_, fun p hp => ?_⟩, fun p hp => ?_, fun p hp _ => ?_⟩ <;> cases hp <;> decide

theorem setKeyValue_unchanged_iff_packetA :
    (∃ ok self' mem', packetA.setKeyValue grantingOne (some 1) (some 2) 1 memoryA = some (ok, self', mem') ∧
      (ok = false → packetA.Unchanged memoryA self' mem')) ↔
    ReadsLive grantingOne packetA (some 1) (some 2) 1 memoryA ∧
      FailsClean grantingOne packetA (some 1) (some 2) 1 memoryA :=
  setKeyValue_unchanged_iff grantingOne validCall_packetA

/-- There is memory for the key `b` and none for the value: the packet is left with the new key. -/
theorem not_setKeyValue_unchanged_every_call :
    ¬ ∀ (al : Allocator UInt8) (self : PacketT) (mem : Memory) (keyStr valBytes : Option Nat) (valLen : Nat),
      self.ValidCall mem keyStr valBytes valLen →
        ∀ self' mem', self.setKeyValue al keyStr valBytes valLen mem = some (false, self', mem') →
          self.Unchanged mem self' mem' := by
  intro h
  have hrun : (packetA.setKeyValue grantingOne (some 1) (some 2) 1 memoryA).map
      (fun res => (res.1, res.2.1.keyText res.2.2)) = some (false, some [0x62]) := by decide +kernel
  obtain ⟨⟨ok, self', mem'⟩, hres, heq⟩ := Option.map_eq_some_iff.1 hrun
  simp only [Prod.mk.injEq] at heq
  obtain ⟨rfl, hkey⟩ := heq
  have hsame := (h grantingOne packetA memoryA _ _ _ validCall_packetA self' mem' hres).key
  rw [hkey] at hsame
  exact absurd hsame (by decide +kernel)

end Failures

end WirelessUart.Firmware.PacketT
