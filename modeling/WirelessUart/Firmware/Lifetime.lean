import WirelessUart.ByteLib.Ownership
import WirelessUart.Firmware.InPlace

/-!
# The life of a packet

Any calls of the functions of `wuart_packet.c` on a packet that begins with zeros, with any answers of the allocator:
no call is undefined, the packet owns the copies that it has made and nothing else, and `packet_release` gives back
exactly the memory that there was before (`Lives.run`).  So the failures of `packet_set_key_value` lose the old key,
but no memory.

No call sets `val_size`: it stays 0 for life.  Therefore `packet_do_encode` and `packet_do_decode` never get as far as
the buffer that they would free twice.
-/

namespace WirelessUart.Firmware.PacketT

open ByteLib

/-! ### A packet beside the memory of its caller -/

/-- The blocks of the packet. -/
def owned (self : PacketT) : Set Nat := {p | self.keyStr = some p ∨ self.valBytes = some p}

/-- The packet owns its key, which is a text, and its value; the rest of the memory is that of the caller. -/
structure Lives (base : Memory) (packet : PacketT) (mem : Memory) : Prop where
  beside : base.Beside mem packet.owned
  ne : ∀ p, packet.keyStr = some p → packet.valBytes ≠ some p
  key : ∀ p, packet.keyStr = some p → ∃ text, cString p mem = some text ∧ text ≠ []
  valSize : packet.valSize = 0

/-- The arguments of a call are memory of the caller: the key is a string, and the value has its length. -/
structure Passed (base : Memory) (keyStr valBytes : Option Nat) (valLen : Nat) : Prop where
  key : ∀ p, keyStr = some p → (cString p base).isSome
  val : ∀ p, valBytes = some p → valLen ≠ 0 → (base.read p valLen).isSome

section Lives

variable {al : Allocator UInt8} {base mem mem' : Memory} {self : PacketT} {keyStr valBytes : Option Nat}
  {valLen p : Nat} {S : Set Nat}

/-- A string of the caller is still there. -/
theorem cString_beside (h : base.Beside mem S) {text : Bytes} (hp : cString p base = some text) :
    cString p mem = some text ∧ p ∉ S := by
  obtain ⟨rest, hb, h0⟩ := cString_eq_some.1 hp
  obtain ⟨heq, hout⟩ := h.of_base (by rw [hb]; rfl)
  exact ⟨cString_eq_some.2 ⟨rest, heq.trans hb, h0⟩, hout⟩

theorem read_beside (h : base.Beside mem S) {n : Nat} {bytes : Bytes} (hp : base.read p n = some bytes) :
    mem.read p n = some bytes ∧ p ∉ S := by
  obtain ⟨b, hb, hlen, htake⟩ := Heap.read_eq_some.1 hp
  obtain ⟨heq, hout⟩ := h.of_base (by rw [hb]; rfl)
  exact ⟨Heap.read_eq_some.2 ⟨b, heq.trans hb, hlen, htake⟩, hout⟩

/-- A pointer to an owned block may be freed. -/
theorem freeUnlessNull_beside (ptr : Option Nat) (h : base.Beside mem S) (hptr : ∀ p, ptr = some p → p ∈ S) :
    ∃ mem', freeUnlessNull ptr mem = some mem' ∧ base.Beside mem' {p ∈ S | ptr ≠ some p} ∧
      ∀ q, ptr ≠ some q → mem'.blocks q = mem.blocks q := by
  cases ptr with
  | none => exact ⟨mem, rfl, h.congr (by simp), fun _ _ => rfl⟩
  | some p =>
    obtain ⟨mem', hfree, hbeside, hc⟩ := h.free (hptr p rfl)
    refine ⟨mem', hfree, hbeside.congr fun q => ?_, fun q hq => hc.blocks_eq q fun heq => hq (by rw [heq])⟩
    simp [eq_comm]

theorem lives_zero (base : Memory) : Lives base {} base where
  beside := (Heap.beside_self base).congr fun p => by simp [owned]
  ne p h := by cases h
  key p h := by cases h
  valSize := rfl

/-- What other blocks hold does not matter. -/
theorem Lives.of_blocks (h : Lives base self mem) (hbeside : base.Beside mem' self.owned)
    (hkey : ∀ q, self.keyStr = some q → mem'.blocks q = mem.blocks q) : Lives base self mem' := by
  refine ⟨hbeside, h.ne, fun q hq => ?_, h.valSize⟩
  rw [cString_congr (hkey q hq)]
  exact h.key q hq

/-- A request that is refused changes nothing. -/
theorem Lives.refused (h : Lives base self mem) : Lives base self (mem.request none) := by
  refine h.of_blocks h.beside.refused fun q hq => ?_
  have hext : mem.Extends (mem.request none) := .request mem none
  obtain ⟨text, htext, -⟩ := h.key q hq
  exact hext.blocks_eq q (lt_requests_of_cString htext)

/-- `packet_release` leaves the memory of the caller as it was. -/
theorem Lives.release (h : Lives base self mem) :
    ∃ mem', self.release mem = some ({}, mem') ∧ mem'.blocks = base.blocks ∧ Lives base {} mem' := by
  obtain ⟨mem₁, hkey, h₁, -⟩ := freeUnlessNull_beside self.keyStr h.beside fun p hp => Or.inl hp
  obtain ⟨mem₂, hval, h₂, -⟩ := freeUnlessNull_beside self.valBytes h₁ fun p hp =>
    ⟨Or.inr hp, fun hk => h.ne p hk hp⟩
  have hempty : base.Beside mem₂ ∅ := by
    refine h₂.congr fun p => iff_of_false ?_ (Set.notMem_empty p)
    rintro ⟨⟨hk | hv, hnk⟩, hnv⟩
    · exact hnk hk
    · exact hnv hv
  refine ⟨mem₂, ?_, hempty.blocks_eq, hempty.congr fun p => by simp [owned], fun p hp => (by cases hp),
    fun p hp => (by cases hp), rfl⟩
  rw [PacketT.release, hkey, Option.bind_eq_bind, Option.bind_some, hval]
  rfl

/-- The first step of `packet_set_key_value`: the copy of the key takes the place of the old one. -/
theorem Lives.setKey (al : Allocator UInt8) (h : Lives base self mem) {text : Bytes} (hp : cString p base = some text)
    (htext : text ≠ []) :
    ∃ ok dest mem', setStrAutoAlloc al self.keyStr (some p) mem = some (ok, dest, mem') ∧
      Lives base { self with keyStr := dest } mem' := by
  obtain ⟨hstr, hout⟩ := cString_beside h.beside hp
  have hne : self.keyStr ≠ some p := fun hk => hout (Or.inl hk)
  cases hal : al.grants mem.requests with
  | false => exact ⟨_, _, _, setStrAutoAlloc_refused hal hstr hne, h.refused⟩
  | true =>
    obtain ⟨mem', hset, hrep⟩ :=
      setStrAutoAlloc_granted hal (fun q hq => h.beside.isSome (Or.inl hq)) hstr hne
    obtain ⟨rest, -, h0⟩ := cString_eq_some.1 hstr
    refine ⟨_, _, mem', hset, ?_, fun q hq hv => ?_, fun q hq => ⟨text, ?_, htext⟩, h.valSize⟩
    · refine (h.beside.replaces hrep fun q hq => Or.inl hq).congr fun q => ?_
      constructor
      · rintro (rfl | ⟨hk | hv, hnk⟩)
        · exact Or.inl rfl
        · exact absurd hk hnk
        · exact Or.inr hv
      · rintro (hq | hv)
        · exact Or.inl (Option.some.inj hq).symm
        · exact Or.inr ⟨Or.inr hv, fun hk => h.ne q hk hv⟩
    · cases hq
      exact h.beside.requests_notMem (Or.inr hv)
    · cases hq
      exact cString_eq_some.2 ⟨[], hrep.new, h0⟩

/-- The second step: the copy of the value takes the place of the old one. -/
theorem Lives.setVal (al : Allocator UInt8) (h : Lives base self mem) (hval : ∀ p, valBytes = some p → valLen ≠ 0 →
    (base.read p valLen).isSome) :
    ∃ ok dest mem', setBytesAutoAlloc al self.valBytes valBytes valLen mem = some (ok, dest, mem') ∧
      Lives base { self with valBytes := dest } mem' := by
  by_cases hnone : valBytes = none ∨ valLen = 0
  · -- without a value, the old one is freed
    obtain ⟨mem', hfree, hbeside, hother⟩ := freeUnlessNull_beside self.valBytes h.beside fun q hq => Or.inr hq
    have hset : setBytesAutoAlloc al self.valBytes valBytes valLen mem = some (true, none, mem') := by
      unfold setBytesAutoAlloc setListAutoAlloc
      cases valBytes with
      | none => simp [hfree]
      | some q => simp [hnone.resolve_left (by simp), hfree]
    refine ⟨_, _, mem', hset, hbeside.congr fun q => ?_, fun q _ hv => (by cases hv), fun q hq => ?_, h.valSize⟩
    · constructor
      · rintro ⟨hk | hv, hnv⟩
        · exact Or.inl hk
        · exact absurd hv hnv
      · rintro (hk | hv)
        · exact ⟨Or.inl hk, h.ne q hk⟩
        · cases hv
    · rw [cString_congr (hother q (h.ne q hq))]
      exact h.key q hq
  · obtain ⟨hsome, hlen⟩ := not_or.1 hnone
    obtain ⟨p, rfl⟩ := Option.ne_none_iff_exists'.1 hsome
    obtain ⟨val, hread⟩ := Option.isSome_iff_exists.1 (hval p rfl hlen)
    obtain ⟨hread, hout⟩ := read_beside h.beside hread
    have hne : self.valBytes ≠ some p := fun hv => hout (Or.inr hv)
    have hsize : val.length = valLen := by
      obtain ⟨b, -, hle, rfl⟩ := Heap.read_eq_some.1 hread
      exact List.length_take_of_le hle
    subst hsize
    cases hal : al.grants mem.requests with
    | false => exact ⟨_, _, _, setBytesAutoAlloc_refused hal hlen, h.refused⟩
    | true =>
      obtain ⟨mem', hset, hrep⟩ := setBytesAutoAlloc_granted hal (fun q hq => h.beside.isSome (Or.inr hq))
        (fun hnil => hlen (by rw [hnil]; rfl)) hread hne
      refine ⟨_, _, mem', hset, ?_, fun q hq hv => ?_, fun q hq => ?_, h.valSize⟩
      · refine (h.beside.replaces hrep fun q hq => Or.inr hq).congr fun q => ?_
        constructor
        · rintro (rfl | ⟨hk | hv, hnv⟩)
          · exact Or.inr rfl
          · exact Or.inl hk
          · exact absurd hv hnv
        · rintro (hk | hq)
          · exact Or.inr ⟨Or.inl hk, h.ne q hk⟩
          · exact Or.inl (Option.some.inj hq).symm
      · cases hv
        exact h.beside.requests_notMem (Or.inl hq)
      · obtain ⟨text, htext, -⟩ := h.key q hq
        rw [cString_congr (hrep.other q (lt_requests_of_cString htext) (h.ne q hq))]
        exact h.key q hq

/-- The last step: the buffer of `packet_calc_checksum` is freed again. -/
theorem Lives.calcChecksum (al : Allocator UInt8) (h : Lives base self mem) :
    ∃ c mem', self.calcChecksum al mem = some (c, { self with checksum := c }, mem') ∧
      Lives base { self with checksum := c } mem' := by
  obtain hk | ⟨p, hk⟩ := Option.eq_none_or_eq_some self.keyStr
  · have hcalc : self.calcChecksum al mem = some (0, { self with checksum := 0 }, mem) := by
      unfold PacketT.calcChecksum
      rw [hk]
    exact ⟨0, mem, hcalc, h.beside, h.ne, h.key, h.valSize⟩
  · obtain ⟨text, hstr, htext⟩ := h.key p hk
    have hlen : ¬ text.length = 0 := mt List.length_eq_zero_iff.1 htext
    cases hal : al.grants mem.requests with
    | false =>
      have hcalc : self.calcChecksum al mem = some (0, { self with checksum := 0 }, mem.request none) := by
        unfold PacketT.calcChecksum
        simp only [hk, hstr, Option.bind_eq_bind, Option.bind_some, if_neg hlen, Heap.malloc_of_refuses hal]
        rfl
      exact ⟨0, _, hcalc, h.refused.beside, h.ne, h.refused.key, h.valSize⟩
    | true =>
      let cells : Bytes := (List.range (text.length + self.valSize + 1)).map (al.junk mem.requests)
      have hmalloc : mem.malloc al (text.length + self.valSize + 1) =
          (some mem.requests, mem.request (some cells)) := if_pos hal
      have hext : mem.Extends (mem.request (some cells)) := .request mem _
      have hholds : Holds { self with checksum := 0 } (mem.request (some cells)) text [] :=
        ⟨⟨p, hk, cString_extends hext hstr⟩, h.valSize, fun hne => absurd rfl hne⟩
      have hbuf : (mem.request (some cells)).blocks mem.requests = some cells := if_pos rfl
      have hroom : (dataOf text []).length ≤ text.length + self.valSize + 1 := by
        rw [h.valSize]
        exact Nat.le_succ _
      -- the buffer is filled, read and freed
      obtain ⟨mem₂, hdata, hc₂, hblock⟩ := hholds.getDataBytes_spec htext hbuf (fun hne => absurd rfl hne) hroom
        (by simp [cells])
      rw [hk] at hdata
      have hbeside₂ := (h.beside.granted cells).changes hc₂ (Set.mem_insert _ _) (by rw [hblock]; rfl)
      obtain ⟨mem₃, hfree, hbeside₃, hc₃⟩ := hbeside₂.free (Set.mem_insert _ _)
      have hcalc : self.calcChecksum al mem = some (calcXorChecksum text,
          { self with checksum := calcXorChecksum text }, mem₃) := by
        have hread := Heap.read_of_append hblock
        unfold PacketT.calcChecksum
        simp only [hk, hstr, Option.bind_eq_bind, Option.bind_some, if_neg hlen, hmalloc, hdata, hread, hfree]
        rfl
      have hlives : Lives base self mem₃ := by
        refine h.of_blocks (hbeside₃.congr fun q => ?_) fun q hq => ?_
        · rw [Set.mem_sdiff, Set.mem_insert_iff, Set.mem_singleton_iff]
          constructor
          · rintro ⟨rfl | hq, hne⟩
            · exact absurd rfl hne
            · exact hq
          · intro hq
            exact ⟨Or.inr hq, fun heq => h.beside.requests_notMem (heq ▸ hq)⟩
        · obtain ⟨_, htext', -⟩ := h.key q hq
          have hlt := lt_requests_of_cString htext'
          rw [hc₃.blocks_eq q (by omega), hc₂.blocks_eq q (by omega), hext.blocks_eq q hlt]
      exact ⟨_, mem₃, hcalc, hlives.beside, hlives.ne, hlives.key, hlives.valSize⟩

/-- Whatever fails, `packet_set_key_value` keeps the packet alive. -/
theorem Lives.setKeyValue (al : Allocator UInt8) (h : Lives base self mem)
    (hargs : Passed base keyStr valBytes valLen) :
    ∃ ok self' mem', self.setKeyValue al keyStr valBytes valLen mem = some (ok, self', mem') ∧
      Lives base self' mem' := by
  cases keyStr with
  | none => exact ⟨false, self, mem, rfl, h⟩
  | some p =>
    obtain ⟨text, hp⟩ := Option.isSome_iff_exists.1 (hargs.key p rfl)
    obtain ⟨hstr, -⟩ := cString_beside h.beside hp
    unfold PacketT.setKeyValue
    simp only [hstr, Option.bind_eq_bind, Option.bind_some]
    by_cases hlen : text.length = 0
    · rw [if_pos hlen]
      exact ⟨false, self, mem, rfl, h⟩
    rw [if_neg hlen]
    obtain ⟨ok, key, mem₁, hset, h₁⟩ := h.setKey al hp (mt List.length_eq_zero_iff.2 hlen)
    rw [hset]
    cases ok with
    | false => exact ⟨false, _, mem₁, rfl, h₁⟩
    | true =>
      obtain ⟨ok, val, mem₂, hset', h₂⟩ := h₁.setVal al hargs.val
      dsimp only at hset'
      simp only [Option.bind_some, not_true_eq_false, if_false, hset']
      cases ok with
      | false => exact ⟨false, _, mem₂, rfl, h₂⟩
      | true =>
        obtain ⟨c, mem₃, hcalc, h₃⟩ := h₂.calcChecksum al
        dsimp only at hcalc
        simp only [not_true_eq_false, if_false, hcalc]
        exact ⟨_, _, mem₃, rfl, h₃⟩

/-- The flag `ready` is not part of the packet's memory. -/
theorem Lives.ready (h : Lives base self mem) (ready : Bool) : Lives base { self with ready := ready } mem :=
  ⟨h.beside, h.ne, h.key, h.valSize⟩

theorem Lives.init (al : Allocator UInt8) (h : Lives base self mem) (hargs : Passed base keyStr valBytes valLen) :
    ∃ ok self' mem', self.init al keyStr valBytes valLen mem = some (ok, self', mem') ∧ Lives base self' mem' := by
  obtain ⟨mem₁, hrelease, -, h₁⟩ := h.release
  obtain ⟨ok, self', mem₂, hset, h₂⟩ := h₁.setKeyValue al hargs
  refine ⟨ok, _, mem₂, ?_, h₂.ready ok⟩
  rw [PacketT.init, hrelease]
  simp only [Option.bind_eq_bind, Option.bind_some, hset]
  rfl

/-- `packet_is_valid` can always be called. -/
theorem Lives.isValid (h : Lives base self mem) : ∃ valid, self.isValid mem = some valid := by
  unfold PacketT.isValid
  split
  · cases hk : self.keyStr with
    | none => exact ⟨false, rfl⟩
    | some p =>
      obtain ⟨text, hstr, -⟩ := h.key p hk
      exact ⟨_, by dsimp only; rw [hstr]; rfl⟩
  · exact ⟨false, rfl⟩

/-- Encoding in place is over before a buffer is requested. -/
theorem Lives.doEncode (al : Allocator UInt8) (h : Lives base self mem) :
    ∃ valid, self.isValid mem = some valid ∧ self.doEncode al mem = some (valid, self, mem) := by
  obtain ⟨valid, hvalid⟩ := h.isValid
  refine ⟨valid, hvalid, ?_⟩
  unfold PacketT.doEncode
  rw [hvalid, Option.bind_eq_bind, Option.bind_some]
  cases valid with
  | false => rfl
  | true => exact if_pos h.valSize

theorem Lives.doDecode (al : Allocator UInt8) (h : Lives base self mem) :
    ∃ valid, self.isValid mem = some valid ∧ self.doDecode al mem = some (valid, self, mem) := by
  obtain ⟨valid, hvalid⟩ := h.isValid
  refine ⟨valid, hvalid, ?_⟩
  unfold PacketT.doDecode
  rw [hvalid, Option.bind_eq_bind, Option.bind_some]
  cases valid with
  | false => rfl
  | true => exact if_pos h.valSize

end Lives

/-! ### Runs -/

/-- A call of a function of `wuart_packet.c` on the packet. -/
inductive Call
  | init (keyStr valBytes : Option Nat) (valLen : Nat)
  | setKeyValue (keyStr valBytes : Option Nat) (valLen : Nat)
  | calcChecksum
  | doEncode
  | doDecode
  | release
deriving DecidableEq

/-- The call, with what it returns; `none` when it is undefined. -/
def Call.exec (al : Allocator UInt8) (self : PacketT) (mem : Memory) : Call → Option (PacketT × Memory)
  | .init keyStr valBytes valLen => (self.init al keyStr valBytes valLen mem).map Prod.snd
  | .setKeyValue keyStr valBytes valLen => (self.setKeyValue al keyStr valBytes valLen mem).map Prod.snd
  | .calcChecksum => (self.calcChecksum al mem).map Prod.snd
  | .doEncode => (self.doEncode al mem).map Prod.snd
  | .doDecode => (self.doDecode al mem).map Prod.snd
  | .release => self.release mem

/-- The arguments of the call are memory of the caller. -/
def Call.Passes (base : Memory) : Call → Prop
  | .init keyStr valBytes valLen => Passed base keyStr valBytes valLen
  | .setKeyValue keyStr valBytes valLen => Passed base keyStr valBytes valLen
  | _ => True

/-- Some calls one after the other. -/
def run (al : Allocator UInt8) : PacketT × Memory → List Call → Option (PacketT × Memory)
  | st, [] => some st
  | st, c :: calls => (c.exec al st.1 st.2).bind fun st => run al st calls

section Run

variable {al : Allocator UInt8} {base mem : Memory} {self : PacketT} {c : Call} {calls : List Call}

theorem Lives.exec (al : Allocator UInt8) (h : Lives base self mem) (hc : c.Passes base) :
    ∃ self' mem', c.exec al self mem = some (self', mem') ∧ Lives base self' mem' := by
  cases c with
  | init keyStr valBytes valLen =>
    obtain ⟨ok, self', mem', heq, h'⟩ := h.init al hc
    exact ⟨self', mem', by rw [Call.exec, heq]; rfl, h'⟩
  | setKeyValue keyStr valBytes valLen =>
    obtain ⟨ok, self', mem', heq, h'⟩ := h.setKeyValue al hc
    exact ⟨self', mem', by rw [Call.exec, heq]; rfl, h'⟩
  | calcChecksum =>
    obtain ⟨checksum, mem', heq, h'⟩ := h.calcChecksum al
    exact ⟨_, mem', by rw [Call.exec, heq]; rfl, h'⟩
  | doEncode =>
    obtain ⟨valid, -, heq⟩ := h.doEncode al
    exact ⟨self, mem, by rw [Call.exec, heq]; rfl, h⟩
  | doDecode =>
    obtain ⟨valid, -, heq⟩ := h.doDecode al
    exact ⟨self, mem, by rw [Call.exec, heq]; rfl, h⟩
  | release =>
    obtain ⟨mem', heq, -, h'⟩ := h.release
    exact ⟨{}, mem', heq, h'⟩

theorem Lives.run (al : Allocator UInt8) (h : Lives base self mem) (hcalls : ∀ c ∈ calls, c.Passes base) :
    ∃ self' mem', run al (self, mem) calls = some (self', mem') ∧ Lives base self' mem' := by
  induction calls generalizing self mem with
  | nil => exact ⟨self, mem, rfl, h⟩
  | cons c calls ih =>
    obtain ⟨self', mem', hexec, h'⟩ := h.exec al (hcalls c List.mem_cons_self)
    obtain ⟨self'', mem'', hrun, h''⟩ := ih h' fun c hc => hcalls c (List.mem_cons_of_mem _ hc)
    exact ⟨self'', mem'', by rw [PacketT.run, hexec, Option.bind_some, hrun], h''⟩

/-- Any calls on a packet of zeros, whatever is granted: no call is undefined, the caller's memory stays as it is, the
size of the value stays 0, and a last `packet_release` leaves no block behind. -/
theorem run_zero_releases (al : Allocator UInt8) (base : Memory) (calls : List Call)
    (hcalls : ∀ c ∈ calls, c.Passes base) :
    ∃ self mem, run al ({}, base) calls = some (self, mem) ∧ self.valSize = 0 ∧
      (∀ p, p < base.requests → mem.blocks p = base.blocks p) ∧
      ∃ mem', self.release mem = some ({}, mem') ∧ mem'.blocks = base.blocks := by
  obtain ⟨self, mem, hrun, h⟩ := (lives_zero base).run al hcalls
  obtain ⟨mem', hrelease, hblocks, -⟩ := h.release
  exact ⟨self, mem, hrun, h.valSize, h.beside.kept, mem', hrelease, hblocks⟩

/-- The second copy of the key is refused. -/
theorem run_zero_releases_data :
    ∃ self mem, run ⟨fun n => n != 5, fun _ _ => 0⟩ ({}, arguments (encode "data") [0x41])
        [.init (some 0) (some 1) 1, .doEncode, .setKeyValue (some 0) none 0, .calcChecksum] = some (self, mem) ∧
      self.valSize = 0 ∧
      (∀ p, p < (arguments (encode "data") [0x41]).requests →
        mem.blocks p = (arguments (encode "data") [0x41]).blocks p) ∧
      ∃ mem', self.release mem = some ({}, mem') ∧ mem'.blocks = (arguments (encode "data") [0x41]).blocks := by
  have h0 : 0 ∉ encode "data" := by decide +kernel
  obtain ⟨⟨p, hp, hkey⟩, hval⟩ := args_arguments h0 [0x41]
  have hkey' (q : Nat) (hq : some 0 = some q) : (cString q (arguments (encode "data") [0x41])).isSome := by
    obtain rfl := Option.some.inj (hq.symm.trans hp)
    exact Option.isSome_of_eq_some hkey
  refine run_zero_releases _ _ _ fun c hc => ?_
  simp only [List.mem_cons, List.not_mem_nil, or_false] at hc
  rcases hc with rfl | rfl | rfl | rfl
  · refine ⟨hkey', fun q hq _ => ?_⟩
    obtain ⟨p', hp', hread⟩ := hval (List.cons_ne_nil _ _)
    obtain rfl := Option.some.inj (hq.symm.trans hp')
    exact Option.isSome_of_eq_some hread
  · trivial
  · exact ⟨hkey', fun q hq => (by cases hq)⟩
  · trivial

end Run

end WirelessUart.Firmware.PacketT
