import WirelessUart.Firmware.Packet

/-!
# Packets of the firmware and of the host

`packet_init` and the constructor of the host build the same packet only when there is no value, since the firmware
never stores the size of the value (`init_agrees_iff`).  It refuses a key whose checksum is 0, the value with which
`packet_calc_checksum` reports a failure (`init_valid_iff`).
-/

namespace WirelessUart.Firmware.PacketT

open ByteLib

/-- `packet_get_data_bytes` writes `data` to every buffer that is large enough and not one of the packet's blocks. -/
def Serialises (self : PacketT) (mem : Memory) (data : Bytes) : Prop :=
  ∀ (mem' : Memory) (buf : Nat) (cells : Bytes) (bufLen : Nat), mem.Extends mem' → mem'.blocks buf = some cells →
    self.keyStr ≠ some buf → self.valBytes ≠ some buf → data.length ≤ bufLen → bufLen ≤ cells.length →
      ∃ mem'', self.getDataBytes buf bufLen mem' = some (data.length, mem'') ∧ mem''.read buf data.length = some data

section Serialise

variable {self : PacketT} {mem : Memory} {key val data data' : Bytes}

theorem Holds.serialises (h : self.Holds mem key val) (hkey : key ≠ []) : self.Serialises mem (dataOf key val) := by
  intro mem' buf cells bufLen hext hbuf _ hne hlen hcells
  obtain ⟨mem'', hdata, -, hblock⟩ := (h.extends hext).getDataBytes_spec hkey hbuf (fun _ => hne) hlen hcells
  exact ⟨mem'', hdata, Heap.read_of_append hblock⟩

/-- A new buffer with room for both tells what the packet's data are. -/
theorem Serialises.unique (h : self.Serialises mem data) (h' : self.Serialises mem data')
    (hkey : ∀ p, self.keyStr = some p → p < mem.requests) (hval : ∀ p, self.valBytes = some p → p < mem.requests) :
    data = data' := by
  have hnew : (mem.request (some (List.replicate (data.length + data'.length) 0))).blocks mem.requests =
      some (List.replicate (data.length + data'.length) 0) := if_pos rfl
  have hk : self.keyStr ≠ some mem.requests := fun heq => Nat.lt_irrefl _ (hkey _ heq)
  have hv : self.valBytes ≠ some mem.requests := fun heq => Nat.lt_irrefl _ (hval _ heq)
  obtain ⟨mem₁, hrun, hread⟩ := h _ _ _ (data.length + data'.length) (.request mem _) hnew hk hv (by omega) (by simp)
  obtain ⟨mem₂, hrun', hread'⟩ := h' _ _ _ (data.length + data'.length) (.request mem _) hnew hk hv (by omega) (by simp)
  rw [hrun, Option.some.injEq, Prod.mk.injEq] at hrun'
  obtain ⟨hlen, rfl⟩ := hrun'
  rw [← hlen, hread] at hread'
  exact Option.some.inj hread'

/-- `packet_get_data_bytes` writes the key, and `=` and the value if there is one, at the front of a buffer that is
large enough, and else nothing.  It does so also when the buffer ends with its `bufLen` bytes, where a store behind them
would be undefined.  `packet_calc_checksum` has room for them, so with its buffer granted it stores and
returns the checksum that the host computes of the same data. -/
theorem serialise_spec (h : self.Holds mem key val) (hkey : key ≠ []) :
    (∀ (buf bufLen : Nat) (cells : Bytes), mem.blocks buf = some cells → bufLen ≤ cells.length →
      self.keyStr ≠ some buf → self.valBytes ≠ some buf →
        ((dataOf key val).length ≤ bufLen → ∃ mem',
          self.getDataBytes buf bufLen mem = some ((dataOf key val).length, mem') ∧ mem.Changes buf mem' ∧
            mem'.blocks buf = some (dataOf key val ++ cells.drop (dataOf key val).length)) ∧
        (bufLen < (dataOf key val).length → self.getDataBytes buf bufLen mem = some (0, mem))) ∧
    (∀ al : Allocator UInt8, al.grants mem.requests = true → ∃ mem',
      self.calcChecksum al mem = some (WirelessUart.calcChecksum (dataOf key val),
        { self with checksum := WirelessUart.calcChecksum (dataOf key val) }, mem') ∧ mem.Extends mem') ∧
    ∀ k : String, encode k = key → (Packet.init k val).dataBytes = dataOf key val := by
  refine ⟨?_, ?_, ?_⟩
  · intro buf bufLen cells hbuf hcells _ hne
    exact ⟨fun hlen => h.getDataBytes_spec hkey hbuf (fun _ => hne) hlen hcells, h.getDataBytes_short⟩
  · intro al hal
    rw [← calcXorChecksum_eq]
    exact h.calcChecksum_spec hal hkey
  · rintro k rfl
    rfl

end Serialise

section Init

variable {al : Allocator UInt8} {self : PacketT} {mem : Memory} {keyStr valBytes : Option Nat} {k : String} {v : Bytes}

/-- A packet that `packet_init` accepts has the data and the checksum of the host's packet exactly when there is no
value; it accepts none whose key has the checksum 0. -/
theorem init_agrees_iff (hal : ∀ n, al.grants n = true) (hk : k ≠ "") (ho : self.Owns mem [keyStr, valBytes])
    (ha : Args mem keyStr valBytes (encode k) v) :
    (∀ self' mem', init al self keyStr valBytes v.length mem = some (true, self', mem') →
      self'.Serialises mem' (Packet.init k v).dataBytes ∧ self'.checksum = (Packet.init k v).checksum) ↔
      v = [] ∨ WirelessUart.calcChecksum (encode k) = 0 := by
  have hkey : encode k ≠ [] := mt encode_eq_nil.1 hk
  obtain ⟨p, r, mem', hinit, hstr, hr⟩ := init_spec hal ho ha hkey
  have hholds : Holds ⟨decide (calcXorChecksum (encode k) ≠ 0), some p, r, 0, calcXorChecksum (encode k)⟩ mem'
      (encode k) [] := ⟨⟨p, rfl, hstr⟩, rfl, fun h => absurd rfl h⟩
  have hser := hholds.serialises hkey
  rw [hinit, ← calcXorChecksum_eq]
  simp only [Option.some.injEq, Prod.mk.injEq, decide_eq_true_eq]
  constructor
  · intro h
    by_contra hcond
    obtain ⟨hv, hchecksum⟩ := not_or.1 hcond
    -- the data are the key alone, and those of the host are longer
    have hp : p < mem'.requests := by
      obtain ⟨rest, hb, -⟩ := cString_eq_some.1 hstr
      exact Heap.lt_requests hb
    have hdata : encode k = WirelessUart.dataOf k v :=
      hser.unique (h _ _ ⟨hchecksum, rfl, rfl⟩).1 (fun q hq => Option.some.inj hq ▸ hp) hr
    have hlen := congrArg List.length hdata
    rw [WirelessUart.dataOf, if_pos (List.length_pos_iff.2 hv), List.length_append, List.length_append,
      List.length_singleton] at hlen
    omega
  · rintro (rfl | hzero) self' mem'' ⟨hne, rfl, rfl⟩
    · exact ⟨hser, calcXorChecksum_eq _⟩
    · exact absurd hzero hne

/-- `packet_init` on a zeroed packet succeeds, with a valid packet, exactly when the checksum of the key is not 0. -/
theorem init_valid_iff (hal : ∀ n, al.grants n = true) (hk : k ≠ "") (ha : Args mem keyStr valBytes (encode k) v) :
    (∃ self' mem', init al {} keyStr valBytes v.length mem = some (true, self', mem') ∧
      self'.isValid mem' = some true) ↔ WirelessUart.calcChecksum (encode k) ≠ 0 := by
  have hkey : encode k ≠ [] := mt encode_eq_nil.1 hk
  obtain ⟨p, r, mem', hinit, hstr, -⟩ := init_spec hal (owns_zero mem _) ha hkey
  rw [hinit, ← calcXorChecksum_eq]
  simp only [Option.some.injEq, Prod.mk.injEq, decide_eq_true_eq]
  constructor
  · intro h
    obtain ⟨self', mem'', ⟨hne, -, -⟩, -⟩ := h
    exact hne
  · intro hne
    refine ⟨_, _, ⟨hne, rfl, rfl⟩, ?_⟩
    simp [isValid, hstr, hne, List.length_pos_iff, hkey]

end Init

/-! ### Arguments in a memory of their own -/

/-- A string and a value, at the addresses 0 and 1. -/
def arguments (key val : Bytes) : Memory := (Heap.empty.request (some (key ++ [0]))).request (some val)

/-- Every request is granted, with zeros. -/
def granting : Allocator UInt8 := ⟨fun _ => true, fun _ _ => 0⟩

theorem grants_granting (n : Nat) : granting.grants n = true := rfl

theorem args_arguments {key : Bytes} (h : 0 ∉ key) (val : Bytes) :
    Args (arguments key val) (some 0) (some 1) key val where
  key := ⟨0, rfl, cString_eq_some.2 ⟨[], rfl, h⟩⟩
  val _ := ⟨1, rfl, Heap.read_eq_some.2 ⟨val, rfl, Nat.le_refl _, List.take_length⟩⟩

/-- A packet with a value, in a buffer that ends where its data end. -/
theorem serialise_spec_value :
    (∀ (buf bufLen : Nat) (cells : Bytes), (arguments (encode "data") [0x41]).blocks buf = some cells →
      bufLen ≤ cells.length → (some 0 : Option Nat) ≠ some buf → (some 1 : Option Nat) ≠ some buf →
        ((dataOf (encode "data") [0x41]).length ≤ bufLen → ∃ mem',
          PacketT.getDataBytes ⟨true, some 0, some 1, 1, 0⟩ buf bufLen (arguments (encode "data") [0x41]) =
              some ((dataOf (encode "data") [0x41]).length, mem') ∧
            (arguments (encode "data") [0x41]).Changes buf mem' ∧ mem'.blocks buf =
              some (dataOf (encode "data") [0x41] ++ cells.drop (dataOf (encode "data") [0x41]).length)) ∧
        (bufLen < (dataOf (encode "data") [0x41]).length →
          PacketT.getDataBytes ⟨true, some 0, some 1, 1, 0⟩ buf bufLen (arguments (encode "data") [0x41]) =
            some (0, arguments (encode "data") [0x41]))) ∧
    (∀ al : Allocator UInt8, al.grants (arguments (encode "data") [0x41]).requests = true → ∃ mem',
      PacketT.calcChecksum al ⟨true, some 0, some 1, 1, 0⟩ (arguments (encode "data") [0x41]) =
          some (WirelessUart.calcChecksum (dataOf (encode "data") [0x41]),
            ⟨true, some 0, some 1, 1, WirelessUart.calcChecksum (dataOf (encode "data") [0x41])⟩, mem') ∧
        (arguments (encode "data") [0x41]).Extends mem') ∧
    ∀ k : String, encode k = encode "data" → (Packet.init k [0x41]).dataBytes = dataOf (encode "data") [0x41] := by
  have hargs : Args (arguments (encode "data") [0x41]) (some 0) (some 1) (encode "data") [0x41] :=
    args_arguments (by decide +kernel) [0x41]
  have hholds : Holds ⟨true, some 0, some 1, 1, 0⟩ (arguments (encode "data") [0x41]) (encode "data") [0x41] :=
    ⟨hargs.key, rfl, hargs.val⟩
  exact serialise_spec hholds (by decide +kernel)

theorem init_agrees_iff_stop :
    (∀ self' mem', init granting {} (some 0) (some 1) ([] : Bytes).length (arguments (encode "stop") []) =
        some (true, self', mem') →
      self'.Serialises mem' (Packet.init "stop" []).dataBytes ∧ self'.checksum = (Packet.init "stop" []).checksum) ↔
      ([] : Bytes) = [] ∨ WirelessUart.calcChecksum (encode "stop") = 0 :=
  init_agrees_iff grants_granting (by decide) (owns_zero _ _) (args_arguments (by decide +kernel) [])

/-- The key `data` with the value `A`: the checksum is that of the key alone. -/
theorem not_init_agrees_every_packet :
    ¬ ∀ (al : Allocator UInt8) (self : PacketT) (mem : Memory) (keyStr valBytes : Option Nat) (k : String) (v : Bytes),
      (∀ n, al.grants n = true) → k ≠ "" → self.Owns mem [keyStr, valBytes] → Args mem keyStr valBytes (encode k) v →
        ∀ self' mem', init al self keyStr valBytes v.length mem = some (true, self', mem') →
          self'.Serialises mem' (Packet.init k v).dataBytes ∧ self'.checksum = (Packet.init k v).checksum := by
  intro h
  have hargs : Args (arguments (encode "data") [0x41]) (some 0) (some 1) (encode "data") [0x41] :=
    args_arguments (by decide +kernel) [0x41]
  obtain ⟨p, r, mem', hinit, -⟩ := init_spec grants_granting (owns_zero _ _) hargs (by decide +kernel)
  have hchecksum := (h _ _ _ _ _ "data" [0x41] grants_granting (by decide) (owns_zero _ _) hargs _ _ hinit).2
  have hne : calcXorChecksum (encode "data") ≠ (Packet.init "data" [0x41]).checksum := by decide +kernel
  exact hne hchecksum

theorem init_valid_iff_stop :
    (∃ self' mem', init granting {} (some 0) (some 1) ([] : Bytes).length (arguments (encode "stop") []) =
        some (true, self', mem') ∧ self'.isValid mem' = some true) ↔ WirelessUart.calcChecksum (encode "stop") ≠ 0 :=
  init_valid_iff grants_granting (by decide) (args_arguments (by decide +kernel) [])

/-- The key `aa` has the checksum 0. -/
theorem not_init_valid_every_packet :
    ¬ ∀ (al : Allocator UInt8) (mem : Memory) (keyStr valBytes : Option Nat) (k : String) (v : Bytes),
      (∀ n, al.grants n = true) → k ≠ "" → Args mem keyStr valBytes (encode k) v →
        ∃ self' mem', init al {} keyStr valBytes v.length mem = some (true, self', mem') ∧
          self'.isValid mem' = some true := by
  intro h
  have hargs : Args (arguments (encode "aa") []) (some 0) (some 1) (encode "aa") [] :=
    args_arguments (by decide +kernel) []
  obtain ⟨p, r, mem', hinit, -⟩ := init_spec grants_granting (owns_zero _ _) hargs (by decide +kernel)
  obtain ⟨self', mem'', htrue, -⟩ := h _ _ _ _ "aa" [] grants_granting (by decide) hargs
  rw [hinit, Option.some.injEq, Prod.mk.injEq] at htrue
  exact absurd htrue.1 (by decide +kernel)

end WirelessUart.Firmware.PacketT
