import WirelessUart.Escapes
import WirelessUart.Link

/-!
# Two ends in different modes

Each program has its own option for the encoded mode, and nothing on the wire tells which one is set.  When only the
sender encodes, the receiver passes on the escapes themselves.  When only the receiver decodes, it takes for escapes
what is none: it passes on another value, or its decoder raises and the session ends.

A packet is passed on as it was sent exactly when its value is `Unchanged` by what is done at one end alone
(`receiveAll_mixed_iff`).  A Windows device path that begins with two backslashes is not, in either direction.
-/

namespace WirelessUart

open ByteLib

variable {e : Bool} {p : Packet} {v raw : Bytes}

/-! ### Values that the codec leaves alone -/

theorem encodeByte_eq_singleton : ∀ r, encodeByte r = [r] ↔ isWord r = true ∧ r ≠ 0x5c := by decide +kernel

/-- Encoding writes a text as it is when each byte stands for itself. -/
theorem bytesEncode_eq_self_iff (v : Bytes) : bytesEncode v = v ↔ ∀ r ∈ v, isWord r = true ∧ r ≠ 0x5c := by
  induction v with
  | nil => exact iff_of_true rfl (by simp)
  | cons r v ih =>
    have hcons : bytesEncode (r :: v) = encodeByte r ++ bytesEncode v := List.flatMap_cons
    rw [List.forall_mem_cons, ← ih, ← encodeByte_eq_singleton, hcons]
    constructor
    · intro h
      -- no byte is written for less than itself, so none is written for more
      have hlen := congrArg List.length h
      have hle := length_le_length_bytesEncode v
      have hpos := List.length_pos_iff.2 (encodeByte_ne_nil r)
      rw [List.length_append, List.length_cons] at hlen
      have happend : encodeByte r ++ bytesEncode v = [r] ++ v := h
      exact List.append_inj happend (by rw [List.length_singleton]; omega)
    · intro h
      rw [h.1, h.2, List.singleton_append]

/-- Decoding writes a text as it is when its pieces stand for themselves. -/
theorem bytesDecode_eq_self_iff (v : Bytes) :
    bytesDecode v = some v ↔ ∀ q ∈ pieces inHexRange v, q.Plain ∧ q ≠ .pair 0x5c :=
  Side.host.out_eq_self_iff v

/-- What is done to the value at one end alone leaves it as it is: the encoding, when the sender encodes, else the
decoding. -/
def Unchanged (e : Bool) (v : Bytes) : Prop :=
  if e then ∀ r ∈ v, isWord r = true ∧ r ≠ 0x5c else ∀ q ∈ pieces inHexRange v, q.Plain ∧ q ≠ .pair 0x5c

theorem Packet.doEncode_eq_self_iff (p : Packet) : p.doEncode = p ↔ bytesEncode p.valBytes = p.valBytes := by
  rw [doEncode]
  split
  · rename_i h
    rw [List.length_eq_zero_iff.1 h]
    exact iff_of_true rfl rfl
  · constructor
    · intro h
      exact congrArg valBytes h
    · intro h
      exact ext_key_val rfl h

theorem Packet.doDecode_eq_self_iff (p : Packet) : p.doDecode = some p ↔ bytesDecode p.valBytes = some p.valBytes := by
  rw [doDecode]
  split
  · rename_i h
    rw [List.length_eq_zero_iff.1 h]
    exact iff_of_true rfl rfl
  · rw [Option.map_eq_some_iff]
    constructor
    · rintro ⟨d, hd, h⟩
      rw [hd]
      exact congrArg some (congrArg valBytes h)
    · intro h
      exact ⟨p.valBytes, h, ext_key_val rfl rfl⟩

/-- The other end makes the same packet of the frame when its value is unchanged. -/
theorem received_mixed_iff (e : Bool) (p : Packet) :
    received (!e) (framed e p) = some p ↔ Unchanged e p.valBytes := by
  cases e with
  | true =>
    have h : received (!true) (framed true p) = some p ↔ p.doEncode = p := Option.some_inj
    rw [h, p.doEncode_eq_self_iff, bytesEncode_eq_self_iff]
    rfl
  | false =>
    have h : received (!false) (framed false p) = some p ↔ p.doDecode = some p := Iff.rfl
    rw [h, p.doDecode_eq_self_iff, bytesDecode_eq_self_iff]
    rfl

/-! ### Frames to an end in the other mode -/

/-- `send_packet` on the key and the value of a packet -/
theorem sendPacket_packet (e : Bool) (p : Packet) :
    sendPacket e p.keyStr (.bytes p.valBytes) = (framed e p).getBytes := by
  rw [sendPacket_bytes, ← p.eq_init]

/-- A packet that is passed on from its frame was made of it by `received`. -/
theorem received_of_receiveAll {e' : Bool} {q : Packet} {b : Bytes} (hq : q.Sendable) (hraw : q.getBytes = some raw)
    (h : receiveAll e' record ([], []) [raw] = .ok ([p], b)) : received e' q = some p := by
  obtain ⟨hparse, hreceive⟩ := receive_frame hq hraw
  rw [receiveAll, hreceive] at h
  cases hrecv : received e' q with
  | none =>
    rw [recvLoop_of_undecoded hparse hrecv] at h
    cases h
  | some q' =>
    have hfirst : recvLoop e' record [] raw = recvLoop e' record [q'] (raw.drop (7 + q'.dataSize)) :=
      recvLoop_of_some hparse hrecv rfl
    rw [hfirst] at h
    cases hloop : recvLoop e' record [q'] (raw.drop (7 + q'.dataSize)) with
    | raised st =>
      rw [hloop] at h
      cases h
    | ok st =>
      rw [hloop] at h
      injection h with h
      have hl : st.1 = [p] := congrArg Prod.fst h
      have hmono : [q'] <+: st.1 := recvLoop_record_mono hloop
      rw [hl] at hmono
      simpa using hmono

/-- A frame with an unchanged value is received, and the buffer is empty afterwards. -/
theorem arriving_mixed (hkey : p.keyStr ≠ "" ∧ '=' ∉ p.keyStr.toList)
    (h : sendPacket e p.keyStr (.bytes p.valBytes) = some raw) (hv : Unchanged e p.valBytes) :
    Arriving (!e) [] [raw] [p] := by
  rw [sendPacket_packet] at h
  -- the value has the same length at both ends, so the loop leaves the end symbol
  have hsame : framed e p = p := by
    cases e with
    | false => rfl
    | true => exact p.doEncode_eq_self_iff.2 ((bytesEncode_eq_self_iff _).2 hv)
  have hrecv := (received_mixed_iff e p).2 hv
  rw [hsame] at h hrecv
  have hs : (framed false p).Sendable := sendable_framed hkey h
  refine arriving_frame hs h hrecv ?_
  rw [(Packet.getBytes_eq_some.1 h).2, ← p.length_core, List.drop_left]
  decide

/-- All sequences of packets from `V` are passed on by an end in the other mode, each packet once and in order, exactly
when every packet of `V` that can be sent has a value that is unchanged. -/
theorem receiveAll_mixed_iff (e : Bool) (V : Set Packet) (hkey : ∀ p ∈ V, p.keyStr ≠ "" ∧ '=' ∉ p.keyStr.toList) :
    (∀ ps : List Packet, (∀ p ∈ ps, p ∈ V) → ∀ raws,
        ps.mapM (fun p => sendPacket e p.keyStr (.bytes p.valBytes)) = some raws →
        ∃ b, receiveAll (!e) record ([], []) raws = .ok (ps, b)) ↔
      ∀ p ∈ V, ∀ raw, sendPacket e p.keyStr (.bytes p.valBytes) = some raw → Unchanged e p.valBytes := by
  constructor
  · intro h p hp raw hraw
    obtain ⟨b, hb⟩ := h [p] (by simpa using hp) [raw] (by rw [List.mapM_cons, hraw]; rfl)
    rw [sendPacket_packet] at hraw
    exact (received_mixed_iff e p).1 (received_of_receiveAll (sendable_framed (hkey p hp) hraw) hraw hb)
  · intro h ps hps raws hraws
    refine ⟨[], ?_⟩
    induction ps generalizing raws with
    | nil =>
      rw [List.mapM_nil] at hraws
      cases hraws
      rfl
    | cons p ps ih =>
      rw [List.mapM_cons] at hraws
      obtain ⟨raw, hraw, hraws⟩ := Option.bind_eq_some_iff.1 hraws
      obtain ⟨raws', hraws', hraws⟩ := Option.bind_eq_some_iff.1 hraws
      cases hraws
      have hp := hps p (by simp)
      have hfirst := arriving_mixed (hkey p hp) hraw (h p hp raw hraw)
      have hrest := ih (fun q hq => hps q (List.mem_cons_of_mem _ hq)) raws' hraws'
      have hcons : raw :: raws' = [raw] ++ raws' := rfl
      rw [hcons, receiveAll_append, hfirst]
      dsimp only
      rw [receiveAll_record_append, hrest]
      rfl

/-- The path `\\.\COM10` from an end that does not encode to one that decodes. -/
theorem receiveAll_mixed_iff_path :
    (∀ ps : List Packet, (∀ p ∈ ps, p ∈ ({Packet.init "path" (encode "\\\\.\\COM10")} : Set Packet)) → ∀ raws,
        ps.mapM (fun p => sendPacket false p.keyStr (.bytes p.valBytes)) = some raws →
        ∃ b, receiveAll (!false) record ([], []) raws = .ok (ps, b)) ↔
      ∀ p ∈ ({Packet.init "path" (encode "\\\\.\\COM10")} : Set Packet), ∀ raw,
        sendPacket false p.keyStr (.bytes p.valBytes) = some raw → Unchanged false p.valBytes := by
  refine receiveAll_mixed_iff false _ fun p hp => ?_
  obtain rfl : p = _ := hp
  rw [Packet.keyStr_init]
  decide

/-- Its doubled backslash arrives as a single one. -/
example : ¬ Unchanged false (encode "\\\\.\\COM10") ∧ ¬ Unchanged true (encode "\\\\.\\COM10") := by
  rw [← Packet.valBytes_init "path" (encode "\\\\.\\COM10"), ← received_mixed_iff, ← received_mixed_iff]
  decide +kernel

end WirelessUart
