import Mathlib.Data.Set.Defs
import WirelessUart.Batch

/-!
# The encoded mode

With `data_encode` set, a packet is decoded between `parse` and the removal of its bytes, so the loop removes the
length of the decoded packet and leaves the difference, the `spill`, in the buffer.  It is cleared at the end of the
pass unless it holds a start symbol.

So the values that can be sent safely, in every order and number, are the ones whose spill holds no start symbol
(`receiveAll_sent_iff`).  For the converse, a value that spills a start symbol is sent again and again: the buffer is
never cleared, grows by the length of the spill, and in the end holds nothing but whole frames, one of which should
have been dispatched.
-/

namespace WirelessUart

open ByteLib

variable {p : Packet} {l l' : List Packet} {b b' : Bytes}

/-! ### The recording handler in either mode -/

private theorem length_drop_lt (hp : parse b = some p) (n : Nat) : (b.drop (7 + n)).length < b.length := by
  have := length_pos_of_find (find_isSome_of_parse hp)
  rw [List.length_drop]
  omega

/-- Packets are only added. -/
theorem recvLoop_record_mono {e : Bool} (h : recvLoop e record l b = .ok (l', b')) : l <+: l' := by
  induction hn : b.length using Nat.strong_induction_on generalizing l b with
  | _ n ih =>
    rcases recvLoop_ok_cases h with ⟨-, heq⟩ | ⟨p, q, s, hp, -, hs, hrest⟩
    · rw [(Prod.mk.inj heq).1]
    · cases hs
      have := ih _ (hn ▸ length_drop_lt hp _) hrest rfl
      exact (List.prefix_append l [q]).trans this

/-- The loop that passes on one packet. -/
theorem recvLoop_record_one {e : Bool} (h : recvLoop e record l b = .ok (l ++ [p], b')) :
    b' = b.drop (7 + p.dataSize) ∧ parse b' = none := by
  rcases recvLoop_ok_cases h with ⟨-, heq⟩ | ⟨p', q, s, hp, -, hs, hrest⟩
  · simp at heq
  · cases hs
    have hmono := recvLoop_record_mono hrest
    rw [List.prefix_append_right_inj] at hmono
    obtain rfl : q = p := by simpa using hmono
    rcases recvLoop_ok_cases hrest with ⟨hnone, heq⟩ | ⟨p', q', s, -, -, hs, hrest'⟩
    · obtain rfl := (Prod.mk.inj heq).2
      exact ⟨rfl, hnone⟩
    · cases hs
      have := (recvLoop_record_mono hrest').length_le
      simp only [List.length_append, List.length_singleton] at this
      omega

/-! ### Frames of encoded values -/

/-- The bytes of the frame of `v` that are left when the length of the decoded packet has been removed. -/
def spill (v raw : Bytes) : Bytes := raw.drop (7 + (Packet.init "data" v).dataSize)

section Sent

variable {v raw : Bytes}

theorem sent_eq_some :
    sendPacket true "data" (.bytes v) = some raw ↔
      (Packet.init "data" v).doEncode.dataSize < 2 ^ 32 ∧
        raw = (Packet.init "data" v).doEncode.core ++ symbolEndBytes := Packet.getBytes_eq_some

theorem sendable_sent (h : sendPacket true "data" (.bytes v) = some raw) :
    (Packet.init "data" v).doEncode.Sendable := by
  refine ⟨?_, ?_, (sent_eq_some.1 h).1⟩
  · rw [Packet.keyStr_doEncode, Packet.keyStr_init]
    decide
  · rw [Packet.keyStr_doEncode, Packet.keyStr_init]
    decide

theorem dataSize_le_doEncode (v : Bytes) :
    (Packet.init "data" v).dataSize ≤ (Packet.init "data" v).doEncode.dataSize := by
  rw [Packet.doEncode, Packet.valBytes_init]
  split
  · exact Nat.le_refl _
  · have := length_le_length_bytesEncode v
    rw [Packet.setKeyValue, Packet.dataSize_eq, Packet.dataSize_eq, Packet.dataBytes_init, Packet.dataBytes_init,
      dataOf, dataOf, if_pos (by omega), if_pos (by omega)]
    simp only [List.length_append, Packet.keyStr_init]
    omega

/-- The spill ends with the end symbol. -/
theorem spill_eq (h : sendPacket true "data" (.bytes v) = some raw) :
    spill v raw = (Packet.init "data" v).doEncode.core.drop (7 + (Packet.init "data" v).dataSize) ++
      symbolEndBytes := by
  have := dataSize_le_doEncode v
  rw [spill, (sent_eq_some.1 h).2, List.drop_append_of_le_length]
  rw [Packet.length_core]
  omega

theorem strip_sent (h : sendPacket true "data" (.bytes v) = some raw) : strip raw = raw ∧ raw ≠ [] := by
  have hraw : raw = stream [(Packet.init "data" v).doEncode] := by
    rw [(sent_eq_some.1 h).2]
    exact (List.append_nil _).symm
  constructor
  · rw [hraw]
    exact strip_stream _
  · rw [(sent_eq_some.1 h).2]
    simp [symbolEndBytes]

/-- A value that spills no start symbol is received, and the buffer is empty afterwards. -/
theorem receive_sent (h : sendPacket true "data" (.bytes v) = some raw)
    (hs : ¬ symbolStartBytes <:+: spill v raw) :
    receive true record (l, []) raw = .ok (l ++ [Packet.init "data" v], []) := by
  obtain ⟨hstrip, hne⟩ := strip_sent h
  have hparse : parse raw = some (Packet.init "data" v).doEncode := by
    rw [(sent_eq_some.1 h).2]
    exact (sendable_sent h).parse_core _
  have hrecv : received true (Packet.init "data" v).doEncode = some (Packet.init "data" v) :=
    Packet.doDecode_doEncode _
  have hflush : flush (spill v raw) = [] := by
    apply flush_of_no_start hs
    rw [spill_eq h]
    simp [symbolEndBytes]
  have hloop : recvLoop true record l raw = .ok (l ++ [Packet.init "data" v], spill v raw) := by
    rw [recvLoop_of_some hparse hrecv rfl]
    exact recvLoop_of_none (parse_of_no_start hs)
  rw [receive_of_ne (by rwa [hstrip]), hstrip, List.nil_append, hloop]
  exact congrArg (fun b => Outcome.ok (l ++ [Packet.init "data" v], b)) hflush

theorem receiveAll_sent {vs raws : List Bytes}
    (h : vs.mapM (fun v => sendPacket true "data" (.bytes v)) = some raws)
    (hs : ∀ v ∈ vs, ∀ raw, sendPacket true "data" (.bytes v) = some raw → ¬ symbolStartBytes <:+: spill v raw) :
    receiveAll true record (l, []) raws = .ok (l ++ vs.map (Packet.init "data" ·), []) := by
  induction vs generalizing raws l with
  | nil =>
    rw [List.mapM_nil] at h
    cases h
    rw [receiveAll, List.map_nil, List.append_nil]
  | cons v vs ih =>
    rw [List.mapM_cons] at h
    obtain ⟨raw, hraw, h⟩ := Option.bind_eq_some_iff.1 h
    obtain ⟨raws', hraws, h⟩ := Option.bind_eq_some_iff.1 h
    cases h
    rw [receiveAll, receive_sent hraw (hs v (by simp) raw hraw)]
    have := ih (l := l ++ [Packet.init "data" v]) hraws fun v hv => hs v (by simp [hv])
    rwa [List.append_assoc] at this

/-! ### A value sent again and again -/

/-- While every pass passes on one packet, a spilled start symbol keeps the buffer from being cleared. -/
theorem receiveAll_replicate (h : sendPacket true "data" (.bytes v) = some raw)
    (hs : symbolStartBytes <:+: spill v raw)
    (hall : ∀ k, ∃ b, receiveAll true record ([], []) (List.replicate k raw) =
      .ok (List.replicate k (Packet.init "data" v), b)) (k : Nat) :
    ∃ b, receiveAll true record ([], []) (List.replicate k raw) = .ok (List.replicate k (Packet.init "data" v), b) ∧
      b.length = k * (spill v raw).length ∧ b <:+ (List.replicate k raw).flatten ∧ (k ≠ 0 → parse b = none) := by
  induction k with
  | zero => exact ⟨[], rfl, by simp, List.nil_suffix, fun h => absurd rfl h⟩
  | succ k ih =>
    obtain ⟨b, hb, hlen, hsuf, -⟩ := ih
    obtain ⟨b', hb'⟩ := hall (k + 1)
    obtain ⟨hstrip, hne⟩ := strip_sent h
    refine ⟨b', hb', ?_⟩
    rw [List.replicate_succ', receiveAll_append, hb] at hb'
    simp only [receiveAll] at hb'
    rw [receive_of_ne (by rwa [hstrip]), hstrip, List.replicate_succ'] at hb'
    cases hloop : recvLoop true record (List.replicate k (Packet.init "data" v)) (b ++ raw) with
    | raised st => rw [hloop] at hb'; cases hb'
    | ok st =>
      rw [hloop] at hb'
      injection hb' with hb'
      obtain ⟨hl, hfl⟩ := Prod.mk.inj hb'
      obtain ⟨l, B⟩ := st
      dsimp only at hl hfl
      rw [hl] at hloop
      obtain ⟨hB, hnone⟩ := recvLoop_record_one hloop
      have hle : 7 + (Packet.init "data" v).dataSize ≤ raw.length := by
        have := dataSize_le_doEncode v
        rw [(sent_eq_some.1 h).2, List.length_append, Packet.length_core]
        omega
      have hsp : spill v raw <:+ B := by
        rw [hB, spill, List.drop_append]
        have : raw.drop (7 + (Packet.init "data" v).dataSize) <:+
            raw.drop (7 + (Packet.init "data" v).dataSize - b.length) := by
          exact List.drop_suffix_drop_left raw (Nat.sub_le _ _)
        exact this.trans (List.suffix_append _ _)
      -- the spill of the last frame is kept whole, so the buffer is not cleared
      rw [flush_of_start (hs.trans hsp.isInfix)] at hfl
      subst hfl
      refine ⟨?_, ?_, fun _ => hnone⟩
      · rw [hB, spill, List.length_drop, List.length_append, hlen, spill, List.length_drop, Nat.succ_mul]
        omega
      · rw [hB, List.replicate_succ', List.flatten_append, List.flatten_singleton]
        obtain ⟨t, ht⟩ := hsuf
        refine (List.drop_suffix _ _).trans ⟨t, ?_⟩
        rw [← List.append_assoc, ht]

/-- A value that spills a start symbol is not received when it is sent often enough. -/
theorem not_receiveAll_replicate (h : sendPacket true "data" (.bytes v) = some raw)
    (hs : symbolStartBytes <:+: spill v raw) :
    ¬ ∀ k, ∃ b, receiveAll true record ([], []) (List.replicate k raw) =
      .ok (List.replicate k (Packet.init "data" v), b) := by
  intro hall
  have hs2 := hs.length_le
  have hsle : (spill v raw).length ≤ raw.length := (List.drop_suffix _ raw).length_le
  have hne : raw.length ≠ 0 := by
    have : symbolStartBytes.length = 2 := rfl
    omega
  -- after as many frames as a frame has bytes, the buffer consists of whole frames
  obtain ⟨b, -, hlen, hsuf, hnone⟩ := receiveAll_replicate h hs hall raw.length
  have hwhole : (List.replicate (spill v raw).length raw).flatten <:+ (List.replicate raw.length raw).flatten := by
    obtain ⟨m, hm⟩ := Nat.exists_eq_add_of_le' hsle
    rw [hm, List.replicate_add, List.flatten_append]
    exact List.suffix_append _ _
  have hb : b = (List.replicate (spill v raw).length raw).flatten := by
    have hlen' : (List.replicate (spill v raw).length raw).flatten.length = b.length := by
      rw [hlen, List.length_flatten, List.map_replicate, List.sum_replicate_nat, Nat.mul_comm]
    exact (List.suffix_of_suffix_length_le hsuf hwhole hlen'.symm.le).eq_of_length hlen'.symm
  obtain ⟨m, hm⟩ : ∃ m, (spill v raw).length = m + 1 := by
    have : symbolStartBytes.length = 2 := rfl
    exact ⟨(spill v raw).length - 1, by omega⟩
  have hparse : parse b = some (Packet.init "data" v).doEncode := by
    rw [hb, hm, List.replicate_succ, List.flatten_cons]
    conv => lhs; rw [(sent_eq_some.1 h).2, List.append_assoc]
    exact (sendable_sent h).parse_core _
  rw [hnone hne] at hparse
  cases hparse

end Sent

/-! ### Safe values -/

/-- All sequences of values from `V` are received, each value once and in order, exactly when no value of `V` spills a
start symbol. -/
theorem receiveAll_sent_iff (V : Set Bytes) :
    (∀ vs : List Bytes, (∀ v ∈ vs, v ∈ V) → ∀ raws,
        vs.mapM (fun v => sendPacket true "data" (.bytes v)) = some raws →
        ∃ b, receiveAll true record ([], []) raws = .ok (vs.map (Packet.init "data" ·), b)) ↔
      ∀ v ∈ V, ∀ raw, sendPacket true "data" (.bytes v) = some raw → ¬ symbolStartBytes <:+: spill v raw := by
  constructor
  · intro h v hv raw hraw hs
    refine not_receiveAll_replicate hraw hs fun k => ?_
    have hmap : (List.replicate k v).mapM (fun v => sendPacket true "data" (.bytes v)) =
        some (List.replicate k raw) := by
      induction k with
      | zero => rfl
      | succ k ih => rw [List.replicate_succ, List.mapM_cons, hraw, ih]; rfl
    have := h (List.replicate k v) (fun w hw => (List.eq_of_mem_replicate hw) ▸ hv) _ hmap
    rwa [List.map_replicate] at this
  · intro h vs hvs raws hraws
    exact ⟨[], receiveAll_sent hraws fun v hv => h v (hvs v hv)⟩

/-- The spill of the first value is a start symbol with a length that never arrives. -/
theorem not_receiveAll_every_value :
    ¬ ∀ vs raws : List Bytes, vs.mapM (fun v => sendPacket true "data" (.bytes v)) = some raws →
      ∃ b, receiveAll true record ([], []) raws = .ok (vs.map (Packet.init "data" ·), b) := by
  intro h
  obtain ⟨b, hb⟩ := h [[0x01, 0x23, 0x24], [0x61]]
    [[0x23, 0x24, 11, 0, 0, 0, 0x64, 0x61, 0x74, 0x61, 0x3d, 0x5c, 0x78, 0x30, 0x31, 0x23, 0x24, 0x0f, 0x24, 0x23],
      [0x23, 0x24, 6, 0, 0, 0, 0x64, 0x61, 0x74, 0x61, 0x3d, 0x61, 0x4c, 0x24, 0x23]] (by decide +kernel)
  have hrun : receiveAll true record ([], [])
      [[0x23, 0x24, 11, 0, 0, 0, 0x64, 0x61, 0x74, 0x61, 0x3d, 0x5c, 0x78, 0x30, 0x31, 0x23, 0x24, 0x0f, 0x24, 0x23],
        [0x23, 0x24, 6, 0, 0, 0, 0x64, 0x61, 0x74, 0x61, 0x3d, 0x61, 0x4c, 0x24, 0x23]] =
      .ok ([Packet.init "data" [0x01, 0x23, 0x24]], [0x23, 0x24, 0x0f, 0x24, 0x23, 0x23, 0x24, 6, 0, 0, 0, 0x64,
        0x61, 0x74, 0x61, 0x3d, 0x61, 0x4c, 0x24, 0x23]) := by decide +kernel
  rw [hrun] at hb
  simp at hb

end WirelessUart
