import WirelessUart.Parse

/-!
# The receive loop

One turn of the loop in `WirelessUartClientHandler.handle` (server) and in `WirelessUartConnectHelper.handle`
(client), whose texts are the same: strip what `recv` returned, append it to `recv_buffer`, pass on the packets that
`parse` finds, and clear the buffer when its last byte cannot begin a start symbol (`receive`).  The handler is a
parameter; it may end with an exception, which ends the session.

Without `data_encode` and with a handler that returns, the loop is the function `drain` on buffers: it reads a packet
and removes as many bytes as the packet's frame has from the front of the buffer, until no packet can be read
(`recvLoop_plain`).  `deliver` is the same for a sequence of results of `recv` (`receiveAll_plain`).
-/

namespace WirelessUart

open ByteLib

/-! ### The loop of the source -/

/-- How a call ends: it returns, or an exception leaves it.  The state is kept in both cases. -/
inductive Outcome (σ : Type*)
  | ok (s : σ)
  | raised (s : σ)
deriving DecidableEq, Repr

variable {σ : Type*}

/-- `bytes.strip()` -/
def strip (raw : Bytes) : Bytes := trim isSpace raw

/-- The packet that is passed on: decoded in place when `data_encode` is set; `none` when the decoder raises. -/
def received (dataEncode : Bool) (p : Packet) : Option Packet := if dataEncode then p.doDecode else some p

theorem length_pos_of_find {b : Bytes} (h : (find symbolStartBytes b).isSome) : 0 < b.length := by
  obtain ⟨i, hi⟩ := Option.isSome_iff_exists.1 h
  exact Nat.zero_lt_of_lt (find_lt_length (by simp [symbolStartBytes]) hi)

/-- The inner `while` loop of `handle` on the state of the handler and `recv_buffer`. -/
def recvLoop (dataEncode : Bool) (handlePacket : σ → Packet → Outcome σ) (s : σ) (recvBuffer : Bytes) :
    Outcome (σ × Bytes) :=
  if _ : (find symbolStartBytes recvBuffer).isSome then
    match parse recvBuffer with
    | some newPacket =>
      match received dataEncode newPacket with
      | some p =>
        match handlePacket s p with
        | .ok s' => recvLoop dataEncode handlePacket s' (recvBuffer.drop (2 + 4 + 1 + p.dataSize))
        | .raised s' => .raised (s', recvBuffer.drop (2 + 4 + 1 + p.dataSize))
      | none => .raised (s, recvBuffer)
    | none => .ok (s, recvBuffer)
  else .ok (s, recvBuffer)
termination_by recvBuffer.length
decreasing_by
  have := length_pos_of_find (by assumption)
  rw [List.length_drop]
  omega

/-- The end of a pass: clear the buffer unless it holds a start symbol or ends with the byte that is tested for. -/
def flush (recvBuffer : Bytes) : Bytes :=
  if recvBuffer.length > 0 ∧ find symbolStartBytes recvBuffer = none ∧
      recvBuffer.getLast? ≠ some (UInt8.ofNat (packetMin &&& 0xFF)) then []
  else recvBuffer

/-- What `handle` does with one result of `recv`. -/
def receive (dataEncode : Bool) (handlePacket : σ → Packet → Outcome σ) (st : σ × Bytes) (raw : Bytes) :
    Outcome (σ × Bytes) :=
  let recvRaw := strip raw
  if recvRaw.length > 0 then
    match recvLoop dataEncode handlePacket st.1 (st.2 ++ recvRaw) with
    | .ok (s, recvBuffer) => .ok (s, flush recvBuffer)
    | .raised st' => .raised st'
  else .ok st

/-- The results of `recv` one after the other; an exception ends the session. -/
def receiveAll (dataEncode : Bool) (handlePacket : σ → Packet → Outcome σ) :
    σ × Bytes → List Bytes → Outcome (σ × Bytes)
  | st, [] => .ok st
  | st, raw :: raws =>
    match receive dataEncode handlePacket st raw with
    | .ok st' => receiveAll dataEncode handlePacket st' raws
    | .raised st' => .raised st'

/-- The handler that returns normally and keeps the list of the packets it was given. -/
def record (dispatched : List Packet) (p : Packet) : Outcome (List Packet) := .ok (dispatched ++ [p])

/-! ### Turns of the loop -/

section Turns

variable {dataEncode : Bool} {handlePacket : σ → Packet → Outcome σ} {s s' : σ} {b : Bytes}

theorem recvLoop_of_none (h : parse b = none) : recvLoop dataEncode handlePacket s b = .ok (s, b) := by
  rw [recvLoop, h]
  split <;> rfl

theorem find_isSome_of_parse {p : Packet} (h : parse b = some p) : (find symbolStartBytes b).isSome := by
  by_contra hf
  rw [find_isSome] at hf
  rw [parse_of_no_start hf] at h
  cases h

theorem recvLoop_of_some {p q : Packet} (h : parse b = some p) (hq : received dataEncode p = some q)
    (hs : handlePacket s q = .ok s') :
    recvLoop dataEncode handlePacket s b = recvLoop dataEncode handlePacket s' (b.drop (7 + q.dataSize)) := by
  rw [recvLoop, dif_pos (find_isSome_of_parse h), h]
  simp only [hq, hs]

theorem recvLoop_of_undecoded {p : Packet} (h : parse b = some p) (hq : received dataEncode p = none) :
    recvLoop dataEncode handlePacket s b = .raised (s, b) := by
  rw [recvLoop, dif_pos (find_isSome_of_parse h), h]
  simp only [hq]

theorem recvLoop_of_raised {p q : Packet} (h : parse b = some p) (hq : received dataEncode p = some q)
    (hs : handlePacket s q = .raised s') :
    recvLoop dataEncode handlePacket s b = .raised (s', b.drop (7 + q.dataSize)) := by
  rw [recvLoop, dif_pos (find_isSome_of_parse h), h]
  simp only [hq, hs]

/-- What a loop that ends normally did in its first turn. -/
theorem recvLoop_ok_cases {r : σ × Bytes} (h : recvLoop dataEncode handlePacket s b = .ok r) :
    (parse b = none ∧ r = (s, b)) ∨
      ∃ p q s', parse b = some p ∧ received dataEncode p = some q ∧ handlePacket s q = .ok s' ∧
        recvLoop dataEncode handlePacket s' (b.drop (7 + q.dataSize)) = .ok r := by
  cases hp : parse b with
  | none =>
    rw [recvLoop_of_none hp] at h
    injection h with h
    exact .inl ⟨rfl, h.symm⟩
  | some p =>
    right
    rw [recvLoop, dif_pos (find_isSome_of_parse hp), hp] at h
    dsimp only at h
    split at h
    · rename_i q hq
      split at h
      · rename_i s' hs
        exact ⟨p, q, s', rfl, hq, hs, h⟩
      · cases h
    · cases h

theorem receive_of_ne {raw : Bytes} (hr : strip raw ≠ []) {st : σ × Bytes} :
    receive dataEncode handlePacket st raw =
      match recvLoop dataEncode handlePacket st.1 (st.2 ++ strip raw) with
      | .ok (s, recvBuffer) => .ok (s, flush recvBuffer)
      | .raised st' => .raised st' := by
  rw [receive, if_pos (List.length_pos_iff.2 hr)]

theorem receiveAll_append (st : σ × Bytes) (as bs : List Bytes) :
    receiveAll dataEncode handlePacket st (as ++ bs) =
      match receiveAll dataEncode handlePacket st as with
      | .ok st' => receiveAll dataEncode handlePacket st' bs
      | .raised st' => .raised st' := by
  induction as generalizing st with
  | nil => rfl
  | cons a as ih =>
    rw [List.cons_append, receiveAll, receiveAll]
    cases receive dataEncode handlePacket st a with
    | ok st' => exact ih st'
    | raised st' => rfl

end Turns

/-! ### Buffers without the handler -/

/-- The packets that a buffer yields, and what is left of it. -/
def drain (b : Bytes) : List Packet × Bytes :=
  match h : parse b with
  | some p =>
    let rest := drain (b.drop (7 + p.dataSize))
    (p :: rest.1, rest.2)
  | none => ([], b)
termination_by b.length
decreasing_by
  have := length_pos_of_find (find_isSome_of_parse h)
  rw [List.length_drop]
  omega

theorem drain_of_none {b : Bytes} (h : parse b = none) : drain b = ([], b) := by
  rw [drain]
  split
  · rename_i hp; rw [h] at hp; cases hp
  · rfl

theorem drain_of_some {b : Bytes} {p : Packet} (h : parse b = some p) :
    drain b = (p :: (drain (b.drop (7 + p.dataSize))).1, (drain (b.drop (7 + p.dataSize))).2) := by
  rw [drain]
  split
  · rename_i q hq; rw [h] at hq; cases hq; rfl
  · rename_i hp; rw [h] at hp; cases hp

/-- Induction along the packets that a buffer yields. -/
theorem drain_induction {motive : Bytes → Prop} (none : ∀ b, parse b = none → motive b)
    (some : ∀ b p, parse b = some p → motive (b.drop (7 + p.dataSize)) → motive b) (b : Bytes) : motive b := by
  induction b using drain.induct with
  | case1 b p h ih => exact some b p h ih
  | case2 b h => exact none b h

/-- In plain mode, with a handler that returns, the loop passes on what `drain` yields. -/
theorem recvLoop_plain (f : σ → Packet → σ) (s : σ) (b : Bytes) :
    recvLoop false (fun s p => .ok (f s p)) s b = .ok ((drain b).1.foldl f s, (drain b).2) := by
  induction b using drain_induction generalizing s with
  | none b h => rw [recvLoop_of_none h, drain_of_none h]; rfl
  | some b p h ih => rw [recvLoop_of_some h rfl rfl, ih, drain_of_some h]; rfl

/-- One result of `recv`: the packets passed on, and the buffer afterwards. -/
def pass (b raw : Bytes) : List Packet × Bytes :=
  if strip raw = [] then ([], b) else ((drain (b ++ strip raw)).1, flush (drain (b ++ strip raw)).2)

/-- A sequence of results of `recv`. -/
def deliver : Bytes → List Bytes → List Packet × Bytes
  | b, [] => ([], b)
  | b, raw :: raws => ((pass b raw).1 ++ (deliver (pass b raw).2 raws).1, (deliver (pass b raw).2 raws).2)

theorem receive_plain (f : σ → Packet → σ) (s : σ) (b raw : Bytes) :
    receive false (fun s p => .ok (f s p)) (s, b) raw = .ok ((pass b raw).1.foldl f s, (pass b raw).2) := by
  by_cases hr : strip raw = []
  · rw [receive, if_neg (by simp [hr]), pass, if_pos hr]
    rfl
  · rw [receive_of_ne hr, recvLoop_plain, pass, if_neg hr]

theorem receiveAll_plain (f : σ → Packet → σ) (s : σ) (b : Bytes) (raws : List Bytes) :
    receiveAll false (fun s p => .ok (f s p)) (s, b) raws =
      .ok ((deliver b raws).1.foldl f s, (deliver b raws).2) := by
  induction raws generalizing s b with
  | nil => rfl
  | cons raw raws ih =>
    rw [receiveAll, receive_plain, deliver]
    simp only [ih, List.foldl_append]

private theorem foldl_concat (ps l : List Packet) : ps.foldl (fun l p => l ++ [p]) l = l ++ ps := by
  induction ps generalizing l with
  | nil => exact (List.append_nil l).symm
  | cons p ps ih => rw [List.foldl_cons, ih, List.append_assoc, List.singleton_append]

/-- What the recording handler sees. -/
theorem receive_record (l : List Packet) (b raw : Bytes) :
    receive false record (l, b) raw = .ok (l ++ (pass b raw).1, (pass b raw).2) := by
  rw [← foldl_concat]
  exact receive_plain (fun (l : List Packet) p => l ++ [p]) l b raw

theorem receiveAll_record (l : List Packet) (b : Bytes) (raws : List Bytes) :
    receiveAll false record (l, b) raws = .ok (l ++ (deliver b raws).1, (deliver b raws).2) := by
  rw [← foldl_concat]
  exact receiveAll_plain (fun (l : List Packet) p => l ++ [p]) l b raws

theorem deliver_append (b : Bytes) (as bs : List Bytes) :
    deliver b (as ++ bs) =
      ((deliver b as).1 ++ (deliver (deliver b as).2 bs).1, (deliver (deliver b as).2 bs).2) := by
  induction as generalizing b with
  | nil => rfl
  | cons a as ih => rw [List.cons_append, deliver, ih, deliver, List.append_assoc]

theorem deliver_singleton (b raw : Bytes) : deliver b [raw] = pass b raw := by
  rw [deliver, deliver, List.append_nil]

/-! ### The end of a pass -/

theorem flush_of_start {b : Bytes} (h : symbolStartBytes <:+: b) : flush b = b := by
  rw [flush, if_neg]
  exact fun hb => find_eq_none.1 hb.2.1 h

/-- A buffer without a start symbol is cleared unless it ends with the byte 8. -/
theorem flush_of_no_start {b : Bytes} (h : ¬ symbolStartBytes <:+: b) (hl : b.getLast? ≠ some 8) :
    flush b = [] := by
  cases b with
  | nil => rfl
  | cons x b => exact if_pos ⟨by simp, find_eq_none.2 h, hl⟩

theorem flush_eq (b : Bytes) : flush b = [] ∨ flush b = b := by
  unfold flush
  split
  · exact .inl rfl
  · exact .inr rfl

/-! ### Where packets come from -/

/-- `b` holds a frame with the right checksum whose data are split into `p`. -/
def ReadFrom (p : Packet) (b : Bytes) : Prop :=
  ∃ d, d.length < 2 ^ 32 ∧ splitData d = some p ∧ frameBytes d (calcChecksum d) <:+: b

section Origin

variable {p : Packet} {a b : Bytes}

theorem ReadFrom.mono (h : ReadFrom p a) (hab : a <:+: b) : ReadFrom p b := by
  obtain ⟨d, hlt, hd, hf⟩ := h
  exact ⟨d, hlt, hd, hf.trans hab⟩

theorem drain_suffix (b : Bytes) : (drain b).2 <:+ b := by
  induction b using drain_induction with
  | none b h => rw [drain_of_none h]
  | some b p h ih => rw [drain_of_some h]; exact ih.trans (List.drop_suffix _ b)

theorem readFrom_of_mem_drain (h : p ∈ (drain b).1) : ReadFrom p b := by
  induction b using drain_induction with
  | none b hb => rw [drain_of_none hb] at h; cases h
  | some b q hb ih =>
    rw [drain_of_some hb] at h
    rcases List.mem_cons.1 h with rfl | h
    · exact frame_of_parse hb
    · exact (ih h).mono (List.drop_suffix _ b).isInfix

theorem flush_suffix (b : Bytes) : flush b <:+ b := by
  rcases flush_eq b with h | h <;> rw [h]
  exact List.nil_suffix

theorem pass_suffix (b raw : Bytes) : (pass b raw).2 <:+ b ++ strip raw := by
  unfold pass
  split
  · rename_i h; rw [h, List.append_nil]
  · exact (flush_suffix _).trans (drain_suffix _)

theorem readFrom_of_mem_pass {raw : Bytes} (h : p ∈ (pass b raw).1) : ReadFrom p (b ++ strip raw) := by
  unfold pass at h
  split at h
  · cases h
  · exact readFrom_of_mem_drain h

/-- A packet that is passed on was read from the stream of the stripped chunks. -/
theorem readFrom_of_mem_deliver {raws : List Bytes} (h : p ∈ (deliver b raws).1) :
    ReadFrom p (b ++ (raws.map strip).flatten) := by
  induction raws generalizing b with
  | nil => cases h
  | cons raw raws ih =>
    rw [List.map_cons, List.flatten_cons, ← List.append_assoc]
    rw [deliver, List.mem_append] at h
    rcases h with h | h
    · exact (readFrom_of_mem_pass h).mono (List.prefix_append _ _).isInfix
    · obtain ⟨t, ht⟩ := pass_suffix b raw
      refine (ih h).mono ⟨t, [], ?_⟩
      rw [← ht, List.append_nil, List.append_assoc]

end Origin

end WirelessUart
