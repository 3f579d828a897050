import WirelessUart.Batch

/-!
# What complete frames leave in the buffer

Complete frames of any content arrive, each in its own result of `recv`, and then a packet.  It is dispatched exactly
when the loop can clear the way to it (`Cleared`): every live start symbol in front of its frame can be read, and no
removal from the front of the buffer cuts into the frame (`Packet.mem_pass_iff`).  A start symbol in front whose frame
is not complete, or has a key that is not UTF-8, is the end of the way.

`Settled` says of a buffer that no packet finds such a start symbol in it.  A pass keeps this when what stays of the
frame is settled (`Settled.pass_frame`): all of it when nothing in it can be read, and otherwise what lies behind the
bytes that the loop removes from the front of the buffer (`remains`).  So after frames of which this holds every
sendable packet is dispatched in the pass in which it arrives (`receive_after_frames`).  It holds of all frames without
inner start symbols that do harm, and before them of frames that are removed exactly (`unobstructed_append`).
-/

namespace WirelessUart

open ByteLib

/-! ### Frames of any content -/

/-- The shortest frame; without a byte behind it, it is shorter than `PACKET_MIN` and not read. -/
def emptyFrame : Bytes := frameBytes [] 0

/-- A frame with any data and any checksum byte. -/
structure Frame where
  data : Bytes
  checksum : UInt8
  size_lt : data.length < 2 ^ 32

namespace Frame

def bytes (f : Frame) : Bytes := frameBytes f.data f.checksum

/-- The packet that is read as soon as the frame has arrived: the checksum is right and not stripped, and the frame
is not shorter than `PACKET_MIN`. -/
def packet (f : Frame) : Option Packet :=
  if f.checksum = calcChecksum f.data ∧ ¬ isSpace f.checksum ∧ f.data ≠ [] then splitData f.data else none

/-- Every start symbol in the frame but that of a frame that is read begins a frame that is rejected at the latest
when the next start symbol arrives, or the shortest frame. -/
def Clean (f : Frame) : Prop :=
  ∀ t, t <:+ strip f.bytes → symbolStartBytes <+: t →
    (Rejected (t ++ symbolStartBytes) ∨ t = emptyFrame) ∨ t = f.bytes ∧ f.packet ≠ none

instance : DecidablePred Clean := fun f =>
  decidable_of_iff (∀ t ∈ (strip f.bytes).tails, symbolStartBytes <+: t →
    (Rejected (t ++ symbolStartBytes) ∨ t = emptyFrame) ∨ t = f.bytes ∧ f.packet ≠ none) (by simp [Clean])

/-- The frame is the shortest one, or it is read as a packet whose own frame is as long. -/
def Whole (f : Frame) : Prop := f.bytes = emptyFrame ∨ ∃ q, f.packet = some q ∧ q.dataSize = f.data.length

variable {f : Frame}

theorem length_bytes (f : Frame) : f.bytes.length = 7 + f.data.length := length_frameBytes _ _

theorem bytes_eq_cons (f : Frame) : f.bytes = 0x23 :: f.bytes.tail := rfl

theorem strip_bytes (h : ¬ isSpace f.checksum) : strip f.bytes = f.bytes := by
  apply trim_eq_self.2
  constructor
  · intro x hx
    rw [bytes_eq_cons, List.head?_cons, Option.mem_some_iff] at hx
    rw [← hx]
    decide
  · intro x hx
    rw [bytes, frameBytes, List.getLast?_concat, Option.mem_some_iff] at hx
    rwa [← hx]

theorem start_prefix_strip (f : Frame) : symbolStartBytes <+: strip f.bytes := by
  have hb : f.bytes = symbolStartBytes ++ (leBytes 4 f.data.length ++ (f.data ++ [f.checksum])) := by
    rw [bytes, frameBytes, List.append_assoc, List.append_assoc]
  rw [hb]
  apply prefix_trim
  · exact List.cons_ne_nil _ _
  · intro x hx
    obtain rfl : 0x23 = x := Option.mem_some_iff.1 hx
    decide
  · intro x hx
    obtain rfl : 0x24 = x := Option.mem_some_iff.1 hx
    decide

/-- A frame that is read was not stripped and has the right checksum. -/
theorem packet_eq_some {q : Packet} (h : f.packet = some q) :
    strip f.bytes = f.bytes ∧ f.bytes = frameBytes f.data (calcChecksum f.data) ∧ f.data ≠ [] ∧
      splitData f.data = some q := by
  unfold packet at h
  split at h
  · rename_i hc
    exact ⟨strip_bytes hc.2.1, by rw [bytes, ← hc.1], hc.2.2, h⟩
  · cases h

end Frame

/-- Every start symbol begins a frame that is rejected at the latest when the next start symbol arrives, or the
shortest frame at the very end. -/
def Settled (b : Bytes) : Prop :=
  ∀ t, t <:+ b → symbolStartBytes <+: t → Rejected (t ++ symbolStartBytes) ∨ t = emptyFrame

instance : DecidablePred Settled := fun b =>
  decidable_of_iff (∀ t ∈ b.tails, symbolStartBytes <+: t → Rejected (t ++ symbolStartBytes) ∨ t = emptyFrame)
    (by simp [Settled])

/-- How many bytes of a buffer lie in front of the bytes that arrive, once the shortest frame has been read. -/
def ahead (b : Bytes) : Nat := if emptyFrame <:+ b then b.length % 7 else b.length

theorem Settled.of_suffix {a b : Bytes} (h : Settled b) (hab : a <:+ b) : Settled a :=
  fun t ht => h t (ht.trans hab)

theorem settled_nil : Settled [] := by
  intro t ht hs
  obtain rfl := List.suffix_nil.1 ht
  exact absurd hs (by decide)

/-- A live start symbol whose frame is rejected when more bytes arrive is not read before. -/
private theorem readFrame_eq_none {c s : Bytes} (hl : Live c) (hr : Rejected (c ++ s)) : readFrame c = none := by
  rw [readFrame, if_neg]
  intro h
  obtain ⟨-, hc⟩ := h
  exact hl.2 ⟨hc, mt (hc.intact_append s).2 hr.2⟩

theorem Settled.parse_eq_none {b : Bytes} (h : Settled b) : parse b = none := by
  rw [parse_eq, Option.bind_eq_none_iff]
  intro c hc
  have hl : Live c := firstSuffix_pos hc
  rcases h c (firstSuffix_suffix hc) hl.1 with hr | rfl
  · exact readFrame_eq_none hl hr
  · exact readFrame_of_short (by decide)

theorem Settled.of_flush {b : Bytes} (h : Settled b) : Settled (flush b) := h.of_suffix (flush_suffix b)

/-! ### Reading a frame behind dead bytes -/

/-- No start symbol in `g` is live in front of `s`. -/
def Dead (g s : Bytes) : Prop := ∀ t, t <:+ g → t ≠ [] → ¬ Live (t ++ s)

section Dead

variable {g s d : Bytes} {q : Packet}

theorem length_le_frame (h : splitData d = some q) :
    7 + q.dataSize ≤ (frameBytes d (calcChecksum d)).length := by
  have hlen : q.dataBytes.length ≤ d.length := by
    rcases dataBytes_of_splitData h with rfl | rfl
    · exact Nat.le_refl _
    · simp
  rw [length_frameBytes, q.dataSize_eq]
  omega

theorem Dead.of_suffix {g' : Bytes} (h : Dead g s) (hg : g' <:+ g) : Dead g' s :=
  fun t ht => h t (ht.trans hg)

theorem dead_of_no_start (hg : ¬ symbolStartBytes <:+: g) (hs : s.head? ≠ some 0x24) : Dead g s :=
  fun _ ht hne hl => no_start_append hg hs ht hne hl.1

/-- The loop reads a frame behind dead bytes until its start symbol is removed. -/
theorem Dead.drain_frame (hlt : d.length < 2 ^ 32) (hd : splitData d = some q)
    (hmin : packetMin ≤ (frameBytes d (calcChecksum d) ++ s).length)
    (hg : Dead g (frameBytes d (calcChecksum d) ++ s)) :
    ∃ ps, drain (g ++ (frameBytes d (calcChecksum d) ++ s)) =
      (ps ++
          (drain ((frameBytes d (calcChecksum d)).drop (7 + q.dataSize - g.length % (7 + q.dataSize)) ++ s)).1,
        (drain ((frameBytes d (calcChecksum d)).drop (7 + q.dataSize - g.length % (7 + q.dataSize)) ++ s)).2) := by
  induction hn : g.length using Nat.strong_induction_on generalizing g with
  | _ n ih =>
    have hparse : parse (g ++ (frameBytes d (calcChecksum d) ++ s)) = some q :=
      parse_eq_some_iff.2 ⟨g, d, s, rfl, hmin, hlt, hd, hg⟩
    have hsize : 7 + q.dataSize ≤ (frameBytes d (calcChecksum d)).length := length_le_frame hd
    rw [drain_of_some hparse]
    by_cases hle : 7 + q.dataSize ≤ g.length
    · -- the start symbol of the frame is still there, behind a shorter front
      rw [List.drop_append_of_le_length hle]
      obtain ⟨ps, heq⟩ := ih (g.drop (7 + q.dataSize)).length (by rw [List.length_drop]; omega)
        (hg.of_suffix (List.drop_suffix _ _)) rfl
      refine ⟨q :: ps, ?_⟩
      rw [heq, List.length_drop, ← Nat.mod_eq_sub_mod hle, hn]
      rfl
    · refine ⟨[q], ?_⟩
      rw [List.drop_append, List.drop_eq_nil_of_le (by omega), List.nil_append,
        List.drop_append_of_le_length (by omega), ← hn, Nat.mod_eq_of_lt (by omega)]
      rfl

theorem Dead.append {u : Bytes} (hg : Dead g (u ++ s)) (hu : Dead u s) : Dead (g ++ u) s := by
  rintro t ⟨a, ha⟩ hne
  rcases List.append_eq_append_iff.1 ha with ⟨v, rfl, rfl⟩ | ⟨v, rfl, rfl⟩
  · rw [List.append_assoc]
    by_cases hv : v = []
    · rw [hv, List.nil_append] at hne ⊢
      exact hu u (List.suffix_refl u) hne
    · exact hg v (List.suffix_append a v) hv
  · exact hu t (List.suffix_append v t) hne

end Dead

/-! ### What the loop leaves -/

/-- What stays of `s` behind `k` dead bytes.  From the front of the buffer the loop removes the length of the packet
that it reads, until it has removed the start symbol of the packet's frame; it goes on with what lies behind.  When
nothing is read, all of `s` stays. -/
def remains (k : Nat) (s : Bytes) : Bytes :=
  match _ : firstSuffix Live s with
  | some c =>
    match readFrame c with
    | some q => remains 0 (c.drop (7 + q.dataSize - (k + (s.length - c.length)) % (7 + q.dataSize)))
    | none => s
  | none => s
termination_by s.length
decreasing_by
  have hc : firstSuffix Live s = some c := by assumption
  have hle := (firstSuffix_suffix hc).length_le
  have hpos : 2 ≤ c.length := (firstSuffix_pos hc).1.length_le
  have hlt := Nat.mod_lt (k + (s.length - c.length)) (show 7 + q.dataSize > 0 by omega)
  rw [List.length_drop]
  omega

section Remains

variable {g s d r : Bytes} {k : Nat} {q : Packet}

theorem remains_of_none (h : parse s = none) : remains k s = s := by
  rw [parse_eq] at h
  rw [remains]
  split
  · rename_i c hc
    rw [hc, Option.bind_some] at h
    rw [h]
  · rfl

/-- Behind dead bytes a frame that can be read is removed as far as the number of bytes in front of it says. -/
theorem Dead.remains_frame (hlt : d.length < 2 ^ 32) (hd : splitData d = some q)
    (hmin : packetMin ≤ (frameBytes d (calcChecksum d) ++ r).length)
    (hg : Dead g (frameBytes d (calcChecksum d) ++ r)) :
    remains k (g ++ (frameBytes d (calcChecksum d) ++ r)) =
      remains 0 ((frameBytes d (calcChecksum d)).drop (7 + q.dataSize - (k + g.length) % (7 + q.dataSize)) ++ r) := by
  have hl : Live (frameBytes d (calcChecksum d) ++ r) :=
    ⟨(start_prefix_frameBytes d _).trans (List.prefix_append _ _), fun hr => (rejected_frameBytes hlt r).1 hr rfl⟩
  have hfirst : firstSuffix Live (g ++ (frameBytes d (calcChecksum d) ++ r)) =
      some (frameBytes d (calcChecksum d) ++ r) := by
    rw [firstSuffix_append hg, firstSuffix_of_pos hl]
  have hread : readFrame (frameBytes d (calcChecksum d) ++ r) = some q := by
    rw [readFrame, if_pos ⟨hmin, complete_frameBytes hlt r⟩, frameData_frameBytes hlt, hd]
  have hsize : 7 + q.dataSize ≤ (frameBytes d (calcChecksum d)).length := length_le_frame hd
  rw [remains]
  split
  · rename_i c hc
    rw [hfirst, Option.some.injEq] at hc
    rw [← hc, hread]
    dsimp only
    rw [List.length_append, Nat.add_sub_cancel, List.drop_append_of_le_length (by omega)]
  · rename_i hc
    rw [hfirst] at hc
    cases hc

/-- What the loop leaves: what is in front when nothing is read, and what stays of the bytes that arrive. -/
theorem Dead.drain_remains (hg : Dead g s) :
    ∃ g', g'.length ≤ g.length ∧ Dead g' (remains g.length s) ∧ (drain (g ++ s)).2 = g' ++ remains g.length s := by
  induction hn : s.length using Nat.strong_induction_on generalizing g s with
  | _ n ih =>
    cases hp : parse s with
    | none =>
      have hnone : parse (g ++ s) = none := by rw [parse_append hg, hp]
      rw [remains_of_none hp, drain_of_none hnone]
      exact ⟨g, Nat.le_refl _, hg, rfl⟩
    | some q =>
      obtain ⟨u, d, r, rfl, hmin, hlt, hd, hu⟩ := parse_eq_some_iff.1 hp
      -- the bytes in front of the frame that is read are dead as well
      have hgu : Dead (g ++ u) (frameBytes d (calcChecksum d) ++ r) := hg.append hu
      obtain ⟨ps, heq⟩ := hgu.drain_frame hlt hd hmin
      have hsize : 7 + q.dataSize ≤ (frameBytes d (calcChecksum d)).length := length_le_frame hd
      have hmod := Nat.mod_lt (g.length + u.length) (show 7 + q.dataSize > 0 by omega)
      have hnil : Dead [] ((frameBytes d (calcChecksum d)).drop
          (7 + q.dataSize - (g ++ u).length % (7 + q.dataSize)) ++ r) :=
        fun t ht hne => absurd (List.suffix_nil.1 ht) hne
      obtain ⟨g', hlen, hdead, hdrain⟩ := ih _ (by
        rw [← hn, List.length_append, List.length_drop, List.length_append, List.length_append, List.length_append]
        omega) hnil rfl
      rw [List.nil_append] at hdrain
      rw [Dead.remains_frame hlt hd hmin hu, ← List.append_assoc, heq, ← List.length_append]
      exact ⟨g', Nat.le_trans hlen (Nat.zero_le _), hdead, hdrain⟩

end Remains

/-! ### The way to a frame -/

/-- The loop clears the way to the frame `s` of `p` behind the buffer: the first live start symbol leads to `p`, or it
leads to a packet whose length can be removed without cutting into `s`, and the way is cleared in what stays. -/
inductive Cleared (p : Packet) (s : Bytes) : Bytes → Prop
  | here {b : Bytes} (h : Leads p (b ++ s)) : Cleared p s b
  | behind {b : Bytes} {q : Packet} (h : Leads q (b ++ s)) (hle : 7 + q.dataSize ≤ b.length)
      (hrest : Cleared p s (b.drop (7 + q.dataSize))) : Cleared p s b

/-- Such a word is a start symbol, written again and again, and its first half. -/
private theorem shifted_word {v : Bytes} (h : v ++ symbolEndBytes = symbolStartBytes ++ v) :
    v.head? = some 0x23 ∧ v.length % 2 = 1 := by
  induction hn : v.length using Nat.strong_induction_on generalizing v with
  | _ n ih =>
    match v with
    | [] => exact absurd h (by decide)
    | [x] =>
      obtain ⟨rfl, -⟩ := List.cons.inj h
      exact ⟨rfl, by rw [← hn]; rfl⟩
    | x :: y :: w =>
      obtain ⟨rfl, h⟩ := List.cons.inj h
      obtain ⟨rfl, h⟩ := List.cons.inj h
      have hlen : (0x23 :: 0x24 :: w : Bytes).length = w.length + 2 := rfl
      rw [hlen] at hn
      obtain ⟨-, hodd⟩ := ih w.length (by omega) h rfl
      exact ⟨rfl, by omega⟩

/-- A frame does not begin again in itself. -/
private theorem Packet.core_ne_shifted (p : Packet) (x y : UInt8) :
    p.core ++ symbolEndBytes ≠ x :: y :: p.core := by
  intro h
  let v := leBytes 4 p.dataBytes.length ++ (p.dataBytes ++ [p.checksum])
  have hcore : p.core = symbolStartBytes ++ v := by
    rw [core, frameBytes, List.append_assoc, List.append_assoc]
  have hv : v ++ symbolEndBytes = symbolStartBytes ++ v := by
    rw [hcore] at h
    exact (List.cons.inj (List.cons.inj h).2).2
  obtain ⟨hhead, hodd⟩ := shifted_word hv
  -- the lowest byte of the length is odd, but there are an even number of data bytes
  have hbyte : UInt8.ofNat p.dataBytes.length = 0x23 := Option.some_inj.1 hhead
  have hmod : p.dataBytes.length % 256 = 0x23 := by
    have := congrArg UInt8.toNat hbyte
    rwa [UInt8.toNat_ofNat'] at this
  rw [List.length_append, List.length_append, length_leBytes, List.length_singleton] at hodd
  omega

/-- A packet is not read from its own frame when bytes of the start symbol are gone. -/
theorem Packet.not_readFrom_drop (p : Packet) {k : Nat} (hk : 0 < k) :
    ¬ ReadFrom p ((p.core ++ symbolEndBytes).drop k) := by
  rintro ⟨d, hlt, hd, a, r, har⟩
  have hsplit : p.core ++ symbolEndBytes =
      ((p.core ++ symbolEndBytes).take k ++ a) ++ (frameBytes d (calcChecksum d) ++ r) := by
    rw [List.append_assoc, ← List.append_assoc a, har, List.take_append_drop]
  have hpos : 0 < ((p.core ++ symbolEndBytes).take k ++ a).length := by
    rw [List.length_append, List.length_take, List.length_append, p.length_core]
    omega
  generalize (p.core ++ symbolEndBytes).take k ++ a = front at hsplit hpos
  have hsize := length_le_frame hd
  have hlen := congrArg List.length hsplit
  rw [List.length_append, p.length_core, List.length_append, List.length_append, symbolEndBytes,
    List.length_cons, List.length_singleton] at hlen
  rcases front with _ | ⟨x, _ | ⟨y, _ | ⟨z, front⟩⟩⟩
  · cases hpos
  · exact absurd (List.cons.inj (List.cons.inj hsplit).2).1 (by decide)
  · -- two bytes are gone, so that the frame is one with the same data
    have hr : r = [] := List.length_eq_zero_iff.1 (by simp only [List.length_cons, List.length_nil] at hlen; omega)
    have hdata : d = p.dataBytes := by
      rcases dataBytes_of_splitData hd with heq | heq
      · exact heq
      · rw [length_frameBytes, heq, List.length_append, p.dataSize_eq] at hlen
        simp only [List.length_cons, List.length_nil] at hlen
        omega
    rw [hr, List.append_nil, hdata, ← p.checksum_eq] at hsplit
    exact p.core_ne_shifted x y hsplit
  · simp only [List.length_cons] at hlen
    omega

/-- The packets that the loop reads, by what is removed in front of them. -/
theorem Packet.mem_drain_iff (p : Packet) (b : Bytes) :
    p ∈ (drain (b ++ (p.core ++ symbolEndBytes))).1 ↔ Cleared p (p.core ++ symbolEndBytes) b := by
  constructor
  · induction hn : b.length using Nat.strong_induction_on generalizing b with
    | _ n ih =>
      intro h
      cases hq : parse (b ++ (p.core ++ symbolEndBytes)) with
      | none =>
        rw [drain_of_none hq] at h
        cases h
      | some q =>
        rw [drain_of_some hq] at h
        rcases List.mem_cons.1 h with rfl | h
        · exact .here (parse_eq_some_iff.1 hq)
        · by_cases hle : 7 + q.dataSize ≤ b.length
          · rw [List.drop_append_of_le_length hle] at h
            exact .behind (parse_eq_some_iff.1 hq) hle (ih _ (by rw [List.length_drop]; omega) _ rfl h)
          · -- the removal cuts into the frame
            rw [List.drop_append, List.drop_eq_nil_of_le (by omega), List.nil_append] at h
            exact absurd (readFrom_of_mem_drain h) (p.not_readFrom_drop (by omega))
  · intro h
    induction h with
    | here h =>
      rw [drain_of_some (parse_eq_some_iff.2 h)]
      exact List.mem_cons_self
    | behind h hle _ ih =>
      rw [drain_of_some (parse_eq_some_iff.2 h), List.drop_append_of_le_length hle]
      exact List.mem_cons_of_mem _ ih

/-- A packet is dispatched in the pass in which it arrives exactly when the way to its frame is cleared. -/
theorem Packet.mem_pass_iff (p : Packet) (b : Bytes) :
    p ∈ (pass b (p.core ++ symbolEndBytes)).1 ↔ Cleared p (p.core ++ symbolEndBytes) b := by
  have hstrip : strip (p.core ++ symbolEndBytes) = p.core ++ symbolEndBytes := by
    have hframe : p.core ++ symbolEndBytes = stream [p] := (List.append_nil _).symm
    rw [hframe]
    exact strip_stream [p]
  rw [pass, hstrip, if_neg (by simp [symbolEndBytes])]
  exact p.mem_drain_iff b

/-! ### A pass -/

private theorem emptyFrame_tail {t : Bytes} (ht : t <:+ emptyFrame.tail) : ¬ symbolStartBytes <:+: t :=
  fun h => absurd (h.trans ht.isInfix) (by decide)

theorem settled_emptyFrame : Settled emptyFrame := by
  intro t ht hs
  rcases List.suffix_cons_iff.1 (show t <:+ 0x23 :: emptyFrame.tail from ht) with rfl | ht
  · exact .inr rfl
  · exact absurd hs.isInfix (emptyFrame_tail ht)

theorem Settled.append {g s : Bytes} (hs : Settled s) (hg : Dead g s) : Settled (g ++ s) := by
  rintro t ⟨a, ha⟩ hstart
  rcases List.append_eq_append_iff.1 ha with ⟨u, rfl, rfl⟩ | ⟨c, -, rfl⟩
  · have hu : u <:+ a ++ u := List.suffix_append a u
    by_cases hne : u = []
    · rw [hne, List.nil_append] at hstart ⊢
      exact hs s (List.suffix_refl s) hstart
    · left
      have hr : Rejected (u ++ s) := by
        by_contra hr
        exact hg u hu hne ⟨hstart, hr⟩
      exact hr.append _
  · exact hs t (List.suffix_append c t) hstart

section Pass

variable {b s : Bytes} {f : Frame}

private theorem head_of_start (hs : symbolStartBytes <+: s) : s.head? ≠ some 0x24 := by
  obtain ⟨t, rfl⟩ := hs
  simp [symbolStartBytes]

theorem ne_nil_of_start (hs : symbolStartBytes <+: s) : s ≠ [] := by
  rintro rfl
  exact absurd hs (by decide)

/-- In front of a start symbol nothing of a settled buffer is live. -/
private theorem Settled.not_live (hb : Settled b) (hs : symbolStartBytes <+: s) {t : Bytes} (ht : t <:+ b)
    (hne : t ≠ []) (hE : t ≠ emptyFrame) : ¬ Live (t ++ s) := by
  intro hl
  have hstart := start_prefix_of_append (head_of_start hs) hne hl.1
  obtain ⟨r, rfl⟩ := hs
  rcases hb t ht hstart with hr | h
  · have := hr.append r
    rw [List.append_assoc] at this
    exact hl.2 this
  · exact hE h

/-- What a settled buffer holds is out of the way when the next frame arrives. -/
theorem Settled.drain_append (hb : Settled b) (hs : symbolStartBytes <+: s) :
    ∃ ps g, Dead g s ∧ g.length = ahead b ∧ drain (b ++ s) = (ps ++ (drain (g ++ s)).1, (drain (g ++ s)).2) := by
  by_cases hE : emptyFrame <:+ b
  · -- the shortest frame is read now, and some of its bytes may stay in place of those in front of it
    rw [ahead, if_pos hE]
    obtain ⟨g, rfl⟩ := hE
    have h7 : emptyFrame.length = 7 := by decide
    have hdead : Dead g (emptyFrame ++ s) := by
      intro t ht hne
      have hsuf : t ++ emptyFrame <:+ g ++ emptyFrame := by
        obtain ⟨u, rfl⟩ := ht
        exact ⟨u, by rw [List.append_assoc]⟩
      rw [← List.append_assoc]
      exact hb.not_live hs hsuf (by simp [hne]) (by simpa using hne)
    have hmin : packetMin ≤ (emptyFrame ++ s).length := by
      have := List.length_pos_iff.2 (ne_nil_of_start hs)
      rw [List.length_append, h7, packetMin]
      omega
    obtain ⟨ps, heq⟩ := hdead.drain_frame (d := []) (q := Packet.init "") (by decide) (by decide) hmin
    have hsize : (Packet.init "").dataSize = 0 := by decide
    rw [hsize] at heq
    refine ⟨ps, emptyFrame.drop (7 - g.length % 7), ?_, ?_, ?_⟩
    · have hlt := Nat.mod_lt g.length (show 7 > 0 by decide)
      apply dead_of_no_start _ (head_of_start hs)
      apply emptyFrame_tail
      rw [← List.drop_one]
      exact List.drop_suffix_drop_left _ (by omega)
    · rw [List.length_drop, List.length_append, h7]
      omega
    · rw [List.append_assoc]
      exact heq
  · rw [ahead, if_neg hE]
    refine ⟨[], b, ?_, rfl, rfl⟩
    intro t ht hne
    apply hb.not_live hs ht hne
    rintro rfl
    exact hE ht

private theorem pass_bytes (f : Frame) (b : Bytes) :
    (pass b f.bytes).2 = flush (drain (b ++ strip f.bytes)).2 := by
  rw [pass, if_neg (ne_nil_of_start f.start_prefix_strip)]

/-- The buffer after a frame: what was in front of it when nothing is read, and what stays of the frame. -/
theorem Settled.pass_eq (hb : Settled b) (hr : Settled (remains (ahead b) (strip f.bytes))) :
    ∃ g, g.length ≤ ahead b ∧ Settled (g ++ remains (ahead b) (strip f.bytes)) ∧
      (pass b f.bytes).2 = flush (g ++ remains (ahead b) (strip f.bytes)) := by
  obtain ⟨ps, g, hg, hlen, heq⟩ := hb.drain_append f.start_prefix_strip
  obtain ⟨g', hlen', hdead, hdrain⟩ := hg.drain_remains
  rw [hlen] at hlen' hdead hdrain
  rw [pass_bytes, heq, hdrain]
  exact ⟨g', hlen', hr.append hdead, rfl⟩

/-- A frame of which nothing harmful stays leaves the buffer settled. -/
theorem Settled.pass_frame (hb : Settled b) (hr : Settled (remains (ahead b) (strip f.bytes))) :
    Settled (pass b f.bytes).2 := by
  obtain ⟨g, -, hset, heq⟩ := hb.pass_eq hr
  rw [heq]
  exact hset.of_flush

end Pass

namespace Frame

variable {f : Frame}

/-- A frame that is read is removed as far as the number of bytes in front of it says. -/
theorem remains_of_packet {q : Packet} (hq : f.packet = some q) (k : Nat) :
    remains k (strip f.bytes) = remains 0 (f.bytes.drop (7 + q.dataSize - k % (7 + q.dataSize))) := by
  obtain ⟨hstrip, hbytes, hne, hsplit⟩ := packet_eq_some hq
  have hnil : Dead [] (frameBytes f.data (calcChecksum f.data) ++ []) :=
    fun t ht h => absurd (List.suffix_nil.1 ht) h
  have hmin : packetMin ≤ (frameBytes f.data (calcChecksum f.data) ++ []).length := by
    have := List.length_pos_iff.2 hne
    rw [List.append_nil, length_frameBytes, packetMin]
    omega
  have heq := hnil.remains_frame (k := k) f.size_lt hsplit hmin
  rw [List.nil_append, List.append_nil, List.append_nil] at heq
  rw [hstrip, hbytes]
  exact heq

theorem Clean.settled_remains (h : f.Clean) (k : Nat) : Settled (remains k (strip f.bytes)) := by
  cases hq : f.packet with
  | none =>
    have hset : Settled (strip f.bytes) := by
      intro t ht hs
      rcases h t ht hs with h | ⟨-, hp⟩
      · exact h
      · exact absurd hq hp
    rwa [remains_of_none hset.parse_eq_none]
  | some q =>
    have hstrip := (packet_eq_some hq).1
    have hset : Settled (f.bytes.drop (7 + q.dataSize - k % (7 + q.dataSize))) := by
      intro t ht hs
      rcases h t (hstrip.symm ▸ ht.trans (List.drop_suffix _ _)) hs with h | ⟨rfl, -⟩
      · exact h
      · -- the frame's own start symbol is among the bytes that are removed
        have hlen := ht.length_le
        have hlt := Nat.mod_lt k (show 7 + q.dataSize > 0 by omega)
        rw [List.length_drop, length_bytes] at hlen
        omega
    rwa [remains_of_packet hq, remains_of_none hset.parse_eq_none]

theorem Whole.remains_zero (h : f.Whole) :
    remains 0 (strip f.bytes) = [] ∨ remains 0 (strip f.bytes) = emptyFrame := by
  rcases h with h | ⟨q, hq, hsize⟩
  · right
    rw [h]
    exact remains_of_none settled_emptyFrame.parse_eq_none
  · left
    have hdrop : f.bytes.drop (7 + q.dataSize - 0 % (7 + q.dataSize)) = [] := by
      rw [Nat.zero_mod, hsize]
      exact List.drop_eq_nil_of_le f.length_bytes.le
    rw [remains_of_packet hq, hdrop, remains_of_none settled_nil.parse_eq_none]

end Frame

/-! ### Runs -/

/-- At every step of a run what stays of the frame is settled. -/
def Unobstructed (fs : List Frame) : Prop :=
  ∀ before f after l b, fs = before ++ f :: after →
    receiveAll false record ([], []) (before.map Frame.bytes) = .ok (l, b) → Settled (remains (ahead b) (strip f.bytes))

section Runs

variable {fs : List Frame} {f : Frame}

/-- The buffer after the frames. -/
private def bufferAfter (fs : List Frame) : Bytes := (deliver [] (fs.map Frame.bytes)).2

private theorem bufferAfter_concat (fs : List Frame) (f : Frame) :
    bufferAfter (fs ++ [f]) = (pass (bufferAfter fs) f.bytes).2 := by
  rw [bufferAfter, List.map_append, deliver_append, List.map_singleton, deliver_singleton]
  rfl

theorem unobstructed_concat :
    Unobstructed (fs ++ [f]) ↔ Unobstructed fs ∧ Settled (remains (ahead (bufferAfter fs)) (strip f.bytes)) := by
  constructor
  · intro h
    refine ⟨fun before g rest l b hfs => h before g (rest ++ [f]) l b ?_, ?_⟩
    · rw [hfs, List.append_assoc, List.cons_append]
    · exact h fs f [] _ _ rfl (receiveAll_record _ _ _)
  · rintro ⟨h, hf⟩ before g rest l b hfs hrun
    rcases List.eq_nil_or_concat rest with rfl | ⟨rest, x, rfl⟩
    · obtain ⟨rfl, hg⟩ := List.append_inj' hfs rfl
      obtain rfl := List.singleton_inj.1 hg
      rw [receiveAll_record] at hrun
      injection hrun with hrun
      rwa [← (Prod.mk.inj hrun).2]
    · rw [List.concat_eq_append, ← List.cons_append, ← List.append_assoc] at hfs
      exact h before g rest l b (List.append_inj' hfs rfl).1 hrun

/-- In such a run every buffer reached is settled. -/
theorem Unobstructed.settled (h : Unobstructed fs) : Settled (bufferAfter fs) := by
  induction fs using List.reverseRecOn with
  | nil => exact settled_nil
  | append_singleton fs f ih =>
    obtain ⟨h, hf⟩ := unobstructed_concat.1 h
    rw [bufferAfter_concat]
    exact (ih h).pass_frame hf

/-- Frames that are removed exactly leave nothing, or the shortest frame. -/
theorem unobstructed_of_whole (hf : ∀ f ∈ fs, f.Whole) :
    Unobstructed fs ∧ (bufferAfter fs = [] ∨ bufferAfter fs = emptyFrame) := by
  induction fs using List.reverseRecOn with
  | nil =>
    refine ⟨fun before f rest l b h => ?_, .inl rfl⟩
    exact absurd h.symm (by simp)
  | append_singleton fs f ih =>
    obtain ⟨hfs, hb⟩ := ih fun f hf' => hf f (by simp [hf'])
    have hahead : ahead (bufferAfter fs) = 0 := by
      rcases hb with hb | hb <;> rw [hb] <;> decide
    have hrest := (hf f (by simp)).remains_zero
    have hset : Settled (remains (ahead (bufferAfter fs)) (strip f.bytes)) := by
      rw [hahead]
      rcases hrest with h | h <;> rw [h]
      · exact settled_nil
      · exact settled_emptyFrame
    refine ⟨unobstructed_concat.2 ⟨hfs, hset⟩, ?_⟩
    obtain ⟨g, hg, -, heq⟩ := hfs.settled.pass_eq hset
    rw [hahead, Nat.le_zero, List.length_eq_zero_iff] at hg
    rw [bufferAfter_concat, heq, hg, hahead, List.nil_append]
    rcases hrest with h | h <;> rw [h]
    · exact .inl rfl
    · exact .inr (flush_of_start (by decide))

theorem unobstructed_append {whole clean : List Frame} (hwhole : ∀ f ∈ whole, f.Whole)
    (hclean : ∀ f ∈ clean, f.Clean) : Unobstructed (whole ++ clean) := by
  induction clean using List.reverseRecOn with
  | nil =>
    rw [List.append_nil]
    exact (unobstructed_of_whole hwhole).1
  | append_singleton fs f ih =>
    rw [← List.append_assoc]
    exact unobstructed_concat.2 ⟨ih fun f hf => hclean f (by simp [hf]), (hclean f (by simp)).settled_remains _⟩

/-- A packet that arrives at a settled buffer is dispatched. -/
theorem Settled.mem_pass {b : Bytes} (hb : Settled b) {p : Packet} (hp : p.Sendable) :
    p ∈ (pass b (p.core ++ symbolEndBytes)).1 := by
  have hstart : symbolStartBytes <+: p.core ++ symbolEndBytes :=
    (start_prefix_frameBytes _ _).trans (List.prefix_append _ _)
  obtain ⟨ps, g, hg, -, heq⟩ := hb.drain_append hstart
  have hparse : parse (g ++ (p.core ++ symbolEndBytes)) = some p := by
    rw [parse_append hg]
    exact hp.parse_core _
  rw [p.mem_pass_iff, ← p.mem_drain_iff, heq, drain_of_some hparse]
  simp

end Runs

/-- Complete frames arrive, each in its own result of `recv`, and then a packet.  It is dispatched in its pass exactly
when the way to its frame is cleared, and so is every packet when what stays of the frames is settled at every step. -/
theorem receive_after_frames {fs : List Frame} {p : Packet} (hp : p.Sendable) {raw : Bytes}
    (hraw : p.getBytes = some raw) :
    ∃ l b new b', receiveAll false record ([], []) (fs.map Frame.bytes) = .ok (l, b) ∧
      receive false record (l, b) raw = .ok (l ++ new, b') ∧ (p ∈ new ↔ Cleared p raw b) ∧
        (Unobstructed fs → p ∈ new) := by
  obtain rfl := (Packet.getBytes_eq_some.1 hraw).2
  exact ⟨_, _, _, _, receiveAll_record _ _ _, receive_record _ _ _, p.mem_pass_iff _, fun h => h.settled.mem_pass hp⟩

/-- A packet behind a frame that is read and three frames with wrong checksums: the second one has a space for its
checksum, so that the next start symbol stands in its place, and the last one holds a frame that is read. -/
theorem receive_after_frames_stop :
    ∃ l b new b', receiveAll false record ([], [])
        (([⟨[0x73, 0x74, 0x6f, 0x70], 0x18, by decide⟩] ++
          [⟨[0x41], 0x00, by decide⟩, ⟨[0x61, 0x41], 0x20, by decide⟩] ++
          [⟨[0x23, 0x24, 1, 0, 0, 0, 0x61, 0x61], 0x00, by decide⟩] : List Frame).map Frame.bytes) = .ok (l, b) ∧
      receive false record (l, b) [0x23, 0x24, 5, 0, 0, 0, 0x73, 0x74, 0x61, 0x72, 0x74, 0x60, 0x24, 0x23] =
        .ok (l ++ new, b') ∧ Packet.init "start" ∈ new := by
  obtain ⟨l, b, new, b', hl, hnew, -, hmem⟩ := @receive_after_frames
    ([⟨[0x73, 0x74, 0x6f, 0x70], 0x18, by decide⟩] ++
      [⟨[0x41], 0x00, by decide⟩, ⟨[0x61, 0x41], 0x20, by decide⟩] ++
      [⟨[0x23, 0x24, 1, 0, 0, 0, 0x61, 0x61], 0x00, by decide⟩])
    (Packet.init "start") (by decide)
    [0x23, 0x24, 5, 0, 0, 0, 0x73, 0x74, 0x61, 0x72, 0x74, 0x60, 0x24, 0x23] (by decide +kernel)
  refine ⟨l, b, new, b', hl, hnew, hmem (unobstructed_concat.2 ⟨unobstructed_append ?_ ?_, by decide +kernel⟩)⟩
  · simp only [List.mem_singleton, forall_eq]
    exact .inr ⟨Packet.init "stop", by decide +kernel, by decide⟩
  · simp only [List.mem_cons, List.not_mem_nil, or_false, forall_eq_or_imp, forall_eq]
    exact ⟨by decide +kernel, by decide +kernel⟩

/-- A frame with the right checksum whose key is not UTF-8 stays in the buffer and hides every later packet. -/
theorem not_receive_after_every_frame :
    ¬ ∀ fs : List Frame, ∀ p : Packet, p.Sendable → ∀ raw, p.getBytes = some raw →
      ∃ l b new b', receiveAll false record ([], []) (fs.map Frame.bytes) = .ok (l, b) ∧
        receive false record (l, b) raw = .ok (l ++ new, b') ∧ p ∈ new := by
  intro h
  obtain ⟨l, b, new, b', h1, h2, hmem⟩ := h [⟨[0xff], 0xff, by decide⟩] (Packet.init "stop") (by decide)
    [0x23, 0x24, 4, 0, 0, 0, 0x73, 0x74, 0x6f, 0x70, 0x18, 0x24, 0x23] (by decide +kernel)
  have hrun1 : receiveAll false record ([], []) ([(⟨[0xff], 0xff, by decide⟩ : Frame)].map Frame.bytes) =
      .ok ([], [0x23, 0x24, 1, 0, 0, 0, 0xff, 0xff]) := by decide +kernel
  have hrun2 : receive false record ([], [0x23, 0x24, 1, 0, 0, 0, 0xff, 0xff])
      [0x23, 0x24, 4, 0, 0, 0, 0x73, 0x74, 0x6f, 0x70, 0x18, 0x24, 0x23] =
      .ok ([], [0x23, 0x24, 1, 0, 0, 0, 0xff, 0xff, 0x23, 0x24, 4, 0, 0, 0, 0x73, 0x74, 0x6f, 0x70, 0x18, 0x24,
        0x23]) := by decide +kernel
  rw [hrun1] at h1
  injection h1 with h1
  obtain ⟨rfl, rfl⟩ := Prod.mk.inj h1
  rw [hrun2] at h2
  injection h2 with h2
  obtain rfl : [] = new := (Prod.mk.inj h2).1
  simp at hmem

end WirelessUart
