import WirelessUart.Reassembly

/-!
# Which cuts of a frame are received

The loop receives a frame that arrives in chunks exactly when the first chunk holds the whole start symbol and no chunk
begins or ends with white space (`receiveAll_cut_iff`).

That these cuts are received is `CleanCut.deliver_eq`.  For the other direction, a packet that is dispatched was read
from a frame in the stream of the stripped chunks.  That frame is the core of the packet, or the core with a `=` in
front of an empty value.  Stripping removes white space only, so counting white space and lengths shows that nothing
was stripped; and the frame does not occur in the stream without its first byte.

The first byte of a frame in a chunk of its own is lost, since the loop clears a buffer that ends with it
(`flush_no_start_iff`).
-/

namespace WirelessUart

open ByteLib

/-! ### Stripped chunks -/

section Strip

variable {cs : List Bytes}

private theorem filter_strip (cs : List Bytes) :
    (cs.map strip).flatten.filter (!isSpace ·) = cs.flatten.filter (!isSpace ·) := filter_not_flatten_trim cs

private theorem length_strip_le (cs : List Bytes) : (cs.map strip).flatten.length ≤ cs.flatten.length :=
  length_flatten_trim_le cs

private theorem strip_of_length (h : cs.flatten.length ≤ (cs.map strip).flatten.length) :
    ∀ c ∈ cs, strip c = c := trim_eq_self_of_length_flatten h

private theorem strip_of_countP (h : cs.flatten.countP isSpace ≤ (cs.map strip).flatten.countP isSpace) :
    ∀ c ∈ cs, strip c = c := trim_eq_self_of_countP h

end Strip

/-! ### Frames that carry a packet -/

section Frames

variable {p : Packet} {b : Bytes}

/-- A packet is read from its core or, when its value is empty, from a frame with a needless `=`. -/
theorem ReadFrom.core_or (h : ReadFrom p b) :
    p.core <:+: b ∨ frameBytes (p.dataBytes ++ [0x3d]) (calcChecksum (p.dataBytes ++ [0x3d])) <:+: b := by
  obtain ⟨d, -, hd, hf⟩ := h
  rcases dataBytes_of_splitData hd with rfl | rfl
  · left
    rw [Packet.core, p.checksum_eq]
    exact hf
  · exact .inr hf

private theorem countP_core_end (p : Packet) :
    (p.core ++ symbolEndBytes).countP isSpace = p.core.countP isSpace := by
  have h : symbolEndBytes.countP isSpace = 0 := by decide
  rw [List.countP_append, h, Nat.add_zero]

/-- A `=` before the last byte is not white space, so a stripped frame that ends with the end symbol differs. -/
private theorem filter_ne {l m : Bytes} {c : UInt8} :
    (l ++ [0x3d] ++ [c]).filter (!isSpace ·) ≠ (m ++ symbolEndBytes).filter (!isSpace ·) := by
  intro h
  have hend : symbolEndBytes.filter (!isSpace ·) = [0x24] ++ [0x23] := by decide
  have heq : [(0x3d : UInt8)].filter (!isSpace ·) = [0x3d] := by decide
  rw [List.filter_append, List.filter_append, List.filter_append, hend, heq, ← List.append_assoc] at h
  cases hc : isSpace c with
  | true =>
    have hlast : [c].filter (!isSpace ·) = [] := by simp [hc]
    rw [hlast, List.append_nil] at h
    exact absurd (List.append_inj_right' h rfl) (by decide)
  | false =>
    have hlast : [c].filter (!isSpace ·) = [c] := by simp [hc]
    rw [hlast] at h
    exact absurd (List.append_inj_right' (List.append_inj_left' h rfl) rfl) (by decide)

theorem strip_eq_of_readFrom {cs : List Bytes} (hcs : cs.flatten = p.core ++ symbolEndBytes)
    (h : ReadFrom p (cs.map strip).flatten) : ∀ c ∈ cs, strip c = c := by
  rcases h.core_or with hf | hf
  · apply strip_of_countP
    rw [hcs, countP_core_end]
    exact hf.sublist.countP_le
  · apply strip_of_length
    by_contra hlt
    have hle := hf.length_le
    have hlen : cs.flatten.length = 9 + p.dataBytes.length := by
      rw [hcs, List.length_append, p.length_core, p.dataSize_eq, symbolEndBytes, List.length_cons, List.length_cons,
        List.length_nil]
      omega
    have hlen' : (frameBytes (p.dataBytes ++ [0x3d]) (calcChecksum (p.dataBytes ++ [0x3d]))).length =
        8 + p.dataBytes.length := by
      rw [length_frameBytes, List.length_append, List.length_singleton]
      omega
    -- exactly one byte was removed, and what is left is the longer frame
    have heq := hf.eq_of_length_le (by omega)
    have hfilter := filter_strip cs
    rw [← heq, hcs, frameBytes, ← List.append_assoc] at hfilter
    exact filter_ne hfilter

end Frames

/-! ### The first byte -/

/-- A word with both neighbours `xy` and `yx` alternates, so its length is odd. -/
private theorem odd_of_shift {α : Type*} {x y : α} (hxy : x ≠ y) :
    ∀ u : List α, x :: y :: u = u ++ [y, x] → u.length % 2 = 1
  | [], h => absurd (List.cons.inj h).1 hxy
  | [a], _ => rfl
  | a :: b :: u, h => by
    rw [List.cons_append, List.cons_append] at h
    injection h with ha h
    injection h with hb h
    subst ha hb
    have := odd_of_shift hxy u h
    simp only [List.length_cons]
    omega

private theorem shift_head {α : Type*} {x y : α} {u : List α} (hu : 4 ≤ u.length)
    (h : x :: y :: u = u ++ [y, x]) : u.take 4 = [x, y, x, y] := by
  match u, hu with
  | a :: b :: c :: d :: u, _ =>
    simp only [List.cons_append, List.cons.injEq] at h
    obtain ⟨rfl, rfl, rfl, rfl, -⟩ := h
    rfl

/-- The core of a packet does not occur in what follows its first byte. -/
private theorem core_not_infix (p : Packet) (hlt : p.dataSize < 2 ^ 32) {rest : Bytes} (h : p.core = 0x23 :: rest) :
    ¬ p.core <:+: rest ++ symbolEndBytes := by
  rintro ⟨a, b, hab⟩
  have hcore : p.core = 0x23 :: 0x24 :: (leBytes 4 p.dataBytes.length ++ (p.dataBytes ++ [p.checksum])) := by
    simp [Packet.core, frameBytes, symbolStartBytes]
  have hrest : rest = 0x24 :: (leBytes 4 p.dataBytes.length ++ (p.dataBytes ++ [p.checksum])) := by
    rw [hcore] at h
    exact (List.cons.inj h).2.symm
  generalize hu : leBytes 4 p.dataBytes.length ++ (p.dataBytes ++ [p.checksum]) = u at *
  have hul : u.length = 5 + p.dataBytes.length := by
    rw [← hu]
    simp
    omega
  rw [hcore, hrest] at hab
  cases a with
  | nil =>
    simp only [List.nil_append, List.cons_append, List.cons.injEq] at hab
    exact absurd hab.1 (by decide)
  | cons x a =>
    have hlen := congrArg List.length hab
    simp only [List.length_append, List.length_cons, symbolEndBytes, List.length_nil] at hlen
    have ha : a = [] := List.length_eq_zero_iff.1 (by omega)
    have hb : b = [] := List.length_eq_zero_iff.1 (by omega)
    subst ha hb
    simp only [List.nil_append, List.append_nil, List.cons_append, List.cons.injEq] at hab
    -- the start symbol moved to the end: the word alternates, and so does the length field
    have hodd := odd_of_shift (by decide) u hab.2
    have hsize : leBytes 4 p.dataBytes.length = [0x23, 0x24, 0x23, 0x24] := by
      rw [← shift_head (by omega) hab.2, ← hu, List.take_left' (length_leBytes 4 _)]
    have hval : p.dataBytes.length = 0x24232423 := by
      have hle := leNat_leBytes (w := 4) (n := p.dataBytes.length) (by rw [← p.dataSize_eq]; simpa using hlt)
      rw [hsize] at hle
      exact hle.symm
    omega

/-- Without the first byte of the frame, the packet is not read. -/
private theorem not_readFrom_tail {p : Packet} (hlt : p.dataSize < 2 ^ 32) {cs : List Bytes}
    (hcs : 0x23 :: cs.flatten = p.core ++ symbolEndBytes) : ¬ ReadFrom p (cs.map strip).flatten := by
  obtain ⟨rest, hrest⟩ : ∃ rest, p.core = 0x23 :: 0x24 :: rest :=
    ⟨leBytes 4 p.dataBytes.length ++ p.dataBytes ++ [p.checksum], by
      simp only [Packet.core, frameBytes, symbolStartBytes, List.cons_append, List.nil_append]⟩
  have hflat : cs.flatten = (0x24 :: rest) ++ symbolEndBytes := by
    rw [hrest, List.cons_append] at hcs
    exact (List.cons.inj hcs).2
  intro h
  rcases h.core_or with hf | hf
  · have hstrip : ∀ c ∈ cs, strip c = c := by
      apply strip_of_countP
      refine le_trans (le_of_eq ?_) hf.sublist.countP_le
      rw [hflat, ← countP_core_end p, hrest]
      rfl
    rw [List.map_congr_left hstrip, List.map_id', hflat] at hf
    exact core_not_infix p hlt hrest hf
  · have hle := hf.length_le
    have htrim := length_strip_le cs
    have hlen : cs.flatten.length = 8 + p.dataBytes.length := by
      have := congrArg List.length hcs
      rw [List.length_append, p.length_core, p.dataSize_eq, List.length_cons, symbolEndBytes, List.length_cons,
        List.length_cons, List.length_nil] at this
      omega
    have hlen' : (frameBytes (p.dataBytes ++ [0x3d]) (calcChecksum (p.dataBytes ++ [0x3d]))).length =
        8 + p.dataBytes.length := by
      rw [length_frameBytes, List.length_append, List.length_singleton]
      omega
    have hstrip : ∀ c ∈ cs, strip c = c := by
      apply strip_of_length
      omega
    rw [List.map_congr_left hstrip, List.map_id'] at hf
    have heq := hf.eq_of_length_le (by omega)
    rw [hflat, frameBytes, symbolStartBytes] at heq
    exact absurd (List.cons.inj heq).1 (by decide)

/-! ### Cuts -/

/-- A packet is received from a cut of its frame exactly when the first chunk holds the start symbol and no chunk has
white space at an end. -/
theorem receiveAll_cut_iff {p : Packet} (hp : p.Sendable) {cs : List Bytes} (hcs : p.getBytes = some cs.flatten)
    (hne : ∀ c ∈ cs, c ≠ []) :
    (∃ b, receiveAll false record ([], []) cs = .ok ([p], b)) ↔
      (∀ c ∈ cs.head?, 2 ≤ c.length) ∧ ∀ c ∈ cs, NoSpaceEnds c := by
  have hraw := (Packet.getBytes_eq_some.1 hcs).2
  constructor
  · intro h
    obtain ⟨b, hb⟩ := h
    rw [receiveAll_record, List.nil_append] at hb
    -- what is dispatched was read from the stripped chunks
    have hmem : p ∈ (deliver [] cs).1 := by
      injection hb with hb
      rw [congrArg Prod.fst hb]
      exact List.mem_singleton_self p
    constructor
    · intro c hc
      by_contra hshort
      cases cs with
      | nil => cases hc
      | cons c cs =>
        cases hc
        have h1 : c.length = 1 := by
          have := List.length_pos_iff.2 (hne c (by simp))
          omega
        obtain ⟨x, rfl⟩ := List.length_eq_one_iff.1 h1
        rw [List.flatten_cons, List.singleton_append] at hraw
        have hx : x = 0x23 := by
          have := congrArg List.head? hraw
          simpa [Packet.core, frameBytes, symbolStartBytes] using this
        subst hx
        -- the first byte alone is cleared
        have hpass : pass [] [0x23] = ([], []) := pass_end (by decide) (by decide)
        rw [deliver, hpass, List.nil_append] at hmem
        exact not_readFrom_tail hp.size_lt hraw (readFrom_of_mem_deliver hmem)
    · exact fun c hc => strip_eq_self.1 (strip_eq_of_readFrom hraw (readFrom_of_mem_deliver hmem) c hc)
  · intro h
    obtain ⟨hfirst, hends⟩ := h
    refine ⟨[], ?_⟩
    rw [receiveAll_record, CleanCut.deliver_eq hp ⟨hcs, hfirst, hends⟩]
    rfl

theorem receiveAll_cut_iff_stop :
    (∃ b, receiveAll false record ([], []) [[0x23, 0x24], [4, 0, 0, 0, 0x73, 0x74, 0x6f, 0x70, 0x18, 0x24, 0x23]] =
      .ok ([Packet.init "stop"], b)) ↔
      (∀ c ∈ ([[0x23, 0x24], [4, 0, 0, 0, 0x73, 0x74, 0x6f, 0x70, 0x18, 0x24, 0x23]] : List Bytes).head?,
        2 ≤ c.length) ∧
      ∀ c ∈ [[0x23, 0x24], [4, 0, 0, 0, 0x73, 0x74, 0x6f, 0x70, 0x18, 0x24, 0x23]], NoSpaceEnds c :=
  @receiveAll_cut_iff (Packet.init "stop") (by decide)
    [[0x23, 0x24], [4, 0, 0, 0, 0x73, 0x74, 0x6f, 0x70, 0x18, 0x24, 0x23]] (by decide +kernel) (by decide)

/-- The first byte of a frame in a chunk of its own is lost, and the packet with it. -/
theorem not_receiveAll_every_cut :
    ¬ ∀ p : Packet, p.Sendable → ∀ cs : List Bytes, p.getBytes = some cs.flatten → (∀ c ∈ cs, c ≠ []) →
      ∃ b, receiveAll false record ([], []) cs = .ok ([p], b) := by
  intro h
  obtain ⟨b, hb⟩ := h (Packet.init "stop") (by decide)
    [[0x23], [0x24, 4, 0, 0, 0, 0x73, 0x74, 0x6f, 0x70, 0x18, 0x24, 0x23]] (by decide +kernel) (by decide)
  have hrun : receiveAll false record ([], [])
      [[0x23], [0x24, 4, 0, 0, 0, 0x73, 0x74, 0x6f, 0x70, 0x18, 0x24, 0x23]] = .ok ([], []) := by decide +kernel
  rw [hrun] at hb
  simp at hb

/-! ### What a cleared buffer held -/

/-- The buffer that is cleared at the end of a pass holds no part of a later start symbol, whatever arrives next,
exactly when it does not end with the first byte of one. -/
theorem flush_no_start_iff {b : Bytes} (hne : b ≠ []) (hclear : flush b = []) :
    (∀ (c : Bytes) (i : Nat), i < b.length → ¬ symbolStartBytes <+: (b ++ c).drop i) ↔ b.getLast? ≠ some 0x23 := by
  have hstart : ¬ symbolStartBytes <:+: b := by
    intro h
    rw [flush_of_start h] at hclear
    exact hne hclear
  constructor
  · intro h hlast
    obtain ⟨g, rfl⟩ := List.getLast?_eq_some_iff.1 hlast
    -- the second byte of a start symbol arrives next
    refine h [0x24] g.length (by simp) ?_
    rw [List.append_assoc, List.drop_left]
    exact List.prefix_refl _
  · intro hlast c i hi hp
    rw [List.drop_append_of_le_length hi.le] at hp
    have hdrop : b.drop i ≠ [] := by
      rw [ne_eq, List.drop_eq_nil_iff]
      omega
    by_cases hc : c.head? = some 0x24
    · obtain ⟨c', rfl⟩ : ∃ c', c = 0x24 :: c' := List.head?_eq_some_iff.1 hc
      rcases hb : b.drop i with _ | ⟨x, _ | ⟨y, t⟩⟩
      · exact hdrop hb
      · -- the start symbol straddles the end of the buffer
        have hx : x = 0x23 := by
          rw [hb] at hp
          exact (List.cons_prefix_cons.1 hp).1.symm
        have hsame : (b.drop i).getLast? = b.getLast? := List.getLast?_drop.trans (if_neg (Nat.not_le_of_lt hi))
        rw [← hsame, hb, hx] at hlast
        exact hlast rfl
      · have hin : symbolStartBytes <+: b.drop i := by
          rw [hb] at hp ⊢
          exact List.prefix_of_prefix_length_le hp (List.prefix_append _ _) (by simp [symbolStartBytes])
        exact hstart (hin.isInfix.trans (List.drop_suffix i b).isInfix)
    · exact hstart ((start_prefix_of_append hc hdrop hp).isInfix.trans (List.drop_suffix i b).isInfix)

theorem flush_no_start_iff_letter :
    (∀ (c : Bytes) (i : Nat), i < ([0x61] : Bytes).length → ¬ symbolStartBytes <+: ([0x61] ++ c).drop i) ↔
      ([0x61] : Bytes).getLast? ≠ some 0x23 :=
  flush_no_start_iff (by decide) (by decide)

/-- The first byte of a start symbol is cleared. -/
theorem not_flush_no_start_every_buffer :
    ¬ ∀ b : Bytes, b ≠ [] → flush b = [] → ∀ (c : Bytes) (i : Nat), i < b.length →
      ¬ symbolStartBytes <+: (b ++ c).drop i := by
  intro h
  exact h [0x23] (by decide) (by decide) [0x24] 0 (by decide) (by decide)

end WirelessUart
