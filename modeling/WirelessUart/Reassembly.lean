import WirelessUart.Receive

/-!
# Reassembly of frames from chunks

A frame that arrives in chunks is dispatched once, when its core is complete, provided that its first chunk holds the
whole start symbol and that no chunk begins or ends with white space (`deliver_cut`).  So a stream of frames cut in
this way is received packet by packet (`receiveAll_frames`).

Both conditions are needed: `recv_buffer` is cleared when it holds no more than the first byte of the start symbol,
since its last byte is compared with 8, and `strip` removes white space that belongs to a frame.
-/

namespace WirelessUart

open ByteLib

/-- The chunk neither begins nor ends with white space. -/
def NoSpaceEnds (c : Bytes) : Prop := (∀ x ∈ c.head?, ¬ isSpace x) ∧ ∀ x ∈ c.getLast?, ¬ isSpace x

instance (c : Bytes) : Decidable (NoSpaceEnds c) := inferInstanceAs (Decidable (_ ∧ _))

theorem strip_eq_self {c : Bytes} : strip c = c ↔ NoSpaceEnds c := trim_eq_self

/-! ### One pass -/

section Pass

variable {b c : Bytes}

theorem pass_nil (b : Bytes) : pass b [] = ([], b) := if_pos rfl

theorem pass_of_strip (hc : strip c = c) (hne : c ≠ []) :
    pass b c = ((drain (b ++ c)).1, flush (drain (b ++ c)).2) := by
  rw [pass, hc, if_neg hne]

/-- Without a packet to read and with a start symbol, the chunk is kept. -/
theorem pass_of_none (hc : strip c = c) (hne : c ≠ []) (h : parse (b ++ c) = none)
    (hs : symbolStartBytes <:+: b ++ c) : pass b c = ([], b ++ c) := by
  rw [pass_of_strip hc hne, drain_of_none h, flush_of_start hs]

private theorem no_start_of_infix_end {e : Bytes} (he : e <:+: symbolEndBytes) : ¬ symbolStartBytes <:+: e := by
  intro h
  exact absurd (h.trans he) (by decide)

private theorem flush_end {e : Bytes} (he : e <:+: symbolEndBytes) : flush e = [] := by
  apply flush_of_no_start (no_start_of_infix_end he)
  intro hl
  have hmem : (8 : UInt8) ∈ symbolEndBytes := he.subset (List.mem_of_mem_getLast? hl)
  exact absurd hmem (by decide)

/-- A part of the end symbol is dropped from an empty buffer. -/
theorem pass_end {e : Bytes} (he : e <:+: symbolEndBytes) (hc : strip e = e) : pass [] e = ([], []) := by
  by_cases hne : e = []
  · rw [hne, pass_nil]
  · rw [pass_of_strip hc hne, List.nil_append, drain_of_none (parse_of_no_start (no_start_of_infix_end he)),
      flush_end he]

theorem deliver_end {cs : List Bytes} (h : cs.flatten <:+: symbolEndBytes) (hcs : ∀ c ∈ cs, strip c = c) :
    deliver [] cs = ([], []) := by
  induction cs with
  | nil => rfl
  | cons c cs ih =>
    rw [List.flatten_cons] at h
    have hc := pass_end ((List.prefix_append c cs.flatten).isInfix.trans h) (hcs c (by simp))
    rw [deliver, hc, ih ((List.suffix_append c cs.flatten).isInfix.trans h) fun c hc => hcs c (by simp [hc])]
    rfl

end Pass

/-! ### One frame -/

section Frame

variable {p : Packet}

/-- The chunk that completes the core: the packet is dispatched and the buffer is empty afterwards. -/
theorem Packet.Sendable.pass_complete (hp : p.Sendable) {q c e : Bytes} (hc : strip c = c) (hne : c ≠ [])
    (h : q ++ c = p.core ++ e) (he : e <:+: symbolEndBytes) : pass q c = ([p], []) := by
  have hdrop : (p.core ++ e).drop (7 + p.dataSize) = e := List.drop_left' p.length_core
  rw [pass_of_strip hc hne, h, drain_of_some (hp.parse_core e), hdrop,
    drain_of_none (parse_of_no_start (no_start_of_infix_end he)), flush_end he]

/-- A chunk short of the end of the core is kept with what came before it. -/
theorem Packet.Sendable.pass_partial (hp : p.Sendable) {q c : Bytes} (hc : strip c = c) (hne : c ≠ [])
    (h : q ++ c <+: p.core) (hlt : (q ++ c).length < p.core.length) (h2 : 2 ≤ (q ++ c).length) :
    pass q c = ([], q ++ c) := by
  have hs : symbolStartBytes <+: q ++ c :=
    List.prefix_of_prefix_length_le (start_prefix_frameBytes _ _) h h2
  exact pass_of_none hc hne (hp.parse_of_lt h hlt) hs.isInfix

/-- A frame in chunks: nothing is dispatched before the core is complete, and the packet once it is.  Here `q` is
what the buffer holds of the frame already. -/
theorem Packet.Sendable.deliver_cut (hp : p.Sendable) {q : Bytes} {cs : List Bytes} (hq : q.length < p.core.length)
    (h : q ++ cs.flatten <+: p.core ++ symbolEndBytes) (hcs : ∀ c ∈ cs, strip c = c)
    (h2 : 2 ≤ q.length ∨ ∀ c ∈ cs.head?, 2 ≤ c.length) :
    deliver q cs =
      if (q ++ cs.flatten).length < p.core.length then ([], q ++ cs.flatten) else ([p], []) := by
  induction cs generalizing q with
  | nil => simp [deliver, hq]
  | cons c cs ih =>
    have hc : strip c = c := hcs c (by simp)
    have hcs' : ∀ c ∈ cs, strip c = c := fun c hc => hcs c (by simp [hc])
    rw [List.flatten_cons, ← List.append_assoc] at h ⊢
    have hqc : q ++ c <+: p.core ++ symbolEndBytes := (List.prefix_append _ _).trans h
    by_cases hne : c = []
    · subst hne
      have h2' : 2 ≤ q.length := h2.elim id fun h => absurd (h [] (by simp)) (by simp)
      rw [deliver, pass_nil, List.append_nil] at *
      exact ih hq h hcs' (.inl h2')
    · have h2' : 2 ≤ (q ++ c).length := by
        rw [List.length_append]
        rcases h2 with h2 | h2
        · omega
        · have := h2 c (by simp); omega
      by_cases hlt : (q ++ c).length < p.core.length
      · have hpre : q ++ c <+: p.core := List.prefix_of_prefix_length_le hqc (List.prefix_append _ _) (by omega)
        rw [deliver, hp.pass_partial hc hne hpre hlt h2']
        exact ih hlt h hcs' (.inl h2')
      · -- the chunk completes the core; what follows belongs to the end symbol
        obtain ⟨e, he⟩ : p.core <+: q ++ c := List.prefix_of_prefix_length_le (List.prefix_append _ _) hqc (by omega)
        rw [← he, List.append_assoc, List.prefix_append_right_inj] at h
        have he1 : e <:+: symbolEndBytes := (List.prefix_append _ _).isInfix.trans h.isInfix
        have he2 : cs.flatten <:+: symbolEndBytes := (List.suffix_append _ _).isInfix.trans h.isInfix
        rw [deliver, hp.pass_complete hc hne he.symm he1, deliver_end he2 hcs', if_neg]
        · rfl
        · rw [List.length_append]; omega

end Frame

/-! ### A stream of frames -/

/-- A cut of one frame into chunks: the first one holds the start symbol, and white space is never at an end. -/
structure CleanCut (p : Packet) (cs : List Bytes) : Prop where
  bytes : p.getBytes = some cs.flatten
  first : ∀ c ∈ cs.head?, 2 ≤ c.length
  ends : ∀ c ∈ cs, NoSpaceEnds c

/-- The first chunks of a clean cut, received into an empty buffer. -/
theorem CleanCut.deliver_prefix {p : Packet} (hp : p.Sendable) {pre post : List Bytes}
    (h : CleanCut p (pre ++ post)) :
    deliver [] pre = if pre.flatten.length < 7 + p.dataSize then ([], pre.flatten) else ([p], []) := by
  have hraw := (Packet.getBytes_eq_some.1 h.bytes).2
  have hpre : pre.flatten <+: p.core ++ symbolEndBytes := by
    rw [← hraw, List.flatten_append]
    exact List.prefix_append _ _
  have hfirst : ∀ c ∈ pre.head?, 2 ≤ c.length := by
    intro c hc
    apply h.first
    cases pre with
    | nil => simp at hc
    | cons d pre => simpa using hc
  have hlen : ([] : Bytes).length < p.core.length := by rw [p.length_core, List.length_nil]; omega
  have hcut := hp.deliver_cut hlen hpre (fun c hc => strip_eq_self.2 (h.ends c (by simp [hc]))) (.inr hfirst)
  rw [List.nil_append, p.length_core] at hcut
  exact hcut

theorem CleanCut.deliver_eq {p : Packet} (hp : p.Sendable) {cs : List Bytes} (h : CleanCut p cs) :
    deliver [] cs = ([p], []) := by
  have hraw := (Packet.getBytes_eq_some.1 h.bytes).2
  have h' : CleanCut p (cs ++ []) := by rwa [List.append_nil]
  rw [h'.deliver_prefix hp, if_neg]
  rw [hraw, List.length_append, p.length_core]
  omega

theorem deliver_frames {ps : List Packet} {cuts : List (List Bytes)} (hps : ∀ p ∈ ps, p.Sendable)
    (h : List.Forall₂ CleanCut ps cuts) : deliver [] cuts.flatten = (ps, []) := by
  induction h with
  | nil => rfl
  | cons hc _ ih =>
    rw [List.flatten_cons, deliver_append, hc.deliver_eq (hps _ (by simp)), ih fun p hp => hps p (by simp [hp])]
    rfl

/-- Frames cut cleanly into chunks are received in order, each packet once, when its core is complete, and nothing is
left in the buffer after the last chunk of a frame. -/
theorem receiveAll_frames {ps : List Packet} {cuts : List (List Bytes)} (hps : ∀ p ∈ ps, p.Sendable)
    (h : List.Forall₂ CleanCut ps cuts) :
    receiveAll false record ([], []) cuts.flatten = .ok (ps, []) ∧
    ∀ done p rest, ps = done ++ p :: rest →
      ∀ cdone pre post crest, cuts = cdone ++ (pre ++ post) :: crest → cdone.length = done.length →
        ∃ b, receiveAll false record ([], []) (cdone.flatten ++ pre) =
            .ok (done ++ (if pre.flatten.length < 7 + p.dataSize then [] else [p]), b) ∧ (post = [] → b = []) := by
  constructor
  · rw [receiveAll_record, deliver_frames hps h]
    rfl
  · rintro done p rest rfl cdone pre post crest rfl hlen
    have hdone : List.Forall₂ CleanCut done cdone := by
      have := List.forall₂_take done.length h
      rwa [List.take_left' rfl, List.take_left' hlen] at this
    have hcut : CleanCut p (pre ++ post) := by
      have := List.forall₂_drop done.length h
      rw [List.drop_left' rfl, List.drop_left' hlen, List.forall₂_cons] at this
      exact this.1
    have hpre := hcut.deliver_prefix (hps p (by simp))
    rw [receiveAll_record, deliver_append, deliver_frames (fun p hp => hps p (by simp [hp])) hdone, hpre]
    refine ⟨if pre.flatten.length < 7 + p.dataSize then pre.flatten else [], ?_, fun hpost => ?_⟩
    · split <;> rfl
    · rw [hpost, List.append_nil] at hcut
      rw [if_neg]
      rw [(Packet.getBytes_eq_some.1 hcut.bytes).2, List.length_append, p.length_core]
      omega

theorem receiveAll_frames_stop_data :
    receiveAll false record ([], [])
        [[0x23, 0x24], [4, 0, 0, 0], [0x73, 0x74, 0x6f, 0x70, 0x18, 0x24, 0x23],
          [0x23, 0x24, 6, 0, 0, 0, 0x64, 0x61, 0x74], [0x61, 0x3d, 0x23, 0x0e, 0x24], [0x23]] =
      .ok ([Packet.init "stop", Packet.init "data" [0x23]], []) :=
  (@receiveAll_frames [Packet.init "stop", Packet.init "data" [0x23]]
    [[[0x23, 0x24], [4, 0, 0, 0], [0x73, 0x74, 0x6f, 0x70, 0x18, 0x24, 0x23]],
      [[0x23, 0x24, 6, 0, 0, 0, 0x64, 0x61, 0x74], [0x61, 0x3d, 0x23, 0x0e, 0x24], [0x23]]]
    (by decide) (.cons ⟨by decide +kernel, by decide, by decide +kernel⟩
      (.cons ⟨by decide +kernel, by decide, by decide +kernel⟩ .nil))).1

end WirelessUart
