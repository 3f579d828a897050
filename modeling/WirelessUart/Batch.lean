import WirelessUart.Receive

/-!
# Frames and junk in one result of `recv`

The loop removes as many bytes from the front of `recv_buffer` as the core of the dispatched packet has.  It counts
neither the bytes in front of the frame nor the end symbol.

* After `k` frames the last `2 * k` bytes of them are still there (`leftover`).  So a batch of frames is received
  exactly when what is left over never hides or replaces the next packet and holds no start symbol at the end
  (`receive_batch_iff`).
* Junk in front of a frame leaves as many bytes of the end of the frame, and the frame is dispatched again when the
  junk is as long as its core (`receive_junk_iff`).
-/

namespace WirelessUart

open ByteLib

/-! ### A batch of frames -/

/-- The bytes of the frames of `ps`. -/
def stream (ps : List Packet) : Bytes := (ps.map fun p => p.core ++ symbolEndBytes).flatten

/-- The last two bytes for each frame. -/
def leftover (ps : List Packet) : Bytes := (stream ps).drop ((stream ps).length - 2 * ps.length)

/-- What is left over of the frames before a packet lets the packet through, and in the end no start symbol is left. -/
def Undisturbed (ps : List Packet) : Prop :=
  (∀ done p rest, ps = done ++ p :: rest → Leads p (leftover done ++ stream (p :: rest))) ∧
    ¬ symbolStartBytes <:+: leftover ps

section Stream

variable {p : Packet} {ps : List Packet}

theorem stream_cons (p : Packet) (ps : List Packet) : stream (p :: ps) = p.core ++ symbolEndBytes ++ stream ps := rfl

theorem stream_append (ps qs : List Packet) : stream (ps ++ qs) = stream ps ++ stream qs := by
  rw [stream, List.map_append, List.flatten_append]
  rfl

theorem flatten_eq_stream {raws : List Bytes} (h : ps.mapM Packet.getBytes = some raws) :
    raws.flatten = stream ps := by
  induction ps generalizing raws with
  | nil =>
    rw [List.mapM_nil] at h
    cases h
    rfl
  | cons p ps ih =>
    rw [List.mapM_cons] at h
    obtain ⟨raw, hraw, h⟩ := Option.bind_eq_some_iff.1 h
    obtain ⟨raws', hraws, h⟩ := Option.bind_eq_some_iff.1 h
    cases h
    rw [List.flatten_cons, ih hraws, (Packet.getBytes_eq_some.1 hraw).2, stream_cons]

theorem two_mul_le_length_stream (ps : List Packet) : 2 * ps.length ≤ (stream ps).length := by
  induction ps with
  | nil => exact Nat.le_refl _
  | cons p ps ih =>
    rw [stream_cons, List.length_append, List.length_append, List.length_cons, symbolEndBytes]
    simp only [List.length_cons]
    omega

/-- Removing the length of a core moves on to the next packet. -/
theorem drop_leftover (done : List Packet) (p : Packet) (rest : List Packet) :
    (leftover done ++ stream (p :: rest)).drop (7 + p.dataSize) = leftover (done ++ [p]) ++ stream rest := by
  have hle := two_mul_le_length_stream done
  have hcore : (p.core ++ symbolEndBytes).length = 9 + p.dataSize := by
    rw [List.length_append, p.length_core, symbolEndBytes]
    simp only [List.length_cons, List.length_nil]
    omega
  have hone : stream [p] = p.core ++ symbolEndBytes := List.append_nil _
  have hlast : leftover (done ++ [p]) = (leftover done ++ (p.core ++ symbolEndBytes)).drop (7 + p.dataSize) := by
    rw [leftover, leftover, stream_append, hone, List.length_append, hcore, List.length_append, List.length_singleton,
      ← List.drop_append_of_le_length (by omega), List.drop_drop]
    congr 1
    omega
  rw [hlast, stream_cons, ← List.append_assoc, List.drop_append_of_le_length]
  rw [List.length_append, hcore]
  omega

private theorem head_stream (ps : List Packet) : ∀ x ∈ (stream ps).head?, ¬ isSpace x := by
  cases ps with
  | nil => simp [stream]
  | cons p ps =>
    intro x hx
    have hx : x = 0x23 := by simpa [stream_cons, Packet.core, frameBytes, symbolStartBytes, eq_comm] using hx
    rw [hx]
    decide

private theorem last_stream (ps : List Packet) : ∀ x ∈ (stream ps).getLast?, ¬ isSpace x := by
  induction ps using List.reverseRecOn with
  | nil => simp [stream]
  | append_singleton ps p _ =>
    intro x hx
    have hone : stream [p] = p.core ++ [0x24] ++ [0x23] := by simp [stream, symbolEndBytes]
    rw [stream_append, hone, ← List.append_assoc, List.getLast?_concat, Option.mem_some_iff] at hx
    rw [← hx]
    decide

theorem strip_stream (ps : List Packet) : strip (stream ps) = stream ps :=
  trim_eq_self.2 ⟨head_stream ps, last_stream ps⟩

end Stream

theorem pass_stream (ps : List Packet) :
    pass [] (stream ps) = ((drain (stream ps)).1, flush (drain (stream ps)).2) := by
  unfold pass
  rw [strip_stream]
  split
  · rename_i h
    rw [h, drain_of_none (parse_of_no_start (by decide))]
    rfl
  · rfl

/-- The loop in the middle of a batch: `done` is dispatched, `rest` is to come. -/
theorem drain_leftover_iff (done rest : List Packet) :
    (drain (leftover done ++ stream rest)).1 = rest ∧
        ¬ symbolStartBytes <:+: (drain (leftover done ++ stream rest)).2 ↔
      (∀ mid p post, rest = mid ++ p :: post → Leads p (leftover (done ++ mid) ++ stream (p :: post))) ∧
        ¬ symbolStartBytes <:+: leftover (done ++ rest) := by
  induction rest generalizing done with
  | nil =>
    have hnil : leftover done ++ stream [] = leftover done := List.append_nil _
    rw [hnil, List.append_nil]
    constructor
    · rintro ⟨h1, h2⟩
      refine ⟨fun mid p post h => absurd h (by simp), ?_⟩
      cases hp : parse (leftover done) with
      | none => rwa [drain_of_none hp] at h2
      | some q => rw [drain_of_some hp] at h1; cases h1
    · rintro ⟨-, h⟩
      rw [drain_of_none (parse_of_no_start h)]
      exact ⟨rfl, h⟩
  | cons p rest ih =>
    have hsplit : (∀ mid q post, p :: rest = mid ++ q :: post →
          Leads q (leftover (done ++ mid) ++ stream (q :: post))) ↔
        Leads p (leftover done ++ stream (p :: rest)) ∧
          ∀ mid q post, rest = mid ++ q :: post → Leads q (leftover (done ++ [p] ++ mid) ++ stream (q :: post)) := by
      constructor
      · intro h
        refine ⟨?_, fun mid q post hrest => ?_⟩
        · have := h [] p rest rfl
          rwa [List.append_nil] at this
        · have := h (p :: mid) q post (by rw [hrest, List.cons_append])
          rwa [List.append_cons] at this
      · rintro ⟨h0, h1⟩ mid q post hmid
        cases mid with
        | nil =>
          obtain ⟨rfl, rfl⟩ := List.cons.inj hmid
          rwa [List.append_nil]
        | cons x mid =>
          obtain ⟨rfl, rfl⟩ := List.cons.inj hmid
          rw [List.append_cons]
          exact h1 mid q post rfl
    have hdone : done ++ p :: rest = done ++ [p] ++ rest := List.append_cons done p rest
    rw [hsplit, hdone, and_assoc, ← ih, ← parse_eq_some_iff, ← drop_leftover]
    constructor
    · rintro ⟨h1, h2⟩
      cases hp : parse (leftover done ++ stream (p :: rest)) with
      | none => rw [drain_of_none hp] at h1; cases h1
      | some q =>
        rw [drain_of_some hp] at h1 h2
        obtain ⟨rfl, h1⟩ := List.cons.inj h1
        exact ⟨rfl, h1, h2⟩
    · rintro ⟨hp, h1, h2⟩
      rw [drain_of_some hp]
      exact ⟨congrArg (p :: ·) h1, h2⟩

theorem start_infix_flush {b : Bytes} : symbolStartBytes <:+: flush b ↔ symbolStartBytes <:+: b := by
  constructor
  · exact fun h => h.trans (flush_suffix b).isInfix
  · intro h
    rwa [flush_of_start h]

/-- A batch of frames in one result of `recv` is passed on packet by packet exactly when it is undisturbed. -/
theorem receive_batch_iff {ps : List Packet} {raws : List Bytes} (h : ps.mapM Packet.getBytes = some raws) :
    (∃ b, receive false record ([], []) raws.flatten = .ok (ps, b) ∧ ¬ symbolStartBytes <:+: b) ↔ Undisturbed ps := by
  have hnil : leftover [] ++ stream ps = stream ps := rfl
  have hiff := drain_leftover_iff [] ps
  simp only [hnil, List.nil_append] at hiff
  rw [flatten_eq_stream h, receive_record, pass_stream, Undisturbed, ← hiff]
  constructor
  · rintro ⟨b, hb, hstart⟩
    injection hb with hb
    obtain ⟨h1, rfl⟩ := Prod.mk.inj hb
    exact ⟨h1, fun hs => hstart (start_infix_flush.2 hs)⟩
  · rintro ⟨h1, h2⟩
    exact ⟨_, by rw [h1]; rfl, fun hs => h2 (start_infix_flush.1 hs)⟩

theorem receive_batch_iff_stop_start :
    (∃ b, receive false record ([], [])
        [[0x23, 0x24, 4, 0, 0, 0, 0x73, 0x74, 0x6f, 0x70, 0x18, 0x24, 0x23],
          [0x23, 0x24, 5, 0, 0, 0, 0x73, 0x74, 0x61, 0x72, 0x74, 0x60, 0x24, 0x23]].flatten =
        .ok ([Packet.init "stop", Packet.init "start"], b) ∧ ¬ symbolStartBytes <:+: b) ↔
      Undisturbed [Packet.init "stop", Packet.init "start"] :=
  receive_batch_iff (by decide +kernel)

/-- The checksum of the second packet and the end symbol form a start symbol, which hides the third packet. -/
theorem not_receive_every_batch :
    ¬ ∀ ps : List Packet, (∀ p ∈ ps, p.Sendable) → ∀ raws : List Bytes, ps.mapM Packet.getBytes = some raws →
      ∃ b, receive false record ([], []) raws.flatten = .ok (ps, b) ∧ ¬ symbolStartBytes <:+: b := by
  intro h
  obtain ⟨b, hb, -⟩ := h [Packet.init "a", Packet.init "#", Packet.init "stop"] (by decide)
    [[0x23, 0x24, 1, 0, 0, 0, 0x61, 0x61, 0x24, 0x23], [0x23, 0x24, 1, 0, 0, 0, 0x23, 0x23, 0x24, 0x23],
      [0x23, 0x24, 4, 0, 0, 0, 0x73, 0x74, 0x6f, 0x70, 0x18, 0x24, 0x23]] (by decide +kernel)
  have hrun : receive false record ([], [])
      [[0x23, 0x24, 1, 0, 0, 0, 0x61, 0x61, 0x24, 0x23], [0x23, 0x24, 1, 0, 0, 0, 0x23, 0x23, 0x24, 0x23],
        [0x23, 0x24, 4, 0, 0, 0, 0x73, 0x74, 0x6f, 0x70, 0x18, 0x24, 0x23]].flatten =
      .ok ([Packet.init "a", Packet.init "#"],
        [0x23, 0x23, 0x24, 0x23, 0x23, 0x24, 4, 0, 0, 0, 0x73, 0x74, 0x6f, 0x70, 0x18, 0x24, 0x23]) := by
    decide +kernel
  rw [hrun] at hb
  simp at hb

/-- A batch is undisturbed when nothing that is left over holds a start symbol. -/
theorem undisturbed_of_no_start {ps : List Packet} (hps : ∀ p ∈ ps, p.Sendable)
    (h : ∀ done, done <+: ps → ¬ symbolStartBytes <:+: leftover done) : Undisturbed ps := by
  refine ⟨fun done p rest hsplit => ?_, h ps (List.prefix_refl ps)⟩
  have hdone : done <+: ps := ⟨p :: rest, hsplit.symm⟩
  have hp : p.Sendable := hps p (by simp [hsplit])
  have hhead : (stream (p :: rest)).head? ≠ some 0x24 := by
    simp [stream_cons, Packet.core, frameBytes, symbolStartBytes]
  rw [← parse_eq_some_iff, parse_append_of_no_start (h done hdone) hhead, stream_cons, List.append_assoc]
  exact hp.parse_core _

/-! ### Junk in front of a frame -/

/-- Bytes that carry no packet: no start symbol, or one complete frame with a wrong checksum, with or without its end
symbol, and no other start symbol. -/
def Junk (j : Bytes) : Prop :=
  ¬ symbolStartBytes <:+: j ∨
    ∃ d c e, j = frameBytes d c ++ e ∧ d.length < 2 ^ 32 ∧ c ≠ calcChecksum d ∧ (e = [] ∨ e = symbolEndBytes) ∧
      ¬ symbolStartBytes <:+: j.tail

/-- `bytes.lstrip()` -/
def lstrip (j : Bytes) : Bytes := j.dropWhile isSpace

section Junk

variable {j : Bytes}

/-- No start symbol of the junk is live. -/
theorem Junk.not_live (hj : Junk j) {b : Bytes} (hb : b.head? ≠ some 0x24) {t : Bytes} (ht : t <:+ j) (hne : t ≠ []) :
    ¬ Live (t ++ b) := by
  intro hl
  rcases hj with hj | ⟨d, c, e, rfl, hlt, hc, -, htail⟩
  · exact no_start_append hj hb ht hne hl.1
  · rw [frameBytes, symbolStartBytes] at htail ht
    simp only [List.cons_append, List.tail_cons] at htail ht
    rcases List.suffix_cons_iff.1 ht with rfl | ht
    · refine hl.2 ?_
      have := (rejected_frameBytes (c := c) hlt (e ++ b)).2 hc
      rwa [← List.append_assoc] at this
    · exact no_start_append htail hb ht hne hl.1

theorem Junk.lstrip (hj : Junk j) : Junk (lstrip j) := by
  rcases hj with hj | ⟨d, c, e, rfl, hrest⟩
  · exact .inl fun hs => hj (hs.trans (List.dropWhile_suffix _).isInfix)
  · -- the start symbol of a frame is not white space
    have heq : WirelessUart.lstrip (frameBytes d c ++ e) = frameBytes d c ++ e := by
      rw [frameBytes, symbolStartBytes]
      rfl
    rw [heq]
    exact .inr ⟨d, c, e, rfl, hrest⟩

/-- Stripping what begins with junk and ends with a frame removes white space in front only. -/
theorem strip_junk (j : Bytes) (p : Packet) :
    strip (j ++ (p.core ++ symbolEndBytes)) = WirelessUart.lstrip j ++ (p.core ++ symbolEndBytes) := by
  have hframe : p.core ++ symbolEndBytes = stream [p] := (List.append_nil _).symm
  have hdrop : (j ++ stream [p]).dropWhile isSpace = WirelessUart.lstrip j ++ stream [p] := by
    have hself : (stream [p]).dropWhile isSpace = stream [p] := rfl
    rw [List.dropWhile_append, hself, WirelessUart.lstrip]
    split
    · rename_i h
      rw [List.isEmpty_iff.1 h, List.nil_append]
    · rfl
  rw [hframe, strip, trim, hdrop, List.rdropWhile_eq_self_iff]
  intro hne hsp
  have hlast : stream [p] ≠ [] := by simp [stream, Packet.core, frameBytes, symbolStartBytes]
  rw [List.getLast_append_of_ne_nil _ hlast] at hsp
  exact last_stream [p] _ (List.getLast_mem_getLast? hlast) hsp

end Junk

/-- A frame behind junk is dispatched once, and nothing else is, exactly when its core is longer than the junk and no
packet is read from the last bytes of the core, as many as the junk has. -/
theorem receive_junk_iff {p : Packet} (hp : p.Sendable) {raw : Bytes} (hraw : p.getBytes = some raw) {j : Bytes}
    (hj : Junk j) :
    (∃ b, receive false record ([], []) (j ++ raw) = .ok ([p], b)) ↔
      (lstrip j).length < 7 + p.dataSize ∧
        ¬ ∃ q, Leads q (p.core.drop (7 + p.dataSize - (lstrip j).length) ++ symbolEndBytes) := by
  obtain rfl := (Packet.getBytes_eq_some.1 hraw).2
  have hj' := hj.lstrip
  generalize hl : lstrip j = l at *
  have hhead : (p.core ++ symbolEndBytes).head? ≠ some 0x24 := by
    simp [Packet.core, frameBytes, symbolStartBytes]
  have hparse (k : Bytes) (hk : k <:+ l) : parse (k ++ (p.core ++ symbolEndBytes)) = some p := by
    rw [parse_append fun t ht hne => hj'.not_live hhead (ht.trans hk) hne]
    exact hp.parse_core _
  have hpass : (pass [] (j ++ (p.core ++ symbolEndBytes))).1 =
      p :: (drain ((l ++ (p.core ++ symbolEndBytes)).drop (7 + p.dataSize))).1 := by
    unfold pass
    rw [strip_junk, hl, List.nil_append, if_neg (by simp [symbolEndBytes]),
      drain_of_some (hparse l (List.suffix_refl l))]
  have honce : (∃ b, receive false record ([], []) (j ++ (p.core ++ symbolEndBytes)) = .ok ([p], b)) ↔
      parse ((l ++ (p.core ++ symbolEndBytes)).drop (7 + p.dataSize)) = none := by
    rw [receive_record, List.nil_append, hpass]
    constructor
    · intro h
      obtain ⟨b, hb⟩ := h
      injection hb with hb
      have h1 := (List.cons.inj (congrArg Prod.fst hb)).2
      cases hq : parse ((l ++ (p.core ++ symbolEndBytes)).drop (7 + p.dataSize)) with
      | none => rfl
      | some q => rw [drain_of_some hq] at h1; cases h1
    · intro hq
      rw [drain_of_none hq]
      exact ⟨_, rfl⟩
  rw [honce]
  constructor
  · intro hq
    have hlt : l.length < 7 + p.dataSize := by
      -- otherwise only junk was removed, and the frame is read again
      by_contra hge
      rw [List.drop_append_of_le_length (by omega), hparse _ (List.drop_suffix _ _)] at hq
      cases hq
    refine ⟨hlt, ?_⟩
    intro h
    obtain ⟨q, hlead⟩ := h
    rw [List.drop_append, List.drop_eq_nil_of_le (by omega), List.nil_append,
      List.drop_append_of_le_length (by rw [p.length_core]; omega)] at hq
    rw [← parse_eq_some_iff, hq] at hlead
    cases hlead
  · intro h
    obtain ⟨hlt, hnone⟩ := h
    rw [List.drop_append, List.drop_eq_nil_of_le (by omega), List.nil_append,
      List.drop_append_of_le_length (by rw [p.length_core]; omega), Option.eq_none_iff_forall_ne_some]
    intro q hq
    exact hnone ⟨q, parse_eq_some_iff.1 hq⟩

theorem receive_junk_iff_stop :
    (∃ b, receive false record ([], [])
        ([0x0a, 0x41] ++ [0x23, 0x24, 4, 0, 0, 0, 0x73, 0x74, 0x6f, 0x70, 0x18, 0x24, 0x23]) =
      .ok ([Packet.init "stop"], b)) ↔
      (lstrip [0x0a, 0x41]).length < 7 + (Packet.init "stop").dataSize ∧
        ¬ ∃ q, Leads q ((Packet.init "stop").core.drop (7 + (Packet.init "stop").dataSize -
          (lstrip [0x0a, 0x41]).length) ++ symbolEndBytes) :=
  receive_junk_iff (by decide) (by decide +kernel) (.inl (by decide))

/-- Junk as long as the core of a frame makes the loop dispatch the packet twice. -/
theorem not_receive_every_junk :
    ¬ ∀ p : Packet, p.Sendable → ∀ raw, p.getBytes = some raw → ∀ j, Junk j →
      ∃ b, receive false record ([], []) (j ++ raw) = .ok ([p], b) := by
  intro h
  obtain ⟨b, hb⟩ := h (Packet.init "stop") (by decide)
    [0x23, 0x24, 4, 0, 0, 0, 0x73, 0x74, 0x6f, 0x70, 0x18, 0x24, 0x23] (by decide +kernel)
    (List.replicate 11 0x41) (.inl (by decide))
  have hrun : receive false record ([], [])
      (List.replicate 11 0x41 ++ [0x23, 0x24, 4, 0, 0, 0, 0x73, 0x74, 0x6f, 0x70, 0x18, 0x24, 0x23]) =
      .ok ([Packet.init "stop", Packet.init "stop"], []) := by decide +kernel
  rw [hrun] at hb
  simp at hb

end WirelessUart
