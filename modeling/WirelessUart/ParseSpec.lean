import WirelessUart.RoundTrip

/-!
# What the parser accepts

`parse` in terms of positions: it looks at the first start symbol whose frame is not both complete and damaged, and
reads that frame or nothing (`parse_eq_some_iff_first`).  The exceptions inside its `try` never leave it
(`parseTry_eq`).

A packet is written again by the bytes it was read from, unless the frame has a needless `=`: one that ends the data
and has the whole key in front of it (`getBytes_of_parse_iff`).
-/

namespace WirelessUart

open ByteLib

/-! ### Exceptions -/

/-- The body of the `try` in `Packet.parse`; an error is an exception that the body raises. -/
def parseLoop (rawBytes : Bytes) : Except Unit (Option Packet) :=
  if rawBytes.length ≥ packetMin then
    match find symbolStartBytes rawBytes with
    | some 0 =>
      if (rawBytes.take 6).length ≠ 6 then .error ()
      else
        let dataSize := declaredSize rawBytes
        if rawBytes.length < 6 + 1 + dataSize then .ok none
        else
          let dataBytes := (rawBytes.drop 6).take dataSize
          match rawBytes[6 + dataSize]? with
          | some checksum =>
            if calcChecksum dataBytes = checksum then
              match splitData dataBytes with
              | some newPacket => .ok (some newPacket)
              | none => .error ()
            else parseLoop (rawBytes.drop 2)
          | none => .error ()
    | some (i + 1) => parseLoop (rawBytes.drop (i + 1))
    | none => .ok none
  else .ok none
termination_by rawBytes.length
decreasing_by all_goals simp only [packetMin, List.length_drop] at *; omega

/-- `Packet.parse` with its `try`: an exception of the body is logged, and `None` is returned. -/
def parseTry (rawBytes : Bytes) : Except Unit (Option Packet) :=
  match parseLoop rawBytes with
  | .ok r => .ok r
  | .error _ => .ok none

private theorem length_take_six {b : Bytes} (h : b.length ≥ packetMin) : (b.take 6).length = 6 := by
  rw [packetMin] at h
  rw [List.length_take]
  omega

/-- No exception leaves the parser. -/
theorem parseTry_eq (b : Bytes) : parseTry b = .ok (parse b) := by
  unfold parseTry
  induction b using parse.induct with
  | case1 b hmin hfind dataSize hlt =>
    rw [parseLoop, parse, if_pos hmin, if_pos hmin, hfind]
    simp only [length_take_six hmin, ne_eq, not_true_eq_false, if_false]
    rw [if_pos hlt, if_pos hlt]
  | case2 b hmin hfind dataSize hlt dataBytes hsum =>
    rw [parseLoop, parse, if_pos hmin, if_pos hmin, hfind]
    simp only [length_take_six hmin, ne_eq, not_true_eq_false, if_false]
    rw [if_neg hlt, if_neg hlt, if_pos hsum, hsum]
    simp only [dataBytes, dataSize, if_true]
    cases splitData ((b.drop 6).take (declaredSize b)) <;> rfl
  | case3 b hmin hfind dataSize hlt dataBytes hsum ih =>
    rw [parseLoop, parse, if_pos hmin, if_pos hmin, hfind]
    simp only [length_take_six hmin, ne_eq, not_true_eq_false, if_false]
    rw [if_neg hlt, if_neg hlt, if_neg hsum, ← ih]
    -- the checksum byte is there, so the index does not raise
    have hin : 6 + declaredSize b < b.length := by
      simp only [dataSize] at hlt
      omega
    have hget := List.getElem?_eq_getElem hin
    rw [hget] at hsum ⊢
    have hne : ¬ calcChecksum ((b.drop 6).take (declaredSize b)) = b[6 + declaredSize b] :=
      fun h => hsum (congrArg some h.symm)
    simp only [if_neg hne]
  | case4 b hmin i hfind ih =>
    rw [parseLoop, parse, if_pos hmin, if_pos hmin, hfind]
    exact ih
  | case5 b hmin hfind =>
    rw [parseLoop, parse, if_pos hmin, if_pos hmin, hfind]
  | case6 b hmin =>
    rw [parseLoop, parse, if_neg hmin, if_neg hmin]

/-! ### The first start symbol that counts -/

/-- There is a start symbol at `i`, and its frame is not both complete and damaged. -/
def Candidate (b : Bytes) (i : Nat) : Prop := symbolStartBytes <+: b.drop i ∧ ¬ Rejected (b.drop i)

/-- The first such position. -/
def FirstCandidate (b : Bytes) (i : Nat) : Prop := Candidate b i ∧ ∀ j < i, ¬ Candidate b j

instance (b : Bytes) (i : Nat) : Decidable (Candidate b i) := inferInstanceAs (Decidable (_ ∧ _))
instance (b : Bytes) (i : Nat) : Decidable (FirstCandidate b i) := inferInstanceAs (Decidable (_ ∧ _))

/-- The key part of the data of a frame: up to the first `=` if that is not the first byte, else all of it. -/
def keyPart (d : Bytes) : Bytes :=
  match find [0x3d] d with
  | some (i + 1) => d.take (i + 1)
  | _ => d

/-- The value part: what is behind that `=`. -/
def valPart (d : Bytes) : Bytes :=
  match find [0x3d] d with
  | some (i + 1) => d.drop (i + 2)
  | _ => []

theorem splitData_eq_some {d : Bytes} {p : Packet} :
    splitData d = some p ↔ decode (keyPart d) = some p.keyStr ∧ p.valBytes = valPart d := by
  have hinit (k : String) (v : Bytes) : Packet.init k v = p ↔ k = p.keyStr ∧ p.valBytes = v := by
    constructor
    · rintro rfl
      exact ⟨rfl, rfl⟩
    · intro h
      obtain ⟨hk, hv⟩ := h
      exact Packet.ext_key_val hk hv.symm
  unfold splitData keyPart valPart
  rcases find [0x3d] d with _ | _ | i <;> simp [Option.map_eq_some_iff, hinit]

theorem firstSuffix_live_eq_some {b c : Bytes} :
    firstSuffix Live b = some c ↔ ∃ i, FirstCandidate b i ∧ c = b.drop i := by
  rw [firstSuffix_eq_some_drop]
  constructor
  · intro h
    obtain ⟨i, -, rfl, hl, hlt⟩ := h
    exact ⟨i, ⟨hl, hlt⟩, rfl⟩
  · intro h
    obtain ⟨i, ⟨hl, hlt⟩, rfl⟩ := h
    refine ⟨i, ?_, rfl, hl, hlt⟩
    have := hl.1.length_le
    rw [List.length_drop, symbolStartBytes, List.length_cons] at this
    omega

/-- What a scanner returns, by positions. -/
theorem IsScanner.eq_some_iff {α : Type*} {minLen : Nat} {read f : Bytes → Option α} (hf : IsScanner minLen read f)
    (hmin : 0 < minLen) {b : Bytes} {p : α} :
    f b = some p ↔ ∃ i, FirstCandidate b i ∧ minLen ≤ b.length - i ∧ read (b.drop i) = some p := by
  rw [hf.eq hmin, Option.bind_eq_some_iff]
  constructor
  · intro h
    obtain ⟨c, hc, hr⟩ := h
    obtain ⟨i, hi, rfl⟩ := firstSuffix_live_eq_some.1 hc
    rw [Option.ite_none_right_eq_some, List.length_drop] at hr
    exact ⟨i, hi, hr⟩
  · intro h
    obtain ⟨i, hi, hlen, hr⟩ := h
    refine ⟨b.drop i, firstSuffix_live_eq_some.2 ⟨i, hi, rfl⟩, ?_⟩
    rw [List.length_drop, if_pos hlen]
    exact hr

/-- The parser returns a packet exactly when the first start symbol that counts begins a complete frame of at least
eight bytes with a key in UTF-8, and the packet is what its data are split into. -/
theorem parse_eq_some_iff_first (b : Bytes) (p : Packet) :
    parse b = some p ↔ ∃ i, FirstCandidate b i ∧ packetMin ≤ b.length - i ∧ Complete (b.drop i) ∧
      decode (keyPart (frameData (b.drop i))) = some p.keyStr ∧ p.valBytes = valPart (frameData (b.drop i)) := by
  rw [parse_isScanner.eq_some_iff (by decide)]
  apply exists_congr
  intro i
  apply and_congr_right
  intro _
  rw [readFrame, Option.ite_none_right_eq_some, splitData_eq_some, List.length_drop]
  constructor
  · intro h
    exact ⟨h.1, h.2.1.2, h.2.2⟩
  · intro h
    exact ⟨h.1, ⟨h.1, h.2.1⟩, h.2.2⟩

/-- What both parsers return, for every input; they never raise. -/
theorem parse_spec (b : Bytes) :
    parseTry b = .ok (Server.parse b) ∧ Client.parse b = Server.parse b ∧
      ∀ p : Packet, Server.parse b = some p ↔ ∃ i, FirstCandidate b i ∧ packetMin ≤ b.length - i ∧
        Complete (b.drop i) ∧ decode (keyPart (frameData (b.drop i))) = some p.keyStr ∧
          p.valBytes = valPart (frameData (b.drop i)) :=
  ⟨parseTry_eq b, rfl, parse_eq_some_iff_first b⟩

/-! ### Writing a packet again -/

theorem FirstCandidate.unique {b : Bytes} {i j : Nat} (hi : FirstCandidate b i) (hj : FirstCandidate b j) : i = j := by
  rcases Nat.lt_trichotomy i j with h | h | h
  · exact absurd hi.1 (hj.2 i h)
  · exact h
  · exact absurd hj.1 (hi.2 j h)

/-- A `=` that ends the data, with the whole key in front of it: the value is empty, and the `=` not needed. -/
def NeedlessEquals (d : Bytes) : Prop := ∃ key, key ≠ [] ∧ 0x3d ∉ key ∧ d = key ++ [0x3d]

theorem needlessEquals_iff {d : Bytes} : NeedlessEquals d ↔ ∃ i, find [0x3d] d = some (i + 1) ∧ d.length = i + 2 := by
  constructor
  · intro h
    obtain ⟨key, hne, heq, rfl⟩ := h
    obtain ⟨i, hi⟩ := Nat.exists_eq_succ_of_ne_zero (mt List.length_eq_zero_iff.1 hne)
    refine ⟨i, ?_, ?_⟩
    · rw [find_singleton_append heq, hi]
    · rw [List.length_append, hi, List.length_singleton]
  · intro h
    obtain ⟨i, hf, hlen⟩ := h
    refine ⟨d.take (i + 1), ?_, not_mem_take_of_find hf, ?_⟩
    · rw [← List.length_pos_iff, List.length_take]
      omega
    · obtain ⟨t, ht⟩ := (find_eq_some hf).1
      have hnil : t = [] := by
        have := congrArg List.length ht
        rw [List.length_drop, List.length_append, List.length_singleton] at this
        exact List.length_eq_zero_iff.1 (by omega)
      rw [hnil, List.append_nil] at ht
      rw [ht, List.take_append_drop]

/-- The data are put together again from their parts unless there is a needless `=`. -/
theorem dataBytes_of_splitData_iff {d : Bytes} {p : Packet} (h : splitData d = some p) :
    p.dataBytes = d ↔ ¬ NeedlessEquals d := by
  obtain ⟨hkey, hval⟩ := splitData_eq_some.1 h
  have hkey := encode_of_decode hkey
  rw [p.dataBytes_eq, dataOf, hkey, hval, needlessEquals_iff]
  rcases hf : find [0x3d] d with _ | _ | i
  · have hkp : keyPart d = d := by rw [keyPart, hf]
    have hvp : valPart d = [] := by rw [valPart, hf]
    simp [hkp, hvp]
  · have hkp : keyPart d = d := by rw [keyPart, hf]
    have hvp : valPart d = [] := by rw [valPart, hf]
    simp [hkp, hvp]
  · -- a `=` at a positive position: the two parts and the `=` make up the data
    have hkp : keyPart d = d.take (i + 1) := by rw [keyPart, hf]
    have hvp : valPart d = d.drop (i + 2) := by rw [valPart, hf]
    have hlt := find_lt_length (List.cons_ne_nil _ _) hf
    obtain ⟨t, ht⟩ := (find_eq_some hf).1
    have hdrop : d.drop (i + 2) = t := by
      rw [show d.drop (i + 2) = (d.drop (i + 1)).drop 1 by rw [List.drop_drop], ← ht]
      rfl
    have hd : d.take (i + 1) ++ [0x3d] ++ d.drop (i + 2) = d := by
      rw [List.append_assoc, hdrop, ht, List.take_append_drop]
    rw [hkp, hvp]
    split
    · rename_i hpos
      rw [List.length_drop] at hpos
      refine iff_of_true hd ?_
      rintro ⟨j, hj, hlen⟩
      cases hj
      omega
    · rename_i hpos
      rw [List.length_drop] at hpos
      refine iff_of_false ?_ (not_not.2 ⟨i, rfl, by omega⟩)
      intro heq
      have := congrArg List.length heq
      rw [List.length_take] at this
      omega

/-- A packet that is read from the frame at `i` has the declared length, and its own frame has the same bytes, exactly
when the data of the frame have no needless `=`. -/
theorem getBytes_of_parse_iff {b : Bytes} {p : Packet} (h : parse b = some p) {i : Nat} (hi : FirstCandidate b i) :
    (p.dataSize = declaredSize (b.drop i) ∧
        p.getBytes = some ((b.drop i).take (7 + declaredSize (b.drop i)) ++ symbolEndBytes)) ↔
      ¬ NeedlessEquals (frameData (b.drop i)) := by
  obtain ⟨j, hj, -, hcomp, hsplit⟩ := (parse_eq_some_iff_first b p).1 h
  obtain rfl := hi.unique hj
  have hsplit := splitData_eq_some.2 hsplit
  have hintact : Intact (b.drop i) := by
    by_contra hintact
    exact hi.1.2 ⟨hcomp, hintact⟩
  obtain ⟨hframe, hlt⟩ := frameBytes_prefix hi.1.1 hcomp hintact
  generalize hd : frameData (b.drop i) = d at *
  have hsize : declaredSize (b.drop i) = d.length := by
    rw [← hd, frameData, List.length_take, List.length_drop]
    unfold Complete at hcomp
    omega
  have htake : (b.drop i).take (7 + d.length) = frameBytes d (calcChecksum d) := by
    rw [← length_frameBytes d (calcChecksum d)]
    exact (List.prefix_iff_eq_take.1 hframe).symm
  rw [hsize, htake, ← dataBytes_of_splitData_iff hsplit]
  constructor
  · rintro ⟨-, hraw⟩
    have hcore := (Packet.getBytes_eq_some.1 hraw).2
    rw [List.append_cancel_right_eq] at hcore
    have hlen := congrArg List.length hcore
    rw [length_frameBytes, p.length_core, p.dataSize_eq] at hlen
    rcases dataBytes_of_splitData hsplit with heq | heq
    · exact heq.symm
    · have := congrArg List.length heq
      rw [List.length_append, List.length_singleton] at this
      omega
  · intro hdata
    have hps : p.dataSize = d.length := by rw [p.dataSize_eq, hdata]
    refine ⟨hps, Packet.getBytes_eq_some.2 ⟨hps ▸ hlt, ?_⟩⟩
    rw [Packet.core, p.checksum_eq, hdata]

theorem getBytes_of_parse_iff_stop :
    ((Packet.init "stop").dataSize =
          declaredSize (([0x41, 0x23, 0x24, 4, 0, 0, 0, 0x73, 0x74, 0x6f, 0x70, 0x18] : Bytes).drop 1) ∧
        (Packet.init "stop").getBytes =
          some ((([0x41, 0x23, 0x24, 4, 0, 0, 0, 0x73, 0x74, 0x6f, 0x70, 0x18] : Bytes).drop 1).take
            (7 + declaredSize (([0x41, 0x23, 0x24, 4, 0, 0, 0, 0x73, 0x74, 0x6f, 0x70, 0x18] : Bytes).drop 1)) ++
              symbolEndBytes)) ↔
      ¬ NeedlessEquals
        (frameData (([0x41, 0x23, 0x24, 4, 0, 0, 0, 0x73, 0x74, 0x6f, 0x70, 0x18] : Bytes).drop 1)) :=
  getBytes_of_parse_iff (by decide +kernel) (by decide +kernel)

/-- A frame with the data `k=`: the packet has one byte less. -/
theorem not_getBytes_of_every_parse :
    ¬ ∀ (b : Bytes) (p : Packet) (i : Nat), parse b = some p → FirstCandidate b i →
      p.dataSize = declaredSize (b.drop i) ∧
        p.getBytes = some ((b.drop i).take (7 + declaredSize (b.drop i)) ++ symbolEndBytes) := by
  intro h
  have hlen := (h [0x23, 0x24, 2, 0, 0, 0, 0x6b, 0x3d, 0x56] (Packet.init "k") 0 (by decide +kernel)
    (by decide +kernel)).1
  exact absurd hlen (by decide)

end WirelessUart
