import WirelessUart.ByteLib.Search
import WirelessUart.Packet

/-!
# The frame scanner

`parse` is `Packet.parse` of the server and of the client.  It looks for a start symbol, skips a start symbol whose
frame is complete and has a wrong checksum, and stops at the first other one.  In terms of the bytes alone: `parse`
reads the frame at the first suffix of its input that is `Live` (`parse_eq`).

From this the results used by the receive loop follow: bytes in front of a frame that hold no live start symbol do not
matter (`parse_append`), the frame of a sendable packet is read back whatever follows it (`parse_core`), and a
truncated frame is not read (`parse_of_lt`).
-/

namespace WirelessUart

open ByteLib

/-- The length field of a frame: the `I` in `struct.unpack('<1H1I', raw_bytes[:6])`. -/
def declaredSize (rawBytes : Bytes) : Nat := leNat ((rawBytes.drop 2).take 4)

/-- The packet in the data bytes of a frame: split at the first `=` when it is not the first byte, and decode the
key; `none` when the key is not UTF-8. -/
def splitData (dataBytes : Bytes) : Option Packet :=
  match find [0x3d] dataBytes with
  | some (i + 1) =>
    (decode (dataBytes.take (i + 1))).map fun keyStr => Packet.init keyStr (dataBytes.drop (i + 2))
  | _ => (decode dataBytes).map fun keyStr => Packet.init keyStr

/-- `Packet.parse`; the exceptions it catches end it with `none`. -/
def parse (rawBytes : Bytes) : Option Packet :=
  if rawBytes.length ≥ packetMin then
    match find symbolStartBytes rawBytes with
    | some 0 =>
      let dataSize := declaredSize rawBytes
      if rawBytes.length < 6 + 1 + dataSize then none
      else
        let dataBytes := (rawBytes.drop 6).take dataSize
        if rawBytes[6 + dataSize]? = some (calcChecksum dataBytes) then splitData dataBytes
        else parse (rawBytes.drop 2)
    | some (i + 1) => parse (rawBytes.drop (i + 1))
    | none => none
  else none
termination_by rawBytes.length
decreasing_by all_goals simp only [packetMin, List.length_drop] at *; omega

/-! ### Live start symbols -/

/-- The frame at the front of `c` lies within `c`. -/
def Complete (c : Bytes) : Prop := 6 + 1 + declaredSize c ≤ c.length

/-- The data bytes of the frame at the front of `c`. -/
def frameData (c : Bytes) : Bytes := (c.drop 6).take (declaredSize c)

/-- The byte behind the data bytes is their checksum. -/
def Intact (b : Bytes) : Prop := b[6 + declaredSize b]? = some (calcChecksum (frameData b))

/-- The frame at the front of `c` is complete and has a wrong checksum. -/
def Rejected (c : Bytes) : Prop := Complete c ∧ ¬ Intact c

/-- `c` begins with a start symbol that the scanner does not skip. -/
def Live (c : Bytes) : Prop := symbolStartBytes <+: c ∧ ¬ Rejected c

instance (c : Bytes) : Decidable (Complete c) := inferInstanceAs (Decidable (_ ≤ _))
instance (c : Bytes) : Decidable (Intact c) := inferInstanceAs (Decidable (_ = _))
instance (c : Bytes) : Decidable (Rejected c) := inferInstanceAs (Decidable (_ ∧ _))
instance : DecidablePred Live := fun _ => inferInstanceAs (Decidable (_ ∧ _))

/-- The packet in the frame at the front of `c`. -/
def readFrame (c : Bytes) : Option Packet :=
  if packetMin ≤ c.length ∧ Complete c then splitData (frameData c) else none

theorem declaredSize_append {c : Bytes} (h : 6 ≤ c.length) (s : Bytes) : declaredSize (c ++ s) = declaredSize c := by
  rw [declaredSize, declaredSize, List.drop_append_of_le_length (by omega),
    List.take_append_of_le_length (by rw [List.length_drop]; omega)]

/-- Whether a complete frame is intact does not depend on what arrives behind it. -/
theorem Complete.intact_append {c : Bytes} (h : Complete c) (s : Bytes) : Intact (c ++ s) ↔ Intact c := by
  have hlen : 6 + 1 + declaredSize c ≤ c.length := h
  have hsize := declaredSize_append (c := c) (by omega) s
  have hdata : frameData (c ++ s) = frameData c := by
    rw [frameData, frameData, hsize, List.drop_append_of_le_length (by omega),
      List.take_append_of_le_length (by rw [List.length_drop]; omega)]
  rw [Intact, Intact, hsize, hdata, List.getElem?_append_left (by omega)]

theorem Complete.append {c : Bytes} (h : Complete c) (s : Bytes) : Complete (c ++ s) := by
  have hlen : 6 + 1 + declaredSize c ≤ c.length := h
  rw [Complete, declaredSize_append (by omega), List.length_append]
  omega

/-- A rejected frame stays rejected whatever arrives behind it. -/
theorem Rejected.append {c : Bytes} (h : Rejected c) (s : Bytes) : Rejected (c ++ s) :=
  ⟨h.1.append s, mt (h.1.intact_append s).1 h.2⟩

private theorem firstSuffix_drop_of_find {b : Bytes} {i : Nat} (h : find symbolStartBytes b = some i) :
    firstSuffix Live b = firstSuffix Live (b.drop i) := by
  obtain ⟨-, hlt⟩ := find_eq_some h
  conv => lhs; rw [← List.take_append_drop i b]
  exact firstSuffix_append fun s hs hne hl => hlt s hs hne hl.1

/-- A rejected start symbol is two bytes long, so the search goes on behind it. -/
private theorem firstSuffix_drop_two {b : Bytes} (hb : symbolStartBytes <+: b) (hr : Rejected b) :
    firstSuffix Live b = firstSuffix Live (b.drop 2) := by
  obtain ⟨rest, rfl⟩ := hb
  refine firstSuffix_append fun s hs hne hl => ?_
  rcases List.suffix_cons_iff.1 hs with rfl | hs
  · exact hl.2 hr
  · rcases List.suffix_cons_iff.1 hs with rfl | hs
    · simp [Live, symbolStartBytes] at hl
    · exact hne (List.suffix_nil.1 hs)

theorem readFrame_of_short {c : Bytes} (h : c.length < packetMin) : readFrame c = none := by
  rw [readFrame, if_neg (by omega)]

/-- What a scanner does: on fewer than `minLen` bytes it returns `none`; otherwise it goes on at the first start symbol,
skips it when its frame is rejected, and else reads the frame. -/
structure IsScanner {α : Type*} (minLen : Nat) (read : Bytes → Option α) (f : Bytes → Option α) : Prop where
  short : ∀ b, b.length < minLen → f b = none
  absent : ∀ b, minLen ≤ b.length → find symbolStartBytes b = none → f b = none
  later : ∀ b i, minLen ≤ b.length → find symbolStartBytes b = some (i + 1) → f b = f (b.drop (i + 1))
  rejected : ∀ b, minLen ≤ b.length → symbolStartBytes <+: b → Rejected b → f b = f (b.drop 2)
  live : ∀ b, minLen ≤ b.length → Live b → f b = read b

/-- A scanner reads the frame at the first live start symbol, when there are `minLen` bytes from there on. -/
theorem IsScanner.eq {α : Type*} {minLen : Nat} {read f : Bytes → Option α} (hf : IsScanner minLen read f)
    (hmin : 0 < minLen) (b : Bytes) :
    f b = (firstSuffix Live b).bind fun c => if minLen ≤ c.length then read c else none := by
  induction hn : b.length using Nat.strong_induction_on generalizing b with
  | h n ih =>
    subst hn
    by_cases hlen : minLen ≤ b.length
    · cases hfind : find symbolStartBytes b with
      | none =>
        have hnone : firstSuffix Live b = none := by
          rw [firstSuffix_eq_none]
          exact fun s hs hl => find_eq_none.1 hfind (hl.1.isInfix.trans hs.isInfix)
        rw [hf.absent b hlen hfind, hnone]
        rfl
      | some i =>
        cases i with
        | zero =>
          have hs := find_eq_zero.1 hfind
          by_cases hr : Rejected b
          · rw [hf.rejected b hlen hs hr, firstSuffix_drop_two hs hr]
            exact ih _ (by rw [List.length_drop]; omega) _ rfl
          · have hl : Live b := ⟨hs, hr⟩
            rw [hf.live b hlen hl, firstSuffix_of_pos hl, Option.bind_some, if_pos hlen]
        | succ i =>
          rw [hf.later b i hlen hfind, firstSuffix_drop_of_find hfind]
          exact ih _ (by rw [List.length_drop]; omega) _ rfl
    · rw [hf.short b (by omega)]
      symm
      rw [Option.bind_eq_none_iff]
      intro c hc
      have := (firstSuffix_suffix hc).length_le
      exact if_neg (by omega)

theorem parse_isScanner : IsScanner packetMin readFrame parse where
  short b h := by rw [parse, if_neg (by omega)]
  absent b h hfind := by rw [parse, if_pos h, hfind]
  later b i h hfind := by rw [parse, if_pos h, hfind]
  rejected b h hs hr := by
    rw [parse, if_pos h, find_eq_zero.2 hs]
    exact (if_neg (Nat.not_lt_of_le hr.1)).trans (if_neg hr.2)
  live b h hl := by
    rw [parse, if_pos h, find_eq_zero.2 hl.1]
    by_cases hc : Complete b
    · have hi : Intact b := not_not.1 fun hi => hl.2 ⟨hc, hi⟩
      have hread : readFrame b = splitData (frameData b) := if_pos ⟨h, hc⟩
      rw [hread]
      exact (if_neg (Nat.not_lt_of_le hc)).trans (if_pos hi)
    · have hread : readFrame b = none := if_neg fun h => hc h.2
      rw [hread]
      exact if_pos (Nat.lt_of_not_le hc)

/-- The scanner reads the frame at the first live start symbol. -/
theorem parse_eq (b : Bytes) : parse b = (firstSuffix Live b).bind readFrame := by
  rw [parse_isScanner.eq (by decide)]
  congr 1
  funext c
  split
  · rfl
  · exact (readFrame_of_short (by omega)).symm

/-! ### Consequences -/

/-- Behind a rejected start symbol the search begins anew. -/
theorem parse_of_rejected {b : Bytes} (hb : symbolStartBytes <+: b) (hr : Rejected b) : parse b = parse (b.drop 2) := by
  rw [parse_eq, firstSuffix_drop_two hb hr, ← parse_eq]

/-- No start symbol, no packet. -/
theorem parse_of_no_start {b : Bytes} (h : ¬ symbolStartBytes <:+: b) : parse b = none := by
  have hnone : firstSuffix Live b = none := by
    rw [firstSuffix_eq_none]
    exact fun s hs hl => h (hl.1.isInfix.trans hs.isInfix)
  rw [parse_eq, hnone]
  rfl

/-- Bytes in front that hold no live start symbol do not matter. -/
theorem parse_append {g b : Bytes} (h : ∀ s, s <:+ g → s ≠ [] → ¬ Live (s ++ b)) : parse (g ++ b) = parse b := by
  rw [parse_eq, parse_eq, firstSuffix_append h]

/-- A start symbol does not straddle the end of `t` when the bytes behind `t` do not begin with its second byte. -/
theorem start_prefix_of_append {t b : Bytes} (hb : b.head? ≠ some 0x24) (hne : t ≠ [])
    (h : symbolStartBytes <+: t ++ b) : symbolStartBytes <+: t := by
  match t, hne with
  | [x], _ =>
    cases b with
    | nil => simp [symbolStartBytes] at h
    | cons y b =>
      simp only [symbolStartBytes, List.singleton_append, List.cons_prefix_cons] at h
      exact absurd (by simp [h.2.1]) hb
  | x :: y :: t, _ =>
    simp only [symbolStartBytes, List.cons_append, List.cons_prefix_cons] at h ⊢
    exact ⟨h.1, h.2.1, List.nil_prefix⟩

theorem no_start_append {g b : Bytes} (hg : ¬ symbolStartBytes <:+: g) (hb : b.head? ≠ some 0x24) {s : Bytes}
    (hs : s <:+ g) (hne : s ≠ []) : ¬ symbolStartBytes <+: s ++ b :=
  fun hp => hg ((start_prefix_of_append hb hne hp).isInfix.trans hs.isInfix)

theorem parse_append_of_no_start {g b : Bytes} (hg : ¬ symbolStartBytes <:+: g) (hb : b.head? ≠ some 0x24) :
    parse (g ++ b) = parse b :=
  parse_append fun _ hs hne hl => no_start_append hg hb hs hne hl.1

/-! ### Frames -/

section Frames

variable {d : Bytes} {c : UInt8}

theorem start_prefix_frameBytes (d : Bytes) (c : UInt8) : symbolStartBytes <+: frameBytes d c := by
  simp only [frameBytes, List.append_assoc]
  exact List.prefix_append _ _

theorem declaredSize_frameBytes (h : d.length < 2 ^ 32) (s : Bytes) :
    declaredSize (frameBytes d c ++ s) = d.length := by
  have hs : (frameBytes d c ++ s).drop 2 = leBytes 4 d.length ++ (d ++ ([c] ++ s)) := by
    simp [frameBytes, symbolStartBytes]
  rw [declaredSize, hs, List.take_left' (length_leBytes 4 _), leNat_leBytes (by simpa using h)]

theorem frameData_frameBytes (h : d.length < 2 ^ 32) (s : Bytes) : frameData (frameBytes d c ++ s) = d := by
  have hs : (frameBytes d c ++ s).drop 6 = d ++ ([c] ++ s) := by
    have hl : (symbolStartBytes ++ leBytes 4 d.length).length = 6 := by simp [symbolStartBytes]
    simp only [frameBytes, List.append_assoc]
    rw [← List.append_assoc, List.drop_left' hl]
  rw [frameData, declaredSize_frameBytes h, hs, List.take_left' rfl]

theorem complete_frameBytes (h : d.length < 2 ^ 32) (s : Bytes) : Complete (frameBytes d c ++ s) := by
  rw [Complete, declaredSize_frameBytes h, List.length_append, length_frameBytes]
  omega

theorem intact_frameBytes (h : d.length < 2 ^ 32) (s : Bytes) :
    Intact (frameBytes d c ++ s) ↔ c = calcChecksum d := by
  have hl : (symbolStartBytes ++ leBytes 4 d.length ++ d).length = 6 + d.length := by
    simp [symbolStartBytes]; omega
  have hget : (frameBytes d c ++ s)[6 + d.length]? = some c := by
    rw [frameBytes, List.append_assoc, ← hl, List.getElem?_append_right (Nat.le_refl _)]
    simp
  rw [Intact, declaredSize_frameBytes h, frameData_frameBytes h, hget, Option.some.injEq]

theorem rejected_frameBytes (h : d.length < 2 ^ 32) (s : Bytes) :
    Rejected (frameBytes d c ++ s) ↔ c ≠ calcChecksum d := by
  rw [Rejected, intact_frameBytes h]
  exact and_iff_right (complete_frameBytes h s)

/-- A complete frame at the front is read when its checksum is right. -/
theorem parse_frameBytes (h : d.length < 2 ^ 32) (hpos : 0 < d.length) (hc : c = calcChecksum d) (s : Bytes) :
    parse (frameBytes d c ++ s) = splitData d := by
  have hl : Live (frameBytes d c ++ s) :=
    ⟨(start_prefix_frameBytes d c).trans (List.prefix_append _ _), fun hr => (rejected_frameBytes h s).1 hr hc⟩
  rw [parse_eq, firstSuffix_of_pos hl, Option.bind_some, readFrame, frameData_frameBytes h, if_pos]
  refine ⟨?_, complete_frameBytes h s⟩
  rw [List.length_append, length_frameBytes, packetMin]
  omega

end Frames

/-! ### Where a packet was read -/

/-- A complete frame with the right checksum begins with the bytes of the frame of its data. -/
theorem frameBytes_prefix {c : Bytes} (hs : symbolStartBytes <+: c) (hc : Complete c) (hi : Intact c) :
    frameBytes (frameData c) (calcChecksum (frameData c)) <+: c ∧ (frameData c).length < 2 ^ 32 := by
  have hlen : (frameData c).length = declaredSize c := by
    unfold Complete at hc
    rw [frameData, List.length_take, List.length_drop]
    omega
  have hsize : ((c.drop 2).take 4).length = 4 := by
    unfold Complete at hc
    rw [List.length_take, List.length_drop]
    omega
  have hle : leBytes 4 (declaredSize c) = (c.drop 2).take 4 := by
    conv => lhs; rw [← hsize]
    exact leBytes_leNat _
  have hlast : (c.drop (6 + declaredSize c)).head? = some (calcChecksum (frameData c)) := by
    rw [List.head?_drop]
    exact hi
  obtain ⟨rest, hrest⟩ : ∃ rest, c.drop (6 + declaredSize c) = calcChecksum (frameData c) :: rest :=
    ⟨_, (List.cons_head?_tail hlast).symm⟩
  have hsplit : c = symbolStartBytes ++ ((c.drop 2).take 4 ++ (frameData c ++ c.drop (6 + declaredSize c))) := by
    have h6 : frameData c ++ c.drop (6 + declaredSize c) = c.drop 6 := by
      rw [frameData, ← List.drop_drop, List.take_append_drop]
    have h2 : (c.drop 2).take 4 ++ c.drop 6 = c.drop 2 := by
      rw [show c.drop 6 = (c.drop 2).drop 4 by rw [List.drop_drop], List.take_append_drop]
    obtain ⟨t, ht⟩ := hs
    rw [h6, h2, ← ht]
    rfl
  constructor
  · refine ⟨rest, ?_⟩
    conv => rhs; rw [hsplit, hrest]
    simp [frameBytes, hlen, hle]
  · have hb : leNat (leBytes 4 (declaredSize c)) < 256 ^ 4 := by
      have := leNat_lt (leBytes 4 (declaredSize c))
      rwa [length_leBytes] at this
    rw [hlen, declaredSize, ← hle]
    simpa using hb

/-- The first live start symbol in `b` begins a complete frame with the right checksum that carries `p`. -/
def Leads (p : Packet) (b : Bytes) : Prop :=
  ∃ g d s, b = g ++ (frameBytes d (calcChecksum d) ++ s) ∧ packetMin ≤ (frameBytes d (calcChecksum d) ++ s).length ∧
    d.length < 2 ^ 32 ∧ splitData d = some p ∧
    ∀ t, t <:+ g → t ≠ [] → ¬ Live (t ++ (frameBytes d (calcChecksum d) ++ s))

/-- Which packet is returned, in terms of the bytes. -/
theorem parse_eq_some_iff {b : Bytes} {p : Packet} : parse b = some p ↔ Leads p b := by
  rw [parse_eq, Option.bind_eq_some_iff]
  constructor
  · intro h
    obtain ⟨c, hc, hr⟩ := h
    obtain ⟨hl, g, rfl, hg⟩ := firstSuffix_eq_some.1 hc
    unfold readFrame at hr
    split at hr
    · rename_i hcomp
      have hi : Intact c := by
        by_contra hi
        exact hl.2 ⟨hcomp.2, hi⟩
      obtain ⟨⟨s, hs⟩, hlt⟩ := frameBytes_prefix hl.1 hcomp.2 hi
      refine ⟨g, frameData c, s, by rw [hs], ?_, hlt, hr, ?_⟩
      · rw [hs]; exact hcomp.1
      · rw [hs]; exact hg
    · cases hr
  · intro h
    obtain ⟨g, d, s, rfl, hmin, hlt, hd, hg⟩ := h
    have hl : Live (frameBytes d (calcChecksum d) ++ s) :=
      ⟨(start_prefix_frameBytes d _).trans (List.prefix_append _ _), fun hr => (rejected_frameBytes hlt s).1 hr rfl⟩
    refine ⟨_, firstSuffix_eq_some.2 ⟨hl, g, rfl, hg⟩, ?_⟩
    rw [readFrame, if_pos ⟨hmin, complete_frameBytes hlt s⟩, frameData_frameBytes hlt, hd]

/-- A packet that is returned was read from a frame in the input. -/
theorem frame_of_parse {b : Bytes} {p : Packet} (h : parse b = some p) :
    ∃ d, d.length < 2 ^ 32 ∧ splitData d = some p ∧ frameBytes d (calcChecksum d) <:+: b := by
  obtain ⟨g, d, s, rfl, -, hlt, hd, -⟩ := parse_eq_some_iff.1 h
  exact ⟨d, hlt, hd, g, s, by rw [List.append_assoc]⟩

/-- Splitting loses nothing but the `=` in front of an empty value. -/
theorem dataBytes_of_splitData {d : Bytes} {p : Packet} (h : splitData d = some p) :
    d = p.dataBytes ∨ d = p.dataBytes ++ [0x3d] := by
  unfold splitData at h
  split at h
  · rename_i i hf
    obtain ⟨key, hkey, rfl⟩ := Option.map_eq_some_iff.1 h
    have hd : d = encode key ++ [0x3d] ++ d.drop (i + 2) := by
      obtain ⟨t, ht⟩ := (find_eq_some hf).1
      have hdrop : (d.drop (i + 1)).drop 1 = t := by rw [← ht]; rfl
      rw [List.drop_drop] at hdrop
      conv => lhs; rw [← List.take_append_drop (i + 1) d]
      rw [encode_of_decode hkey, List.append_assoc, List.append_cancel_left_eq, hdrop]
      exact ht.symm
    rw [Packet.dataBytes_init, dataOf]
    split
    · exact .inl hd
    · rename_i hv
      rw [List.length_eq_zero_iff.1 (Nat.eq_zero_of_not_pos hv), List.append_nil] at hd
      exact .inr hd
  · obtain ⟨key, hkey, rfl⟩ := Option.map_eq_some_iff.1 h
    exact .inl (encode_of_decode hkey).symm

/-! ### Frames of packets -/

namespace Packet

variable {p : Packet}

/-- The data of a sendable packet are split again into its key and its value. -/
theorem Sendable.splitData_eq (hp : p.Sendable) : splitData p.dataBytes = some p := by
  have heq := equals_not_mem_encode hp.key_equals
  have hne := mt encode_eq_nil.1 hp.key_ne
  rw [p.dataBytes_eq, dataOf]
  split
  · have hf : find [0x3d] (encode p.keyStr ++ [0x3d] ++ p.valBytes) = some (encode p.keyStr).length := by
      rw [List.append_assoc]
      exact find_singleton_append heq _
    obtain ⟨i, hi⟩ := Nat.exists_eq_succ_of_ne_zero (mt List.length_eq_zero_iff.1 hne)
    rw [splitData, hf, hi]
    have ht : (encode p.keyStr ++ [0x3d] ++ p.valBytes).take (i + 1) = encode p.keyStr := by
      rw [List.append_assoc, List.take_left' hi]
    have hd : (encode p.keyStr ++ [0x3d] ++ p.valBytes).drop (i + 2) = p.valBytes :=
      List.drop_left' (by simp [hi])
    simp only [ht, hd, decode_encode, Option.map_some]
    exact congrArg some p.eq_init.symm
  · rename_i hv
    have hv : p.valBytes = [] := List.length_eq_zero_iff.1 (by omega)
    have hf : find [0x3d] (encode p.keyStr) = none := by
      rw [find_eq_none, List.singleton_infix_iff]
      exact heq
    rw [splitData, hf]
    simp only [decode_encode, Option.map_some]
    exact congrArg some (ext_key_val rfl hv.symm)

theorem Sendable.length_lt (hp : p.Sendable) : p.dataBytes.length < 2 ^ 32 := by
  rw [← p.dataSize_eq]
  exact hp.size_lt

/-- The frame of a sendable packet is read back, whatever follows it. -/
theorem Sendable.parse_core (hp : p.Sendable) (s : Bytes) : parse (p.core ++ s) = some p := by
  have hpos := hp.dataSize_pos
  rw [p.dataSize_eq] at hpos
  rw [core, parse_frameBytes hp.length_lt hpos p.checksum_eq, hp.splitData_eq]

/-- A frame of which bytes are missing is not read. -/
theorem Sendable.parse_of_lt (hp : p.Sendable) {q : Bytes} (hq : q <+: p.core) (hlt : q.length < p.core.length) :
    parse q = none := by
  by_cases hs : symbolStartBytes <+: q
  · have hinc : ¬ Complete q := by
      intro hc
      have h6 : 6 ≤ q.length := by unfold Complete at hc; omega
      have hd : declaredSize q = declaredSize (p.core ++ []) := by
        obtain ⟨t, ht⟩ := hq
        rw [List.append_nil, ← ht, declaredSize_append h6]
      rw [core, declaredSize_frameBytes hp.length_lt] at hd
      rw [length_core, p.dataSize_eq] at hlt
      unfold Complete at hc
      omega
    rw [parse_eq, firstSuffix_of_pos ⟨hs, fun hr => hinc hr.1⟩, Option.bind_some, readFrame, if_neg fun h => hinc h.2]
  · -- a prefix without a whole start symbol has less than two bytes
    apply parse_of_no_start
    intro hi
    have h2 := hi.length_le
    have : symbolStartBytes <+: q :=
      List.prefix_of_prefix_length_le (start_prefix_frameBytes _ _) hq h2
    exact hs this

end Packet

end WirelessUart
