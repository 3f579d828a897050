import WirelessUart.ByteLib.Fold
import WirelessUart.ParseSpec

/-!
# Frames with altered bytes

The checksum of a frame tells whether its data and its checksum byte have been altered only by the XOR of all the
differences.  A frame whose differences do not cancel out is passed over, whatever follows it, and a frame whose
differences do is read as if it had been sent like that (`parse_altered`).  A single altered byte never cancels out.
-/

namespace WirelessUart

open ByteLib

/-- The differences between the bytes that were sent and those that arrived. -/
def differences (sent arrived : Bytes) : Bytes := List.zipWith (· ^^^ ·) sent arrived

/-- What the differences amount to for a checksum. -/
def totalDifference (sent arrived : Bytes) : UInt8 := calcChecksum (differences sent arrived)

section Differences

variable {sent arrived : Bytes}

theorem totalDifference_eq (h : sent.length = arrived.length) :
    totalDifference sent arrived = calcChecksum sent ^^^ calcChecksum arrived := by
  rw [totalDifference, calcChecksum_eq, calcChecksum_eq, calcChecksum_eq]
  exact foldl_zipWith (· ^^^ ·) h (0 : UInt8) 0

/-- Data followed by their checksum have the checksum 0. -/
theorem calcChecksum_append_eq_zero {d : Bytes} {c : UInt8} : calcChecksum (d ++ [c]) = 0 ↔ c = calcChecksum d := by
  rw [calcChecksum_eq, calcChecksum_eq, List.foldl_concat, UInt8.xor_eq_zero_iff]
  exact eq_comm

/-- The differences of a frame whose checksum was right cancel out exactly when the checksum is right again. -/
theorem totalDifference_eq_zero {d d' : Bytes} {c : UInt8} (h : d'.length = d.length) :
    totalDifference (d ++ [calcChecksum d]) (d' ++ [c]) = 0 ↔ c = calcChecksum d' := by
  have hsent : calcChecksum (d ++ [calcChecksum d]) = 0 := calcChecksum_append_eq_zero.2 rfl
  have hlen : (d ++ [calcChecksum d]).length = (d' ++ [c]).length := by simp [h]
  rw [totalDifference_eq hlen, hsent, UInt8.zero_xor, calcChecksum_append_eq_zero]

/-- One altered byte does not cancel out. -/
theorem totalDifference_single (pre post : Bytes) {a b : UInt8} (h : a ≠ b) :
    totalDifference (pre ++ a :: post) (pre ++ b :: post) ≠ 0 := by
  rw [totalDifference_eq (by simp), ne_eq, UInt8.xor_eq_zero_iff, calcChecksum_eq, calcChecksum_eq, foldl_middle,
    foldl_middle]
  intro heq
  exact h ((UInt8.xor_right_inj _).1 heq)

end Differences

/-- An altered frame is passed over when the differences do not cancel out, as they never do when a single byte has been
altered; otherwise its packet is read, if the key is UTF-8. -/
theorem parse_altered (d d' : Bytes) (c : UInt8) (s : Bytes) (hne : d ≠ []) (hlt : d.length < 2 ^ 32)
    (hlen : d'.length = d.length) :
    (totalDifference (d ++ [calcChecksum d]) (d' ++ [c]) ≠ 0 →
      parse (frameBytes d' c ++ s) = parse ((frameBytes d' c ++ s).drop 2) ∧
        ¬ FirstCandidate (frameBytes d' c ++ s) 0) ∧
    (∀ pre a b post, d ++ [calcChecksum d] = pre ++ a :: post → d' ++ [c] = pre ++ b :: post → a ≠ b →
      totalDifference (d ++ [calcChecksum d]) (d' ++ [c]) ≠ 0) ∧
    (totalDifference (d ++ [calcChecksum d]) (d' ++ [c]) = 0 → ∀ key, decode (keyPart d') = some key →
      parse (frameBytes d' c ++ s) = some (Packet.init key (valPart d'))) := by
  have hlt' : d'.length < 2 ^ 32 := by omega
  refine ⟨fun h => ?_, fun pre a b post hsent harrived hab => ?_, fun h key hkey => ?_⟩
  · have hr : Rejected (frameBytes d' c ++ s) := (rejected_frameBytes hlt' s).2 (mt (totalDifference_eq_zero hlen).2 h)
    have hstart : symbolStartBytes <+: frameBytes d' c ++ s :=
      (start_prefix_frameBytes d' c).trans (List.prefix_append _ _)
    exact ⟨parse_of_rejected hstart hr, fun hfirst => hfirst.1.2 hr⟩
  · rw [hsent, harrived]
    exact totalDifference_single pre post hab
  · have hpos : 0 < d'.length := hlen ▸ List.length_pos_iff.2 hne
    rw [parse_frameBytes hlt' hpos ((totalDifference_eq_zero hlen).1 h)]
    exact splitData_eq_some.2 ⟨hkey, rfl⟩

/-- The frame of the packet `stop`, with a bit flipped in each of the first two bytes of its data. -/
theorem parse_altered_stop :
    parse (frameBytes [0x72, 0x75, 0x6f, 0x70] 0x18 ++ []) =
      some (Packet.init "ruop" (valPart [0x72, 0x75, 0x6f, 0x70])) :=
  (parse_altered [0x73, 0x74, 0x6f, 0x70] [0x72, 0x75, 0x6f, 0x70] 0x18 [] (by decide) (by decide) rfl).2.2
    (by decide +kernel) "ruop" (by decide +kernel)

end WirelessUart
