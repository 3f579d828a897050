import WirelessUart.Generator
import WirelessUart.ParseSpec

/-!
# The parser of the packet generator

A third scanner.  It asks for nine bytes, leaves the check of the length to the index of the checksum, and takes for
the key what `str` makes of the bytes: their notation as a literal, with `b`, quotes and escapes, where the server
decodes them.

It stops at the same start symbol as the server (`parse_eq_some_iff`), but no key it returns is the server's key
(`str_ne_of_decode`).  The two parsers agree exactly on the inputs in which there is nothing to read
(`parse_agrees_iff`).
-/

namespace WirelessUart.Generator

open ByteLib

/-! ### Bytes as text -/

/-- The types of the language that hold bytes. -/
inductive ByteType
  | bytes
  | bytearray
deriving DecidableEq, Repr

/-- One byte of a bytes literal between quotes `quote`.  In a `bytearray` a single quote is escaped between double
quotes as well. -/
def reprByte (type : ByteType) (quote b : UInt8) : Bytes :=
  if b = quote ∨ b = 0x5c ∨ type = .bytearray ∧ b = 0x27 then [0x5c, b]
  else if b = 0x09 then [0x5c, 0x74]
  else if b = 0x0a then [0x5c, 0x6e]
  else if b = 0x0d then [0x5c, 0x72]
  else if b < 0x20 ∨ 0x7f ≤ b then [0x5c, 0x78] ++ hex02 b
  else [b]

/-- The quote of a bytes literal: a single one, unless only single ones would have to be escaped. -/
def reprQuote (raw : Bytes) : UInt8 := if 0x27 ∈ raw ∧ 0x22 ∉ raw then 0x22 else 0x27

/-- The bytes literal of `raw`, which is ASCII. -/
def reprBytes (type : ByteType) (raw : Bytes) : Bytes :=
  [0x62, reprQuote raw] ++ raw.flatMap (reprByte type (reprQuote raw)) ++ [reprQuote raw]

/-- `str(raw)` without an encoding, for `raw` of either type -/
def str (type : ByteType) (raw : Bytes) : String :=
  let literal := String.ofList ((reprBytes type raw).map fun b => Char.ofNat b.toNat)
  match type with
  | .bytes => literal
  | .bytearray => "bytearray(" ++ literal ++ ")"

/-- `bytearray(b"it\'s")` and `b"it's"` -/
example : str .bytearray [0x69, 0x74, 0x27, 0x73] = "bytearray(b\"it\\'s\")" ∧
    str .bytes [0x69, 0x74, 0x27, 0x73] = "b\"it's\"" := by
  decide +kernel

theorem length_le_flatMap_reprByte (type : ByteType) (quote : UInt8) (raw : Bytes) :
    raw.length ≤ (raw.flatMap (reprByte type quote)).length := by
  induction raw with
  | nil => simp
  | cons b raw ih =>
    have hb : 1 ≤ (reprByte type quote b).length := by
      unfold reprByte
      repeat' split
      all_goals simp
    rw [List.flatMap_cons, List.length_append, List.length_cons]
    omega

/-- The text is longer than the bytes: it has at least a `b` and two quotes beside them. -/
theorem length_lt_str (type : ByteType) (raw : Bytes) : raw.length < (str type raw).toList.length := by
  have h := length_le_flatMap_reprByte type (reprQuote raw) raw
  cases type <;> simp [str, reprBytes] at h ⊢ <;> omega

/-- A text has at most as many characters as its encoding has bytes. -/
theorem length_le_encode (k : String) : k.toList.length ≤ (encode k).length := by
  rw [encode_eq_flatMap]
  induction k.toList with
  | nil => simp
  | cons c cs ih =>
    have hc : 0 < (String.utf8EncodeChar c).length := List.length_pos_iff.2 (String.utf8EncodeChar_ne_nil)
    rw [List.flatMap_cons, List.length_append, List.length_cons]
    omega

/-- `str` never gives the text that the bytes encode. -/
theorem str_ne_of_decode {raw : Bytes} {k : String} (h : decode raw = some k) (type : ByteType) : str type raw ≠ k := by
  rintro rfl
  have h1 := length_lt_str type raw
  have h2 := length_le_encode (str type raw)
  rw [encode_of_decode h] at h2
  omega

/-! ### The scanner -/

namespace Packet

/-- start + length + min data + checksum -/
def packetMin : Nat := 2 + 4 + 2 + 1

/-- `Packet.parse` for an argument of the given type; the exceptions it catches end it with `none`. -/
def parse (type : ByteType) (rawBytes : Bytes) : Option Packet :=
  let startBytes := leBytes 2 symbolStart
  if rawBytes.length ≥ packetMin then
    match find startBytes rawBytes with
    | some 0 =>
      let dataSize := declaredSize rawBytes
      let dataBytes := (rawBytes.drop 6).take dataSize
      match rawBytes[6 + dataSize]? with
      | none => none -- the `IndexError`
      | some checksum =>
        if dataBytes.foldl (fun checktmp b => checktmp ^^^ b) 0 = checksum then
          match find [0x3d] dataBytes with
          | some (splitIdx + 1) =>
            some (init (str type (dataBytes.take (splitIdx + 1))) (dataBytes.drop (splitIdx + 2)))
          | _ => some (init (str type dataBytes))
        else parse type (rawBytes.drop 2)
    | some (startIdx + 1) => parse type (rawBytes.drop (startIdx + 1))
    | none => none
  else none
termination_by rawBytes.length
decreasing_by all_goals simp only [packetMin, List.length_drop] at *; omega

/-- The packet in the frame at the front of `c`. -/
def readFrame (type : ByteType) (c : Bytes) : Option Packet :=
  if Complete c then some (init (str type (keyPart (frameData c))) (valPart (frameData c))) else none

private theorem split_eq (type : ByteType) (d : Bytes) :
    (match find [0x3d] d with
      | some (splitIdx + 1) => some (init (str type (d.take (splitIdx + 1))) (d.drop (splitIdx + 2)))
      | _ => some (init (str type d))) = some (init (str type (keyPart d)) (valPart d)) := by
  unfold keyPart valPart
  rcases find [0x3d] d with _ | _ | i <;> rfl

/-- The index of the checksum does not raise when the frame is complete. -/
theorem exists_checksum {b : Bytes} (h : Complete b) : ∃ checksum, b[6 + declaredSize b]? = some checksum := by
  unfold Complete at h
  have hlt : 6 + declaredSize b < b.length := by omega
  exact ⟨_, List.getElem?_eq_getElem hlt⟩

theorem parse_isScanner (type : ByteType) : IsScanner packetMin (readFrame type) (parse type) where
  short b h := by rw [parse, if_neg (by omega)]
  absent b h hfind := by
    have hfind : find (leBytes 2 symbolStart) b = none := hfind
    rw [parse, if_pos h, hfind]
  later b i h hfind := by
    have hfind : find (leBytes 2 symbolStart) b = some (i + 1) := hfind
    rw [parse, if_pos h, hfind]
  rejected b h hs hr := by
    have hfind : find (leBytes 2 symbolStart) b = some 0 := find_eq_zero.2 hs
    obtain ⟨checksum, hget⟩ := exists_checksum hr.1
    have hne : ¬ calcChecksum (frameData b) = checksum := by
      rintro rfl
      exact hr.2 hget
    rw [parse, if_pos h, hfind]
    simp only [hget, ← calcChecksum_eq]
    exact if_neg hne
  live b h hl := by
    have hfind : find (leBytes 2 symbolStart) b = some 0 := find_eq_zero.2 hl.1
    rw [parse, if_pos h, hfind]
    by_cases hc : Complete b
    · have hi : b[6 + declaredSize b]? = some (calcChecksum (frameData b)) := not_not.1 fun hi => hl.2 ⟨hc, hi⟩
      simp only [hi, ← calcChecksum_eq]
      rw [readFrame, if_pos hc, ← split_eq]
      exact if_pos rfl
    · have hnone : b[6 + declaredSize b]? = none := by
        rw [List.getElem?_eq_none_iff]
        unfold Complete at hc
        omega
      simp only [hnone]
      exact (if_neg hc).symm

/-- What the generator's parser returns: it stops where the server does, and asks for nine bytes there. -/
theorem parse_eq_some_iff {type : ByteType} {b : Bytes} {p : Packet} :
    parse type b = some p ↔ ∃ i, FirstCandidate b i ∧ packetMin ≤ b.length - i ∧ Complete (b.drop i) ∧
      p = init (str type (keyPart (frameData (b.drop i)))) (valPart (frameData (b.drop i))) := by
  rw [(parse_isScanner type).eq_some_iff (by decide)]
  apply exists_congr
  intro i
  rw [readFrame, Option.ite_none_right_eq_some, Option.some.injEq, eq_comm (b := p)]

end Packet

/-! ### Agreement with the server -/

/-- Both parsers return `None`, or packets with the same key and the same value. -/
def Agrees (type : ByteType) (b : Bytes) : Prop :=
  (Packet.parse type b).map (fun p => (p.keyStr, p.valBytes)) =
    (Server.parse b).map fun p => (p.keyStr, p.valBytes)

instance (type : ByteType) (b : Bytes) : Decidable (Agrees type b) := inferInstanceAs (Decidable (_ = _))

/-- No start symbol counts, or the frame of the first one that does is incomplete, or it ends `b` and is of seven bytes
or of eight with a data byte that is not ASCII. -/
def NothingToRead (b : Bytes) : Prop :=
  ∀ i, FirstCandidate b i → Complete (b.drop i) →
    b.length < i + 8 ∨ b.length = i + 8 ∧ ∃ x ∈ frameData (b.drop i), 0x80 ≤ x

private theorem decode_byte_isSome : ∀ n : Fin 256, (decode [UInt8.ofNat n]).isSome = decide (n.val < 0x80) := by
  decide +kernel

/-- A single byte is UTF-8 exactly when it is ASCII. -/
theorem decode_singleton (x : UInt8) : decode [x] = none ↔ 0x80 ≤ x := by
  have h := decode_byte_isSome ⟨x.toNat, x.toNat_lt⟩
  rw [UInt8.ofNat_toNat] at h
  rw [← Option.not_isSome_iff_eq_none, h, decide_eq_true_eq, UInt8.le_iff_toNat_le]
  exact Nat.not_lt

theorem keyPart_of_length_le_one {d : Bytes} (h : d.length ≤ 1) : keyPart d = d := by
  unfold keyPart
  split
  · rename_i i hfind
    have := find_lt_length (by simp) hfind
    omega
  · rfl

/-- In data of at most one byte the key cannot be decoded exactly when there is a byte that is not ASCII. -/
theorem decode_keyPart_of_length_le_one {d : Bytes} (h : d.length ≤ 1) :
    decode (keyPart d) = none ↔ ∃ x ∈ d, 0x80 ≤ x := by
  rw [keyPart_of_length_le_one h]
  cases d with
  | nil =>
    have hd : decode [] = some "" := decode_encode ""
    simp [hd]
  | cons x d =>
    have hd : d = [] := List.length_eq_zero_iff.1 (by rw [List.length_cons] at h; omega)
    simp [hd, decode_singleton]

/-- When both return a packet, the keys differ. -/
theorem agrees_iff_none {type : ByteType} {b : Bytes} :
    Agrees type b ↔ Packet.parse type b = none ∧ Server.parse b = none := by
  constructor
  · intro h
    unfold Agrees at h
    cases hg : Packet.parse type b with
    | none =>
      rw [hg, Option.map_none, eq_comm, Option.map_eq_none_iff] at h
      exact ⟨rfl, h⟩
    | some g =>
      exfalso
      cases hs : Server.parse b with
      | none => simp [hg, hs] at h
      | some p =>
        simp only [hg, hs, Option.map_some, Option.some.injEq, Prod.mk.injEq] at h
        obtain ⟨i, hi, -, -, rfl⟩ := Packet.parse_eq_some_iff.1 hg
        obtain ⟨j, hj, -, -, hkey, -⟩ := (parse_eq_some_iff_first b p).1 hs
        rw [hj.unique hi] at hkey
        exact str_ne_of_decode hkey type h.1
  · intro h
    rw [Agrees, h.1, h.2]
    rfl

theorem parse_eq_none_iff {type : ByteType} {b : Bytes} :
    Packet.parse type b = none ↔ ∀ i, FirstCandidate b i → Complete (b.drop i) → b.length < i + 9 := by
  rw [Option.eq_none_iff_forall_ne_some]
  constructor
  · intro h i hi hcomp
    by_contra hlen
    exact h _ (Packet.parse_eq_some_iff.2 ⟨i, hi, by unfold Packet.packetMin; omega, hcomp, rfl⟩)
  · intro h p hp
    obtain ⟨i, hi, hmin, hcomp, -⟩ := Packet.parse_eq_some_iff.1 hp
    have := h i hi hcomp
    unfold Packet.packetMin at hmin
    omega

theorem serverParse_eq_none_iff {b : Bytes} :
    Server.parse b = none ↔ ∀ i, FirstCandidate b i → Complete (b.drop i) →
      b.length < i + 8 ∨ decode (keyPart (frameData (b.drop i))) = none := by
  rw [Option.eq_none_iff_forall_ne_some]
  constructor
  · intro h i hi hcomp
    by_contra hc
    rw [not_or, ← ne_eq, Option.ne_none_iff_exists'] at hc
    obtain ⟨hlen, k, hk⟩ := hc
    exact h (WirelessUart.Packet.init k (valPart (frameData (b.drop i))))
      ((parse_eq_some_iff_first b _).2 ⟨i, hi, by unfold packetMin; omega, hcomp, hk, rfl⟩)
  · intro h p hp
    obtain ⟨i, hi, hmin, hcomp, hk, -⟩ := (parse_eq_some_iff_first b p).1 hp
    unfold packetMin at hmin
    rcases h i hi hcomp with hlen | hnone
    · omega
    · rw [hk] at hnone
      cases hnone

/-- The generator's parser agrees with the server's exactly where there is nothing to read. -/
theorem parse_agrees_iff (type : ByteType) (b : Bytes) : Agrees type b ↔ NothingToRead b := by
  have hdata {i : Nat} (hlen : b.length = i + 8) (hcomp : Complete (b.drop i)) :
      (frameData (b.drop i)).length ≤ 1 := by
    unfold Complete at hcomp
    rw [List.length_drop] at hcomp
    rw [frameData, List.length_take]
    omega
  rw [agrees_iff_none, parse_eq_none_iff, serverParse_eq_none_iff]
  constructor
  · intro h i hi hcomp
    obtain ⟨hg, hs⟩ := h
    have hlt := hg i hi hcomp
    rcases hs i hi hcomp with hlen | hnone
    · exact .inl hlen
    · by_cases h8 : b.length = i + 8
      · exact .inr ⟨h8, (decode_keyPart_of_length_le_one (hdata h8 hcomp)).1 hnone⟩
      · exact .inl (by omega)
  · intro h
    constructor
    · intro i hi hcomp
      rcases h i hi hcomp with hlen | ⟨hlen, -⟩ <;> omega
    · intro i hi hcomp
      rcases h i hi hcomp with hlen | ⟨hlen, hx⟩
      · exact .inl hlen
      · exact .inr ((decode_keyPart_of_length_le_one (hdata hlen hcomp)).2 hx)

/-- The frame of the packet with key `a` and value `1`: the keys are `b'a'` and `a`. -/
theorem parse_disagrees : ¬ ∀ (type : ByteType) (b : Bytes), Agrees type b := by
  intro h
  have hkey : (Packet.parse .bytes [0x23, 0x24, 3, 0, 0, 0, 0x61, 0x3d, 0x31, 0x6d]).map (·.keyStr) = some "b'a'" ∧
      (Server.parse [0x23, 0x24, 3, 0, 0, 0, 0x61, 0x3d, 0x31, 0x6d]).map (·.keyStr) = some "a" := by
    decide +kernel
  have := congrArg (Option.map Prod.fst) (h .bytes [0x23, 0x24, 3, 0, 0, 0, 0x61, 0x3d, 0x31, 0x6d])
  simp only [Option.map_map, Function.comp_def, hkey.1, hkey.2] at this
  exact absurd this (by decide)

/-- A frame of eight bytes at the end of the input, which the server reads. -/
example : Packet.parse .bytearray [0x23, 0x24, 1, 0, 0, 0, 0x61, 0x61] = none ∧
    (Server.parse [0x23, 0x24, 1, 0, 0, 0, 0x61, 0x61]).isSome := by
  decide +kernel

end WirelessUart.Generator
