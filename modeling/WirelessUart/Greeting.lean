import WirelessUart.Bridge

/-!
# The handshake in one result of `recv`

The client sends the packets `path`, `baud` and `start` one right after the other, so they may well arrive together.
Then the server has to find them in one buffer.  Of `path` and `baud` the loop leaves four bytes, the last two of them
an end symbol; if the checksum of `baud` is the first byte of a start symbol, it forms one with the end symbol behind
it.  This start symbol declares a frame of 86 million bytes: `start` is not found, and neither is anything that the
client sends later (`ConnectHelper.greeting_joined_iff`).  The baud rate 4800 has this checksum.
-/

namespace WirelessUart

open ByteLib

/-! ### Waiting for a frame -/

section Waiting

variable {g c : Bytes}

/-- A frame that is not complete is waited for. -/
theorem parse_of_incomplete (hg : ¬ symbolStartBytes <:+: g) (hs : symbolStartBytes <+: c) (hc : ¬ Complete c) :
    parse (g ++ c) = none := by
  have hhead : c.head? ≠ some 0x24 := by
    obtain ⟨t, rfl⟩ := hs
    simp [symbolStartBytes]
  have hlive : Live c := ⟨hs, fun hr => hc hr.1⟩
  rw [parse_append_of_no_start hg hhead, parse_eq, firstSuffix_of_pos hlive, Option.bind_some, readFrame,
    if_neg fun h => hc h.2]

/-- Until the declared bytes have arrived, everything that is received stays in the buffer. -/
theorem deliver_of_incomplete (hg : ¬ symbolStartBytes <:+: g) (hs : symbolStartBytes <+: c) (h6 : 6 ≤ c.length)
    (raws : List Bytes) (hlt : c.length + (raws.map List.length).sum < 7 + declaredSize c) :
    deliver (g ++ c) raws = ([], g ++ (c ++ (raws.map strip).flatten)) := by
  induction raws generalizing c with
  | nil => rw [deliver, List.map_nil, List.flatten_nil, List.append_nil]
  | cons raw raws ih =>
    rw [List.map_cons, List.sum_cons] at hlt
    have hstrip : (strip raw).length ≤ raw.length := (trim_isInfix raw).length_le
    have hsize := declaredSize_append h6 (strip raw)
    have hlen : (c ++ strip raw).length = c.length + (strip raw).length := List.length_append
    have hstart : symbolStartBytes <+: c ++ strip raw := hs.trans (List.prefix_append _ _)
    have hpass : pass (g ++ c) raw = ([], g ++ (c ++ strip raw)) := by
      have hnone : parse (g ++ (c ++ strip raw)) = none := by
        refine parse_of_incomplete hg hstart ?_
        rw [Complete, hsize]
        omega
      unfold pass
      split
      case isTrue h => rw [h, List.append_nil]
      case isFalse =>
        rw [List.append_assoc, drain_of_none hnone]
        have hin : symbolStartBytes <:+: g ++ (c ++ strip raw) := by
          obtain ⟨t, ht⟩ := hstart
          exact ⟨g, t, by rw [List.append_assoc, ht]⟩
        rw [flush_of_start hin]
    rw [deliver, hpass, ih hstart (by omega) (by rw [hsize]; omega), List.map_cons, List.flatten_cons,
      List.append_assoc]
    rfl

end Waiting

/-! ### The digits of the baud rate -/

/-- A digit is encoded as one byte. -/
theorem utf8EncodeChar_of_isDigit {c : Char} (h : c.isDigit = true) :
    ∃ d : UInt8, String.utf8EncodeChar c = [d] ∧ 0x30 ≤ d.toNat ∧ d.toNat ≤ 0x39 := by
  obtain ⟨hlow, hhigh⟩ := isDigit_bounds h
  refine ⟨UInt8.ofNat c.toNat, if_pos (Nat.le_trans hhigh (by decide)), ?_⟩
  rw [UInt8.toNat_ofNat']
  omega

/-- The bytes of a decimal number are digits. -/
theorem encode_toString (n : Nat) :
    (∃ ds d, encode (toString (n : Int)) = ds ++ [d]) ∧
      ∀ d ∈ encode (toString (n : Int)), 0x30 ≤ d.toNat ∧ d.toNat ≤ 0x39 := by
  have hlist : (toString (n : Int)).toList = Nat.toDigits 10 n := Nat.toList_repr
  rw [encode_eq_flatMap, hlist]
  constructor
  · refine (List.eq_nil_or_concat' _).resolve_left fun h => ?_
    obtain ⟨c, hc⟩ := List.exists_mem_of_ne_nil _ (Nat.toDigits_ne_nil (b := 10) (n := n))
    exact String.utf8EncodeChar_ne_nil (List.flatMap_eq_nil_iff.1 h c hc)
  · intro d hd
    obtain ⟨c, hc, hd⟩ := List.mem_flatMap.1 hd
    obtain ⟨d', hone, hbounds⟩ :=
      utf8EncodeChar_of_isDigit (Nat.isDigit_of_mem_toDigits (by decide) (by decide) hc)
    rw [hone, List.mem_singleton] at hd
    rwa [hd]

/-- Digits need no escapes. -/
theorem bytesEncode_of_digits {b : Bytes} (h : ∀ d ∈ b, 0x30 ≤ d.toNat ∧ d.toNat ≤ 0x39) : bytesEncode b = b := by
  have hbyte : ∀ d : UInt8, 0x30 ≤ d.toNat ∧ d.toNat ≤ 0x39 → encodeByte d = [d] := by decide +kernel
  induction b with
  | nil => rfl
  | cons d b ih =>
    have hrest := ih fun d hd => h d (List.mem_cons_of_mem _ hd)
    unfold bytesEncode at hrest ⊢
    rw [List.flatMap_cons, hbyte d (h d List.mem_cons_self), hrest]
    rfl

/-! ### The handshake -/

/-- What is left over ends the frames. -/
theorem leftover_eq {ps : List Packet} {x t : Bytes} (h : stream ps = x ++ t) (ht : t.length = 2 * ps.length) :
    leftover ps = t := by
  rw [leftover, h, ← ht, List.length_append, Nat.add_sub_cancel, List.drop_left]

/-- What is left over without a start symbol does not hide the next packet. -/
theorem parse_leftover {p : Packet} (hp : p.Sendable) (done rest : List Packet)
    (hdone : ¬ symbolStartBytes <:+: leftover done) : parse (leftover done ++ stream (p :: rest)) = some p := by
  have hhead : (stream (p :: rest)).head? ≠ some 0x24 := by
    simp [stream_cons, Packet.core, frameBytes, symbolStartBytes]
  rw [parse_append_of_no_start hdone hhead, stream_cons, List.append_assoc]
  exact hp.parse_core _

namespace ConnectHelper

variable {h : ConnectHelper}

/-- The checksum of the packet `baud`. -/
def baudChecksum (h : ConnectHelper) : UInt8 := (Packet.init "baud" (encode (toString h.remoteBaud))).checksum

/-- What is left over when `path` and `baud` have been handled. -/
theorem leftover_hello (hu : h.Usable) :
    ∃ d : UInt8, 0x30 ≤ d.toNat ∧ leftover (h.hello.take 2) = [d, h.baudChecksum, 0x24, 0x23] := by
  obtain ⟨n, -, hn, -⟩ := hu.baud
  obtain ⟨⟨ds, d, hv⟩, hdigits⟩ := encode_toString n
  rw [← hn] at hv hdigits
  refine ⟨d, (hdigits d (by rw [hv]; simp)).1, ?_⟩
  have hcore : (Packet.init "baud" (encode (toString h.remoteBaud))).core =
      symbolStartBytes ++ leBytes 4 (dataOf "baud" (encode (toString h.remoteBaud))).length ++
        (encode "baud" ++ [0x3d] ++ ds) ++ [d, h.baudChecksum] := by
    have hdata : dataOf "baud" (encode (toString h.remoteBaud)) = encode "baud" ++ [0x3d] ++ (ds ++ [d]) := by
      rw [dataOf, hv, if_pos (by simp)]
    rw [Packet.core, frameBytes, Packet.dataBytes_init, hdata]
    simp [baudChecksum]
  refine leftover_eq (x := stream [Packet.init "path" (encode h.remotePath)] ++ (symbolStartBytes ++
    leBytes 4 (dataOf "baud" (encode (toString h.remoteBaud))).length ++ (encode "baud" ++ [0x3d] ++ ds))) ?_ rfl
  show stream ([Packet.init "path" (encode h.remotePath)] ++
    [Packet.init "baud" (encode (toString h.remoteBaud))]) = _
  rw [stream_append, stream_cons (Packet.init "baud" _), hcore]
  simp [stream, symbolEndBytes]

/-- The packets of the handshake can be framed; those with digits need no escapes. -/
theorem hello_sendable (hu : h.Usable) (hpath : framed h.client.dataEncode (.init "path" (encode h.remotePath)) =
    .init "path" (encode h.remotePath)) :
    (∀ p ∈ h.hello, p.Sendable ∧ framed h.client.dataEncode p = p) ∧
      h.hello.mapM Packet.getBytes = some (sentFrames h.greeting) := by
  obtain ⟨n, -, hn, -⟩ := hu.baud
  have hbaud : framed h.client.dataEncode (.init "baud" (encode (toString h.remoteBaud))) =
      .init "baud" (encode (toString h.remoteBaud)) := by
    cases h.client.dataEncode with
    | false => rfl
    | true =>
      rw [framed, if_pos rfl, Packet.doEncode, Packet.setKeyValue, Packet.valBytes_init, hn,
        bytesEncode_of_digits (encode_toString n).2]
      exact ite_self _
  have hstart : framed h.client.dataEncode (.init "start") = .init "start" := by
    cases h.client.dataEncode <;> rfl
  have hone (keyStr : String) (v : Bytes) (hkey : keyStr ≠ "" ∧ '=' ∉ keyStr.toList)
      (hframed : framed h.client.dataEncode (.init keyStr v) = .init keyStr v)
      (hfits : (sendPacket h.client.dataEncode keyStr (.bytes v)).isSome) :
      ∃ raw, sendPacket h.client.dataEncode keyStr (.bytes v) = some raw ∧
        (Packet.init keyStr v).getBytes = some raw ∧ (Packet.init keyStr v).Sendable := by
    obtain ⟨raw, hraw⟩ := Option.isSome_iff_exists.1 hfits
    have hget : (Packet.init keyStr v).getBytes = some raw := by
      rw [← hframed]
      exact hraw
    exact ⟨raw, hraw, hget, hkey.1, hkey.2, (Packet.getBytes_eq_some.1 hget).1⟩
  obtain ⟨rawP, hsendP, hgetP, hsendableP⟩ := hone "path" _ (by decide) hpath hu.path_fits
  obtain ⟨rawB, hsendB, hgetB, hsendableB⟩ := hone "baud" _ (by decide) hbaud hu.baud_fits
  obtain ⟨rawS, hsendS, hgetS, hsendableS⟩ := hone "start" [] (by decide) hstart
    (by cases h.client.dataEncode <;> decide)
  constructor
  · intro p hp
    simp only [hello, List.mem_cons, List.not_mem_nil, or_false] at hp
    rcases hp with rfl | rfl | rfl
    · exact ⟨hsendableP, hpath⟩
    · exact ⟨hsendableB, hbaud⟩
    · exact ⟨hsendableS, hstart⟩
  · have hframes : sentFrames h.greeting = [rawP, rawB, rawS] := by
      show sentFrames [.sent (sendPacket h.client.dataEncode "path" (.bytes (encode h.remotePath))),
        .sent (sendPacket h.client.dataEncode "baud" (.bytes (encode (toString h.remoteBaud)))),
        .sent (sendPacket h.client.dataEncode "start" (.bytes []))] = _
      rw [hsendP, hsendB, hsendS]
      rfl
    rw [hframes, hello, List.mapM_cons, List.mapM_cons, List.mapM_cons, hgetP, hgetB, hgetS]
    rfl

private theorem start_infix_four {d c : UInt8} (hd : 0x30 ≤ d.toNat) :
    symbolStartBytes <:+: [d, c, 0x24, 0x23] ↔ c = 0x23 := by
  have hne : d ≠ 0x23 := by
    rintro rfl
    exact absurd hd (by decide)
  have hfirst : ¬ symbolStartBytes <+: [d, c, 0x24, 0x23] := fun h => hne (List.cons_prefix_cons.1 h).1.symm
  have hsecond : symbolStartBytes <+: [c, 0x24, 0x23] ↔ c = 0x23 := by
    rw [symbolStartBytes, List.cons_prefix_cons, eq_comm]
    exact and_iff_left (by decide)
  have hrest : ¬ symbolStartBytes <:+: [0x24, 0x23] := by decide
  rw [List.infix_cons_iff, List.infix_cons_iff, hsecond]
  simp only [hfirst, hrest, false_or, or_false]

/-- When the checksum of `baud` is no `#`, nothing disturbs the handshake. -/
theorem undisturbed_hello (hu : h.Usable) (hsend : ∀ p ∈ h.hello, p.Sendable) (hsum : h.baudChecksum ≠ 0x23) :
    Undisturbed h.hello := by
  refine undisturbed_of_no_start hsend fun done hdone => ?_
  have hcases : done = [] ∨ done = h.hello.take 1 ∨ done = h.hello.take 2 ∨ done = h.hello := by
    rw [List.prefix_iff_eq_take] at hdone
    have hlen : done.length ≤ 3 := by
      rw [hdone, List.length_take]
      exact Nat.min_le_right _ _
    have : done.length = 0 ∨ done.length = 1 ∨ done.length = 2 ∨ done.length = 3 := by omega
    rcases this with h | h | h | h <;> rw [h] at hdone
    · exact .inl hdone
    · exact .inr (.inl hdone)
    · exact .inr (.inr (.inl hdone))
    · exact .inr (.inr (.inr hdone))
  rcases hcases with rfl | rfl | rfl | rfl
  · decide
  · have hone : leftover (h.hello.take 1) = symbolEndBytes :=
      leftover_eq (x := (Packet.init "path" (encode h.remotePath)).core) (List.append_nil _) rfl
    rw [hone]
    decide
  · obtain ⟨d, hd, heq⟩ := leftover_hello hu
    rw [heq, start_infix_four hd]
    exact hsum
  · have hall : leftover h.hello = [0x61, 0x72, 0x74, 0x60, 0x24, 0x23] := by
      refine leftover_eq (x := stream (h.hello.take 2) ++ [0x23, 0x24, 5, 0, 0, 0, 0x73, 0x74]) ?_ rfl
      have hsplit : h.hello = h.hello.take 2 ++ [.init "start"] := rfl
      have hstart : stream [.init "start"] =
          [0x23, 0x24, 5, 0, 0, 0, 0x73, 0x74] ++ [0x61, 0x72, 0x74, 0x60, 0x24, 0x23] := by decide
      conv => lhs; rw [hsplit]
      rw [stream_append, hstart, List.append_assoc]
    rw [hall]
    decide

/-- When it is, the loop waits for a frame of 86 million bytes after `path` and `baud`. -/
theorem deliver_hello (hu : h.Usable) (hsend : ∀ p ∈ h.hello, p.Sendable) (hsum : h.baudChecksum = 0x23)
    (raws : List Bytes) (hlt : (raws.map List.length).sum < 86254361) :
    (deliver [] (stream h.hello :: raws)).1 = h.hello.take 2 := by
  obtain ⟨d, -, hleft⟩ := leftover_hello hu
  rw [hsum] at hleft
  let path : Packet := .init "path" (encode h.remotePath)
  let baud : Packet := .init "baud" (encode (toString h.remoteBaud))
  -- what is left over, and the frame of `start`
  let c : Bytes := [0x23, 0x24, 0x23, 0x23, 0x24, 5, 0, 0, 0, 0x73, 0x74, 0x61, 0x72, 0x74, 0x60, 0x24, 0x23]
  have hd : ¬ symbolStartBytes <:+: [d] := fun h => absurd h.length_le (by simp [symbolStartBytes])
  have hone : leftover [path] = symbolEndBytes := leftover_eq (x := path.core) (List.append_nil _) rfl
  have hrest : leftover [path, baud] ++ stream [.init "start"] = [d] ++ c := by
    have hstart : stream [.init "start"] =
        [0x23, 0x24, 5, 0, 0, 0, 0x73, 0x74, 0x61, 0x72, 0x74, 0x60, 0x24, 0x23] := by decide
    have hleft : leftover [path, baud] = [d, 0x23, 0x24, 0x23] := hleft
    rw [hleft, hstart]
    rfl
  have hdrain : drain (stream h.hello) = (h.hello.take 2, [d] ++ c) := by
    have hnil : stream h.hello = leftover [] ++ stream (path :: [baud, .init "start"]) := rfl
    have hpath := parse_leftover (hsend path (by simp [hello, path])) [] [baud, .init "start"] (by decide)
    have hbaud := parse_leftover (hsend baud (by simp [hello, baud])) [path] [.init "start"] (by rw [hone]; decide)
    have hnone : parse ([d] ++ c) = none := parse_of_incomplete hd (by decide) (by decide)
    rw [hnil, drain_of_some hpath, drop_leftover, List.nil_append, drain_of_some hbaud, drop_leftover]
    show (path :: baud :: (drain (leftover [path, baud] ++ stream [.init "start"])).1,
      (drain (leftover [path, baud] ++ stream [.init "start"])).2) = _
    rw [hrest, drain_of_none hnone]
    rfl
  have hin : symbolStartBytes <:+: [d] ++ c := ⟨[d], c.drop 2, rfl⟩
  have hsize : declaredSize c = 86254371 := by decide
  rw [deliver, pass_stream, hdrain]
  dsimp only
  rw [flush_of_start hin, deliver_of_incomplete hd (by decide) (by decide) raws, List.append_nil]
  rw [hsize]
  show 17 + _ < _
  omega

/-- The handshake in one result of `recv`: the server is given its three packets exactly when the checksum of `baud`
is no `#`.  Otherwise it is given `path` and `baud` only, and nothing of the next 86 million bytes. -/
theorem greeting_joined_iff (hu : h.Usable) (hpath : framed h.client.dataEncode (.init "path" (encode h.remotePath)) =
    .init "path" (encode h.remotePath)) :
    (receive h.client.dataEncode record ([], []) (sentFrames h.greeting).flatten = .ok (h.hello, []) ↔
      h.baudChecksum ≠ 0x23) ∧
    (h.baudChecksum = 0x23 → ∀ raws : List Bytes, (raws.map List.length).sum < 86254361 →
      ∃ b, receiveAll h.client.dataEncode record ([], []) ((sentFrames h.greeting).flatten :: raws) =
        .ok (h.hello.take 2, b)) := by
  obtain ⟨hsend, hframes⟩ := hello_sendable hu hpath
  have hreceived {p : Packet} (hp : p ∈ h.hello) : received h.client.dataEncode p = some p := by
    have := received_framed h.client.dataEncode p
    rwa [(hsend p hp).2] at this
  rw [flatten_eq_stream hframes]
  have hblocked (hsum : h.baudChecksum = 0x23) (raws : List Bytes) (hlt : (raws.map List.length).sum < 86254361) :
      ∃ b, receiveAll h.client.dataEncode record ([], []) (stream h.hello :: raws) = .ok (h.hello.take 2, b) := by
    have hdeliver := deliver_hello hu (fun p hp => (hsend p hp).1) hsum raws hlt
    refine ⟨_, (receiveAll_of_deliver fun p hp => hreceived ?_).trans (by rw [hdeliver, List.nil_append])⟩
    rw [hdeliver] at hp
    exact List.mem_of_mem_take hp
  refine ⟨⟨fun hall hsum => ?_, fun hsum => ?_⟩, hblocked⟩
  · obtain ⟨b, hb⟩ := hblocked hsum [] (by decide)
    have heq : Outcome.ok (h.hello, []) = .ok (h.hello.take 2, b) := by
      rw [receiveAll, hall] at hb
      exact hb
    have := congrArg List.length (Prod.mk.inj (Outcome.ok.inj heq)).1
    exact absurd this (by simp [hello])
  · have hbatch := deliver_batch (undisturbed_hello hu (fun p hp => (hsend p hp).1) hsum)
    have harrive := arriving_of_deliver hbatch fun p hp => (hsend p hp).2
    rw [Arriving, receiveAll] at harrive
    cases hreceive : receive h.client.dataEncode record ([], []) (stream h.hello) with
    | ok r =>
      rw [hreceive] at harrive
      exact harrive
    | raised r =>
      rw [hreceive] at harrive
      cases harrive

/-- The baud rate 4800 has this checksum. -/
theorem greeting_joined_iff_4800 :
    baudChecksum { runningClient with remoteBaud := 4800 } = 0x23 ∧
      ∀ raws : List Bytes, (raws.map List.length).sum < 86254361 →
        ∃ b, receiveAll false record ([], [])
            ((sentFrames { runningClient with remoteBaud := 4800 }.greeting).flatten :: raws) =
          .ok ([.init "path" [0x61], .init "baud" [0x34, 0x38, 0x30, 0x30]], b) := by
  have hu : ConnectHelper.Usable { runningClient with remoteBaud := 4800 } :=
    ⟨by decide, ⟨4800, by decide, rfl, by decide +kernel⟩, by decide +kernel, by decide +kernel⟩
  have hsum : baudChecksum { runningClient with remoteBaud := 4800 } = 0x23 := by decide +kernel
  exact ⟨hsum, (greeting_joined_iff hu rfl).2 hsum⟩

end ConnectHelper

end WirelessUart
