import WirelessUart.CodecAgreement

/-!
# What a decoder takes for an escape

`pieces` cuts a text the way a decoder reads it, with every byte as it stands in the text (`text_pieces`).  Two things
go wrong with them.  The range tests let pass bytes that are no digits, so a piece is decoded that is no escape
(`reads_escapes_iff`).  And a text without any escape does not come out as it is when it ends inside a piece, or has
an `X` in front of what is no digit (`bytesDecode_unescaped_iff`).
-/

namespace WirelessUart

open ByteLib

/-! ### The pieces of a text -/

/-- The two bytes that announce digits. -/
def IsX (x : UInt8) : Prop := x = 0x58 ∨ x = 0x78

instance : DecidablePred IsX := fun x => inferInstanceAs (Decidable (x = 0x58 ∨ x = 0x78))

inductive Piece
  /-- a byte that is no backslash -/
  | byte (r : UInt8)
  /-- a backslash and a byte that is no `x` -/
  | pair (r : UInt8)
  /-- `\x` and a byte outside of the ranges -/
  | broken (x r : UInt8)
  /-- `\x`, a byte in the ranges and one outside of them -/
  | brokenDigit (x u r : UInt8)
  /-- `\x` and two bytes in the ranges -/
  | escape (x u r : UInt8)
  /-- what is held back when the text ends -/
  | unfinished (held : Bytes)
deriving DecidableEq, Repr

namespace Piece

/-- The piece as it stands in the text. -/
def text : Piece → Bytes
  | byte r => [r]
  | pair r => [0x5c, r]
  | broken x r => [0x5c, x, r]
  | brokenDigit x u r => [0x5c, x, u, r]
  | escape x u r => [0x5c, x, u, r]
  | unfinished held => held

/-- An escape has two hexadecimal digits. -/
def Proper : Piece → Prop
  | escape _ u r => hexVal u ≠ none ∧ hexVal r ≠ none
  | _ => True

/-- What is no escape is written as it stands: it has ended, and a hexadecimal escape that breaks off began with a
small `x`. -/
def Plain : Piece → Prop
  | byte _ => True
  | pair _ => True
  | broken x _ => x = 0x78
  | brokenDigit x _ _ => x = 0x78
  | escape _ _ _ => False
  | unfinished _ => False

end Piece

/-- The pieces of a text, by the ranges that a decoder tests. -/
def pieces (inRange : UInt8 → Bool) : Bytes → List Piece
  | [] => []
  | r :: w =>
    if r = 0x5c then
      match w with
      | [] => [.unfinished [r]]
      | x :: w =>
        if IsX x then
          match w with
          | [] => [.unfinished [r, x]]
          | u :: w =>
            if inRange u then
              match w with
              | [] => [.unfinished [r, x, u]]
              | v :: w =>
                if inRange v then .escape x u v :: pieces inRange w
                else .brokenDigit x u v :: pieces inRange w
            else .broken x u :: pieces inRange w
        else .pair x :: pieces inRange w
    else .byte r :: pieces inRange w

section Pieces

variable {inRange : UInt8 → Bool} {x u r : UInt8} (w : Bytes)

theorem pieces_byte (hr : r ≠ 0x5c) : pieces inRange (r :: w) = .byte r :: pieces inRange w := by
  rw [pieces.eq_def]
  exact if_neg hr

theorem pieces_pair (hr : ¬ IsX r) : pieces inRange (0x5c :: r :: w) = .pair r :: pieces inRange w := by
  rw [pieces.eq_def]
  exact (if_pos rfl).trans (if_neg hr)

theorem pieces_broken (hx : IsX x) (hr : ¬ inRange r = true) :
    pieces inRange (0x5c :: x :: r :: w) = .broken x r :: pieces inRange w := by
  rw [pieces.eq_def]
  exact (if_pos rfl).trans ((if_pos hx).trans (if_neg hr))

theorem pieces_brokenDigit (hx : IsX x) (hu : inRange u = true) (hr : ¬ inRange r = true) :
    pieces inRange (0x5c :: x :: u :: r :: w) = .brokenDigit x u r :: pieces inRange w := by
  rw [pieces.eq_def]
  exact (if_pos rfl).trans ((if_pos hx).trans ((if_pos hu).trans (if_neg hr)))

theorem pieces_escape (hx : IsX x) (hu : inRange u = true) (hr : inRange r = true) :
    pieces inRange (0x5c :: x :: u :: r :: w) = .escape x u r :: pieces inRange w := by
  rw [pieces.eq_def]
  exact (if_pos rfl).trans ((if_pos hx).trans ((if_pos hu).trans (if_pos hr)))

end Pieces

theorem text_pieces (inRange : UInt8 → Bool) (w : Bytes) : (pieces inRange w).flatMap Piece.text = w := by
  fun_induction pieces inRange w <;> simp_all [Piece.text]

theorem text_of_mem_pieces {inRange : UInt8 → Bool} {w : Bytes} {p : Piece} (h : p ∈ pieces inRange w) :
    p.text <:+: w := by
  obtain ⟨pre, post, heq⟩ := List.append_of_mem h
  have htext := text_pieces inRange w
  rw [heq, List.flatMap_append, List.flatMap_cons, ← List.append_assoc] at htext
  exact ⟨_, _, htext⟩

/-! ### Hexadecimal escapes -/

/-- The value of two hexadecimal digits. -/
def hexPair (u r : UInt8) : Option UInt8 :=
  match hexVal u, hexVal r with
  | some x, some y => some (16 * x + y)
  | _, _ => none

/-- At a second digit, two hexadecimal digits are decoded and all else is written as it is. -/
def ReadsEscape (i : Side) : DecodeState → UInt8 → Prop
  | .hexNum u, r =>
    i.step (.hexNum u) r = some (.normal, match hexPair u r with
      | some v => [v]
      | none => [0x5c, 0x78, u, r])
  | _, _ => True

theorem hexPair_ne_none {u r : UInt8} : hexPair u r ≠ none ↔ hexVal u ≠ none ∧ hexVal r ≠ none := by
  unfold hexPair
  cases hexVal u <;> cases hexVal r <;> simp

namespace Side

variable {i : Side} {u r : UInt8}

theorem inRange_of_hexVal (i : Side) (h : hexVal r ≠ none) : i.inRange r = true := by
  have hf := firmware_inHexRange_of_hexVal r h
  cases i with
  | host => exact inHexRange_of_firmware r hf
  | firmware => exact hf

theorem hexBytes_of_digits (i : Side) {v : UInt8} (h : hexPair u r = some v) : i.hexBytes u r = some [v] := by
  have hdigits : hexVal u ≠ none ∧ hexVal r ≠ none := hexPair_ne_none.1 (by simp [h])
  obtain ⟨x, hx⟩ := Option.ne_none_iff_exists'.1 hdigits.1
  obtain ⟨y, hy⟩ := Option.ne_none_iff_exists'.1 hdigits.2
  simp only [hexPair, hx, hy, Option.some.injEq] at h
  subst h
  cases i with
  | host => exact (hexBytes_eq (inRange_of_hexVal .host hdigits.2)).trans (by rw [hx, hy])
  | firmware =>
    show Firmware.hexBytes u r = _
    rw [Firmware.hexBytes, Firmware.sscanfHex, hx, hy]
    rfl

/-- The literal branch is taken outside of the ranges only. -/
theorem step_hexNum_literal :
    i.step (.hexNum u) r = some (.normal, [0x5c, 0x78, u, r]) ↔ ¬ i.inRange r = true := by
  constructor
  · intro hstep hrange
    rw [step_hexNum_inRange u hrange, Option.map_eq_some_iff] at hstep
    obtain ⟨o, ho, heq⟩ := hstep
    obtain ⟨b, rfl⟩ := hexBytes_eq_some hrange ho
    cases heq
  · exact step_hexNum u

end Side

theorem readsEscape_hexNum {i : Side} {u r : UInt8} :
    ReadsEscape i (.hexNum u) r ↔ (i.inRange r = true → hexVal u ≠ none ∧ hexVal r ≠ none) := by
  rw [ReadsEscape, ← hexPair_ne_none]
  cases h : hexPair u r with
  | none => simp [Side.step_hexNum_literal]
  | some v =>
    have hrange := i.inRange_of_hexVal (hexPair_ne_none.1 (show hexPair u r ≠ none by simp [h])).2
    simp [Side.step_hexNum_inRange u hrange, i.hexBytes_of_digits h]

/-- A step fails at a second digit only. -/
theorem step_ne_none_of_readsEscape {i : Side} (s : DecodeState) (r : UInt8) (h : ReadsEscape i s r) :
    i.step s r ≠ none := by
  cases s with
  | hexNum u =>
    rw [ReadsEscape] at h
    rw [h]
    exact Option.some_ne_none _
  | _ => simp only [Side.step, decodeStepWith]; split_ifs <;> exact Option.some_ne_none _

section Steps

variable {i : Side} {s t : DecodeState} {x u r : UInt8} {o w : Bytes}

/-- A step that reads no second digit. -/
theorem allSteps_silent (h : i.step s r = some (t, o)) (hreads : ReadsEscape i s r) :
    AllSteps i.step (ReadsEscape i) s (r :: w) ↔ AllSteps i.step (ReadsEscape i) t w := by
  rw [allSteps_cons h]
  exact and_iff_right hreads

theorem allSteps_announced (hx : IsX x) :
    AllSteps i.step (ReadsEscape i) .normal (0x5c :: x :: w) ↔ AllSteps i.step (ReadsEscape i) .hex w := by
  rw [allSteps_silent i.step_normal_backslash trivial, allSteps_silent (i.step_backslash_x hx) trivial]

theorem allSteps_first (hx : IsX x) (hu : i.inRange u = true) :
    AllSteps i.step (ReadsEscape i) .normal (0x5c :: x :: u :: w) ↔
      AllSteps i.step (ReadsEscape i) (.hexNum u) w := by
  rw [allSteps_announced hx, allSteps_silent (Side.step_hex_inRange hu) trivial]

/-- Behind a second digit in the ranges. -/
theorem allSteps_second (hr : i.inRange r = true) :
    AllSteps i.step (ReadsEscape i) (.hexNum u) (r :: w) ↔
      (hexVal u ≠ none ∧ hexVal r ≠ none) ∧ AllSteps i.step (ReadsEscape i) .normal w := by
  have hreads : ReadsEscape i (.hexNum u) r ↔ hexVal u ≠ none ∧ hexVal r ≠ none := by
    rw [readsEscape_hexNum]
    exact forall_prop_of_true hr
  cases hbytes : i.hexBytes u r with
  | none =>
    have hstep := Side.step_hexNum_inRange u hr
    rw [hbytes] at hstep
    have hno : ¬ ReadsEscape i (.hexNum u) r := fun h => step_ne_none_of_readsEscape _ _ h hstep
    constructor
    · intro h
      exact absurd h.head hno
    · intro h
      exact absurd (hreads.2 h.1) hno
  | some o =>
    have hstep := Side.step_hexNum_inRange u hr
    rw [hbytes] at hstep
    rw [allSteps_cons hstep, hreads]

end Steps

/-- A decoder reads the escapes of a text when every piece that it decodes is one. -/
theorem allSteps_readsEscape_iff (i : Side) (w : Bytes) :
    AllSteps i.step (ReadsEscape i) .normal w ↔ ∀ p ∈ pieces i.inRange w, p.Proper := by
  induction w using pieces.induct i.inRange with
  | case1 => exact iff_of_true allSteps_nil (by simp [pieces])
  | case2 =>
    -- the text ends behind a backslash
    rw [allSteps_silent i.step_normal_backslash trivial]
    exact iff_of_true allSteps_nil (by simp [pieces, Piece.Proper])
  | case3 x hx =>
    rw [allSteps_announced hx]
    exact iff_of_true allSteps_nil (by simp [pieces, hx, Piece.Proper])
  | case4 x hx u hu =>
    rw [allSteps_first hx hu]
    exact iff_of_true allSteps_nil (by simp [pieces, hx, hu, Piece.Proper])
  | case5 x hx u hu v w hv ih =>
    rw [pieces_escape w hx hu hv, List.forall_mem_cons, ← ih, allSteps_first hx hu, allSteps_second hv]
    rfl
  | case6 x hx u hu v w hv ih =>
    have hreads : ReadsEscape i (.hexNum u) v := readsEscape_hexNum.2 fun h => absurd h hv
    rw [pieces_brokenDigit w hx hu hv, List.forall_mem_cons, ← ih, allSteps_first hx hu,
      allSteps_silent (Side.step_hexNum u hv) hreads]
    exact (and_iff_right trivial).symm
  | case7 x hx u w hu ih =>
    rw [pieces_broken w hx hu, List.forall_mem_cons, ← ih, allSteps_announced hx,
      allSteps_silent (Side.step_hex hu) trivial]
    exact (and_iff_right trivial).symm
  | case8 x w hx ih =>
    rw [pieces_pair w hx, List.forall_mem_cons, ← ih, allSteps_silent i.step_normal_backslash trivial]
    by_cases hback : x = 0x5c
    · subst hback
      rw [allSteps_silent i.step_backslash_backslash trivial]
      exact (and_iff_right trivial).symm
    · rw [allSteps_silent (i.step_backslash hback hx) trivial]
      exact (and_iff_right trivial).symm
  | case9 r w hr ih =>
    rw [pieces_byte w hr, List.forall_mem_cons, ← ih, allSteps_silent (i.step_normal hr) trivial]
    exact (and_iff_right trivial).symm

/-- Both decoders read the hexadecimal escapes of a text, and the host decodes it without raising, when all that they
decode has two hexadecimal digits. -/
theorem reads_escapes_iff (w : Bytes) :
    ((∃ d, bytesDecode w = some d) ∧ ∀ i : Side, AllSteps i.step (ReadsEscape i) .normal w) ↔
      ∀ i : Side, ∀ p ∈ pieces i.inRange w, p.Proper := by
  constructor
  · intro h i
    exact (allSteps_readsEscape_iff i w).1 (h.2 i)
  · intro h
    have hall : ∀ i : Side, AllSteps i.step (ReadsEscape i) .normal w := fun i =>
      (allSteps_readsEscape_iff i w).2 (h i)
    obtain ⟨t, d, hrun⟩ := (hall .host).run_eq_some step_ne_none_of_readsEscape
    exact ⟨⟨d, congrArg (Option.map Prod.snd) hrun⟩, hall⟩

/-- Two bytes `g` pass the range tests: the host raises. -/
theorem not_reads_escapes_every_text :
    ¬ ∀ w : Bytes, (∃ d, bytesDecode w = some d) ∧ ∀ i : Side, AllSteps i.step (ReadsEscape i) .normal w := by
  intro h
  obtain ⟨d, hd⟩ := (h [0x5c, 0x78, 0x67, 0x67]).1
  exact absurd hd (by rw [show bytesDecode [0x5c, 0x78, 0x67, 0x67] = none by decide +kernel]; simp)

/-! ### Text without escapes -/

/-- No doubled backslash, and no hexadecimal escape with digits of either case. -/
def Unescaped (w : Bytes) : Prop :=
  ¬ [0x5c, 0x5c] <:+: w ∧ ∀ x u r, IsX x → hexVal u ≠ none → hexVal r ≠ none → ¬ [0x5c, x, u, r] <:+: w

/-- A decoder writes no more than it reads. -/
theorem Side.length_out_le {i : Side} {w d : Bytes} (h : i.out .normal w = some d) : d.length ≤ w.length := by
  obtain ⟨p, hrun, rfl⟩ := Option.map_eq_some_iff.1 h
  have hlen : ∀ u r bs, i.hexBytes u r = some bs → bs.length ≤ 1 := by
    intro u r bs hbs
    cases i with
    | host =>
      obtain ⟨bs', -, rfl⟩ := Option.map_eq_some_iff.1 hbs
      exact List.length_take_le 1 bs'
    | firmware => exact Firmware.length_hexBytes hbs
  have hle := run_length_le Firmware.held (fun _ _ _ _ hstep => Firmware.held_stepWith hlen hstep) hrun
  rw [Firmware.held, Nat.zero_add] at hle
  exact (Nat.le_add_right _ _).trans hle

/-- A part of the text is written as it stands when what is written for it is the part, and the rest follows. -/
theorem map_append_eq_some (o : Option Bytes) (w : Bytes) {q q' : Bytes} (hlen : q.length = q'.length) :
    o.map (q ++ ·) = some (q' ++ w) ↔ q = q' ∧ o = some w := by
  constructor
  · intro h
    obtain ⟨d, rfl, heq⟩ := Option.map_eq_some_iff.1 h
    obtain ⟨rfl, rfl⟩ := List.append_inj heq hlen
    exact ⟨rfl, rfl⟩
  · intro h
    rw [h.1, h.2]
    rfl

theorem Side.out_announced {i : Side} {x : UInt8} (hx : IsX x) (w : Bytes) :
    i.out .normal (0x5c :: x :: w) = i.out .hex w := by
  rw [out_normal_backslash, out_backslash_x hx]
  simp

theorem Side.out_first {i : Side} {x u : UInt8} (hx : IsX x) (hu : i.inRange u = true) (w : Bytes) :
    i.out .normal (0x5c :: x :: u :: w) = i.out (.hexNum u) w := by
  rw [out_announced hx, out_hex_inRange hu]
  simp

/-- For a decoded escape one byte is written, which is too little. -/
theorem Side.out_escape_ne {i : Side} {x u r : UInt8} (hx : IsX x) (hu : i.inRange u = true)
    (hr : i.inRange r = true) (w : Bytes) :
    i.out .normal (0x5c :: x :: u :: r :: w) ≠ some (0x5c :: x :: u :: r :: w) := by
  rw [out_first hx hu]
  rcases out_hexNum_inRange (u := u) hr w with hnone | ⟨b, hb⟩
  · rw [hnone]
    exact (Option.some_ne_none _).symm
  · rw [hb]
    intro h
    obtain ⟨d, hd, heq⟩ := Option.map_eq_some_iff.1 h
    have hle := length_out_le hd
    have hlen := congrArg List.length heq
    simp only [List.length_append, List.length_cons, List.length_nil] at hlen
    omega

/-- For a doubled backslash one byte is written, which is too little. -/
theorem Side.out_doubled_ne (i : Side) (w : Bytes) : i.out .normal (0x5c :: 0x5c :: w) ≠ some (0x5c :: 0x5c :: w) := by
  rw [out_normal_backslash, out_backslash_backslash]
  intro h
  obtain ⟨d, hd, heq⟩ := Option.map_eq_some_iff.1 h
  obtain ⟨e, he, rfl⟩ := Option.map_eq_some_iff.1 hd
  have hle := length_out_le he
  have hlen := congrArg List.length heq
  simp only [List.length_append, List.length_cons, List.length_nil] at hlen
  omega

/-- A text comes out as it is when all of its pieces do, and none of them is a doubled backslash. -/
theorem Side.out_eq_self_iff (i : Side) (w : Bytes) :
    i.out .normal w = some w ↔ ∀ p ∈ pieces i.inRange w, p.Plain ∧ p ≠ .pair 0x5c := by
  induction w using pieces.induct i.inRange with
  | case1 => exact iff_of_true rfl (by simp [pieces])
  | case2 =>
    -- the text ends inside an escape, and what is held back is lost
    rw [i.out_normal_backslash]
    exact iff_of_false (by simp [Side.out]) (by simp [pieces, Piece.Plain])
  | case3 x hx =>
    rw [Side.out_announced hx]
    exact iff_of_false (by simp [Side.out]) (by simp [pieces, hx, Piece.Plain])
  | case4 x hx u hu =>
    rw [Side.out_first hx hu]
    exact iff_of_false (by simp [Side.out]) (by simp [pieces, hx, hu, Piece.Plain])
  | case5 x hx u hu v w hv ih =>
    rw [pieces_escape w hx hu hv, List.forall_mem_cons]
    exact iff_of_false (Side.out_escape_ne hx hu hv w) fun hplain => hplain.1.1
  | case6 x hx u hu v w hv ih =>
    rw [pieces_brokenDigit w hx hu hv, List.forall_mem_cons, ← ih, Side.out_first hx hu, Side.out_hexNum u hv]
    have hpart := map_append_eq_some (i.out .normal w) w
      (show [0x5c, 0x78, u, v].length = [0x5c, x, u, v].length from rfl)
    simpa [Piece.Plain, eq_comm] using hpart
  | case7 x hx u w hu ih =>
    rw [pieces_broken w hx hu, List.forall_mem_cons, ← ih, Side.out_announced hx, Side.out_hex hu]
    have hpart := map_append_eq_some (i.out .normal w) w
      (show [0x5c, 0x78, u].length = [0x5c, x, u].length from rfl)
    simpa [Piece.Plain, eq_comm] using hpart
  | case8 x w hx ih =>
    rw [pieces_pair w hx, List.forall_mem_cons]
    by_cases hback : x = 0x5c
    · subst hback
      exact iff_of_false (i.out_doubled_ne w) fun hplain => hplain.1.2 rfl
    · rw [← ih, i.out_normal_backslash, Side.out_backslash hback hx]
      simp [Piece.Plain, hback]
  | case9 r w hr ih =>
    rw [pieces_byte w hr, List.forall_mem_cons, ← ih, Side.out_normal hr]
    simp [Piece.Plain]

/-- A text that has no doubled backslash comes out as it is when all of its pieces do. -/
theorem out_eq_self_iff (i : Side) (w : Bytes) (h : .pair 0x5c ∉ pieces i.inRange w) :
    i.out .normal w = some w ↔ ∀ p ∈ pieces i.inRange w, p.Plain := by
  rw [i.out_eq_self_iff]
  constructor
  · intro hall p hp
    exact (hall p hp).1
  · intro hall p hp
    refine ⟨hall p hp, ?_⟩
    rintro rfl
    exact h hp

/-- Both decoders return a text without escapes as it is when each of its pieces is written as it stands. -/
theorem bytesDecode_unescaped_iff {w : Bytes} (h : Unescaped w) :
    (bytesDecode w = some w ∧
        ∀ out : Buffer UInt8, w.length ≤ out.size → Firmware.Returns (Firmware.bytesDecode w out) w) ↔
      ∀ i : Side, ∀ p ∈ pieces i.inRange w, p.Plain := by
  have hpair : ∀ i : Side, .pair 0x5c ∉ pieces i.inRange w := fun i hmem => h.1 (text_of_mem_pieces hmem)
  constructor
  · intro hboth i
    rw [← out_eq_self_iff i w (hpair i)]
    cases i with
    | host => exact hboth.1
    | firmware =>
      have hroom : w.length ≤ (⟨w, false⟩ : Buffer UInt8).size := Nat.le_refl _
      exact (Firmware.returns_bytesDecode_iff hroom).1 (hboth.2 _ hroom)
  · intro hplain
    refine ⟨(out_eq_self_iff .host w (hpair .host)).2 (hplain .host), fun out hout => ?_⟩
    rw [Firmware.returns_bytesDecode_iff hout]
    exact (out_eq_self_iff .firmware w (hpair .firmware)).2 (hplain .firmware)

theorem bytesDecode_unescaped_iff_broken :
    (bytesDecode [0x5c, 0x78, 0x7a] = some [0x5c, 0x78, 0x7a] ∧
        ∀ out : Buffer UInt8, [0x5c, 0x78, 0x7a].length ≤ out.size →
          Firmware.Returns (Firmware.bytesDecode [0x5c, 0x78, 0x7a] out) [0x5c, 0x78, 0x7a]) ↔
      ∀ i : Side, ∀ p ∈ pieces i.inRange [0x5c, 0x78, 0x7a], p.Plain := by
  refine bytesDecode_unescaped_iff ⟨?_, fun x u r _ _ _ hmem => ?_⟩
  · decide
  · have hle := hmem.length_le
    simp at hle

/-- A backslash at the end is held back and lost. -/
theorem not_bytesDecode_unescaped_every_text :
    ¬ ∀ w : Bytes, Unescaped w → bytesDecode w = some w ∧
      ∀ out : Buffer UInt8, w.length ≤ out.size → Firmware.Returns (Firmware.bytesDecode w out) w := by
  intro h
  have hone : Unescaped [0x5c] := by
    refine ⟨fun hmem => ?_, fun x u r _ _ _ hmem => ?_⟩ <;>
    · have hle := hmem.length_le
      simp at hle
  have hdec := (h [0x5c] hone).1
  rw [show bytesDecode [0x5c] = some [] by decide +kernel] at hdec
  cases hdec

end WirelessUart
