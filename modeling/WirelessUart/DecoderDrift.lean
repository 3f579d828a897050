import WirelessUart.CodecAgreement

/-!
# Where the two decoders part

The host takes the bytes `:` to `?` behind `\x` for a first digit, the firmware does not.  A backslash behind such a
byte is written by the host, as part of a failed escape, and is the beginning of an escape for the firmware only: it
is a lone backslash.  `Phase` says which decoder still has to read an escape that the other one has written already,
and `agreeStep` follows the phases along the input.

The decoders write the same exactly when the phases end well (`returns_iff_agrees`).  A phase ends badly for good when
a lone backslash begins a proper escape: from then on one decoder has written more bytes than the other, none of them
a backslash, and they never make up for it, since up to the first backslash they write the same (`not_ahead_normal`).
-/

namespace WirelessUart

open ByteLib

/-! ### One output ahead of the other -/

/-- `x` is `l` followed by `y`. -/
def Ahead (l : Bytes) (x y : Option Bytes) : Prop := ∃ e, y = some e ∧ x = some (l ++ e)

section Ahead

variable {l l' o o' : Bytes} {x y : Option Bytes}

theorem ahead_map (h : l ++ o' = o ++ l') : Ahead l (x.map (o ++ ·)) (y.map (o' ++ ·)) ↔ Ahead l' x y := by
  constructor
  · rintro ⟨_, hy, hx⟩
    obtain ⟨e, rfl, rfl⟩ := Option.map_eq_some_iff.1 hy
    obtain ⟨d, rfl, hd⟩ := Option.map_eq_some_iff.1 hx
    rw [← List.append_assoc, h, List.append_assoc, List.append_cancel_left_eq] at hd
    exact ⟨e, rfl, by rw [hd]⟩
  · rintro ⟨e, rfl, rfl⟩
    refine ⟨o' ++ e, rfl, ?_⟩
    rw [Option.map_some, ← List.append_assoc, ← List.append_assoc, h]

/-- The output that was behind is now ahead. -/
theorem ahead_map_swap (h : o = l ++ o' ++ l') : Ahead l (x.map (o ++ ·)) (y.map (o' ++ ·)) ↔ Ahead l' y x := by
  constructor
  · rintro ⟨_, hy, hx⟩
    obtain ⟨e, rfl, rfl⟩ := Option.map_eq_some_iff.1 hy
    obtain ⟨d, rfl, hd⟩ := Option.map_eq_some_iff.1 hx
    rw [← List.append_assoc, h, List.append_assoc (l ++ o'), List.append_cancel_left_eq] at hd
    exact ⟨d, rfl, by rw [hd]⟩
  · rintro ⟨d, rfl, rfl⟩
    refine ⟨o' ++ (l' ++ d), rfl, ?_⟩
    rw [Option.map_some, h, List.append_assoc, List.append_assoc]

theorem not_ahead_map (h : ∀ d e, o ++ d ≠ l ++ (o' ++ e)) : ¬ Ahead l (x.map (o ++ ·)) (y.map (o' ++ ·)) := by
  rintro ⟨_, hy, hx⟩
  obtain ⟨e, rfl, rfl⟩ := Option.map_eq_some_iff.1 hy
  obtain ⟨d, rfl, hd⟩ := Option.map_eq_some_iff.1 hx
  exact h d e hd

end Ahead

/-! ### Up to the first backslash -/

/-- The bytes in front of the first backslash. -/
def front (d : Bytes) : Bytes := d.takeWhile (· != 0x5c)

theorem front_append {m : Bytes} (hm : 0x5c ∉ m) (d : Bytes) : front (m ++ d) = m ++ front d := by
  refine List.takeWhile_append_of_pos fun x hx => ?_
  rw [bne_iff_ne]
  rintro rfl
  exact hm hx

private theorem front_append_congr (o : Bytes) {d e : Bytes} (h : front d = front e) :
    front (o ++ d) = front (o ++ e) := by
  unfold front at *
  rw [List.takeWhile_append, List.takeWhile_append, h]

/-- From one and the same state on, the decoders write the same up to the first backslash. -/
theorem front_out {s : DecodeState} {w d e : Bytes} (hd : Side.host.out s w = some d)
    (he : Side.firmware.out s w = some e) : front d = front e := by
  induction w generalizing s d e with
  | nil =>
    cases hd
    cases he
    rfl
  | cons r w ih =>
    rcases decodeStep_cases s r with hsame | ⟨rfl, hh, hf⟩ | hnone
    · cases hstep : decodeStep s r with
      | none =>
        rw [Side.out_of_fail (i := .host) hstep] at hd
        cases hd
      | some p =>
        obtain ⟨t, o⟩ := p
        rw [Side.out_of_step (i := .host) hstep] at hd
        rw [Side.out_of_step (i := .firmware) (hsame ▸ hstep)] at he
        obtain ⟨d', hd', rfl⟩ := Option.map_eq_some_iff.1 hd
        obtain ⟨e', he', rfl⟩ := Option.map_eq_some_iff.1 he
        exact front_append_congr o (ih hd' he')
    · -- the firmware writes a backslash now, the host with the next byte or never
      rw [Side.out_hex (i := .firmware) hf] at he
      obtain ⟨e', -, rfl⟩ := Option.map_eq_some_iff.1 he
      rw [Side.out_hex_inRange (i := .host) hh] at hd
      obtain ⟨d', hd', rfl⟩ := Option.map_eq_some_iff.1 hd
      cases w with
      | nil =>
        cases hd'
        rfl
      | cons z w =>
        by_cases hz : inHexRange z = true
        · have hr : hexVal r = none := by
            by_contra hr
            exact hf (firmware_inHexRange_of_hexVal r hr)
          have hfail : decodeStep (.hexNum r) z = none := by
            refine (if_pos hz).trans ?_
            rw [(hexBytes_eq_none hz).2 (.inl hr)]
            rfl
          rw [Side.out_of_fail (i := .host) hfail] at hd'
          cases hd'
        · rw [Side.out_hexNum (i := .host) r hz] at hd'
          obtain ⟨d'', -, rfl⟩ := Option.map_eq_some_iff.1 hd'
          rfl
    · rw [Side.out_of_fail (i := .host) hnone] at hd
      cases hd

/-- In state 0 on both sides, a lead without backslash is never made up for. -/
theorem not_ahead_normal {i : Side} {m w : Bytes} (hne : m ≠ []) (hm : 0x5c ∉ m) :
    ¬ Ahead m (i.out .normal w) (i.other.out .normal w) := by
  intro h
  obtain ⟨e, he, hd⟩ := h
  have hfront : front (m ++ e) = front e := by
    cases i with
    | host => exact front_out hd he
    | firmware => exact (front_out he hd).symm
  rw [front_append hm] at hfront
  have := congrArg List.length hfront
  have := List.length_pos_iff.2 hne
  rw [List.length_append] at *
  omega

private theorem out_normal_form (i : Side) (r : UInt8) (w : Bytes) :
    ∃ o y, i.out .normal (r :: w) = Option.map (o ++ ·) y := by
  by_cases hr : r = 0x5c
  · rw [hr, Side.out_normal_backslash]
    exact ⟨_, _, rfl⟩
  · rw [Side.out_normal hr]
    exact ⟨_, _, rfl⟩

/-- Nor is a lead that a failed escape does not begin with. -/
theorem not_ahead_hex {i : Side} {c : UInt8} {m w : Bytes} (hm : 0x5c ∉ m)
    (hlit : ∀ o d, [0x5c, 0x78] ++ o ≠ c :: m ++ d) : ¬ Ahead (c :: m) (i.out .hex w) (i.other.out .normal w) := by
  have hliteral (k o : Bytes) {x : Option Bytes} (r : UInt8) (w : Bytes) :
      ¬ Ahead (c :: m ++ k) (x.map (([0x5c, 0x78] ++ o) ++ ·)) (i.other.out .normal (r :: w)) := by
    obtain ⟨o', y, hy⟩ := out_normal_form i.other r w
    rw [hy]
    refine not_ahead_map fun d e h => hlit (o ++ d) (k ++ (o' ++ e)) ?_
    rwa [List.append_assoc, List.append_assoc (c :: m)] at h
  cases w with
  | nil =>
    rintro ⟨e, -, hx⟩
    cases hx
  | cons u w =>
    by_cases hu : i.inRange u = true
    · have hu' := Side.ne_backslash hu
      have hlead : (c :: m) ++ [u] = [] ++ (c :: m ++ [u]) := rfl
      rw [Side.out_hex_inRange hu, Side.out_normal hu', ahead_map hlead]
      cases w with
      | nil =>
        rintro ⟨e, -, hx⟩
        cases hx
      | cons z w =>
        by_cases hz : i.inRange z = true
        · have hz' := Side.ne_backslash hz
          rcases Side.out_hexNum_inRange (u := u) hz w with hfail | ⟨b, hb⟩
          · rw [hfail]
            rintro ⟨e, -, hx⟩
            cases hx
          · rw [hb, Side.out_normal hz']
            rintro ⟨_, hy, hx⟩
            obtain ⟨e, he, rfl⟩ := Option.map_eq_some_iff.1 hy
            obtain ⟨d, hd, heq⟩ := Option.map_eq_some_iff.1 hx
            simp only [List.cons_append, List.nil_append, List.append_assoc, List.cons.injEq] at heq
            have hahead : Ahead (m ++ [u, z]) (i.out .normal w) (i.other.out .normal w) :=
              ⟨e, he, by rw [hd, heq.2, List.append_assoc]; rfl⟩
            exact not_ahead_normal (by simp) (by simp [hm, hu'.symm, hz'.symm]) hahead
        · rw [Side.out_hexNum u hz]
          exact hliteral [u] [u, z] z w
    · rw [Side.out_hex hu]
      have := hliteral [] [u] (x := i.out .normal w) u w
      rwa [List.append_nil] at this

/-! ### Phases -/

/-- How far the decoders are from each other: in the same state; or one decoder (`side`) is about to read an escape
that the other one has written, of which it has read the backslash, `\x`, or `\x` and a digit; or it has read the
backslash as the second of two, so that the other one holds it. -/
inductive Phase
  | same (s : DecodeState)
  | lone (side : Side)
  | doubled (side : Side)
  | loneX (side : Side)
  | loneDigit (side : Side) (hex1 : UInt8) (hex1_ne : hex1 ≠ 0x5c)
  | apart

def agreeStep : Phase → UInt8 → Phase
  | .same .normal, r => .same (if r = 0x5c then .backslash else .normal)
  | .same .backslash, r => .same (if r = 0x58 ∨ r = 0x78 then .hex else .normal)
  | .same .hex, r =>
    if Firmware.inHexRange r then .same (.hexNum r)
    else if h : Side.host.inRange r = true then .loneDigit .host r (Side.ne_backslash h)
    else .same .normal
  | .same (.hexNum hex1), r =>
    if inHexRange r ∧ (hexVal hex1 = none ∨ hexVal r = none) then .apart else .same .normal
  | .lone side, r =>
    if r = 0x5c then .doubled side
    else if r = 0x78 then .loneX side
    else if r = 0x58 then .apart
    else .same .normal
  | .doubled side, r => if r = 0x5c then .lone side else .apart
  | .loneX side, r =>
    if h : side.inRange r = true then .loneDigit side r (Side.ne_backslash h)
    else if r = 0x5c then .lone side.other
    else .same .normal
  | .loneDigit side _ _, r =>
    if side.inRange r then .apart
    else if r = 0x5c then .lone side.other
    else .same .normal
  | .apart, _ => .apart

/-- What a decoder holds back when the input ends is dropped, so only a difference in what is written counts. -/
def agreeEnd : Phase → Bool
  | .same _ => true
  | .doubled _ => true
  | _ => false

/-- The phases along `w` end well. -/
def Agrees (w : Bytes) : Prop := agreeEnd (w.foldl agreeStep (.same .normal)) = true

instance : DecidablePred Agrees := fun _ => inferInstanceAs (Decidable (_ = _))

/-- What a phase says about the outputs for the rest of the input. -/
def Meaning : Phase → Bytes → Prop
  | .same s, w => Ahead [] (Side.host.out s w) (Side.firmware.out s w)
  | .lone side, w => Ahead [0x5c] (side.out .backslash w) (side.other.out .normal w)
  | .doubled side, w => Ahead [] (side.out .normal w) (side.other.out .backslash w)
  | .loneX side, w => Ahead [0x5c, 0x78] (side.out .hex w) (side.other.out .normal w)
  | .loneDigit side u _, w => Ahead [0x5c, 0x78, u] (side.out (.hexNum u) w) (side.other.out .normal w)
  | .apart, _ => False

/-! ### One byte in each phase -/

section Steps

variable {r : UInt8} {w : Bytes}

private theorem other_other (i : Side) : i.other.other = i := by
  cases i <;> rfl

/-- A byte that both decoders treat alike. -/
private theorem meaning_same_of_steps {s t : DecodeState} {o : Bytes}
    (hh : Side.host.out s (r :: w) = (Side.host.out t w).map (o ++ ·))
    (hf : Side.firmware.out s (r :: w) = (Side.firmware.out t w).map (o ++ ·)) :
    Meaning (.same s) (r :: w) ↔ Meaning (.same t) w := by
  rw [Meaning, hh, hf]
  exact ahead_map (List.append_nil o).symm

/-- Back in state 0 on both sides. -/
private theorem ahead_nil_normal (i : Side) :
    Ahead [] (i.out .normal w) (i.other.out .normal w) ↔ Meaning (.same .normal) w := by
  cases i with
  | host => exact Iff.rfl
  | firmware =>
    constructor
    · intro h
      obtain ⟨e, he, hx⟩ := h
      exact ⟨e, hx, he⟩
    · intro h
      obtain ⟨e, he, hx⟩ := h
      exact ⟨e, hx, he⟩

theorem meaning_same_step (s : DecodeState) (r : UInt8) (w : Bytes) :
    Meaning (.same s) (r :: w) ↔ Meaning (agreeStep (.same s) r) w := by
  cases s with
  | normal =>
    by_cases hr : r = 0x5c
    · rw [hr]
      exact meaning_same_of_steps (Side.out_normal_backslash _ w) (Side.out_normal_backslash _ w)
    · rw [agreeStep, if_neg hr]
      exact meaning_same_of_steps (Side.out_normal hr) (Side.out_normal hr)
  | backslash =>
    rw [agreeStep]
    by_cases hx : r = 0x58 ∨ r = 0x78
    · rw [if_pos hx]
      exact meaning_same_of_steps (Side.out_backslash_x hx) (Side.out_backslash_x hx)
    · rw [if_neg hx]
      by_cases hr : r = 0x5c
      · rw [hr]
        exact meaning_same_of_steps (Side.out_backslash_backslash _ w) (Side.out_backslash_backslash _ w)
      · exact meaning_same_of_steps (Side.out_backslash hr hx) (Side.out_backslash hr hx)
  | hex =>
    rw [agreeStep]
    by_cases hf : Firmware.inHexRange r = true
    · rw [if_pos hf]
      exact meaning_same_of_steps (Side.out_hex_inRange (inHexRange_of_firmware r hf)) (Side.out_hex_inRange hf)
    rw [if_neg hf]
    by_cases hh : Side.host.inRange r = true
    · -- the host holds the escape back, the firmware writes it
      rw [dif_pos hh, Meaning, Side.out_hex_inRange hh, Side.out_hex (i := .firmware) hf]
      exact ahead_map rfl
    · rw [dif_neg hh]
      exact meaning_same_of_steps (Side.out_hex hh) (Side.out_hex hf)
  | hexNum u =>
    rw [agreeStep]
    by_cases hh : inHexRange r = true
    · by_cases hdig : hexVal u = none ∨ hexVal r = none
      · rw [if_pos ⟨hh, hdig⟩, Meaning, Meaning]
        have hfail : decodeStep (.hexNum u) r = none := by
          refine (if_pos hh).trans ?_
          rw [(hexBytes_eq_none hh).2 hdig]
          rfl
        rw [Side.out_of_fail (i := .host) hfail]
        refine iff_of_false ?_ id
        rintro ⟨e, -, hx⟩
        cases hx
      · rw [if_neg fun h => hdig h.2]
        rcases decodeStep_cases (.hexNum u) r with hsame | ⟨hs, -⟩ | hnone
        · obtain ⟨o, ho⟩ := Option.ne_none_iff_exists'.1 (mt (hexBytes_eq_none hh).1 hdig)
          have hstep : decodeStep (.hexNum u) r = some (.normal, o) := by
            refine (if_pos hh).trans ?_
            rw [ho]
            rfl
          have hstep' : Firmware.decodeStep (.hexNum u) r = some (.normal, o) := hsame.symm.trans hstep
          exact meaning_same_of_steps (Side.out_of_step (i := .host) hstep w)
            (Side.out_of_step (i := .firmware) hstep' w)
        · cases hs
        · have hmap : decodeStep (.hexNum u) r = (hexBytes u r).map fun bs => (.normal, bs) := if_pos hh
          rw [hnone, eq_comm, Option.map_eq_none_iff, hexBytes_eq_none hh] at hmap
          exact absurd hmap hdig
    · rw [if_neg fun h => hh h.1]
      have hf := mt (inHexRange_of_firmware r) hh
      exact meaning_same_of_steps (Side.out_hexNum u hh) (Side.out_hexNum u hf)

theorem meaning_lone_step (i : Side) (r : UInt8) (w : Bytes) :
    Meaning (.lone i) (r :: w) ↔ Meaning (agreeStep (.lone i) r) w := by
  rw [Meaning, agreeStep]
  by_cases hr : r = 0x5c
  · rw [if_pos hr, hr, Side.out_backslash_backslash, Side.out_normal_backslash]
    exact ahead_map rfl
  rw [if_neg hr, Side.out_normal hr]
  by_cases hx : r = 0x78
  · rw [if_pos hx, Side.out_backslash_x (.inr hx), hx]
    exact ahead_map rfl
  rw [if_neg hx]
  by_cases hX : r = 0x58
  · -- a failed escape is written with a small `x`
    rw [if_pos hX, Side.out_backslash_x (.inl hX), hX]
    refine iff_of_false (fun h => ?_) id
    have hlead : ([0x5c] : Bytes) ++ [0x58] = [] ++ [0x5c, 0x58] := rfl
    have hahead := (ahead_map hlead).1 h
    exact not_ahead_hex (by decide) (by simp) hahead
  · rw [if_neg hX, Side.out_backslash hr (by simp [hx, hX]), ← ahead_nil_normal i]
    exact ahead_map rfl

theorem meaning_doubled_step (i : Side) (r : UInt8) (w : Bytes) :
    Meaning (.doubled i) (r :: w) ↔ Meaning (agreeStep (.doubled i) r) w := by
  rw [Meaning, agreeStep]
  by_cases hr : r = 0x5c
  · rw [if_pos hr, hr, Side.out_backslash_backslash, Side.out_normal_backslash]
    exact ahead_map rfl
  rw [if_neg hr, Side.out_normal hr]
  refine iff_of_false (fun h => ?_) id
  by_cases hx : r = 0x58 ∨ r = 0x78
  · rw [Side.out_backslash_x hx] at h
    have hlead : [r] = [] ++ [] ++ [r] := rfl
    have hahead := (ahead_map_swap hlead).1 h
    have hside := not_ahead_hex (i := i.other) (c := r) (m := []) (w := w) (by simp)
      (fun o d heq => hr (List.cons.inj heq).1.symm)
    rw [other_other] at hside
    exact hside hahead
  · rw [Side.out_backslash hr hx] at h
    refine not_ahead_map (fun d e heq => ?_) h
    exact hr (List.cons.inj heq).1

/-- A decoder gives up an escape and writes what it has read of it, which the other one has written before. -/
theorem meaning_given_up (i : Side) (m : Bytes) (r : UInt8) (w : Bytes) :
    Ahead m ((i.out .normal w).map (m ++ [r] ++ ·)) (i.other.out .normal (r :: w)) ↔
      Meaning (if r = 0x5c then .lone i.other else .same .normal) w := by
  by_cases hr : r = 0x5c
  · rw [if_pos hr, hr, Side.out_normal_backslash, Meaning, other_other]
    exact ahead_map_swap (by simp)
  · rw [if_neg hr, Side.out_normal hr, ← ahead_nil_normal i]
    exact ahead_map (by simp)

theorem meaning_loneX_step (i : Side) (r : UInt8) (w : Bytes) :
    Meaning (.loneX i) (r :: w) ↔ Meaning (agreeStep (.loneX i) r) w := by
  rw [Meaning, agreeStep]
  by_cases hrange : i.inRange r = true
  · rw [dif_pos hrange, Side.out_hex_inRange hrange, Side.out_normal (Side.ne_backslash hrange)]
    exact ahead_map rfl
  rw [dif_neg hrange, Side.out_hex hrange]
  exact meaning_given_up i [0x5c, 0x78] r w

theorem meaning_loneDigit_step (i : Side) {u : UInt8} (hu : u ≠ 0x5c) (r : UInt8) (w : Bytes) :
    Meaning (.loneDigit i u hu) (r :: w) ↔ Meaning (agreeStep (.loneDigit i u hu) r) w := by
  rw [Meaning, agreeStep]
  by_cases hrange : i.inRange r = true
  · -- a proper escape: one byte against four
    have hr := Side.ne_backslash hrange
    rw [if_pos hrange, Side.out_normal hr]
    refine iff_of_false (fun h => ?_) id
    rcases Side.out_hexNum_inRange (u := u) hrange w with hfail | ⟨b, hb⟩
    · rw [hfail] at h
      obtain ⟨e, -, hx⟩ := h
      cases hx
    · rw [hb] at h
      obtain ⟨_, hy, hx⟩ := h
      obtain ⟨e, he, rfl⟩ := Option.map_eq_some_iff.1 hy
      obtain ⟨d, hd, heq⟩ := Option.map_eq_some_iff.1 hx
      have hahead : Ahead [0x78, u, r] (i.out .normal w) (i.other.out .normal w) :=
        ⟨e, he, hd.trans (congrArg some (List.cons.inj heq).2)⟩
      exact not_ahead_normal (by simp) (by simp [hu.symm, hr.symm]) hahead
  rw [if_neg hrange, Side.out_hexNum u hrange]
  exact meaning_given_up i [0x5c, 0x78, u] r w

end Steps

/-! ### The whole input -/

theorem meaning_step (k : Phase) (r : UInt8) (w : Bytes) : Meaning k (r :: w) ↔ Meaning (agreeStep k r) w := by
  cases k with
  | same s => exact meaning_same_step s r w
  | lone i => exact meaning_lone_step i r w
  | doubled i => exact meaning_doubled_step i r w
  | loneX i => exact meaning_loneX_step i r w
  | loneDigit i u hu => exact meaning_loneDigit_step i hu r w
  | apart => exact Iff.rfl

theorem meaning_nil (k : Phase) : Meaning k [] ↔ agreeEnd k = true := by
  have hlead (c : UInt8) (m : Bytes) : ¬ Ahead (c :: m) (some []) (some []) := by
    intro h
    obtain ⟨e, -, hx⟩ := h
    cases hx
  have hsame : Ahead [] (some []) (some []) := ⟨[], rfl, rfl⟩
  cases k with
  | same s => exact iff_of_true hsame rfl
  | lone i => exact iff_of_false (hlead _ _) (by simp [agreeEnd])
  | doubled i => exact iff_of_true hsame rfl
  | loneX i => exact iff_of_false (hlead _ _) (by simp [agreeEnd])
  | loneDigit i u hu => exact iff_of_false (hlead _ _) (by simp [agreeEnd])
  | apart => exact iff_of_false id (by simp [agreeEnd])

theorem meaning_iff (k : Phase) (w : Bytes) : Meaning k w ↔ agreeEnd (w.foldl agreeStep k) = true := by
  induction w generalizing k with
  | nil => exact meaning_nil k
  | cons r w ih => exact (meaning_step k r w).trans (ih _)

/-- Where the decoder of the host returns, the decoder of the firmware returns the same exactly when the phases along
the input end well. -/
theorem returns_iff_agrees {w d : Bytes} (hd : bytesDecode w = some d) {out : Buffer UInt8}
    (hout : w.length ≤ out.size) : Firmware.Returns (Firmware.bytesDecode w out) d ↔ Agrees w := by
  have hhost : Side.host.out .normal w = some d := hd
  rw [Firmware.returns_bytesDecode_iff hout, Agrees, ← meaning_iff, Meaning, hhost]
  constructor
  · exact fun h => ⟨d, h, rfl⟩
  · rintro ⟨e, he, heq⟩
    cases heq
    exact he

theorem returns_iff_agrees_lone :
    Firmware.Returns (Firmware.bytesDecode [0x5c, 0x78, 0x3a, 0x5c, 0x61] ⟨List.replicate 5 0, false⟩)
      [0x5c, 0x78, 0x3a, 0x5c, 0x61] ↔ Agrees [0x5c, 0x78, 0x3a, 0x5c, 0x61] :=
  returns_iff_agrees (by decide +kernel) (by decide)

/-- The host drops `\x:` at the end of its input, the firmware writes it. -/
theorem not_returns_every_input :
    ¬ ∀ w d : Bytes, bytesDecode w = some d → ∀ out : Buffer UInt8, w.length ≤ out.size →
      Firmware.Returns (Firmware.bytesDecode w out) d := by
  intro h
  obtain ⟨res, hres, hcount, -⟩ := h [0x5c, 0x78, 0x3a] [] (by decide +kernel) ⟨[0, 0, 0], false⟩ (by decide)
  have hrun : Firmware.bytesDecode [0x5c, 0x78, 0x3a] ⟨[0, 0, 0], false⟩ =
      some (3, ⟨[0x5c, 0x78, 0x3a], false⟩) := by decide +kernel
  rw [hrun, Option.some.injEq] at hres
  rw [← hres] at hcount
  cases hcount

end WirelessUart
