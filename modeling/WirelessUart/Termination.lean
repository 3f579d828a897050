import WirelessUart.ByteLib.Run
import WirelessUart.Receive

/-!
# Termination

The two nested loops of a pass as a machine that takes one turn at a time: the `while` loop of `handle` and, inside of
it, the `while` loop of `parse` (`Pass.step`).  The machine keeps a record of the packets passed on.

Every turn of `parse` that goes on removes at least a byte (`parseTurn_cases`), so a call returns within one turn more
than there are bytes (`parse_runs`).  A packet is read from at least eight bytes, and whatever packet it is, decoded
or not, at least seven of them are removed: this bounds the packets of a pass (`loop_runs`).
-/

namespace WirelessUart

open ByteLib

variable {σ : Type*}

/-! ### The loop of the parser -/

/-- One turn of the `while` loop in `Packet.parse`: the value returned, or the bytes of the next turn. -/
def parseTurn (rawBytes : Bytes) : Option Packet ⊕ Bytes :=
  if rawBytes.length ≥ packetMin then
    match find symbolStartBytes rawBytes with
    | some 0 =>
      let dataSize := declaredSize rawBytes
      if rawBytes.length < 6 + 1 + dataSize then .inl none
      else
        let dataBytes := (rawBytes.drop 6).take dataSize
        if rawBytes[6 + dataSize]? = some (calcChecksum dataBytes) then .inl (splitData dataBytes)
        else .inr (rawBytes.drop 2)
    | some (i + 1) => .inr (rawBytes.drop (i + 1))
    | none => .inl none
  else .inl none

/-- What a turn can do: it returns what the function does, or goes on with fewer bytes and the same packet to read. -/
theorem parseTurn_cases (b : Bytes) :
    (∃ newPacket, parseTurn b = .inl newPacket ∧ parse b = newPacket) ∨
      ∃ rest, parseTurn b = .inr rest ∧ parse b = parse rest ∧ rest.length < b.length := by
  rw [parse, parseTurn]
  by_cases hmin : b.length ≥ packetMin
  · rw [if_pos hmin, if_pos hmin]
    unfold packetMin at hmin
    obtain ⟨found, hfind⟩ : ∃ found, find symbolStartBytes b = found := ⟨_, rfl⟩
    rw [hfind]
    cases found with
    | none => exact .inl ⟨_, rfl, rfl⟩
    | some i =>
      cases i with
      | zero =>
        dsimp only
        by_cases hlt : b.length < 6 + 1 + declaredSize b
        · rw [if_pos hlt, if_pos hlt]
          exact .inl ⟨_, rfl, rfl⟩
        · rw [if_neg hlt, if_neg hlt]
          by_cases hsum : b[6 + declaredSize b]? = some (calcChecksum ((b.drop 6).take (declaredSize b)))
          · rw [if_pos hsum, if_pos hsum]
            exact .inl ⟨_, rfl, rfl⟩
          · rw [if_neg hsum, if_neg hsum]
            exact .inr ⟨_, rfl, rfl, by rw [List.length_drop]; omega⟩
      | succ i => exact .inr ⟨_, rfl, rfl, by rw [List.length_drop]; omega⟩
  · rw [if_neg hmin, if_neg hmin]
    exact .inl ⟨_, rfl, rfl⟩

/-- A packet is read from at least eight bytes. -/
theorem packetMin_le_of_parse {b : Bytes} {p : Packet} (h : parse b = some p) : packetMin ≤ b.length := by
  by_contra hlt
  rw [parse, if_neg hlt] at h
  cases h

/-! ### The machine -/

/-- Where a pass stands: before the test of the loop of `handle`, before the test of the loop of `parse`, behind the
call of `parse`, or at its end. -/
inductive Control (σ : Type*)
  | loop (s : σ) (recvBuffer : Bytes)
  | scanning (s : σ) (recvBuffer rawBytes : Bytes)
  | returned (s : σ) (recvBuffer : Bytes) (newPacket : Option Packet)
  | ended (outcome : Outcome (σ × Bytes))

/-- A pass with the packets that were passed on so far. -/
structure Pass (σ : Type*) where
  control : Control σ
  dispatched : List Packet

namespace Pass

/-- What one step does. -/
def step (dataEncode : Bool) (handlePacket : σ → Packet → Outcome σ) (x : Pass σ) : Option (Pass σ) :=
  match x.control with
  | .loop s recvBuffer =>
    if (find symbolStartBytes recvBuffer).isSome then some ⟨.scanning s recvBuffer recvBuffer, x.dispatched⟩
    else some ⟨.ended (.ok (s, recvBuffer)), x.dispatched⟩
  | .scanning s recvBuffer rawBytes =>
    match parseTurn rawBytes with
    | .inl newPacket => some ⟨.returned s recvBuffer newPacket, x.dispatched⟩
    | .inr rest => some ⟨.scanning s recvBuffer rest, x.dispatched⟩
  | .returned s recvBuffer (some newPacket) =>
    match received dataEncode newPacket with
    | some p =>
      match handlePacket s p with
      | .ok s' => some ⟨.loop s' (recvBuffer.drop (2 + 4 + 1 + p.dataSize)), x.dispatched ++ [p]⟩
      | .raised s' => some ⟨.ended (.raised (s', recvBuffer.drop (2 + 4 + 1 + p.dataSize))), x.dispatched ++ [p]⟩
    | none => some ⟨.ended (.raised (s, recvBuffer)), x.dispatched⟩
  | .returned s recvBuffer none => some ⟨.ended (.ok (s, recvBuffer)), x.dispatched⟩
  | .ended _ => none

/-- The steps as a relation. -/
def Steps (dataEncode : Bool) (handlePacket : σ → Packet → Outcome σ) (x y : Pass σ) : Prop :=
  step dataEncode handlePacket x = some y

section Runs

variable {dataEncode : Bool} {handlePacket : σ → Packet → Outcome σ}

theorem Steps.deterministic (x y z : Pass σ) (hy : Steps dataEncode handlePacket x y)
    (hz : Steps dataEncode handlePacket x z) : y = z :=
  Option.some.inj (hy.symm.trans hz)

theorem not_steps_ended (o : Outcome (σ × Bytes)) (l : List Packet) (x : Pass σ) :
    ¬ Steps dataEncode handlePacket ⟨.ended o, l⟩ x := by
  intro h
  cases h

/-- Packets are only added. -/
theorem Steps.dispatched_prefix {x y : Pass σ} (h : Steps dataEncode handlePacket x y) :
    x.dispatched <+: y.dispatched := by
  unfold Steps step at h
  split at h
  · split at h <;> · cases h; exact List.prefix_rfl
  · split at h <;> · cases h; exact List.prefix_rfl
  · split at h
    · split at h <;> · cases h; exact List.prefix_append _ _
    · cases h; exact List.prefix_rfl
  · cases h; exact List.prefix_rfl
  · cases h

theorem dispatched_prefix_of_runs {n : Nat} {x y : Pass σ} (h : RunsIn (Steps dataEncode handlePacket) n x y) :
    x.dispatched <+: y.dispatched := by
  induction h with
  | refl => exact List.prefix_rfl
  | head hs _ ih => exact hs.dispatched_prefix.trans ih

variable (dataEncode handlePacket)

/-- A call of `parse` returns what the function does, within one turn more than there are bytes. -/
theorem parse_runs (s : σ) (recvBuffer rawBytes : Bytes) (l : List Packet) :
    ∃ n, n ≤ rawBytes.length + 1 ∧ RunsIn (Steps dataEncode handlePacket) n ⟨.scanning s recvBuffer rawBytes, l⟩
      ⟨.returned s recvBuffer (parse rawBytes), l⟩ := by
  induction hn : rawBytes.length using Nat.strong_induction_on generalizing rawBytes with
  | h k ih =>
    rcases parseTurn_cases rawBytes with ⟨newPacket, hturn, heq⟩ | ⟨rest, hturn, heq, hlt⟩
    · have hstep : Steps dataEncode handlePacket ⟨.scanning s recvBuffer rawBytes, l⟩
          ⟨.returned s recvBuffer newPacket, l⟩ := by
        simp only [Steps, step, hturn]
      rw [heq]
      exact ⟨1, by omega, .single hstep⟩
    · have hstep : Steps dataEncode handlePacket ⟨.scanning s recvBuffer rawBytes, l⟩
          ⟨.scanning s recvBuffer rest, l⟩ := by
        simp only [Steps, step, hturn]
      obtain ⟨n, hle, hrun⟩ := ih rest.length (by omega) rest rfl
      rw [heq]
      exact ⟨n + 1, by omega, .head hstep hrun⟩

/-- From the test of the loop to behind the call of `parse`. -/
theorem call_runs {b : Bytes} (h : (find symbolStartBytes b).isSome) (s : σ) (l : List Packet) :
    ∃ n, n ≤ b.length + 2 ∧
      RunsIn (Steps dataEncode handlePacket) n ⟨.loop s b, l⟩ ⟨.returned s b (parse b), l⟩ := by
  have hstep : Steps dataEncode handlePacket ⟨.loop s b, l⟩ ⟨.scanning s b b, l⟩ := by
    simp only [Steps, step, h, if_true]
  obtain ⟨n, hle, hrun⟩ := parse_runs dataEncode handlePacket s b b l
  exact ⟨n + 1, by omega, .head hstep hrun⟩

/-- When no packet can be read, the loop ends and leaves the buffer as it is. -/
theorem loop_runs_of_none {b : Bytes} (h : parse b = none) (s : σ) (l : List Packet) :
    ∃ n, n ≤ b.length + 3 ∧
      RunsIn (Steps dataEncode handlePacket) n ⟨.loop s b, l⟩ ⟨.ended (.ok (s, b)), l⟩ := by
  by_cases hfind : (find symbolStartBytes b).isSome
  · obtain ⟨n, hle, hrun⟩ := call_runs dataEncode handlePacket hfind s l
    rw [h] at hrun
    have hstep : Steps dataEncode handlePacket ⟨.returned s b none, l⟩ ⟨.ended (.ok (s, b)), l⟩ := rfl
    exact ⟨n + 1, by omega, hrun.append (.single hstep)⟩
  · have hstep : Steps dataEncode handlePacket ⟨.loop s b, l⟩ ⟨.ended (.ok (s, b)), l⟩ := by
      simp only [Steps, step, hfind]
      rfl
    exact ⟨1, by omega, .single hstep⟩

/-- The loop ends as the function does.  Each packet takes seven bytes at least, and the last one needs eight. -/
theorem loop_runs (s : σ) (b : Bytes) (l : List Packet) :
    ∃ n ps, RunsIn (Steps dataEncode handlePacket) n ⟨.loop s b, l⟩
        ⟨.ended (recvLoop dataEncode handlePacket s b), l ++ ps⟩ ∧
      ps.length ≤ (b.length - 1) / 7 ∧ n ≤ (ps.length + 1) * (b.length + 3) := by
  induction hn : b.length using Nat.strong_induction_on generalizing s b l with
  | h k ih =>
    subst hn
    cases hp : parse b with
    | none =>
      obtain ⟨n, hle, hrun⟩ := loop_runs_of_none dataEncode handlePacket hp s l
      refine ⟨n, [], ?_, by simp, by simp only [List.length_nil]; omega⟩
      rw [recvLoop_of_none hp, List.append_nil]
      exact hrun
    | some newPacket =>
      have hlen := packetMin_le_of_parse hp
      unfold packetMin at hlen
      obtain ⟨n, hle, hrun⟩ := call_runs dataEncode handlePacket (find_isSome_of_parse hp) s l
      rw [hp] at hrun
      cases hq : received dataEncode newPacket with
      | none =>
        have hstep : Steps dataEncode handlePacket ⟨.returned s b (some newPacket), l⟩
            ⟨.ended (.raised (s, b)), l⟩ := by
          simp only [Steps, step, hq]
        refine ⟨n + 1, [], ?_, by simp, by simp only [List.length_nil]; omega⟩
        rw [recvLoop_of_undecoded hp hq, List.append_nil]
        exact hrun.append (.single hstep)
      | some p =>
        cases hs : handlePacket s p with
        | raised s' =>
          have hstep : Steps dataEncode handlePacket ⟨.returned s b (some newPacket), l⟩
              ⟨.ended (.raised (s', b.drop (7 + p.dataSize))), l ++ [p]⟩ := by
            simp only [Steps, step, hq, hs]
          rw [recvLoop_of_raised hp hq hs]
          refine ⟨n + 1, [p], hrun.append (.single hstep), ?_, ?_⟩
          · rw [List.length_singleton]
            omega
          · rw [List.length_singleton]
            omega
        | ok s' =>
          have hstep : Steps dataEncode handlePacket ⟨.returned s b (some newPacket), l⟩
              ⟨.loop s' (b.drop (7 + p.dataSize)), l ++ [p]⟩ := by
            simp only [Steps, step, hq, hs]
          have hdrop : (b.drop (7 + p.dataSize)).length ≤ b.length - 7 := by
            rw [List.length_drop]
            omega
          obtain ⟨m, ps, hrun', hps, hm⟩ := ih _ (by omega) s' (b.drop (7 + p.dataSize)) (l ++ [p]) rfl
          rw [recvLoop_of_some hp hq hs]
          rw [List.append_assoc] at hrun'
          refine ⟨n + (m + 1), p :: ps, hrun.append (.head hstep hrun'), ?_, ?_⟩
          · rw [List.length_cons]
            omega
          · have hrest : m ≤ (ps.length + 1) * (b.length + 3) :=
              hm.trans (Nat.mul_le_mul_left _ (by omega))
            have hsum : (ps.length + 1 + 1) * (b.length + 3) = (ps.length + 1) * (b.length + 3) + (b.length + 3) :=
              Nat.succ_mul _ _
            rw [List.length_cons]
            omega

end Runs

end Pass

/-! ### Every pass ends -/

/-- Every call of `parse` in a pass returns, and the pass ends; it passes on at most `(n - 1) / 7` packets when the
buffer holds `n` bytes, up to every point of its run. -/
theorem receive_loop_terminates (dataEncode : Bool) (handlePacket : σ → Packet → Outcome σ) (s : σ) (b : Bytes) :
    (∀ s' recvBuffer rawBytes l, ∃ n, n ≤ rawBytes.length + 1 ∧
      RunsIn (Pass.Steps dataEncode handlePacket) n ⟨.scanning s' recvBuffer rawBytes, l⟩
        ⟨.returned s' recvBuffer (parse rawBytes), l⟩) ∧
    (∃ n ps, RunsIn (Pass.Steps dataEncode handlePacket) n ⟨.loop s b, []⟩
      ⟨.ended (recvLoop dataEncode handlePacket s b), ps⟩) ∧
    ∀ n x, RunsIn (Pass.Steps dataEncode handlePacket) n ⟨.loop s b, []⟩ x →
      x.dispatched.length ≤ (b.length - 1) / 7 ∧ n ≤ ((b.length - 1) / 7 + 1) * (b.length + 3) := by
  obtain ⟨n, ps, hrun, hps, hn⟩ := Pass.loop_runs dataEncode handlePacket s b []
  rw [List.nil_append] at hrun
  refine ⟨Pass.parse_runs dataEncode handlePacket, ⟨n, ps, hrun⟩, ?_⟩
  intro m x hx
  obtain ⟨k, rfl, hrest⟩ := hrun.part_of_final Pass.Steps.deterministic (Pass.not_steps_ended _ _) hx
  have hprefix := Pass.dispatched_prefix_of_runs hrest
  constructor
  · exact hprefix.length_le.trans hps
  · have : (ps.length + 1) * (b.length + 3) ≤ ((b.length - 1) / 7 + 1) * (b.length + 3) :=
      Nat.mul_le_mul_right _ (by omega)
    omega

/-- Two frames without data and a last byte: the bound is reached. -/
example : (drain [0x23, 0x24, 0, 0, 0, 0, 0, 0x23, 0x24, 0, 0, 0, 0, 0, 0]).1.length = (15 - 1) / 7 := by
  decide +kernel

end WirelessUart
