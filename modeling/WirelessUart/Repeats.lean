import WirelessUart.Blocking
import WirelessUart.Bridge

/-!
# A packet behind junk is handled again

The loop removes the bytes of a packet from the front of its buffer, where junk may stand in place of the frame.  Then
the frame is still there and is read again, until the junk is used up: behind `n` dead bytes a packet with a core of
`c` bytes is handled `n / c + 1` times, and the loop goes on with what stays of the frame (`Dead.receive_core`).  For a
data packet the server writes the value as often (`Handling.poll_junk_repeats`).
-/

namespace WirelessUart

open ByteLib

/-- The end of a pass that is not ended by an exception: the buffer is cleared or kept. -/
def Outcome.flushed {σ : Type*} : Outcome (σ × Bytes) → Outcome (σ × Bytes)
  | .ok (s, recvBuffer) => .ok (s, flush recvBuffer)
  | .raised st => .raised st

section Repeats

variable {σ : Type*} {handlePacket : σ → Packet → Outcome σ} {st st' : σ} {p : Packet} {b g s j : Bytes}

/-- A packet behind dead bytes is handled once for every core of bytes, and once more. -/
theorem Dead.recvLoop_core (hp : p.Sendable) (hg : Dead g (p.core ++ s))
    (hall : handleAll handlePacket st (List.replicate (g.length / p.core.length + 1) p) = .ok st') :
    recvLoop false handlePacket st (g ++ (p.core ++ s)) =
      recvLoop false handlePacket st' ((p.core ++ s).drop (p.core.length - g.length % p.core.length)) := by
  have hcore : p.core.length = 7 + p.dataSize := p.length_core
  induction hn : g.length using Nat.strong_induction_on generalizing g st with
  | _ n ih =>
    have hparse : parse (g ++ (p.core ++ s)) = some p := by
      rw [parse_append hg]
      exact hp.parse_core s
    rw [hn, List.replicate_succ, handleAll] at hall
    cases hhandle : handlePacket st p with
    | raised s₁ =>
      rw [hhandle] at hall
      cases hall
    | ok s₁ =>
      rw [hhandle] at hall
      rw [recvLoop_of_some hparse rfl hhandle, ← hcore]
      by_cases hle : p.core.length ≤ n
      · -- the frame is still there, behind a shorter front
        have hlt : (g.drop p.core.length).length = n - p.core.length := by rw [List.length_drop, hn]
        rw [Nat.div_eq_sub_div (by omega) hle, ← hlt] at hall
        rw [List.drop_append_of_le_length (by omega), Nat.mod_eq_sub_mod hle, ← hlt]
        exact ih _ (by omega) (hg.of_suffix (List.drop_suffix _ _)) hall rfl
      · rw [Nat.div_eq_of_lt (by omega)] at hall
        obtain rfl : s₁ = st' := by injection hall
        rw [List.drop_append, List.drop_eq_nil_of_le (by omega), List.nil_append, hn, Nat.mod_eq_of_lt (by omega)]

/-- Junk and a frame arrive, and nothing in front of the frame is live. -/
theorem Dead.receive_core (hp : p.Sendable) (hdead : Dead (b ++ lstrip j) (p.core ++ symbolEndBytes))
    (hall : handleAll handlePacket st (List.replicate ((b ++ lstrip j).length / p.core.length + 1) p) = .ok st') :
    receive false handlePacket (st, b) (j ++ (p.core ++ symbolEndBytes)) =
      (recvLoop false handlePacket st'
        ((p.core ++ symbolEndBytes).drop (p.core.length - (b ++ lstrip j).length % p.core.length))).flushed := by
  have hstrip := strip_junk j p
  rw [receive_of_ne (by rw [hstrip]; simp [symbolEndBytes]), hstrip, ← List.append_assoc,
    hdead.recvLoop_core hp hall]
  rfl

end Repeats

namespace Handling

variable {env : Nat → Env} {h : Handling} {dev : Serial} {v raw b j : Bytes}

/-- A running session whose device works writes the value of each data packet. -/
theorem handleAll_data (henv : ∀ n, (env n).writeRaises = false) (hrun : h.session.isRunning = true)
    (hdev : h.session.uartDev = some dev) (k : Nat) :
    ∃ h', handleAll (handlePacket env) h (List.replicate k (.init "data" v)) = .ok h' ∧
      h'.session.events = h.session.events ++ List.replicate k (.wrote (some dev) v) := by
  induction k generalizing h with
  | zero => exact ⟨h, rfl, (List.append_nil _).symm⟩
  | succ k ih =>
    let t := h.session.emit (.wrote (some dev) v)
    have hexec : h.session.exec (env h.log.length) (Packet.init "data" v).command = .ok t := by
      have hcommand : (Packet.init "data" v).command = .data v := rfl
      rw [hcommand, Session.exec_data_of_running hrun, if_neg (by rw [hdev, henv]; simp), hdev]
    obtain ⟨hok, -⟩ := handlePacket_ok env [.wrote (some dev) v] hexec rfl
    obtain ⟨h', hall, hevents⟩ :=
      ih (h := ⟨t, h.log ++ [(env h.log.length, h.session, .init "data" v)]⟩) hrun hdev
    refine ⟨h', ?_, ?_⟩
    · rw [List.replicate_succ, handleAll, hok]
      exact hall
    · rw [hevents, List.replicate_succ]
      exact List.append_assoc _ _ _

/-- Behind dead bytes the value of a data packet is written several times, before anything else.  Nothing else happens
when what stays of the frame holds no start symbol. -/
theorem poll_junk_repeats (henv : ∀ n, (env n).writeRaises = false) (hplain : h.session.dataEncode = false)
    (hrun : h.session.isRunning = true) (hdev : h.session.uartDev = some dev)
    (hraw : sendPacket false "data" (.bytes v) = some raw) (hdead : Dead (b ++ lstrip j) raw) :
    ∃ h', h'.session.events = h.session.events ++
        List.replicate ((b ++ lstrip j).length / (raw.length - 2) + 1) (.wrote (some dev) v) ∧
      poll env (h, b) (.received (j ++ raw)) =
        (recvLoop false (handlePacket env) h'
          (raw.drop (raw.length - 2 - (b ++ lstrip j).length % (raw.length - 2)))).flushed ∧
      (¬ symbolStartBytes <:+: raw.drop (raw.length - 2 - (b ++ lstrip j).length % (raw.length - 2)) →
        poll env (h, b) (.received (j ++ raw)) = .ok (h', [])) := by
  have hget : (Packet.init "data" v).getBytes = some raw := hraw
  obtain ⟨hlt, rfl⟩ := Packet.getBytes_eq_some.1 hget
  have hkey : (Packet.init "data" v).keyStr = "data" := rfl
  have hp : (Packet.init "data" v).Sendable := ⟨by rw [hkey]; decide, by rw [hkey]; decide, hlt⟩
  have hlen : ((Packet.init "data" v).core ++ symbolEndBytes).length - 2 = (Packet.init "data" v).core.length := by
    rw [List.length_append, symbolEndBytes]
    rfl
  obtain ⟨h', hall, hevents⟩ := handleAll_data (v := v) henv hrun hdev
    ((b ++ lstrip j).length / (Packet.init "data" v).core.length + 1)
  have hpoll : poll env (h, b) (.received (j ++ ((Packet.init "data" v).core ++ symbolEndBytes))) =
      receive false (handlePacket env) (h, b) (j ++ ((Packet.init "data" v).core ++ symbolEndBytes)) := by
    rw [poll, hplain]
  rw [hdead.receive_core hp hall] at hpoll
  rw [hlen]
  refine ⟨h', hevents, hpoll, fun hstart => ?_⟩
  -- what stays of the frame ends with the end symbol, so the buffer is cleared
  generalize hr : ((Packet.init "data" v).core ++ symbolEndBytes).drop ((Packet.init "data" v).core.length -
    (b ++ lstrip j).length % (Packet.init "data" v).core.length) = r at hpoll hstart
  have hlast : r.getLast? = some 0x23 := by
    rw [← hr, List.drop_append_of_le_length (Nat.sub_le _ _)]
    simp [symbolEndBytes]
  rw [recvLoop_of_none (parse_of_no_start hstart)] at hpoll
  have hflush : flush r = [] := flush_of_no_start hstart (by rw [hlast]; decide)
  rw [hpoll, Outcome.flushed, hflush]

/-- Two bytes in the buffer, since the second one is 8, and twelve bytes of noise before a value of one byte: the value
is written twice. -/
theorem poll_junk_repeats_noise :
    ∃ h', poll (fun _ => ⟨none, false, false⟩)
        (⟨{ uartDev := some ⟨0, "a", 9, true⟩, isRunning := true, dataEncode := false }, []⟩, [0x41, 0x08])
        (.received (List.replicate 12 0x55 ++
          [0x23, 0x24, 6, 0, 0, 0, 0x64, 0x61, 0x74, 0x61, 0x3d, 0x41, 0x6c, 0x24, 0x23])) = .ok (h', []) ∧
      h'.session.events = [.wrote (some ⟨0, "a", 9, true⟩) [0x41], .wrote (some ⟨0, "a", 9, true⟩) [0x41]] := by
  obtain ⟨h', hevents, -, hpoll⟩ := @poll_junk_repeats (fun _ => ⟨none, false, false⟩)
    ⟨{ uartDev := some ⟨0, "a", 9, true⟩, isRunning := true, dataEncode := false }, []⟩ ⟨0, "a", 9, true⟩ [0x41]
    [0x23, 0x24, 6, 0, 0, 0, 0x64, 0x61, 0x74, 0x61, 0x3d, 0x41, 0x6c, 0x24, 0x23] [0x41, 0x08]
    (List.replicate 12 0x55) (fun _ => rfl) rfl rfl rfl (by decide +kernel)
    (dead_of_no_start (by decide) (by decide))
  exact ⟨h', hpoll (by decide), hevents⟩

end Handling

end WirelessUart
