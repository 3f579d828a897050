import WirelessUart.Receive
import WirelessUart.RoundTrip

/-!
# The command line of the packet generator

What the tool prints for its options `-k` and `-v`, read back and sent to the server.  The tool writes no end symbol, so
the receive loop leaves nothing of its frames in the buffer, and any number of them in one result of `recv` is received
exactly.  But then the last byte is a checksum: when it is white space `strip` removes it, and the last packet is not
found (`Generator.main_received_iff`).
-/

namespace WirelessUart

open ByteLib

/-! ### Frames without end symbols -/

section Cores

variable {p : Packet} {ps : List Packet} {b q : Bytes}

/-- The frames of the packets, one right behind the other. -/
def cores (ps : List Packet) : Bytes := (ps.map Packet.core).flatten

theorem cores_append (ps qs : List Packet) : cores (ps ++ qs) = cores ps ++ cores qs := by
  rw [cores, List.map_append, List.flatten_append]
  rfl

theorem cores_singleton (p : Packet) : cores [p] = p.core := List.append_nil _

/-- The loop removes exactly the frames that it has read. -/
theorem drain_cores (hps : ∀ p ∈ ps, p.Sendable) (hb : parse b = none) : drain (cores ps ++ b) = (ps, b) := by
  induction ps with
  | nil => exact drain_of_none hb
  | cons p ps ih =>
    have hcons : cores (p :: ps) ++ b = p.core ++ (cores ps ++ b) := List.append_assoc _ _ _
    have hp := (hps p List.mem_cons_self).parse_core (cores ps ++ b)
    rw [hcons, drain_of_some hp, List.drop_left' p.length_core, ih fun q hq => hps q (List.mem_cons_of_mem _ hq)]

theorem head_cores (ps : List Packet) : ∀ x ∈ (cores ps).head?, ¬ isSpace x := by
  cases ps with
  | nil => simp [cores]
  | cons p ps =>
    intro x hx
    obtain rfl : 0x23 = x := Option.some.inj hx
    decide

/-- The last byte is a checksum. -/
theorem getLast?_cores (ps : List Packet) : (cores ps).getLast? = ps.getLast?.map (·.checksum) := by
  induction ps using List.reverseRecOn with
  | nil => rfl
  | append_singleton ps p _ =>
    rw [cores_append, cores_singleton, List.getLast?_concat, Packet.core, frameBytes, ← List.append_assoc,
      List.getLast?_concat, Option.map_some]

/-- Without white space at its end, the stream is received as it is. -/
theorem pass_cores (hps : ∀ p ∈ ps, p.Sendable) (hlast : ∀ p ∈ ps.getLast?, ¬ isSpace p.checksum) :
    pass [] (cores ps) = (ps, []) := by
  have hstrip : strip (cores ps) = cores ps := by
    refine trim_eq_self.2 ⟨head_cores ps, fun x hx => ?_⟩
    rw [getLast?_cores] at hx
    obtain ⟨p, hp, rfl⟩ := Option.map_eq_some_iff.1 hx
    exact hlast p hp
  rw [pass, hstrip]
  split
  case isTrue h =>
    cases ps with
    | nil => rfl
    | cons p ps => cases h
  case isFalse =>
    have hdrain := drain_cores hps (parse_of_no_start (b := []) (by decide))
    rw [List.append_nil] at hdrain
    rw [List.nil_append, hdrain]
    rfl

/-- A checksum that is white space is stripped, and its frame is waited for. -/
theorem pass_cores_space (hps : ∀ q ∈ ps ++ [p], q.Sendable) (hp : isSpace p.checksum) :
    (pass [] (cores (ps ++ [p]))).1 = ps := by
  have hcore : p.core = symbolStartBytes ++ (leBytes 4 p.dataBytes.length ++ (p.dataBytes ++ [p.checksum])) := by
    rw [Packet.core, frameBytes, List.append_assoc, List.append_assoc]
  -- what is stripped is shorter, but it keeps the start symbol of the last frame
  have hprefix : strip (cores (ps ++ [p])) <+: cores (ps ++ [p]) := trim_prefix (head_cores _)
  have hne : strip (cores (ps ++ [p])) ≠ cores (ps ++ [p]) := by
    intro h
    refine (trim_eq_self.1 h).2 p.checksum ?_ hp
    rw [getLast?_cores, List.getLast?_concat]
    rfl
  have hkept : cores ps ++ symbolStartBytes <+: strip (cores (ps ++ [p])) := by
    rw [cores_append, cores_singleton, hcore, ← List.append_assoc]
    refine prefix_trim (by simp [symbolStartBytes]) (fun x hx => ?_) (fun x hx => ?_) _
    · obtain rfl : 0x23 = x := by cases ps <;> exact Option.some.inj hx
      decide
    · rw [List.getLast?_append_of_ne_nil _ (by decide)] at hx
      obtain rfl : 0x24 = x := Option.some.inj hx
      decide
  obtain ⟨t, ht⟩ := hkept
  rw [List.append_assoc] at ht
  have hq : symbolStartBytes ++ t <+: p.core := by
    rw [← ht, cores_append, cores_singleton] at hprefix
    exact (List.prefix_append_right_inj _).1 hprefix
  have hlt : (symbolStartBytes ++ t).length < p.core.length := by
    refine lt_of_le_of_ne hq.length_le fun h => hne ?_
    rw [← ht, cores_append, cores_singleton, hq.eq_of_length h]
  have hnone := (hps p (by simp)).parse_of_lt hq hlt
  rw [pass, ← ht, if_neg (by simp [symbolStartBytes]), List.nil_append,
    drain_cores (fun q hq => hps q (List.mem_append_left _ hq)) hnone]

end Cores

/-! ### The main program -/

namespace Generator

/-- An upper-case hexadecimal digit. -/
def hexDigitUpper (n : UInt8) : UInt8 := if n < 10 then 0x30 + n else 0x41 + (n - 10)

/-- The format `\%02X`. -/
def printByte (r : UInt8) : Bytes := [0x5c, hexDigitUpper (r / 16), hexDigitUpper (r % 16)]

/-- The value for the option `-v`; `none` is the `ValueError` of `bytes.fromhex`. -/
def argument (val : String) : Option Bytes :=
  match val.toList with
  | [] => some []
  | '0' :: 'x' :: digits => fromhex (encode (String.ofList digits))
  | _ => some (encode val)

/-- What the main program prints for the options `-k` and `-v`; `none` when an exception ends it. -/
def main (key val : String) : Option Bytes := do
  let raw ← (Packet.init key (← argument val)).getBytes
  return raw.flatMap printByte ++ [0x0a]

/-- Without the backslashes, a printed line is hexadecimal. -/
def readLine (line : Bytes) : Option Bytes := fromhex (line.filter (· ≠ 0x5c))

/-- The digits of a byte are read as this byte. -/
private theorem fromhex_digits (r : UInt8) (b : Bytes) :
    fromhex (hexDigitUpper (r / 16) :: hexDigitUpper (r % 16) :: b) = (fromhex b).map (r :: ·) := by
  have hdigits : isSpace (hexDigitUpper (r / 16)) = false ∧ hexVal (hexDigitUpper (r / 16)) = some (r / 16) ∧
      hexVal (hexDigitUpper (r % 16)) = some (r % 16) ∧ 16 * (r / 16) + r % 16 = r := by
    revert r
    decide +kernel
  obtain ⟨hspace, hhigh, hlow, hsum⟩ := hdigits
  rw [fromhex, hspace, hhigh, hlow]
  simp only [Bool.false_eq_true, if_false, hsum]

/-- A printed line is read back. -/
theorem readLine_print (raw : Bytes) : readLine (raw.flatMap printByte ++ [0x0a]) = some raw := by
  have hdigit : ∀ r : UInt8, (printByte r).filter (· ≠ 0x5c) = [hexDigitUpper (r / 16), hexDigitUpper (r % 16)] := by
    decide +kernel
  rw [readLine, List.filter_append, List.filter_flatMap]
  simp only [hdigit]
  induction raw with
  | nil => decide
  | cons r raw ih =>
    rw [List.flatMap_cons, List.append_assoc, List.cons_append, List.cons_append, List.nil_append, fromhex_digits, ih]
    rfl

/-! ### From the command line to the server -/

/-- The packets that the options `-k` and `-v` of some runs stand for. -/
def packets (args : List (String × String)) : Option (List WirelessUart.Packet) :=
  args.mapM fun a => (argument a.2).map fun v => .init a.1 v

section Main

variable {key val : String} {line : Bytes} {args : List (String × String)} {lines : List Bytes}

/-- A line that is printed is read as the frame of the packet. -/
theorem main_eq_some (h : main key val = some line) :
    ∃ v, argument val = some v ∧ (WirelessUart.Packet.init key v).dataSize < 2 ^ 32 ∧
      readLine line = some (WirelessUart.Packet.init key v).core := by
  obtain ⟨v, hv, h⟩ := Option.bind_eq_some_iff.1 h
  obtain ⟨raw, hraw, h⟩ := Option.bind_eq_some_iff.1 h
  cases h
  rw [Packet.getBytes_init, WirelessUart.Packet.getBytes_eq_some, List.append_cancel_right_eq] at hraw
  obtain ⟨hlt, rfl⟩ := hraw
  exact ⟨v, hv, hlt, readLine_print _⟩

/-- The same for some runs. -/
theorem mapM_main_eq_some (hkeys : ∀ a ∈ args, a.1 ≠ "" ∧ '=' ∉ a.1.toList)
    (h : args.mapM (fun a => main a.1 a.2) = some lines) :
    ∃ ps raws, packets args = some ps ∧ (∀ p ∈ ps, p.Sendable) ∧ lines.mapM readLine = some raws ∧
      raws.flatten = cores ps := by
  induction args generalizing lines with
  | nil =>
    cases h
    exact ⟨[], [], rfl, by simp, rfl, rfl⟩
  | cons a args ih =>
    rw [List.mapM_cons] at h
    obtain ⟨line, hline, h⟩ := Option.bind_eq_some_iff.1 h
    obtain ⟨lines, hlines, h⟩ := Option.bind_eq_some_iff.1 h
    cases h
    obtain ⟨v, hv, hlt, hread⟩ := main_eq_some hline
    obtain ⟨hkey, hkeys⟩ := List.forall_mem_cons.1 hkeys
    obtain ⟨ps, raws, hps, hsend, hraws, hflat⟩ := ih hkeys hlines
    refine ⟨.init a.1 v :: ps, (WirelessUart.Packet.init a.1 v).core :: raws, ?_, ?_, ?_, ?_⟩
    · rw [packets, List.mapM_cons, hv]
      unfold packets at hps
      rw [hps]
      rfl
    · exact List.forall_mem_cons.2 ⟨⟨hkey.1, hkey.2, hlt⟩, hsend⟩
    · rw [List.mapM_cons, hread, hraws]
      rfl
    · rw [List.flatten_cons, hflat]
      rfl

/-- The lines of any number of runs, read back and received in one piece: the server is given exactly the packets of
their options, unless the last checksum is white space; then the last packet is missing. -/
theorem main_received_iff (hkeys : ∀ a ∈ args, a.1 ≠ "" ∧ '=' ∉ a.1.toList)
    (h : args.mapM (fun a => main a.1 a.2) = some lines) :
    ∃ ps raws, packets args = some ps ∧ lines.mapM readLine = some raws ∧
      (receive false record ([], []) raws.flatten = .ok (ps, []) ↔ ∀ p ∈ ps.getLast?, ¬ isSpace p.checksum) ∧
      ((∃ p ∈ ps.getLast?, isSpace p.checksum) →
        ∃ b, receive false record ([], []) raws.flatten = .ok (ps.dropLast, b)) := by
  obtain ⟨ps, raws, hps, hsend, hraws, hflat⟩ := mapM_main_eq_some hkeys h
  have hspace {p : WirelessUart.Packet} (hp : p ∈ ps.getLast?) (hs : isSpace p.checksum) :
      (pass [] (cores ps)).1 = ps.dropLast := by
    obtain ⟨qs, rfl⟩ := List.getLast?_eq_some_iff.1 hp
    rw [pass_cores_space hsend hs, List.dropLast_concat]
  refine ⟨ps, raws, hps, hraws, ?_, fun hlast => ?_⟩
  · rw [hflat, receive_record]
    constructor
    · intro hall p hp hs
      have hlost := hspace hp hs
      obtain ⟨qs, rfl⟩ := List.getLast?_eq_some_iff.1 hp
      injection hall with hall
      have := (Prod.mk.inj hall).1
      rw [hlost, List.nil_append, List.dropLast_concat] at this
      exact absurd this (by simp)
    · intro hlast
      rw [pass_cores hsend hlast]
      rfl
  · obtain ⟨p, hp, hs⟩ := hlast
    refine ⟨(pass [] (cores ps)).2, ?_⟩
    rw [hflat, receive_record, hspace hp hs]
    rfl

/-- The value `$` of the key `data` has the checksum 09. -/
theorem main_received_iff_dollar :
    ∃ raws b, [encode "\\23\\24\\04\\00\\00\\00\\73\\74\\6F\\70\\18\n",
        encode "\\23\\24\\06\\00\\00\\00\\64\\61\\74\\61\\3D\\24\\09\n"].mapM readLine = some raws ∧
      receive false record ([], []) raws.flatten = .ok ([.init "stop"], b) := by
  have hlines : [("stop", ""), ("data", "$")].mapM (fun a => main a.1 a.2) =
      some [encode "\\23\\24\\04\\00\\00\\00\\73\\74\\6F\\70\\18\n",
        encode "\\23\\24\\06\\00\\00\\00\\64\\61\\74\\61\\3D\\24\\09\n"] := by decide +kernel
  obtain ⟨ps, raws, hps, hraws, -, hlost⟩ := main_received_iff (by decide) hlines
  obtain rfl : [.init "stop", .init "data" [0x24]] = ps := by
    refine Option.some.inj (Eq.trans ?_ hps)
    decide +kernel
  obtain ⟨b, hb⟩ := hlost ⟨_, rfl, by decide +kernel⟩
  exact ⟨raws, b, hraws, hb⟩

end Main

end Generator

end WirelessUart
