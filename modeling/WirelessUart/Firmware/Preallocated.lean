import Mathlib.Order.Monotone.Defs
import WirelessUart.Firmware.Packet

/-!
# Copies into preallocated memory

`set_str_on_preallocated`, `set_list_on_preallocated` and `set_bytes_on_preallocated` of `wuart_utils.c`, with a
`size_t` of 32 bits.  Their bounds are computed with arithmetic that wraps: `limit - 1` for a limit of 0, and
`tsize * num` for a product from 2^32 on; and an element size of 0 is divided by.

`setStrOnPreallocated_bounded_iff` and `setListOnPreallocated_bounded_iff` tell for which arguments the copies keep to
their limit and are complete.
-/

namespace WirelessUart.Firmware

open ByteLib

/-! ### The functions -/

/-- A string of C in an address space of 32 bits. -/
structure Str where
  chars : Bytes
  noNul : 0 ∉ chars
  length_lt : chars.length < 2 ^ 32

/-- The source that stands for `NULL`. -/
def Str.ofNull : Str := ⟨strNull, by decide, by decide⟩

/-- `strlen(src)` as a `size_t` -/
def Str.len (src : Str) : UInt32 := UInt32.ofNat src.chars.length

/-- `set_str_on_preallocated`; `none` is the pointer `NULL`. -/
def setStrOnPreallocated (dest : Option (Buffer UInt8)) (limit : UInt32) (src : Option Str) :
    Bool × Option (Buffer UInt8) :=
  match dest with
  | none => (false, none)
  | some dest =>
    let src := src.getD .ofNull
    let len := src.len
    let max := if len > limit - 1 then limit - 1 else len
    (true, some ((strncpy dest src.chars max.toNat).store max.toNat 0))

/-- `set_list_on_preallocated`; the result `none` is the division by zero.  The source is the memory from `src` on. -/
def setListOnPreallocated (tsize : UInt32) (dest : Option (Buffer UInt8)) (limit : UInt32)
    (src : Option (Nat → UInt8)) (num : UInt32) : Option (Bool × Option (Buffer UInt8)) :=
  match dest with
  | none => some (false, none)
  | some dest =>
    match src with
    | none => some (true, some dest)
    | some src =>
      if num = 0 then some (true, some dest)
      else
        let max := if tsize * num > limit then limit else tsize * num
        if tsize = 0 then none
        else
          let realNum := max / tsize
          if realNum = 0 then some (false, some dest)
          else some (true, some (memcpy dest src (tsize * realNum).toNat))

/-- `set_bytes_on_preallocated` -/
def setBytesOnPreallocated (dest : Option (Buffer UInt8)) (limit : UInt32) (src : Option (Nat → UInt8))
    (num : UInt32) : Option (Bool × Option (Buffer UInt8)) :=
  setListOnPreallocated 1 dest limit src num

/-! ### What the callers are promised -/

/-- A destination of `limit` bytes. -/
def HasLimit (limit : UInt32) (dest : Option (Buffer UInt8)) : Prop :=
  ∀ b ∈ dest, b.size = limit.toNat ∧ b.overrun = false

/-- At most `limit` bytes are stored, and where the result is true they are a prefix of the source with its NUL. -/
def StrBounded (limit : UInt32) (src : Option Str) : Prop :=
  ∀ dest, HasLimit limit dest →
    (∀ b ∈ (setStrOnPreallocated dest limit src).2, b.overrun = false) ∧
      ((setStrOnPreallocated dest limit src).1 = true →
        ∃ b ∈ (setStrOnPreallocated dest limit src).2,
          0 ∈ b.cells ∧ frontString b <+: (src.getD .ofNull).chars)

/-- Nothing is divided by zero, at most `limit` bytes are stored, and where the result is true for a source that is not
empty, `min(num, limit / tsize)` elements have been copied and the bytes behind them left alone. -/
def ListBounded (tsize limit : UInt32) (src : Option (Nat → UInt8)) (num : UInt32) : Prop :=
  ∀ dest, HasLimit limit dest → ∃ res, setListOnPreallocated tsize dest limit src num = some res ∧
    (∀ b ∈ res.2, b.overrun = false) ∧
      ∀ bytes ∈ src, num ≠ 0 → res.1 = true → ∃ b ∈ dest, ∃ b' ∈ res.2,
        b'.cells = (List.range (tsize.toNat * min num.toNat (limit.toNat / tsize.toNat))).map bytes ++
          b.cells.drop (tsize.toNat * min num.toNat (limit.toNat / tsize.toNat))

/-! ### Strings -/

theorem Str.toNat_len (src : Str) : src.len.toNat = src.chars.length := UInt32.toNat_ofNat_of_lt' src.length_lt

private theorem toNat_pos {a : UInt32} (h : a ≠ 0) : 0 < a.toNat := by
  rw [Nat.pos_iff_ne_zero, ne_eq, ← UInt32.toNat_zero, UInt32.toNat_inj]
  exact h

/-- The number of characters copied is at most that of the source. -/
private theorem strMax_le (limit : UInt32) (src : Str) :
    (if src.len > limit - 1 then limit - 1 else src.len).toNat ≤ src.chars.length := by
  rw [← src.toNat_len]
  split
  · rename_i h
    exact Nat.le_of_lt (UInt32.lt_iff_toNat_lt.1 h)
  · exact Nat.le_refl _

/-- There is room for the NUL, unless the limit is 0 and `limit - 1` wraps. -/
private theorem strMax_lt {limit : UInt32} (h : limit ≠ 0) (src : Str) :
    (if src.len > limit - 1 then limit - 1 else src.len).toNat < limit.toNat := by
  have hpos := toNat_pos h
  have hsub : (limit - 1).toNat = limit.toNat - 1 :=
    UInt32.toNat_sub_of_le _ _ (UInt32.le_iff_toNat_le.2 hpos)
  split
  · omega
  · rename_i hle
    rw [gt_iff_lt, UInt32.lt_iff_toNat_lt] at hle
    omega

/-- The copy of a string is bounded for every limit but 0. -/
theorem setStrOnPreallocated_bounded_iff (limit : UInt32) (src : Option Str) :
    StrBounded limit src ↔ limit ≠ 0 := by
  constructor
  · rintro h rfl
    -- there is no byte for the NUL
    have hdest : HasLimit 0 (some { cells := [] }) := by
      intro b hb
      cases hb
      exact ⟨rfl, rfl⟩
    have hin := (h _ hdest).1 _ rfl
    rw [overrun_strncpy_store rfl (strMax_le 0 (src.getD .ofNull))] at hin
    simp [Buffer.size] at hin
  · intro h dest hdest
    cases dest with
    | none => exact ⟨by simp [setStrOnPreallocated], by simp [setStrOnPreallocated]⟩
    | some dest =>
      obtain ⟨hsize, hin⟩ := hdest dest rfl
      have hle := strMax_le limit (src.getD .ofNull)
      have hlt := strMax_lt h (src.getD .ofNull)
      rw [← hsize] at hlt
      obtain ⟨hnul, hstr⟩ := frontString_strncpy (b := dest) (src.getD .ofNull).noNul hle hlt
      constructor
      · intro b hb
        cases hb
        rw [overrun_strncpy_store hin hle, decide_eq_false_iff_not]
        exact Nat.not_le_of_lt hlt
      · intro _
        refine ⟨_, rfl, hnul, ?_⟩
        rw [hstr]
        exact List.take_prefix _ _

/-! ### Lists -/

/-- For which arguments the copy of a list is bounded and complete: there is nothing to copy; or an element has a size,
and the size of the list fits in 32 bits, or wraps to less than an element or to as many elements as the limit has. -/
def ListArguments (tsize limit : UInt32) (src : Option (Nat → UInt8)) (num : UInt32) : Prop :=
  src = none ∨ num = 0 ∨ tsize ≠ 0 ∧
    (tsize.toNat * num.toNat < 2 ^ 32 ∨ (tsize * num).toNat < tsize.toNat ∨
      limit.toNat / tsize.toNat ≤ (tsize * num).toNat / tsize.toNat)

/-- The number of elements that is computed, in terms of the wrapped size `w` of the list. -/
private theorem realNum_eq_iff {t n w L : Nat} (ht : 0 < t) (hw : w = t * n % 2 ^ 32) :
    (min w L / t = 0 ∨ min w L / t = min n (L / t)) ↔ t * n < 2 ^ 32 ∨ w < t ∨ L / t ≤ w / t := by
  have hmin : min w L / t = min (w / t) (L / t) :=
    Monotone.map_min fun a b h => Nat.div_le_div_right h
  have hfit : t * n < 2 ^ 32 → w / t = n := by
    intro h
    rw [hw, Nat.mod_eq_of_lt h, Nat.mul_div_cancel_left n ht]
  have hwrap : ¬ t * n < 2 ^ 32 → w / t < n := by
    intro h
    rw [Nat.div_lt_iff_lt_mul ht, Nat.mul_comm, hw]
    exact Nat.lt_of_lt_of_le (Nat.mod_lt _ (by decide)) (Nat.not_lt.1 h)
  have hzero : w / t = 0 ↔ w < t := Nat.div_eq_zero_iff_lt ht
  rw [hmin]
  by_cases hf : t * n < 2 ^ 32
  · have := hfit hf
    omega
  · have := hwrap hf
    omega

section Elements

variable {tsize limit num : UInt32} {dest : Buffer UInt8} {bytes : Nat → UInt8}

/-- The number of elements that is copied. -/
def elements (tsize limit num : UInt32) : Nat := min (tsize * num).toNat limit.toNat / tsize.toNat

theorem mul_elements_le (tsize limit num : UInt32) : tsize.toNat * elements tsize limit num ≤ limit.toNat :=
  (Nat.mul_div_le _ _).trans (Nat.min_le_right _ _)

private theorem toNat_realNum (tsize limit num : UInt32) :
    ((if tsize * num > limit then limit else tsize * num) / tsize).toNat = elements tsize limit num := by
  rw [UInt32.toNat_div, elements]
  congr 1
  split
  · rename_i h
    exact (Nat.min_eq_right (Nat.le_of_lt (UInt32.lt_iff_toNat_lt.1 h))).symm
  · rename_i h
    rw [gt_iff_lt, UInt32.lt_iff_toNat_lt] at h
    exact (Nat.min_eq_left (Nat.not_lt.1 h)).symm

/-- The copy of a list that is not empty, of elements that have a size. -/
theorem setListOnPreallocated_eq (ht : tsize ≠ 0) (hnum : num ≠ 0) :
    setListOnPreallocated tsize (some dest) limit (some bytes) num =
      some (if elements tsize limit num = 0 then (false, some dest)
        else (true, some (memcpy dest bytes (tsize.toNat * elements tsize limit num)))) := by
  have hk := toNat_realNum tsize limit num
  have hzero : (if tsize * num > limit then limit else tsize * num) / tsize = 0 ↔ elements tsize limit num = 0 := by
    rw [← UInt32.toNat_inj, hk, UInt32.toNat_zero]
  have hmul : (tsize * ((if tsize * num > limit then limit else tsize * num) / tsize)).toNat =
      tsize.toNat * elements tsize limit num := by
    rw [UInt32.toNat_mul, hk]
    exact Nat.mod_eq_of_lt (Nat.lt_of_le_of_lt (mul_elements_le tsize limit num) limit.toNat_lt)
  rw [setListOnPreallocated]
  simp only [if_neg ht, if_neg hnum, hzero, hmul]
  split <;> rfl

theorem setListOnPreallocated_of_tsize_zero (hnum : num ≠ 0) :
    setListOnPreallocated 0 (some dest) limit (some bytes) num = none := by
  rw [setListOnPreallocated]
  simp only [if_neg hnum, if_true]

/-- A destination that has none of the bytes of the source at their places. -/
private theorem exists_dest (limit : UInt32) (bytes : Nat → UInt8) :
    ∃ dest : Buffer UInt8, HasLimit limit (some dest) ∧ dest.size = limit.toNat ∧
      ∀ i (h : i < dest.cells.length), dest.cells[i] ≠ bytes i := by
  refine ⟨{ cells := (List.range limit.toNat).map fun i => bytes i + 1 }, ?_, by simp [Buffer.size], ?_⟩
  · intro b hb
    cases hb
    exact ⟨by simp [Buffer.size], rfl⟩
  · intro i h
    simp

/-- With something to copy, the copy is bounded and complete exactly when no element, or as many elements as there
should be, are copied. -/
theorem listBounded_some_iff (ht : tsize ≠ 0) (hnum : num ≠ 0) :
    ListBounded tsize limit (some bytes) num ↔
      elements tsize limit num = 0 ∨ elements tsize limit num = min num.toNat (limit.toNat / tsize.toNat) := by
  have hshould : tsize.toNat * min num.toNat (limit.toNat / tsize.toNat) ≤ limit.toNat :=
    (Nat.mul_le_mul_left _ (Nat.min_le_right _ _)).trans (Nat.mul_div_le _ _)
  have hdoes := mul_elements_le tsize limit num
  constructor
  · intro h
    by_cases hk : elements tsize limit num = 0
    · exact .inl hk
    · right
      obtain ⟨dest, hdest, hsize, hne⟩ := exists_dest limit bytes
      obtain ⟨res, hres, -, hcopied⟩ := h _ hdest
      rw [setListOnPreallocated_eq ht hnum, if_neg hk] at hres
      cases hres
      obtain ⟨b, hb, b', hb', hcells⟩ := hcopied bytes rfl hnum rfl
      cases hb
      cases hb'
      have hshould' := hshould.trans (Nat.le_of_eq hsize.symm)
      have hdoes' := hdoes.trans (Nat.le_of_eq hsize.symm)
      rw [← cells_memcpy bytes hshould'] at hcells
      exact Nat.eq_of_mul_eq_mul_left (toNat_pos ht) (memcpy_length_unique hne hdoes' hshould' hcells)
  · intro h dest hdest
    cases dest with
    | none => exact ⟨_, rfl, by simp, by simp⟩
    | some dest =>
      obtain ⟨hsize, hin⟩ := hdest dest rfl
      rw [← hsize] at hdoes
      rw [setListOnPreallocated_eq ht hnum]
      by_cases hk : elements tsize limit num = 0
      · rw [if_pos hk]
        refine ⟨_, rfl, ?_, by simp⟩
        intro b hb
        cases hb
        exact hin
      · have heq := h.resolve_left hk
        rw [if_neg hk]
        refine ⟨_, rfl, ?_, ?_⟩
        · intro b hb
          cases hb
          exact overrun_memcpy hin bytes hdoes
        · intro bytes' hbytes _ _
          cases hbytes
          refine ⟨dest, rfl, _, rfl, ?_⟩
          rw [← heq]
          exact cells_memcpy bytes hdoes

end Elements

/-- The copy of a list is bounded and complete exactly for those arguments. -/
theorem setListOnPreallocated_bounded_iff (tsize limit : UInt32) (src : Option (Nat → UInt8)) (num : UInt32) :
    ListBounded tsize limit src num ↔ ListArguments tsize limit src num := by
  -- without anything to copy the destination is left alone
  have hnothing (h : src = none ∨ num = 0) : ListBounded tsize limit src num := by
    intro dest hdest
    have hres : ∃ r, setListOnPreallocated tsize dest limit src num = some (r, dest) := by
      rcases h with rfl | rfl
      · cases dest <;> exact ⟨_, rfl⟩
      · cases dest <;> cases src <;> exact ⟨_, rfl⟩
    obtain ⟨r, hres⟩ := hres
    refine ⟨_, hres, fun b hb => (hdest b hb).2, ?_⟩
    intro bytes hbytes hnum
    rcases h with rfl | rfl
    · cases hbytes
    · exact absurd rfl hnum
  by_cases hnum : num = 0
  · exact iff_of_true (hnothing (.inr hnum)) (.inr (.inl hnum))
  · cases src with
    | none => exact iff_of_true (hnothing (.inl rfl)) (.inl rfl)
    | some bytes =>
      by_cases ht : tsize = 0
      · subst ht
        apply iff_of_false
        · intro h
          obtain ⟨dest, hdest, -⟩ := exists_dest limit bytes
          obtain ⟨res, hres, -⟩ := h _ hdest
          rw [setListOnPreallocated_of_tsize_zero hnum] at hres
          cases hres
        · simp [ListArguments, hnum]
      · rw [listBounded_some_iff ht hnum, elements, realNum_eq_iff (toNat_pos ht) (UInt32.toNat_mul _ _)]
        simp [ListArguments, hnum, ht]

/-- Copies of bytes are bounded and complete for all arguments. -/
theorem setBytesOnPreallocated_bounded {limit : UInt32} {dest : Option (Buffer UInt8)} (hdest : HasLimit limit dest)
    (src : Option (Nat → UInt8)) (num : UInt32) :
    ∃ res, setBytesOnPreallocated dest limit src num = some res ∧ (∀ b ∈ res.2, b.overrun = false) ∧
      ∀ bytes ∈ src, num ≠ 0 → res.1 = true → ∃ b ∈ dest, ∃ b' ∈ res.2,
        b'.cells = (List.range (min num.toNat limit.toNat)).map bytes ++
          b.cells.drop (min num.toNat limit.toNat) := by
  have hargs : ListArguments 1 limit src num := by
    refine .inr (.inr ⟨by decide, .inl ?_⟩)
    rw [UInt32.toNat_one, Nat.one_mul]
    exact num.toNat_lt
  have h := (setListOnPreallocated_bounded_iff 1 limit src num).2 hargs dest hdest
  unfold setBytesOnPreallocated
  simpa only [UInt32.toNat_one, Nat.div_one, Nat.one_mul] using h

/-- The copies keep to their limit, and are complete where they say so, exactly when the limit of a string is not 0 and
the arguments of a list neither divide by zero nor wrap to fewer elements than the limit has room for. -/
theorem onPreallocated_bounded_iff (tsize limit : UInt32) (str : Option Str) (src : Option (Nat → UInt8))
    (num : UInt32) :
    (StrBounded limit str ↔ limit ≠ 0) ∧
      (ListBounded tsize limit src num ↔ ListArguments tsize limit src num) :=
  ⟨setStrOnPreallocated_bounded_iff limit str, setListOnPreallocated_bounded_iff tsize limit src num⟩

/-- A limit of 0; an element size of 0; and 1431655767 elements of 3 bytes, of which the product wraps to 5: where the
limit has room for two elements, one is copied. -/
theorem not_onPreallocated_bounded :
    ¬ StrBounded 0 none ∧ ¬ ListBounded 0 8 (some fun _ => 0x41) 1 ∧
      ¬ ListBounded 3 6 (some fun _ => 0x41) 1431655767 := by
  rw [setStrOnPreallocated_bounded_iff, setListOnPreallocated_bounded_iff, setListOnPreallocated_bounded_iff]
  refine ⟨by decide, ?_, ?_⟩ <;>
    · unfold ListArguments
      simp only [reduceCtorEq, false_or]
      decide

end WirelessUart.Firmware
