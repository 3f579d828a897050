import Mathlib.Data.List.Basic

/-!
# Checksums by an associative and commutative operation

A checksum that combines the symbols of a list with an associative and commutative operation combines symbol by symbol
as well (`foldl_zipWith`), and a symbol can be combined last wherever it stands (`foldl_middle`).
-/

namespace ByteLib

variable {α : Type*} (op : α → α → α) [Std.Associative op] [Std.Commutative op]

/-- Combining two lists symbol by symbol combines their checksums. -/
theorem foldl_zipWith {as bs : List α} (h : as.length = bs.length) (x y : α) :
    (List.zipWith op as bs).foldl op (op x y) = op (as.foldl op x) (bs.foldl op y) := by
  induction as generalizing bs x y with
  | nil =>
    have hbs : bs = [] := List.length_eq_zero_iff.1 h.symm
    rw [hbs]
    rfl
  | cons a as ih =>
    cases bs with
    | nil => cases h
    | cons b bs =>
      have hswap : op (op x y) (op a b) = op (op x a) (op y b) := by ac_rfl
      rw [List.zipWith_cons_cons, List.foldl_cons, hswap, List.foldl_cons, List.foldl_cons]
      exact ih (Nat.succ.inj h) (op x a) (op y b)

/-- A symbol in the middle can be combined last. -/
theorem foldl_middle (as bs : List α) (a x : α) : (as ++ a :: bs).foldl op x = op ((as ++ bs).foldl op x) a := by
  induction bs generalizing as a with
  | nil => rw [List.foldl_append, List.append_nil, List.foldl_cons, List.foldl_nil]
  | cons b bs ih =>
    have hb := ih (as ++ [a]) b
    rw [List.append_assoc, List.append_assoc, List.singleton_append, List.singleton_append] at hb
    have hcomm : op (op ((as ++ bs).foldl op x) a) b = op (op ((as ++ bs).foldl op x) b) a := by ac_rfl
    rw [hb, ih as a, ih as b, hcomm]

end ByteLib
