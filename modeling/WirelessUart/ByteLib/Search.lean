import Mathlib.Data.List.Infix
import Mathlib.Data.List.DropRight

/-!
# Searching in lists

`find pat l` is the position of the first occurrence of `pat` in `l`, and `firstSuffix p l` the first suffix of
`l` that satisfies `p`, where the suffixes are taken from the longest to the shortest.  A prefix none of whose
positions is accepted can be dropped from a search (`firstSuffix_append`).  `trim p l` removes the elements that
satisfy `p` from both ends.
-/

namespace ByteLib

section Find

variable {α : Type*} [DecidableEq α]

/-- The position of the first occurrence of `pat`. -/
def find (pat : List α) : List α → Option Nat
  | [] => if pat = [] then some 0 else none
  | x :: xs => if pat <+: x :: xs then some 0 else (find pat xs).map (· + 1)

theorem find_eq_none {pat l : List α} : find pat l = none ↔ ¬ pat <:+: l := by
  induction l with
  | nil => simp [find]
  | cons x xs ih =>
    rw [List.infix_cons_iff, find]
    by_cases h : pat <+: x :: xs <;> simp [h, ih]

theorem find_isSome {pat l : List α} : (find pat l).isSome ↔ pat <:+: l := by
  rw [Option.isSome_iff_ne_none, ne_eq, find_eq_none, not_not]

theorem find_eq_zero {pat l : List α} : find pat l = some 0 ↔ pat <+: l := by
  cases l with
  | nil => simp [find]
  | cons x xs => by_cases h : pat <+: x :: xs <;> simp [find, h]

theorem find_cons {pat : List α} {x : α} {xs : List α} (h : ¬ pat <+: x :: xs) :
    find pat (x :: xs) = (find pat xs).map (· + 1) := by
  rw [find, if_neg h]

theorem find_lt_length {pat l : List α} (hpat : pat ≠ []) {i : Nat} (h : find pat l = some i) :
    i < l.length := by
  induction l generalizing i with
  | nil => simp [find, hpat] at h
  | cons x xs ih =>
    by_cases hp : pat <+: x :: xs
    · simp [find, hp] at h
      simp [← h]
    · rw [find_cons hp, Option.map_eq_some_iff] at h
      obtain ⟨j, hj, rfl⟩ := h
      simpa using ih hj

/-- What lies in front of the first occurrence. -/
theorem find_eq_some {pat l : List α} {i : Nat} (h : find pat l = some i) :
    pat <+: l.drop i ∧ ∀ t, t <:+ l.take i → t ≠ [] → ¬ pat <+: t ++ l.drop i := by
  induction l generalizing i with
  | nil =>
    by_cases hpat : pat = []
    · exact ⟨by simp [hpat], fun t ht hne => absurd (List.suffix_nil.1 (by simpa using ht)) hne⟩
    · simp [find, hpat] at h
  | cons x xs ih =>
    by_cases hp : pat <+: x :: xs
    · rw [find, if_pos hp, Option.some.injEq] at h
      subst h
      exact ⟨hp, fun t ht hne => absurd (List.suffix_nil.1 ht) hne⟩
    · rw [find_cons hp, Option.map_eq_some_iff] at h
      obtain ⟨j, hj, rfl⟩ := h
      obtain ⟨h1, h2⟩ := ih hj
      refine ⟨h1, fun t ht hne => ?_⟩
      rw [List.take_succ_cons] at ht
      rw [List.drop_succ_cons]
      rcases List.suffix_cons_iff.1 ht with rfl | ht
      · rwa [List.cons_append, List.take_append_drop]
      · exact h2 t ht hne

/-- A one-element pattern is found at the end of the longest prefix that avoids it. -/
theorem find_singleton_append {a : α} {g : List α} (hg : a ∉ g) (s : List α) :
    find [a] (g ++ a :: s) = some g.length := by
  induction g with
  | nil => simp [find]
  | cons x xs ih =>
    rw [List.mem_cons, not_or] at hg
    rw [List.cons_append, find_cons (by simpa using hg.1), ih hg.2]
    rfl

/-- In front of the first occurrence of an element there is none. -/
theorem not_mem_take_of_find {a : α} {l : List α} {i : Nat} (h : find [a] l = some i) : a ∉ l.take i := by
  intro hmem
  obtain ⟨g, t, hgt⟩ := List.append_of_mem hmem
  refine (find_eq_some h).2 (a :: t) ⟨g, hgt.symm⟩ (List.cons_ne_nil _ _) ?_
  simp

end Find

section FirstSuffix

variable {α : Type*} (p : List α → Prop) [DecidablePred p]

/-- The first suffix of `l`, from the longest to the shortest, that satisfies `p`. -/
def firstSuffix (l : List α) : Option (List α) := l.tails.find? (p ·)

theorem firstSuffix_cons (x : α) (xs : List α) :
    firstSuffix p (x :: xs) = if p (x :: xs) then some (x :: xs) else firstSuffix p xs := by
  by_cases h : p (x :: xs) <;> simp [firstSuffix, h]

variable {p}

theorem firstSuffix_of_pos {l : List α} (h : p l) : firstSuffix p l = some l := by
  cases l with
  | nil => simp [firstSuffix, h]
  | cons x xs => rw [firstSuffix_cons, if_pos h]

theorem firstSuffix_eq_none {l : List α} : firstSuffix p l = none ↔ ∀ s, s <:+ l → ¬ p s := by
  simp [firstSuffix, List.find?_eq_none]

theorem firstSuffix_pos {l s : List α} (h : firstSuffix p l = some s) : p s := by
  simpa using List.find?_some h

theorem firstSuffix_suffix {l s : List α} (h : firstSuffix p l = some s) : s <:+ l := by
  simpa using List.mem_of_find?_eq_some h

/-- A prefix `g` in which no position is accepted does not matter for the search. -/
theorem firstSuffix_append {g l : List α} (h : ∀ s, s <:+ g → s ≠ [] → ¬ p (s ++ l)) :
    firstSuffix p (g ++ l) = firstSuffix p l := by
  induction g with
  | nil => rfl
  | cons x xs ih =>
    have hx : ¬ p (x :: (xs ++ l)) := h (x :: xs) (List.suffix_refl _) (List.cons_ne_nil _ _)
    rw [List.cons_append, firstSuffix_cons, if_neg hx]
    exact ih fun s hs => h s (hs.trans (List.suffix_cons x xs))

/-- What lies in front of the first accepted suffix. -/
theorem firstSuffix_eq_some {l s : List α} :
    firstSuffix p l = some s ↔ p s ∧ ∃ g, l = g ++ s ∧ ∀ t, t <:+ g → t ≠ [] → ¬ p (t ++ s) := by
  constructor
  · intro h
    refine ⟨firstSuffix_pos h, ?_⟩
    induction l with
    | nil =>
      obtain rfl := List.suffix_nil.1 (firstSuffix_suffix h)
      exact ⟨[], rfl, fun t ht hne => absurd (List.suffix_nil.1 ht) hne⟩
    | cons x xs ih =>
      rw [firstSuffix_cons] at h
      by_cases hp : p (x :: xs)
      · rw [if_pos hp, Option.some.injEq] at h
        exact ⟨[], h, fun t ht hne => absurd (List.suffix_nil.1 ht) hne⟩
      · rw [if_neg hp] at h
        obtain ⟨g, rfl, hg⟩ := ih h
        refine ⟨x :: g, rfl, fun t ht hne => ?_⟩
        rcases List.suffix_cons_iff.1 ht with rfl | ht
        · exact hp
        · exact hg t ht hne
  · rintro ⟨hs, g, rfl, hg⟩
    rw [firstSuffix_append hg, firstSuffix_of_pos hs]

/-- The first accepted suffix by its position. -/
theorem firstSuffix_eq_some_drop {l s : List α} :
    firstSuffix p l = some s ↔ ∃ i, i ≤ l.length ∧ s = l.drop i ∧ p s ∧ ∀ j < i, ¬ p (l.drop j) := by
  rw [firstSuffix_eq_some]
  constructor
  · intro h
    obtain ⟨hs, g, rfl, hg⟩ := h
    refine ⟨g.length, by simp, by simp, hs, ?_⟩
    intro j hj
    rw [List.drop_append_of_le_length hj.le]
    exact hg (g.drop j) (List.drop_suffix j g) (by simpa using hj)
  · intro h
    obtain ⟨i, hi, rfl, hs, hlt⟩ := h
    refine ⟨hs, l.take i, (List.take_append_drop i l).symm, ?_⟩
    rintro t ⟨g, hg⟩ hne
    have hlen : g.length + t.length = i := by
      rw [← List.length_append, hg, List.length_take, min_eq_left hi]
    have hdrop : l.drop g.length = t ++ l.drop i := by
      conv => lhs; rw [← List.take_append_drop i l, ← hg, List.append_assoc]
      exact List.drop_left
    rw [← hdrop]
    have := List.length_pos_iff.2 hne
    exact hlt g.length (by omega)

end FirstSuffix

section Trim

variable {α : Type*} (p : α → Bool)

/-- Remove the elements satisfying `p` from both ends. -/
def trim (l : List α) : List α := (l.dropWhile p).rdropWhile p

variable {p}

theorem trim_isInfix (l : List α) : trim p l <:+: l :=
  List.IsInfix.trans (List.rdropWhile_prefix p _).isInfix (l.dropWhile_suffix p).isInfix

/-- Nothing is removed exactly when neither end satisfies `p`. -/
theorem trim_eq_self {l : List α} :
    trim p l = l ↔ (∀ x ∈ l.head?, ¬ p x) ∧ ∀ x ∈ l.getLast?, ¬ p x := by
  have hd : l.dropWhile p = l ↔ ∀ x ∈ l.head?, ¬ p x := by
    cases l with
    | nil => simp
    | cons x xs =>
      by_cases hx : p x
      · simp only [List.dropWhile_cons, hx, ↓reduceIte, List.head?_cons, Option.mem_def, Option.some.injEq,
          forall_eq', not_true_eq_false, iff_false]
        intro h
        have := congrArg List.length h
        have := (xs.dropWhile_suffix p).length_le
        simp only [List.length_cons] at *
        omega
      · simp [hx]
  have hr : l.rdropWhile p = l ↔ ∀ x ∈ l.getLast?, ¬ p x := by
    rw [List.rdropWhile_eq_self_iff]
    constructor
    · intro h x hx
      obtain ⟨hne, rfl⟩ := List.mem_getLast?_eq_getLast hx
      exact h hne
    · exact fun h hne => h _ (List.getLast_mem_getLast? hne)
  constructor
  · intro h
    have h1 : l.dropWhile p = l := by
      apply (l.dropWhile_suffix p).eq_of_length_le
      have := List.IsPrefix.length_le ( List.rdropWhile_prefix p (l.dropWhile p))
      rw [← trim, h] at this
      exact this
    refine ⟨hd.1 h1, hr.1 ?_⟩
    rwa [trim, h1] at h
  · rintro ⟨h1, h2⟩
    rw [trim, hd.2 h1, hr.2 h2]

/-- A beginning whose ends do not satisfy `p` stays. -/
theorem prefix_trim {a : List α} (hne : a ≠ []) (hhead : ∀ x ∈ a.head?, ¬ p x) (hlast : ∀ x ∈ a.getLast?, ¬ p x)
    (l : List α) : a <+: trim p (a ++ l) := by
  have hd : (a ++ l).dropWhile p = a ++ l := by
    obtain ⟨x, a, rfl⟩ := List.exists_cons_of_ne_nil hne
    have hx : ¬ p x := hhead x rfl
    rw [List.cons_append, List.dropWhile_cons, if_neg hx]
  rw [trim, hd]
  clear hd
  induction l using List.reverseRecOn with
  | nil =>
    have ha : a.rdropWhile p = a :=
      List.rdropWhile_eq_self_iff.2 fun h => hlast _ (List.getLast_mem_getLast? h)
    rw [List.append_nil, ha]
  | append_singleton l x ih =>
    rw [← List.append_assoc, List.rdropWhile_concat]
    split
    · exact ih
    · rw [List.append_assoc]
      exact List.prefix_append _ _

/-- When the first element stays, only the end is trimmed. -/
theorem trim_prefix {l : List α} (hhead : ∀ x ∈ l.head?, ¬ p x) : trim p l <+: l := by
  have hd : l.dropWhile p = l := by
    cases l with
    | nil => rfl
    | cons x l => rw [List.dropWhile_cons, if_neg (hhead x rfl)]
  rw [trim, hd]
  exact List.rdropWhile_prefix p l

/-- Trimming removes only elements that satisfy `p`. -/
theorem filter_not_trim (l : List α) : (trim p l).filter (!p ·) = l.filter (!p ·) := by
  have hd (l : List α) : (l.dropWhile p).filter (!p ·) = l.filter (!p ·) := by
    have h0 : (l.takeWhile p).filter (!p ·) = [] :=
      List.filter_eq_nil_iff.2 fun x hx => by simp [List.mem_takeWhile_imp hx]
    conv => rhs; rw [← List.takeWhile_append_dropWhile (p := p) (l := l), List.filter_append, h0]
    rfl
  have hr (l : List α) : (l.rdropWhile p).filter (!p ·) = l.filter (!p ·) := by
    have h0 : (l.rtakeWhile p).filter (!p ·) = [] :=
      List.filter_eq_nil_iff.2 fun x hx => by simp [List.mem_rtakeWhile_imp hx]
    conv => rhs; rw [← List.rdropWhile_append_rtakeWhile (p := p) (l := l), List.filter_append, h0]
    exact (List.append_nil _).symm
  rw [trim, hr, hd]

/-- A list that keeps its length is not changed by trimming. -/
theorem trim_eq_self_of_length {l : List α} (h : l.length ≤ (trim p l).length) : trim p l = l :=
  (trim_isInfix l).eq_of_length_le h

/-! Lists whose members are trimmed one by one. -/

theorem filter_not_flatten_trim (ls : List (List α)) :
    (ls.map (trim p)).flatten.filter (!p ·) = ls.flatten.filter (!p ·) := by
  induction ls with
  | nil => rfl
  | cons l ls ih => simp only [List.map_cons, List.flatten_cons, List.filter_append, filter_not_trim, ih]

theorem length_flatten_trim_le (ls : List (List α)) : (ls.map (trim p)).flatten.length ≤ ls.flatten.length := by
  induction ls with
  | nil => exact Nat.le_refl _
  | cons l ls ih =>
    have := (trim_isInfix (p := p) l).length_le
    simp only [List.map_cons, List.flatten_cons, List.length_append]
    omega

theorem trim_eq_self_of_length_flatten {ls : List (List α)}
    (h : ls.flatten.length ≤ (ls.map (trim p)).flatten.length) : ∀ l ∈ ls, trim p l = l := by
  induction ls with
  | nil => simp
  | cons l ls ih =>
    have h1 := (trim_isInfix (p := p) l).length_le
    have h2 := length_flatten_trim_le (p := p) ls
    simp only [List.map_cons, List.flatten_cons, List.length_append] at h
    intro m hm
    rcases List.mem_cons.1 hm with rfl | hm
    · exact trim_eq_self_of_length (by omega)
    · exact ih (by omega) m hm

/-- If as many elements satisfy `p` after trimming, nothing was removed. -/
theorem trim_eq_self_of_countP {ls : List (List α)}
    (h : ls.flatten.countP p ≤ (ls.map (trim p)).flatten.countP p) : ∀ l ∈ ls, trim p l = l := by
  apply trim_eq_self_of_length_flatten
  have hnot := congrArg List.length (filter_not_flatten_trim (p := p) ls)
  have hl := ls.flatten.length_eq_countP_add_countP (p := p)
  have hr := (ls.map (trim p)).flatten.length_eq_countP_add_countP (p := p)
  simp only [← List.countP_eq_length_filter, decide_not, Bool.decide_eq_true] at hnot hl hr
  omega

end Trim

end ByteLib
