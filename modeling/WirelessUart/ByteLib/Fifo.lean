import Mathlib.Logic.Relation

/-!
# Channels of values

What a channel is for: the values that are pushed into it are delivered in the same order.  A `Lossless` channel does
nothing else, so that what has been delivered, followed by what is in transit, is what was pushed.  A `Lossy` one may
also refuse or drop values: it delivers a subsequence, and never invents, repeats or reorders a value.
-/

namespace ByteLib

open Relation

/-- The values that were pushed, those in transit, and those delivered. -/
structure Fifo (α : Type*) where
  pushed : List α := []
  transit : List α := []
  delivered : List α := []

namespace Fifo

variable {α : Type*} {q q' : Fifo α}

/-- A value is pushed, or the first one in transit is delivered. -/
inductive Lossless : Fifo α → Fifo α → Prop
  | push (q : Fifo α) (a : α) : Lossless q ⟨q.pushed ++ [a], q.transit ++ [a], q.delivered⟩
  | deliver (q : Fifo α) (a : α) (rest : List α) :
      q.transit = a :: rest → Lossless q ⟨q.pushed, rest, q.delivered ++ [a]⟩

/-- A value may also be refused, or dropped in transit. -/
inductive Lossy : Fifo α → Fifo α → Prop
  | keep {q q' : Fifo α} : Lossless q q' → Lossy q q'
  | refuse (q : Fifo α) (a : α) : Lossy q ⟨q.pushed ++ [a], q.transit, q.delivered⟩
  | drop (q : Fifo α) (a : α) (rest : List α) : q.transit = a :: rest → Lossy q ⟨q.pushed, rest, q.delivered⟩

/-- All values are accounted for. -/
def Exact (q : Fifo α) : Prop := q.delivered ++ q.transit = q.pushed

/-- What is delivered and in transit was pushed, in this order. -/
def Ordered (q : Fifo α) : Prop := (q.delivered ++ q.transit).Sublist q.pushed

theorem Exact.lossless (hq : q.Exact) (h : Lossless q q') : q'.Exact := by
  unfold Exact at hq ⊢
  cases h with
  | push a => rw [← hq, List.append_assoc]
  | deliver a rest htransit => rw [← hq, htransit, List.append_assoc, List.singleton_append]

/-- Pushing a value after another keeps an exact channel exact. -/
theorem Exact.pushAll (hq : q.Exact) (as : List α) : Exact ⟨q.pushed ++ as, q.transit ++ as, q.delivered⟩ := by
  induction as generalizing q with
  | nil => simpa only [List.append_nil] using hq
  | cons a as ih =>
    have := ih (hq.lossless (.push q a))
    simpa only [List.append_assoc, List.singleton_append] using this

theorem Ordered.lossy (hq : q.Ordered) (h : Lossy q q') : q'.Ordered := by
  unfold Ordered at hq ⊢
  cases h with
  | keep h =>
    cases h with
    | push a =>
      rw [← List.append_assoc]
      exact hq.append (List.Sublist.refl [a])
    | deliver a rest htransit =>
      rw [htransit] at hq
      rwa [List.append_assoc, List.singleton_append]
  | refuse a => exact hq.trans (List.sublist_append_left _ _)
  | drop a rest htransit =>
    rw [htransit] at hq
    exact ((List.sublist_cons_self a rest).append_left _).trans hq

end Fifo

end ByteLib
