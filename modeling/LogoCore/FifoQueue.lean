import Mathlib.Data.List.Basic
import Mathlib.Data.List.TakeDrop

namespace LogoCore

structure Fifo (α : Type*) where
  popped : List α
  queue : List α

namespace Fifo

variable {α : Type*} (f : Fifo α)

def items : List α := f.popped ++ f.queue

def push (xs : List α) : Fifo α := ⟨f.popped, f.queue ++ xs⟩

def advance (n : ℕ) : Fifo α := ⟨f.popped ++ f.queue.take n, f.queue.drop n⟩

@[simp] theorem items_push (xs : List α) : (f.push xs).items = f.items ++ xs := by
  simp [items, push]

@[simp] theorem items_advance (n : ℕ) : (f.advance n).items = f.items := by
  simp [items, advance]

theorem popped_eq_take : f.popped = f.items.take f.popped.length := by simp [items]

end Fifo

section TagLast

variable {α β : Type*}

def tagLast (a : β) (l : List α) : List (α × Option β) :=
  l.mapIdx fun i x => (x, if i + 1 = l.length then some a else none)

@[simp] theorem length_tagLast (a : β) (l : List α) : (tagLast a l).length = l.length := by
  simp [tagLast]

theorem map_fst_tagLast (a : β) (l : List α) : (tagLast a l).map Prod.fst = l := by
  apply List.ext_getElem <;> simp [tagLast]

theorem filterMap_snd_tagLast (a : β) {l : List α} (h : l ≠ []) : (tagLast a l).filterMap Prod.snd = [a] := by
  obtain ⟨init, x, rfl⟩ := (List.eq_nil_or_concat l).resolve_left h
  have hinit : (init.mapIdx fun i y => (y, if i + 1 = (init ++ [x]).length then some a else none)).filterMap
      Prod.snd = [] := by
    rw [List.filterMap_eq_nil_iff]
    intro y hy
    obtain ⟨i, hi, rfl⟩ := List.mem_mapIdx.mp hy
    simp [Nat.ne_of_lt hi]
  simp only [List.concat_eq_append] at *
  rw [tagLast, List.mapIdx_append, List.filterMap_append, hinit]
  simp

theorem filterMap_snd_take_tagLast (a : β) {l : List α} {k : ℕ} (h : k < l.length) :
    ((tagLast a l).take k).filterMap Prod.snd = [] := by
  rw [List.filterMap_eq_nil_iff]
  intro x hx
  obtain ⟨i, hi, rfl⟩ := List.mem_take_iff_getElem.mp hx
  simp only [tagLast, List.getElem_mapIdx, ite_eq_right_iff, reduceCtorEq]
  omega

theorem drop_tagLast {a : β} {l : List α} {k : ℕ} (h : k < l.length) :
    (tagLast a l).drop k =
      (l[k], if k + 1 = l.length then some a else none) :: (tagLast a l).drop (k + 1) := by
  rw [List.drop_eq_getElem_cons (by simpa using h)]
  simp [tagLast]

end TagLast

end LogoCore
