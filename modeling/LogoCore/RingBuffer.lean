import Mathlib.Data.List.Range
import Mathlib.Data.Nat.ModEq
import Mathlib.Logic.Function.Basic

namespace LogoCore

structure RingBuffer (α : Type*) where
  cells : ℕ → α
  front : ℕ
  rear : ℕ
  count : ℕ

namespace RingBuffer

variable {α : Type*} (cap : ℕ)

def wrap (i : ℕ) : ℕ := if i = cap then 0 else i

def push (r : RingBuffer α) (a : α) : RingBuffer α :=
  { r with cells := Function.update r.cells r.rear a, rear := wrap cap (r.rear + 1), count := r.count + 1 }

def pop (r : RingBuffer α) : RingBuffer α := { r with front := wrap cap (r.front + 1), count := r.count - 1 }

def toList (r : RingBuffer α) : List α := (List.range r.count).map fun i => r.cells ((r.front + i) % cap)

structure Valid (r : RingBuffer α) : Prop where
  front : r.front < cap
  rear : r.rear = (r.front + r.count) % cap
  count : r.count ≤ cap

variable {cap} {r : RingBuffer α}

theorem length_toList : (r.toList cap).length = r.count := by simp [toList]

theorem wrap_succ {i : ℕ} (h : i < cap) : wrap cap (i + 1) = (i + 1) % cap := by
  unfold wrap
  split_ifs with heq
  · simp [heq]
  · exact (Nat.mod_eq_of_lt (by omega)).symm

theorem Valid.push (h : r.Valid cap) (hc : r.count < cap) (a : α) :
    (r.push cap a).Valid cap ∧ (r.push cap a).toList cap = r.toList cap ++ [a] := by
  have hrear : r.rear < cap := h.rear ▸ Nat.mod_lt _ (by omega)
  have hnext : wrap cap (r.rear + 1) = (r.front + (r.count + 1)) % cap := by
    rw [wrap_succ hrear, h.rear, Nat.mod_add_mod, Nat.add_assoc]
  refine ⟨⟨h.front, hnext, hc⟩, ?_⟩
  have hold : ∀ i ∈ List.range r.count, (r.push cap a).cells ((r.front + i) % cap) = r.cells ((r.front + i) % cap) := by
    intro i hi
    have hi := List.mem_range.mp hi
    have hne : (r.front + i) % cap ≠ r.rear := by
      rw [h.rear]
      intro heq
      have hmod : Nat.ModEq cap (r.front + i) (r.front + r.count) := heq
      have := Nat.ModEq.add_left_cancel' r.front hmod
      rw [Nat.ModEq, Nat.mod_eq_of_lt (by omega), Nat.mod_eq_of_lt hc] at this
      omega
    simp [RingBuffer.push, hne]
  have hlast : (r.push cap a).cells ((r.front + r.count) % cap) = a := by
    rw [← h.rear]
    simp [RingBuffer.push]
  change (List.range (r.count + 1)).map (fun i => (r.push cap a).cells ((r.front + i) % cap)) = _
  rw [List.range_succ, List.map_append, List.map_congr_left hold, List.map_singleton, hlast]
  rfl

theorem Valid.pop (h : r.Valid cap) (hc : 0 < r.count) :
    (r.pop cap).Valid cap ∧ r.toList cap = r.cells r.front :: (r.pop cap).toList cap := by
  have hcount := h.count
  have hfront : wrap cap (r.front + 1) = (r.front + 1) % cap := wrap_succ h.front
  obtain ⟨n, hn⟩ := Nat.exists_eq_succ_of_ne_zero hc.ne'
  refine ⟨⟨?_, ?_, ?_⟩, ?_⟩
  · change wrap cap (r.front + 1) < cap
    rw [hfront]
    exact Nat.mod_lt _ (by have := h.front; omega)
  · change r.rear = (wrap cap (r.front + 1) + (r.count - 1)) % cap
    rw [hfront, h.rear, Nat.mod_add_mod, Nat.add_assoc, Nat.add_sub_cancel' hc]
  · change r.count - 1 ≤ cap
    omega
  · have hrest : (r.pop cap).toList cap = (List.range n).map fun i => r.cells ((r.front + (i + 1)) % cap) := by
      change (List.range (r.count - 1)).map (fun i => r.cells ((wrap cap (r.front + 1) + i) % cap)) = _
      rw [hn, Nat.succ_sub_one]
      refine List.map_congr_left fun i _ => ?_
      rw [hfront, Nat.mod_add_mod, Nat.add_assoc, Nat.add_comm 1 i]
    rw [hrest, toList, hn, List.range_succ_eq_map, List.map_cons, List.map_map, Nat.add_zero, Nat.mod_eq_of_lt h.front]
    rfl

theorem Valid.front_push (h : r.Valid cap) (h0 : 0 < r.count) (hc : r.count < cap) (a : α) :
    (r.push cap a).cells r.front = r.cells r.front := by
  obtain ⟨rest, hrest⟩ : ∃ rest, r.toList cap = r.cells r.front :: rest := ⟨_, (h.pop h0).2⟩
  obtain ⟨hvalid, hpush⟩ := h.push hc a
  have hpop := (hvalid.pop (Nat.succ_pos _)).2
  rw [hpush, hrest, List.cons_append] at hpop
  exact (List.cons.inj hpop).1.symm

end RingBuffer

end LogoCore
