import Mathlib.Data.List.Infix
import Mathlib.Order.Bounds.Basic

namespace LogoCore.TextSearch

variable {α : Type*}

section Occurrences

variable {f t : List α} {i : ℕ}

theorem occurs_le_length (hf : f ≠ []) (h : f <+: t.drop i) : i + f.length ≤ t.length := by
  have hle := h.length_le
  have hpos := List.length_pos_iff.mpr hf
  rw [List.length_drop] at hle
  omega

theorem occurs_eq_append (h : f <+: t.drop i) : t = t.take i ++ (f ++ t.drop (i + f.length)) := by
  obtain ⟨v, hv⟩ := h
  have hdrop : t.drop (i + f.length) = v := by rw [← List.drop_drop, ← hv, List.drop_left]
  rw [hdrop, hv, List.take_append_drop]

theorem singleton_occurs_iff {a : α} : [a] <+: t.drop i ↔ t[i]? = some a := by
  rw [← List.head?_drop]
  cases t.drop i with
  | nil => simp
  | cons b v => simp [List.cons_prefix_cons, eq_comm]

end Occurrences

variable [DecidableEq α]

def find (f : List α) : List α → Option ℕ
  | [] => if f = [] then some 0 else none
  | a :: t => if f <+: a :: t then some 0 else (find f t).map (· + 1)

def findLast (f t : List α) : ℕ → Option ℕ
  | 0 => none
  | k + 1 => if f <+: t.drop k then some k else findLast f t k

section Find

variable {f t : List α} {i : ℕ}

theorem find_eq_some_iff (hf : f ≠ []) : find f t = some i ↔ f <+: t.drop i ∧ ∀ j < i, ¬ f <+: t.drop j := by
  induction t generalizing i with
  | nil => simp [find, hf]
  | cons a t ih =>
    rw [find]
    split
    · rename_i hhead
      constructor
      · rintro h
        obtain rfl := Option.some.inj h
        exact ⟨hhead, fun j hj => absurd hj (Nat.not_lt_zero j)⟩
      · rintro ⟨-, hfirst⟩
        cases i with
        | zero => rfl
        | succ i => exact absurd hhead (hfirst 0 (Nat.succ_pos i))
    · rename_i hhead
      cases i with
      | zero => simp [hhead]
      | succ i =>
        have hmap : (find f t).map (· + 1) = some (i + 1) ↔ find f t = some i := by simp
        rw [hmap, ih, List.drop_succ_cons]
        refine and_congr_right fun _ => ⟨fun hfirst j hj => ?_, fun hfirst j hj => hfirst (j + 1) (by omega)⟩
        cases j with
        | zero => exact hhead
        | succ j => exact hfirst j (by omega)

theorem find_eq_none_iff (hf : f ≠ []) : find f t = none ↔ ∀ i, ¬ f <+: t.drop i := by
  induction t with
  | nil => simp [find, hf]
  | cons a t ih =>
    rw [find]
    split
    · rename_i hhead
      exact ⟨nofun, fun h => absurd hhead (h 0)⟩
    · rename_i hhead
      rw [Option.map_eq_none_iff, ih]
      refine ⟨fun h i => ?_, fun h i => h (i + 1)⟩
      cases i with
      | zero => exact hhead
      | succ i => exact h i

end Find

section FindLast

variable {f t : List α} {i j k : ℕ}

theorem findLast_eq_some_iff : findLast f t k = some i ↔ IsGreatest {i | i < k ∧ f <+: t.drop i} i := by
  induction k with
  | zero => exact ⟨nofun, fun h => absurd h.1.1 (Nat.not_lt_zero i)⟩
  | succ k ih =>
    rw [findLast]
    split
    · rename_i hk
      constructor
      · intro h
        obtain rfl := Option.some.inj h
        exact ⟨⟨Nat.lt_succ_self _, hk⟩, fun j hj => Nat.le_of_lt_succ hj.1⟩
      · intro h
        have hle := h.2 ⟨Nat.lt_succ_self k, hk⟩
        have hlt := h.1.1
        exact congrArg some (by omega)
    · rename_i hk
      rw [ih]
      have hset : {i | i < k + 1 ∧ f <+: t.drop i} = {i | i < k ∧ f <+: t.drop i} := by
        ext j
        refine ⟨fun hj => ⟨Nat.lt_of_le_of_ne (Nat.le_of_lt_succ hj.1) ?_, hj.2⟩,
          fun hj => ⟨Nat.lt_succ_of_lt hj.1, hj.2⟩⟩
        rintro rfl
        exact hk hj.2
      rw [hset]

theorem findLast_eq_none_iff : findLast f t k = none ↔ ∀ i < k, ¬ f <+: t.drop i := by
  induction k with
  | zero => simp [findLast]
  | succ k ih =>
    rw [findLast]
    split
    · rename_i hk
      exact ⟨nofun, fun h => absurd hk (h k (Nat.lt_succ_self k))⟩
    · rename_i hk
      rw [ih]
      refine ⟨fun h i hi => ?_, fun h i hi => h i (by omega)⟩
      rcases Nat.lt_succ_iff_lt_or_eq.mp hi with hi | rfl
      · exact h i hi
      · exact hk

theorem findLast_of_occurs (h : f <+: t.drop k) : findLast f t (k + 1) = some k := if_pos h

theorem findLast_skip (hjk : j ≤ k) (h : ∀ i, j ≤ i → i < k → ¬ f <+: t.drop i) :
    findLast f t k = findLast f t j := by
  induction k with
  | zero =>
    obtain rfl := Nat.le_zero.mp hjk
    rfl
  | succ k ih =>
    rcases Nat.lt_or_eq_of_le hjk with hlt | rfl
    · rw [findLast, if_neg (h k (by omega) (Nat.lt_succ_self k))]
      exact ih (by omega) fun i hi hik => h i hi (by omega)
    · rfl

end FindLast

end LogoCore.TextSearch
