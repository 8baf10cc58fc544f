import Mathlib.Data.Finset.Dedup
import Mathlib.Data.Finset.Card
import Mathlib.Logic.Function.Iterate

namespace LogoCore.RoundRobin

variable {α : Type*} (next : α → α)

def visits : ℕ → α → List α
  | 0, _ => []
  | k + 1, l => next l :: visits k (next l)

theorem length_visits (k : ℕ) (l : α) : (visits next k l).length = k := by
  induction k generalizing l with
  | zero => rfl
  | succ k ih => rw [visits, List.length_cons, ih]

theorem visits_add (j k : ℕ) (l : α) : visits next (j + k) l = visits next j l ++ visits next k (next^[j] l) := by
  induction j generalizing l with
  | zero => rw [Nat.zero_add]; rfl
  | succ j ih =>
    rw [Nat.succ_add, visits, ih, visits, List.cons_append]
    rfl

theorem visits_succ_last (k : ℕ) (l : α) : visits next (k + 1) l = visits next k l ++ [next^[k + 1] l] := by
  rw [visits_add, Function.iterate_succ_apply']
  rfl

structure Cycle (n : ℕ) : Prop where
  period : ∀ l, next^[n] l = l
  all : ∀ l i, i ∈ visits next n l
  nodup : ∀ l, (visits next n l).Nodup

variable (n : ℕ) (ready : α → Bool)

def queue (l : α) : List α := (visits next n l).filter ready

def grants : ℕ → α → List α
  | 0, _ => []
  | k + 1, l =>
    match (visits next n l).find? ready with
    | none => []
    | some i => i :: grants k i

variable {next n ready} {l i : α}

theorem Cycle.queue_next (h : Cycle next n) (hi : (visits next n l).find? ready = some i) :
    ∃ rest, queue next n ready l = i :: rest ∧ queue next n ready i = rest ++ [i] := by
  obtain ⟨hready, as, bs, hvisits, hskip⟩ := List.find?_eq_some_iff_append.mp hi
  have hskipped : as.filter ready = [] := by
    apply List.filter_eq_nil_iff.mpr
    intro a ha
    simpa using hskip a ha
  have hn : n = as.length + (bs.length + 1) := by
    have := congrArg List.length hvisits
    rwa [length_visits, List.length_append, List.length_cons] at this
  have hsplit := visits_add next as.length (bs.length + 1) l
  rw [← hn, hvisits] at hsplit
  obtain ⟨has, hibs⟩ := List.append_inj hsplit (length_visits next as.length l).symm
  obtain ⟨hhead, hbs⟩ := List.cons.inj hibs
  rw [← hhead] at hbs
  have hplace : i = next^[as.length + 1] l := by rw [hhead, Function.iterate_succ_apply']
  have hback : next^[bs.length] i = l := by
    rw [hplace, ← Function.iterate_add_apply, show bs.length + (as.length + 1) = n by omega, h.period]
  have hagain : visits next n i = bs ++ (as ++ [i]) := by
    rw [show n = bs.length + (as.length + 1) by omega, visits_add, ← hbs, hback, visits_succ_last, ← has, ← hplace]
  refine ⟨bs.filter ready, ?_, ?_⟩
  · rw [queue, hvisits, List.filter_append, hskipped, List.nil_append, List.filter_cons_of_pos hready]
  · rw [queue, hagain, List.filter_append, List.filter_append, hskipped, List.nil_append,
      List.filter_cons_of_pos hready, List.filter_nil]

theorem queue_eq_nil (h : (visits next n l).find? ready = none) : queue next n ready l = [] := by
  apply List.filter_eq_nil_iff.mpr
  intro a ha
  simpa using List.find?_eq_none.mp h a ha

theorem Cycle.grants_eq (h : Cycle next n) {k : ℕ} (hk : k ≤ (queue next n ready l).length) :
    grants next n ready k l = (queue next n ready l).take k := by
  induction k generalizing l with
  | zero => rfl
  | succ k ih =>
    cases hf : (visits next n l).find? ready with
    | none =>
      rw [queue_eq_nil hf] at hk
      exact absurd hk (by simp)
    | some i =>
      obtain ⟨rest, hl, hi⟩ := h.queue_next hf
      rw [hl, List.length_cons] at hk
      have hrest : k ≤ rest.length := by omega
      simp only [grants, hf]
      rw [ih (by rw [hi, List.length_append]; omega), hi, hl, List.take_succ_cons, List.take_append_of_le_length hrest]

theorem Cycle.mem_queue (h : Cycle next n) : i ∈ queue next n ready l ↔ ready i = true := by
  rw [queue, List.mem_filter, and_iff_right (h.all l i)]

theorem Cycle.nodup_queue (h : Cycle next n) : (queue next n ready l).Nodup := (h.nodup l).filter _

section Finite

variable [DecidableEq α] (S : Finset α) (l : α)

theorem Cycle.length_queue (h : Cycle next n) : (queue next n (fun i => decide (i ∈ S)) l).length = S.card := by
  have hset : (queue next n (fun i => decide (i ∈ S)) l).toFinset = S := by
    ext i
    rw [List.mem_toFinset, h.mem_queue, decide_eq_true_iff]
  conv_rhs => rw [← hset, List.toFinset_card_of_nodup h.nodup_queue]

theorem Cycle.grants_all (h : Cycle next n) :
    (grants next n (fun i => decide (i ∈ S)) S.card l).Nodup ∧
      ∀ i, i ∈ grants next n (fun i => decide (i ∈ S)) S.card l ↔ i ∈ S := by
  have hlen := h.length_queue S l
  rw [h.grants_eq hlen.ge, ← hlen, List.take_length]
  refine ⟨h.nodup_queue, fun i => ?_⟩
  rw [h.mem_queue, decide_eq_true_iff]

end Finite

end LogoCore.RoundRobin
