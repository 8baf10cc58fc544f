import Mathlib.Data.List.Basic

namespace LogoCore.Channel

variable {α : Type*}

inductive Fault where
  | lose (i : ℕ)
  | duplicate (i : ℕ)
deriving DecidableEq, Repr

def Fault.apply (l : List α) : Fault → List α
  | .lose i => l.eraseIdx i
  | .duplicate i => l.take (i + 1) ++ l.drop i

theorem mem_of_mem_apply {l : List α} {f : Fault} {x : α} (h : x ∈ f.apply l) : x ∈ l := by
  cases f with
  | lose i => exact List.mem_of_mem_eraseIdx h
  | duplicate i => exact (List.mem_append.mp h).elim List.mem_of_mem_take List.mem_of_mem_drop

theorem pairwise_duplicate {R : α → α → Prop} (hr : ∀ x, R x x) {l : List α} (h : l.Pairwise R) (i : ℕ) :
    (l.take (i + 1) ++ l.drop i).Pairwise R := by
  induction l generalizing i with
  | nil => simp
  | cons a l ih =>
    obtain ⟨ha, hl⟩ := List.pairwise_cons.mp h
    cases i with
    | zero => simpa using ⟨⟨hr a, ha⟩, ha, hl⟩
    | succ i =>
      rw [List.take_succ_cons, List.drop_succ_cons, List.cons_append, List.pairwise_cons]
      refine ⟨fun x hx => ha x ?_, ih hl i⟩
      exact (List.mem_append.mp hx).elim List.mem_of_mem_take List.mem_of_mem_drop

structure Flow (rank : α → ℕ) (P : α → Prop) (l : List α) : Prop where
  all : ∀ x ∈ l, P x
  sorted : l.Pairwise fun x y => rank x ≤ rank y

namespace Flow

variable {rank : α → ℕ} {P Q : α → Prop} {l : List α}

theorem nil : Flow rank P [] := ⟨by simp, .nil⟩

theorem mono (h : Flow rank P l) (hPQ : ∀ x ∈ l, P x → Q x) : Flow rank Q l :=
  ⟨fun x hx => hPQ x hx (h.all x hx), h.sorted⟩

theorem fault (h : Flow rank P l) (f : Fault) : Flow rank P (f.apply l) := by
  refine ⟨fun x hx => h.all x (mem_of_mem_apply hx), ?_⟩
  cases f with
  | lose i => exact h.sorted.sublist (List.eraseIdx_sublist l i)
  | duplicate i => exact pairwise_duplicate (fun x => Nat.le_refl (rank x)) h.sorted i

theorem push (h : Flow rank P l) {x : α} (hx : P x) (hmax : ∀ y ∈ l, rank y ≤ rank x) :
    Flow rank P (l ++ [x]) := by
  refine ⟨fun y hy => ?_, ?_⟩
  · obtain hy | hy := List.mem_append.mp hy
    · exact h.all y hy
    · exact List.mem_singleton.mp hy ▸ hx
  · rw [List.pairwise_append]
    exact ⟨h.sorted, List.pairwise_singleton _ _, fun y hy z hz => List.mem_singleton.mp hz ▸ hmax y hy⟩

theorem tail {x : α} (h : Flow rank P (x :: l)) : Flow rank (fun y => P y ∧ rank x ≤ rank y) l := by
  obtain ⟨hx, hl⟩ := List.pairwise_cons.mp h.sorted
  exact ⟨fun y hy => ⟨h.all y (List.mem_cons_of_mem _ hy), hx y hy⟩, hl⟩

end Flow

end LogoCore.Channel
