import LogoCore.RingBuffer
import Mathlib.Data.Nat.Periodic

namespace LogoCore

structure RingWindow {α : Type*} (n : ℕ) (cells live : ℕ → α) (Blank : α → Prop) (lo hi : ℕ) : Prop where
  le : lo ≤ hi
  room : hi ≤ lo + n
  live : ∀ k, lo ≤ k → k < hi → cells (k % n) = live k
  blank : ∀ k, hi ≤ k → k < lo + n → Blank (cells (k % n))

namespace RingWindow

variable {α : Type*} {n lo hi : ℕ} {cells live live' : ℕ → α} {Blank : α → Prop}

theorem wrap_mod (hn : 0 < n) (k : ℕ) : RingBuffer.wrap n (k % n + 1) = (k + 1) % n := by
  rw [RingBuffer.wrap_succ (Nat.mod_lt k hn), Nat.mod_add_mod]

theorem eq_of_mod {j k : ℕ} (hj : lo ≤ j) (hj' : j < lo + n) (hk : lo ≤ k) (hk' : k < lo + n) (h : j % n = k % n) :
    j = k := by
  have hmod : Nat.ModEq n j k := h
  exact Nat.ModEq.eq_of_abs_lt hmod (by rw [abs_lt]; constructor <;> omega)

theorem congr (h : RingWindow n cells live Blank lo hi) (hlive : ∀ k, lo ≤ k → k < hi → live' k = live k) :
    RingWindow n cells live' Blank lo hi :=
  ⟨h.le, h.room, fun k hk hk' => (h.live k hk hk').trans (hlive k hk hk').symm, h.blank⟩

theorem put (h : RingWindow n cells live Blank lo hi) (hroom : hi < lo + n) :
    RingWindow n (Function.update cells (hi % n) (live hi)) live Blank lo (hi + 1) := by
  have hle := h.le
  refine ⟨by omega, by omega, fun k hk hk' => ?_, fun k hk hk' => ?_⟩
  · by_cases heq : k = hi
    · rw [heq, Function.update_self]
    · rw [Function.update_of_ne fun hmod => heq (eq_of_mod hk (by omega) hle hroom hmod)]
      exact h.live k hk (by omega)
  · rw [Function.update_of_ne fun hmod => ?_]
    · exact h.blank k (by omega) hk'
    · have := eq_of_mod (by omega) hk' hle hroom hmod
      omega

theorem drop (h : RingWindow n cells live Blank lo hi) (hlt : lo < hi) {a : α} (ha : Blank a) :
    RingWindow n (Function.update cells (lo % n) a) live Blank (lo + 1) hi := by
  have hroom := h.room
  refine ⟨by omega, by omega, fun k hk hk' => ?_, fun k hk hk' => ?_⟩
  · rw [Function.update_of_ne fun hmod => ?_]
    · exact h.live k (by omega) hk'
    · have := @eq_of_mod n lo _ _ (by omega) (by omega) le_rfl (by omega) hmod
      omega
  · by_cases heq : k = lo + n
    · rw [heq, Nat.add_mod_right, Function.update_self]
      exact ha
    · rw [Function.update_of_ne fun hmod => ?_]
      · exact h.blank k hk (by omega)
      · have := @eq_of_mod n lo _ _ (by omega) (by omega) le_rfl (by omega) hmod
        omega

theorem clear (h : RingWindow n cells live Blank lo hi) {k : ℕ} (hk : hi ≤ k) (hk' : k < lo + n) {a : α}
    (ha : Blank a) : RingWindow n (Function.update cells (k % n) a) live Blank lo hi := by
  have hle := h.le
  refine ⟨h.le, h.room, fun j hj hj' => ?_, fun j hj hj' => ?_⟩
  · rw [Function.update_of_ne fun hmod => ?_]
    · exact h.live j hj hj'
    · have := eq_of_mod hj (by omega) (by omega) hk' hmod
      omega
  · by_cases heq : j = k
    · rw [heq, Function.update_self]
      exact ha
    · rw [Function.update_of_ne fun hmod => heq (eq_of_mod (by omega) hj' (by omega) hk' hmod)]
      exact h.blank j hj hj'

theorem change (h : RingWindow n cells live Blank lo hi) {k : ℕ} (hk : lo ≤ k) (hk' : k < hi) (a : α) :
    RingWindow n (Function.update cells (k % n) a) (Function.update live k a) Blank lo hi := by
  have hroom := h.room
  refine ⟨h.le, h.room, fun j hj hj' => ?_, fun j hj hj' => ?_⟩
  · by_cases heq : j = k
    · rw [heq, Function.update_self, Function.update_self]
    · rw [Function.update_of_ne heq, Function.update_of_ne fun hmod => heq ?_]
      · exact h.live j hj hj'
      · exact eq_of_mod hj (by omega) hk (by omega) hmod
  · rw [Function.update_of_ne fun hmod => ?_]
    · exact h.blank j hj hj'
    · have := eq_of_mod (by omega) hj' hk (by omega) hmod
      omega

theorem count_blank (h : RingWindow n cells live Blank lo hi) {P : α → Prop} [DecidablePred P]
    (hblank : ∀ a, Blank a → P a) (hlive : ∀ k, lo ≤ k → k < hi → ¬ P (live k)) :
    Nat.count (fun i => P (cells i)) n = lo + n - hi := by
  have hle := h.le
  have hroom := h.room
  have hperiodic : Function.Periodic (fun k => P (cells (k % n))) n := fun k => by simp only [Nat.add_mod_right]
  have hcount : Nat.count (fun i => P (cells i)) n = Nat.count (fun k => P (cells (k % n))) n := by
    rw [Nat.count_eq_card_filter_range, Nat.count_eq_card_filter_range]
    refine congrArg Finset.card (Finset.filter_congr fun k hk => ?_)
    rw [Nat.mod_eq_of_lt (Finset.mem_range.mp hk)]
  have hfilter : (Finset.Ico lo (lo + n)).filter (fun k => P (cells (k % n))) = Finset.Ico hi (lo + n) := by
    ext k
    rw [Finset.mem_filter, Finset.mem_Ico, Finset.mem_Ico]
    constructor
    · rintro ⟨⟨hk, hk'⟩, hP⟩
      by_contra hlt
      rw [h.live k hk (by omega)] at hP
      exact hlive k hk (by omega) hP
    · exact fun hk => ⟨⟨by omega, hk.2⟩, hblank _ (h.blank k hk.1 hk.2)⟩
  rw [hcount, ← Nat.filter_Ico_card_eq_of_periodic lo n _ hperiodic, hfilter, Nat.card_Ico]

end RingWindow

end LogoCore
