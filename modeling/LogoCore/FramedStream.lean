import Mathlib.Data.List.Basic

namespace LogoCore.FramedStream

variable {α β γ : Type*} {pieces : β → List α} {mark : α → Option γ} {name : β → γ}

structure Framing (pieces : β → List α) (mark : α → Option γ) (name : β → γ) : Prop where
  whole : ∀ b, (pieces b).filterMap mark = [name b]
  part : ∀ b l, l <+: pieces b → l ≠ pieces b → l.filterMap mark = []

theorem filterMap_flatMap (h : Framing pieces mark name) (bs : List β) :
    (bs.flatMap pieces).filterMap mark = bs.map name := by
  induction bs with
  | nil => rfl
  | cons b bs ih => rw [List.flatMap_cons, List.filterMap_append, h.whole, ih, List.singleton_append, List.map_cons]

theorem exists_complete (h : Framing pieces mark name) {bs : List β} {l : List α} (hl : l <+: bs.flatMap pieces) :
    ∃ k ≤ bs.length, l.filterMap mark = (bs.take k).map name ∧ (bs.take k).flatMap pieces <+: l := by
  induction bs generalizing l with
  | nil =>
    rw [List.flatMap_nil, List.prefix_nil] at hl
    exact ⟨0, Nat.le_refl 0, by rw [hl]; rfl, List.nil_prefix⟩
  | cons b bs ih =>
    rw [List.flatMap_cons] at hl
    by_cases hlen : (pieces b).length ≤ l.length
    · obtain ⟨rest, rfl⟩ : pieces b <+: l := List.prefix_of_prefix_length_le (List.prefix_append _ _) hl hlen
      obtain ⟨k, hk, hnames, hcomplete⟩ := ih ((List.prefix_append_right_inj _).mp hl)
      refine ⟨k + 1, Nat.succ_le_succ hk, ?_, ?_⟩
      · rw [List.filterMap_append, h.whole, hnames]
        rfl
      · rw [List.take_succ_cons, List.flatMap_cons]
        exact (List.prefix_append_right_inj _).mpr hcomplete
    · have hpart : l <+: pieces b := List.prefix_of_prefix_length_le hl (List.prefix_append _ _) (by omega)
      refine ⟨0, Nat.zero_le _, ?_, List.nil_prefix⟩
      rw [h.part b l hpart fun heq => hlen (heq ▸ Nat.le_refl _)]
      rfl

end LogoCore.FramedStream
