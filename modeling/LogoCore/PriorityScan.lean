import Mathlib.Data.List.Nodup
import Mathlib.Data.List.Perm.Subperm
import Mathlib.Data.List.ReduceOption
import Mathlib.Data.Nat.Basic

namespace LogoCore.PriorityScan

variable {α : Type*} [DecidableEq α]

def choose (ready : List α) (last : Option α) : Option α :=
  (ready.find? fun i => decide (some i ≠ last)).or ready.head?

/-- What scans return that each skip what the one before chose; a scan that is held up chooses nothing. -/
def turns (ready : List α) : List Bool → Option α → List (Option α)
  | [], _ => []
  | true :: bs, last => choose ready last :: turns ready bs (choose ready last)
  | false :: bs, last => none :: turns ready bs last

variable {ready : List α} {last : Option α} {i : α}

theorem choose_singleton (a : α) (last : Option α) : choose [a] last = some a := by
  unfold choose
  rw [List.find?_cons]
  split <;> rfl

theorem choose_cons_cons {a b : α} (hab : a ≠ b) (rest : List α) (last : Option α) :
    choose (a :: b :: rest) last = if last = some a then some b else some a := by
  unfold choose
  split_ifs with hlast
  · have hb : some b ≠ some a := fun h => hab (Option.some.inj h).symm
    rw [hlast, List.find?_cons_of_neg (by simp), List.find?_cons_of_pos (by simpa using hb), Option.some_or]
  · have ha : some a ≠ last := fun h => hlast h.symm
    rw [List.find?_cons_of_pos (by simpa using ha), Option.some_or]

theorem mem_take_of_choose (hn : ready.Nodup) (h : choose ready last = some i) : i ∈ ready.take 2 := by
  match ready, hn with
  | [], _ => exact absurd h nofun
  | [a], _ =>
    rw [choose_singleton] at h
    exact List.mem_singleton.mpr (Option.some.inj h).symm
  | a :: b :: rest, hn =>
    have hab : a ≠ b := fun hab => (List.nodup_cons.mp hn).1 (hab ▸ List.mem_cons_self)
    rw [choose_cons_cons hab] at h
    split_ifs at h with hlast
    · obtain rfl := Option.some.inj h
      simp
    · obtain rfl := Option.some.inj h
      simp

theorem mem_take_of_mem_turns (hn : ready.Nodup) {bs : List Bool} (h : some i ∈ turns ready bs last) :
    i ∈ ready.take 2 := by
  induction bs generalizing last with
  | nil => exact absurd h nofun
  | cons b bs ih =>
    cases b with
    | true =>
      obtain hfirst | hlater := List.mem_cons.mp h
      · exact mem_take_of_choose hn hfirst.symm
      · exact ih hlater
    | false =>
      obtain hfirst | hlater := List.mem_cons.mp h
      · exact absurd hfirst nofun
      · exact ih hlater

theorem length_reduceOption_turns (bs : List Bool) (last : Option α) :
    (turns ready bs last).reduceOption.length ≤ bs.count true := by
  induction bs generalizing last with
  | nil => exact le_rfl
  | cons b bs ih =>
    cases b with
    | true =>
      rw [turns, List.count_cons_self]
      cases choose ready last with
      | none => exact Nat.le_succ_of_le (ih none)
      | some i => exact Nat.succ_le_succ (ih (some i))
    | false => exact Nat.le_trans (ih last) List.count_le_count_cons

theorem turns_all_iff (hn : ready.Nodup) {bs : List Bool} (hlen : bs.length = ready.length) (last : Option α) :
    (∀ i ∈ ready, some i ∈ turns ready bs last) ↔ (∀ b ∈ bs, true = b) ∧ ready.length ≤ 2 := by
  constructor
  · intro hall
    have hsubset : ready ⊆ (turns ready bs last).reduceOption :=
      fun i hi => List.reduceOption_mem_iff.mpr (hall i hi)
    have hcount : ready.length ≤ bs.count true :=
      Nat.le_trans (hn.subperm hsubset).length_le (length_reduceOption_turns bs last)
    refine ⟨List.count_eq_length.mp (le_antisymm List.count_le_length (hlen ▸ hcount)), ?_⟩
    have htwo : ready ⊆ ready.take 2 := fun i hi => mem_take_of_mem_turns hn (hall i hi)
    have hle := (hn.subperm htwo).length_le
    rw [List.length_take] at hle
    omega
  · rintro ⟨htrue, htwo⟩ i hi
    have hbs := List.eq_replicate_of_mem fun b hb => (htrue b hb).symm
    rw [hlen] at hbs
    rw [hbs]
    match ready, hn with
    | [], _ => exact absurd hi nofun
    | [a], _ =>
      rw [List.mem_singleton.mp hi, List.length_singleton, List.replicate_one, turns, choose_singleton]
      exact List.mem_cons_self
    | [a, b], hn =>
      have hab : a ≠ b := fun hab => (List.nodup_cons.mp hn).1 (hab ▸ List.mem_cons_self)
      simp only [List.length_cons, List.length_nil, List.replicate, turns, choose_cons_cons hab]
      have hother : some b ≠ some a := fun h => hab (Option.some.inj h).symm
      obtain rfl | hb := List.mem_cons.mp hi
      · by_cases hlast : last = some i
        · simp [hlast, hother]
        · simp [hlast]
      · rw [List.mem_singleton.mp hb]
        by_cases hlast : last = some a
        · simp [hlast]
        · simp [hlast]
    | a :: b :: c :: rest, _ => exact absurd htwo (by simp)

end LogoCore.PriorityScan
