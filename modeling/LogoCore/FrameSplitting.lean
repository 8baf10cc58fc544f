import Mathlib.Data.List.Basic

namespace LogoCore.FrameSplitting

variable {α : Type*} (last : α → Bool)

def frames (acc : List α) : List α → List (List α)
  | [] => []
  | x :: l => if last x then (acc ++ [x]) :: frames [] l else frames (acc ++ [x]) l

def unfinished (acc : List α) : List α → List α
  | [] => acc
  | x :: l => if last x then unfinished [] l else unfinished (acc ++ [x]) l

variable {last}

theorem frames_append (acc l l' : List α) :
    frames last acc (l ++ l') = frames last acc l ++ frames last (unfinished last acc l) l' := by
  induction l generalizing acc with
  | nil => rfl
  | cons x l ih =>
    rw [List.cons_append, frames, frames, unfinished]
    cases last x with
    | true => simp only [if_true, ih, List.cons_append]
    | false => simpa only [Bool.false_eq_true, if_false] using ih _

theorem unfinished_append (acc l l' : List α) :
    unfinished last acc (l ++ l') = unfinished last (unfinished last acc l) l' := by
  induction l generalizing acc with
  | nil => rfl
  | cons x l ih =>
    rw [List.cons_append, unfinished, unfinished]
    cases last x with
    | true => simpa only [if_true] using ih _
    | false => simpa only [Bool.false_eq_true, if_false] using ih _

theorem unfinished_of_last {acc l : List α} (hne : l ≠ []) (hlast : ∀ x ∈ l.getLast?, last x = true) :
    unfinished last acc l = [] := by
  obtain ⟨front, x, rfl⟩ := List.eq_nil_or_concat l |>.resolve_left hne
  have hx : last x = true := hlast x (by simp)
  rw [List.concat_eq_append, unfinished_append, unfinished, if_pos hx, unfinished]

theorem frames_modifyHead (acc b l : List α) :
    (frames last (acc ++ b) l).modifyHead (List.drop acc.length) = frames last b l := by
  induction l generalizing b with
  | nil => rfl
  | cons x l ih =>
    rw [frames, frames, List.append_assoc]
    cases last x with
    | true => rw [if_pos rfl, if_pos rfl, List.modifyHead_cons, List.drop_left]
    | false => exact ih (b ++ [x])

theorem frames_group {front : List α} (hfront : ∀ y ∈ front, last y = false) {x : α} (hx : last x = true)
    (acc l : List α) : frames last acc (front ++ x :: l) = (acc ++ front ++ [x]) :: frames last [] l := by
  induction front generalizing acc with
  | nil => rw [List.nil_append, frames, if_pos hx, List.append_nil]
  | cons y front ih =>
    have hy : last y = false := hfront y List.mem_cons_self
    rw [List.cons_append, frames, hy, if_neg Bool.false_ne_true, ih fun z hz => hfront z (List.mem_cons_of_mem _ hz)]
    simp only [List.append_assoc, List.singleton_append]

end LogoCore.FrameSplitting
