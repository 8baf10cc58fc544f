import Mathlib.Algebra.GroupWithZero.Nat
import Mathlib.Data.List.Basic
import Mathlib.Data.List.Chain

namespace LogoCore.BlockLayout

structure Block where
  size : ℕ
  used : Bool
deriving DecidableEq, Repr

variable {o k n s p : ℕ} {b : Block} {l l' rest : List Block}

def total (l : List Block) : ℕ := (l.map Block.size).sum

@[simp] theorem total_nil : total [] = 0 := rfl

@[simp] theorem total_cons : total (b :: l) = b.size + total l := List.sum_cons

@[simp] theorem total_append : total (l ++ l') = total l + total l' := by
  rw [total, List.map_append, List.sum_append, total, total]

def extents (used : Bool) : ℕ → List Block → List (ℕ × ℕ)
  | _, [] => []
  | o, b :: rest =>
    if b.used = used then (o, b.size) :: extents used (o + b.size) rest else extents used (o + b.size) rest

theorem extents_append (u : Bool) (o : ℕ) (l l' : List Block) :
    extents u o (l ++ l') = extents u o l ++ extents u (o + total l) l' := by
  induction l generalizing o with
  | nil => rfl
  | cons b rest ih =>
    rw [List.cons_append, extents, extents, ih, total_cons, Nat.add_assoc]
    split_ifs
    · rfl
    · rfl

theorem extents_eq_nil {u : Bool} (h : ∀ b ∈ l, b.used ≠ u) (o : ℕ) : extents u o l = [] := by
  induction l generalizing o with
  | nil => rfl
  | cons b rest ih =>
    rw [extents, if_neg (h b List.mem_cons_self)]
    exact ih (fun c hc => h c (List.mem_cons_of_mem _ hc)) _

theorem exists_split_of_mem {u : Bool} (h : (k, s) ∈ extents u o l) :
    ∃ pre post, l = pre ++ ⟨s, u⟩ :: post ∧ k = o + total pre := by
  induction l generalizing o with
  | nil => exact absurd h List.not_mem_nil
  | cons b rest ih =>
    have hrest (h : (k, s) ∈ extents u (o + b.size) rest) :
        ∃ pre post, b :: rest = pre ++ ⟨s, u⟩ :: post ∧ k = o + total pre := by
      obtain ⟨pre, post, hl, hk⟩ := ih h
      exact ⟨b :: pre, post, by rw [hl, List.cons_append], by rw [total_cons]; omega⟩
    rw [extents] at h
    split_ifs at h with hu
    · obtain hhead | htail := List.mem_cons.mp h
      · obtain ⟨rfl, rfl⟩ := Prod.mk.inj hhead
        exact ⟨[], rest, by rw [← hu]; rfl, rfl⟩
      · exact hrest htail
    · exact hrest h

theorem live_split (pre post : List Block) (s : ℕ) :
    extents true 0 (pre ++ ⟨s, true⟩ :: post) =
      extents true 0 pre ++ (total pre, s) :: extents true (total pre + s) post := by
  rw [extents_append, Nat.zero_add, extents, if_pos rfl]

theorem live_split_free (pre post : List Block) (s : ℕ) :
    extents true 0 (pre ++ ⟨s, false⟩ :: post) = extents true 0 pre ++ extents true (total pre + s) post := by
  rw [extents_append, Nat.zero_add, extents, if_neg Bool.false_ne_true]

theorem extents_bounds {u : Bool} (h : (k, s) ∈ extents u o l) : o ≤ k ∧ k + s ≤ o + total l := by
  obtain ⟨pre, post, rfl, rfl⟩ := exists_split_of_mem h
  rw [total_append, total_cons]
  dsimp only
  omega

theorem extents_ne {u : Bool} {x : ℕ × ℕ} (hpos : ∀ b ∈ l, 0 < b.size) (hs : 0 < s)
    (hx : x ∈ extents u 0 l ∨ x ∈ extents u (total l + s) l') : x.1 ≠ total l := by
  obtain hx | hx := hx
  · obtain ⟨pre, post, rfl, hk⟩ := exists_split_of_mem hx
    have hx' := hpos ⟨x.2, u⟩ (by simp)
    rw [total_append, total_cons]
    dsimp only at hx' ⊢
    omega
  · have := (extents_bounds hx).1
    omega

theorem extents_apart (u : Bool) (o : ℕ) (l : List Block) :
    (extents u o l).Pairwise fun x y => x.1 + x.2 ≤ y.1 := by
  induction l generalizing o with
  | nil => exact List.Pairwise.nil
  | cons b rest ih =>
    rw [extents]
    split_ifs
    · exact List.Pairwise.cons (fun y hy => (extents_bounds hy).1) (ih _)
    · exact ih _

theorem extents_disjoint {u : Bool} {x y : ℕ × ℕ} (hx : x ∈ extents u o l) (hy : y ∈ extents u o l) (hne : x ≠ y) :
    x.1 + x.2 ≤ y.1 ∨ y.1 + y.2 ≤ x.1 := by
  have hsymm : Std.Symm fun x y : ℕ × ℕ => x.1 + x.2 ≤ y.1 ∨ y.1 + y.2 ≤ x.1 := ⟨fun _ _ => Or.symm⟩
  have hpair : (extents u o l).Pairwise fun x y => x.1 + x.2 ≤ y.1 ∨ y.1 + y.2 ≤ x.1 :=
    (extents_apart u o l).imp .inl
  exact hpair.forall hx hy hne

def Coalesced (l : List Block) : Prop := l.IsChain fun x y => x.used = true ∨ y.used = true

def glue (b : Block) : List Block → List Block
  | [] => [b]
  | x :: rest => if b.used = true ∨ x.used = true then b :: x :: rest else ⟨b.size + x.size, false⟩ :: rest

def coalesce : List Block → List Block
  | [] => []
  | b :: rest => glue b (coalesce rest)

theorem live_glue (o : ℕ) (b : Block) (l : List Block) : extents true o (glue b l) = extents true o (b :: l) := by
  cases l with
  | nil => rfl
  | cons x rest =>
    rw [glue]
    split_ifs with h
    · rfl
    · obtain ⟨hb, hx⟩ := not_or.mp h
      simp only [extents, hb, hx, Bool.false_eq_true, if_false, Nat.add_assoc]

@[simp] theorem live_coalesce (o : ℕ) (l : List Block) : extents true o (coalesce l) = extents true o l := by
  induction l generalizing o with
  | nil => rfl
  | cons b rest ih => rw [coalesce, live_glue, extents, extents, ih]

theorem coalesced_glue (h : Coalesced l) : Coalesced (glue b l) := by
  cases l with
  | nil => exact List.isChain_singleton _
  | cons x rest =>
    rw [glue]
    split_ifs with hu
    · exact List.isChain_cons_cons.mpr ⟨hu, h⟩
    · have hx : x.used = false := by simpa using (not_or.mp hu).2
      cases rest with
      | nil => exact List.isChain_singleton _
      | cons y rest =>
        have hchain := List.isChain_cons_cons.mp h
        exact List.isChain_cons_cons.mpr ⟨.inr (hchain.1.resolve_left (by rw [hx]; decide)), hchain.2⟩

theorem coalesced_coalesce (l : List Block) : Coalesced (coalesce l) := by
  induction l with
  | nil => exact List.isChain_nil
  | cons b rest ih => exact coalesced_glue ih

theorem coalesced_used (hl : Coalesced l) (hrest : Coalesced rest) (hb : b.used = true) :
    Coalesced (l ++ b :: rest) :=
  List.isChain_append.mpr ⟨hl, List.isChain_cons.mpr ⟨fun _ _ => .inl hb, hrest⟩,
    fun _ _ y hy => .inr (by rwa [← Option.mem_some_iff.mp hy])⟩

theorem coalesced_free (hrest : Coalesced rest) (hnext : ∀ y ∈ rest.head?, y.used = true) (s : ℕ) :
    Coalesced (⟨s, false⟩ :: rest) :=
  List.isChain_cons.mpr ⟨fun y hy => .inr (hnext y hy), hrest⟩

theorem glue_of_coalesced (h : Coalesced (b :: l)) : glue b l = b :: l := by
  cases l with
  | nil => rfl
  | cons x rest => exact if_pos (List.isChain_cons_cons.mp h).1

theorem coalesce_of_coalesced (h : Coalesced l) : coalesce l = l := by
  induction l with
  | nil => rfl
  | cons b rest ih => rw [coalesce, ih h.tail, glue_of_coalesced h]

theorem all_free (h : extents true o l = []) : ∀ b ∈ l, b.used = false := by
  induction l generalizing o with
  | nil => exact fun b hb => absurd hb List.not_mem_nil
  | cons c rest ih =>
    rw [extents] at h
    split_ifs at h with hc
    intro b hb
    obtain rfl | hb := List.mem_cons.mp hb
    · simpa using hc
    · exact ih h b hb

theorem eq_singleton_of_free (hc : Coalesced l) (hfree : extents true o l = []) (hn : 0 < total l) :
    l = [⟨total l, false⟩] := by
  have hall := all_free hfree
  cases l with
  | nil => exact absurd hn (Nat.lt_irrefl 0)
  | cons b rest =>
    have hb := hall b List.mem_cons_self
    cases rest with
    | nil => rw [total_cons, total_nil, Nat.add_zero, ← hb]
    | cons c rest =>
      have hc' := hall c (by simp)
      obtain h | h := (List.isChain_cons_cons.mp hc).1
      · exact absurd (hb.symm.trans h) Bool.false_ne_true
      · exact absurd (hc'.symm.trans h) Bool.false_ne_true

theorem exists_free_of_gap (h : Coalesced l) (hn : 0 < n) (ho : o ≤ p) (hend : p + n ≤ o + total l)
    (hgap : ∀ x ∈ extents true o l, p + n ≤ x.1 ∨ x.1 + x.2 ≤ p) (hpos : ∀ b ∈ l, 0 < b.size) :
    ∃ x ∈ extents false o l, x.1 ≤ p ∧ p + n ≤ x.1 + x.2 := by
  induction l generalizing o with
  | nil =>
    rw [total_nil] at hend
    omega
  | cons b rest ih =>
    rw [total_cons] at hend
    have hrest : ∀ x ∈ extents true (o + b.size) rest, x ∈ extents true o (b :: rest) := by
      intro x hx
      rw [extents]
      split_ifs
      · exact List.mem_cons_of_mem _ hx
      · exact hx
    by_cases hlater : o + b.size ≤ p
    · obtain ⟨x, hx, hle⟩ := ih h.tail hlater (by omega) (fun x hx => hgap x (hrest x hx))
        (fun c hc => hpos c (List.mem_cons_of_mem _ hc))
      refine ⟨x, ?_, hle⟩
      rw [extents]
      split_ifs
      · exact List.mem_cons_of_mem _ hx
      · exact hx
    · -- the gap begins in the first block, so that one is free and its neighbour is not
      have hfree : b.used = false := by
        cases hu : b.used with
        | false => rfl
        | true =>
          have := hgap (o, b.size) (by rw [extents, if_pos hu]; exact List.mem_cons_self)
          dsimp only at this
          omega
      refine ⟨(o, b.size), by rw [extents, if_pos hfree]; exact List.mem_cons_self, ho, ?_⟩
      cases rest with
      | nil =>
        rw [total_nil] at hend
        dsimp only
        omega
      | cons y rest =>
        have hy : y.used = true := (List.isChain_cons_cons.mp h).1.resolve_left (by rw [hfree]; decide)
        have hypos := hpos y (List.mem_cons_of_mem _ List.mem_cons_self)
        have := hgap (o + b.size, y.size) (hrest _ (by rw [extents, if_pos hy]; exact List.mem_cons_self))
        dsimp only at this ⊢
        omega

def firstFree : ℕ → List Block → ℕ
  | o, [] => o
  | o, b :: rest => if b.used = true then firstFree (o + b.size) rest else o

theorem firstFree_cons_used (h : b.used = true) (o : ℕ) (l : List Block) :
    firstFree o (b :: l) = firstFree (o + b.size) l := if_pos h

theorem firstFree_cons_free (h : b.used = false) (o : ℕ) (l : List Block) : firstFree o (b :: l) = o := by
  rw [firstFree, h]
  exact if_neg Bool.false_ne_true

theorem firstFree_of_used (h : ∀ b ∈ l, b.used = true) (o : ℕ) (l' : List Block) :
    firstFree o (l ++ l') = firstFree (o + total l) l' := by
  induction l generalizing o with
  | nil => rfl
  | cons b rest ih =>
    rw [List.cons_append, firstFree, if_pos (h b List.mem_cons_self), ih fun c hc => h c (List.mem_cons_of_mem _ hc),
      total_cons, Nat.add_assoc]

theorem firstFree_of_free (h : ∃ b ∈ l, b.used = false) (o : ℕ) (l' : List Block) :
    firstFree o (l ++ l') = firstFree o l := by
  induction l generalizing o with
  | nil => exact absurd h (by simp)
  | cons b rest ih =>
    rw [List.cons_append, firstFree, firstFree]
    split_ifs with hu
    · obtain ⟨c, hc, hfree⟩ := h
      obtain rfl | hrest := List.mem_cons.mp hc
      · exact absurd (hfree.symm.trans hu) (by decide)
      · exact ih ⟨c, hrest, hfree⟩ _
    · rfl

theorem exists_split_firstFree (l : List Block) :
    ∃ pre post, l = pre ++ post ∧ (∀ b ∈ pre, b.used = true) ∧ ∀ o, firstFree o l = o + total pre := by
  induction l with
  | nil => exact ⟨[], [], rfl, by simp, fun _ => rfl⟩
  | cons b rest ih =>
    obtain ⟨pre, post, hsplit, hused, hfirst⟩ := ih
    cases hb : b.used with
    | false => exact ⟨[], b :: rest, rfl, by simp, fun o => firstFree_cons_free hb o rest⟩
    | true =>
      refine ⟨b :: pre, post, by rw [hsplit]; rfl, fun c hc => ?_, fun o => ?_⟩
      · obtain rfl | hc := List.mem_cons.mp hc
        · exact hb
        · exact hused c hc
      · rw [firstFree_cons_used hb, hfirst, total_cons, Nat.add_assoc]

theorem le_firstFree (o : ℕ) (l : List Block) : o ≤ firstFree o l := by
  induction l generalizing o with
  | nil => exact le_rfl
  | cons b rest ih =>
    rw [firstFree]
    split_ifs
    · exact (Nat.le_add_right _ _).trans (ih _)
    · exact le_rfl

theorem firstFree_lt (h : ∃ b ∈ l, b.used = false) (hpos : ∀ b ∈ l, 0 < b.size) (o : ℕ) :
    firstFree o l < o + total l := by
  induction l generalizing o with
  | nil => exact absurd h (by simp)
  | cons b rest ih =>
    have hb := hpos b List.mem_cons_self
    rw [firstFree, total_cons]
    split_ifs with hu
    · obtain ⟨c, hc, hfree⟩ := h
      obtain rfl | hrest := List.mem_cons.mp hc
      · exact absurd (hfree.symm.trans hu) (by decide)
      · have := ih ⟨c, hrest, hfree⟩ (fun d hd => hpos d (List.mem_cons_of_mem _ hd)) (o + b.size)
        omega
    · omega

theorem all_used_or_free (l : List Block) : (∀ b ∈ l, b.used = true) ∨ ∃ b ∈ l, b.used = false := by
  by_cases h : ∃ b ∈ l, b.used = false
  · exact .inr h
  · refine .inl fun b hb => ?_
    cases hu : b.used with
    | false => exact absurd ⟨b, hb, hu⟩ h
    | true => rfl

theorem glue_used (h : b.used = true) (l : List Block) : glue b l = b :: l := by
  cases l with
  | nil => rfl
  | cons x rest => exact if_pos (.inl h)

theorem glue_free (h : b.used = false) (l : List Block) :
    ∃ q qs, glue b l = q :: qs ∧ q.used = false ∧ b.size ≤ q.size := by
  cases l with
  | nil => exact ⟨b, [], rfl, h, le_rfl⟩
  | cons x rest =>
    rw [glue]
    split_ifs
    · exact ⟨b, x :: rest, rfl, h, le_rfl⟩
    · exact ⟨_, rest, rfl, rfl, Nat.le_add_right _ _⟩

theorem coalesce_append (h : Coalesced l) (hlast : ∀ x ∈ l.getLast?, x.used = true) (l' : List Block) :
    coalesce (l ++ l') = l ++ coalesce l' := by
  induction l with
  | nil => rfl
  | cons b rest ih =>
    cases rest with
    | nil => exact glue_used (hlast b rfl) _
    | cons y ys =>
      have hih := ih h.tail fun x hx => hlast x (by rwa [List.getLast?_cons_cons])
      rw [List.cons_append, coalesce, hih]
      exact if_pos (List.isChain_cons_cons.mp h).1

end LogoCore.BlockLayout
