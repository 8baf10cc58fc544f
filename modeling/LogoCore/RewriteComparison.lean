import LogoCore.Substitution

namespace LogoCore.TextSearch

variable {α : Type*}

def Overlaps (f u : List α) : Prop := ∃ j, 0 < j ∧ j < f.length ∧ f.drop j <+: u

theorem overlaps_of_glued {f u x z : List α} (hx : x ≠ []) (hlt : x.length < f.length) (hu : f.length ≤ u.length)
    (h : f <+: x ++ (u ++ z)) : Overlaps f u := by
  refine ⟨x.length, List.length_pos_iff.mpr hx, hlt, ?_⟩
  have hdrop : f.drop x.length <+: u ++ z := by
    have := h.drop x.length
    rwa [List.drop_left] at this
  refine List.prefix_of_prefix_length_le hdrop (List.prefix_append u z) ?_
  rw [List.length_drop]
  omega

theorem exists_period {y u z w : List α} (h : y ++ (u ++ z) = u ++ w) (hle : y.length ≤ u.length) :
    ∃ u', u = y ++ u' ∧ u' <+: u := by
  obtain ⟨u', hu'⟩ : y <+: u :=
    List.prefix_of_prefix_length_le (List.prefix_append y _) (h ▸ List.prefix_append u w) hle
  have hshift : u ++ z = u' ++ w := by
    have hboth : y ++ (u ++ z) = y ++ (u' ++ w) := by rw [h, ← List.append_assoc, hu']
    exact List.append_cancel_left hboth
  refine ⟨u', hu'.symm, List.prefix_of_prefix_length_le (hshift ▸ List.prefix_append u' w) (List.prefix_append u z) ?_⟩
  rw [← hu', List.length_append]
  omega

theorem prefix_of_period {y f f' u u' : List α} (hy : y ≠ []) (hf : f = y ++ f') (hf' : f' <+: f)
    (hu : u = y ++ u') (hu' : u' <+: u) (hle : f.length ≤ u.length) : f <+: u := by
  have hpos := List.length_pos_iff.mpr hy
  have hfl : f.length = y.length + f'.length := by rw [hf, List.length_append]
  have hul : u.length = y.length + u'.length := by rw [hu, List.length_append]
  have htake (n : ℕ) (hn : n ≤ f.length) : f.take n <+: u := by
    induction n using Nat.strong_induction_on with
    | _ n ih =>
      rcases Nat.lt_or_ge y.length n with hlt | hge
      · have hshift : f.take n = y ++ f.take (n - y.length) := by
          obtain ⟨v, hv⟩ := hf'
          rw [hf, List.take_append, List.take_of_length_le hlt.le, ← hf, ← hv,
            List.take_append_of_le_length (by omega)]
        have hrest : f.take (n - y.length) <+: u' := by
          refine List.prefix_of_prefix_length_le (ih (n - y.length) (by omega) (by omega)) hu' ?_
          rw [List.length_take]
          omega
        rw [hshift, hu]
        exact (List.prefix_append_right_inj y).mpr hrest
      · rw [hf, List.take_append_of_le_length hge, hu]
        exact (List.take_prefix n y).trans (List.prefix_append y u')
  simpa using htake f.length le_rfl

variable [DecidableEq α]

instance (f u : List α) : Decidable (Overlaps f u) :=
  decidable_of_iff (∃ j < f.length, 0 < j ∧ f.drop j <+: u) (exists_congr fun _ => and_left_comm)

section Comparison

variable {f u : List α}

theorem unchanged_of_occurrences (hf : f ≠ []) {t : List α} (h : occurrences f t = 0) :
    substitute f u t = t ∧ rewriteBack f u t = t := by
  cases hfind : find f t with
  | none =>
    refine ⟨(substitute_of_none hf hfind).1, ?_⟩
    have habsent := unchanged_of_absent (f := f) (u := u) (x := t) (t := []) fun i _ => by
      rw [rewriteBack, List.append_nil]
      exact (find_eq_none_iff hf).mp hfind i
    simpa [rewriteBack] using habsent.1
  | some i =>
    obtain ⟨g, v, -, -, -, hcount⟩ := exists_split_of_find (u := u) hf hfind
    omega

theorem rewrites_eq_of_text_eq (hf : f ≠ []) (hu : f.length < u.length) {t : List α}
    (h : rewriteBack f u t = substitute f u t) : rewrites f u t = occurrences f t := by
  have hlen := congrArg List.length h
  rw [length_rewriteBack_of_le hu.le, length_substitute_of_le hf hu.le] at hlen
  exact Nat.eq_of_mul_eq_mul_right (Nat.sub_pos_of_lt hu) (Nat.add_left_cancel hlen)

theorem exists_rightmost_append (x t : List α) : ∃ ms, ms.length = x.length ∧
    rightmost f u (x ++ t) = ms ++ rightmost f u t := by
  induction x with
  | nil => exact ⟨[], rfl, rfl⟩
  | cons a x ih =>
    obtain ⟨ms, hlen, hms⟩ := ih
    exact ⟨_ :: ms, congrArg (· + 1) hlen, by rw [List.cons_append, rightmost, hms]; rfl⟩

theorem prefix_of_behind (hu : f.length ≤ u.length) {t y z v w : List α} {b : α} (hy : y ≠ []) (hyz : f = y ++ b :: z)
    (hocc : f <+: b :: z ++ v) (hback : rewriteBack f u (f ++ t) = y ++ (u ++ (b :: z ++ v).drop f.length))
    (htext : rewriteBack f u (f ++ t) = u ++ w) : f <+: rewriteBack f u (f ++ t) := by
  have hlen : f.length = y.length + (b :: z).length := by rw [hyz, List.length_append]
  have hf' : b :: z <+: f := List.prefix_of_prefix_length_le (List.prefix_append (b :: z) _) hocc (by omega)
  obtain ⟨u', hu', hperiod⟩ := exists_period (hback.symm.trans htext) (by omega)
  have hfu := prefix_of_period hy hyz hf' hu' hperiod hu
  rw [hback]
  nth_rewrite 1 [hyz]
  exact (List.prefix_append_right_inj _).mpr ((hf'.trans hfu).trans (List.prefix_append u _))

theorem rewriteBack_eq_substitute_iff (hf : f ≠ []) (hu : f.length < u.length) (t : List α) :
    rewriteBack f u t = substitute f u t ↔ rightmost f u t = leftmost f t := by
  induction t using search_induction hf with
  | nil => exact ⟨fun _ => rfl, fun _ => rfl⟩
  | missed a t h ih =>
    rw [substitute_missed h, leftmost_missed h, rightmost]
    by_cases hhead : f <+: a :: rewriteBack f u t
    · refine ⟨fun htext => ?_, fun hmarks => ?_⟩
      · -- one more replacement than there are occurrences from the left
        rw [← substitute_missed h] at htext
        have heq := rewrites_eq_of_text_eq hf hu htext
        have hle := occurrences_le_rewrites (u := u) hf t
        rw [rewrites_hit hhead, occurrences_missed h] at heq
        omega
      · rw [decide_eq_true hhead] at hmarks
        exact absurd (List.cons.inj hmarks).1 (by decide)
    · rw [rewriteBack_miss hhead, decide_eq_false hhead, List.cons.injEq, List.cons.injEq, ih]
      simp
  | found t ih =>
    rw [substitute_found hf, leftmost_found hf]
    have hlt := rewrites_lt_of_glued (t := t) hf (List.prefix_append f (rewriteBack f u t))
    constructor
    · intro htext
      have hone : rewrites f u (f ++ t) = rewrites f u t + 1 := by
        have heq := rewrites_eq_of_text_eq hf hu (htext.trans (substitute_found hf t).symm)
        have hle := occurrences_le_rewrites (u := u) hf t
        rw [occurrences_found hf] at heq
        omega
      obtain ⟨y, b, z, hyz, hocc, hback, hmarks⟩ := replaced_of_rewrites hone
      cases y with
      | nil =>
        obtain rfl : f = b :: z := hyz
        rw [hback, List.nil_append, List.append_cancel_left_eq, List.drop_left] at htext
        rw [hmarks, ih.mp htext]
        rfl
      | cons a y =>
        exfalso
        have hfront := prefix_of_behind hu.le (List.cons_ne_nil a y) hyz hocc hback htext
        obtain ⟨g, rfl⟩ : ∃ g, f = a :: g := ⟨_, hyz⟩
        exact not_prefix_of_unmarked (a := a) (t := g ++ t) hmarks hfront
    · intro hmarks
      obtain ⟨ms, hlen, hms⟩ := exists_rightmost_append (f := f) (u := u) f t
      have hpos := List.length_pos_iff.mpr hf
      have htail : rightmost f u t = leftmost f t := by
        rw [hms, ← List.cons_append] at hmarks
        refine (List.append_inj hmarks ?_).2
        rw [List.length_cons, List.length_replicate]
        omega
      have hone : rewrites f u (f ++ t) = rewrites f u t + 1 := by
        rw [rewrites, rewrites, hmarks, htail, List.count_cons_self, List.count_append, List.count_replicate]
        simp
      obtain ⟨y, b, z, hyz, hocc, hback, hmarks'⟩ := replaced_of_rewrites hone
      cases y with
      | nil =>
        obtain rfl : f = b :: z := hyz
        rw [hback, List.nil_append, List.drop_left, ih.mpr htail]
      | cons a y =>
        rw [hmarks'] at hmarks
        exact absurd (List.cons.inj hmarks).1 (by decide)

theorem rewriteBack_of_short {t : List α} (h : t.length < f.length) : rewriteBack f u t = t ∧ rewrites f u t = 0 := by
  induction t with
  | nil => exact ⟨rfl, rfl⟩
  | cons a t ih =>
    rw [List.length_cons] at h
    obtain ⟨htext, hcount⟩ := ih (by omega)
    have hhead : ¬ f <+: a :: rewriteBack f u t := by
      intro hp
      have := hp.length_le
      rw [htext, List.length_cons] at this
      omega
    rw [rewriteBack_miss hhead, rewrites_miss hhead, htext]
    exact ⟨rfl, hcount⟩

theorem rewriteBack_self (hf : f ≠ []) : rewriteBack f u f = u ∧ rewrites f u f = 1 := by
  cases f with
  | nil => exact absurd rfl hf
  | cons a f =>
    obtain ⟨htext, hcount⟩ := rewriteBack_of_short (f := a :: f) (u := u) (t := f) (Nat.lt_succ_self _)
    have hhead : a :: f <+: a :: rewriteBack (a :: f) u f := by rw [htext]
    rw [rewriteBack_hit hhead, rewrites_hit hhead, htext, hcount, List.drop_length, List.append_nil]
    exact ⟨rfl, rfl⟩

section NotOverlapping

variable (hu : f.length ≤ u.length) (ho : ¬ Overlaps f u)

include hu ho

theorem occurs_of_glued {x : List α} (t : List α) (hx : x ≠ []) (h : f <+: x ++ rewriteBack f u t) : f <+: x ++ t := by
  induction t generalizing x with
  | nil => exact h
  | cons a t ih =>
    by_cases hhead : f <+: a :: rewriteBack f u t
    · rw [rewriteBack_hit hhead] at h
      rcases Nat.lt_or_ge x.length f.length with hlt | hge
      · exact absurd (overlaps_of_glued hx hlt hu h) ho
      · exact (List.prefix_of_prefix_length_le h (List.prefix_append x _) hge).trans (List.prefix_append x _)
    · rw [rewriteBack_miss hhead, List.append_cons] at h
      rw [List.append_cons]
      exact ih (by simp) h

theorem rewrites_append_le {x : List α} (t : List α) (hx : x.length ≤ f.length) :
    rewrites f u (x ++ t) = rewrites f u t ∨ rewrites f u (x ++ t) = rewrites f u t + 1 ∧
      ∃ y z, y.length < x.length ∧ rewriteBack f u (x ++ t) = y ++ (u ++ z) := by
  induction x with
  | nil => exact .inl rfl
  | cons a x ih =>
    rw [List.length_cons] at hx
    rw [List.cons_append]
    by_cases hhead : f <+: a :: rewriteBack f u (x ++ t)
    · rw [rewrites_hit hhead, rewriteBack_hit hhead]
      rcases ih (by omega) with heq | ⟨-, y, z, hy, hback⟩
      · exact .inr ⟨by rw [heq], [], _, Nat.succ_pos _, rfl⟩
      · rw [hback, ← List.cons_append] at hhead
        refine absurd (overlaps_of_glued (List.cons_ne_nil a y) ?_ hu hhead) ho
        rw [List.length_cons]
        omega
    · rw [rewrites_miss hhead, rewriteBack_miss hhead]
      rcases ih (by omega) with heq | ⟨heq, y, z, hy, hback⟩
      · exact .inl heq
      · exact .inr ⟨heq, a :: y, z, Nat.succ_lt_succ hy, by rw [hback]; rfl⟩

theorem rewrites_found (hf : f ≠ []) (t : List α) : rewrites f u (f ++ t) = rewrites f u t + 1 := by
  have hlt := rewrites_lt_of_glued (t := t) hf (List.prefix_append f (rewriteBack f u t))
  rcases rewrites_append_le hu ho t le_rfl with heq | ⟨heq, -⟩ <;> omega

theorem not_glued_of_missed {a : α} {t : List α} (h : ¬ f <+: a :: t) : ¬ f <+: a :: rewriteBack f u t :=
  fun hg => h (occurs_of_glued hu ho t (List.cons_ne_nil a []) hg)

theorem rewrites_eq_occurrences (hf : f ≠ []) (t : List α) : rewrites f u t = occurrences f t := by
  induction t using search_induction hf with
  | nil => rfl
  | found t ih => rw [rewrites_found hu ho hf, occurrences_found hf, ih]
  | missed a t h ih => rw [rewrites_miss (not_glued_of_missed hu ho h), occurrences_missed h, ih]

theorem rightmost_eq_leftmost (hf : f ≠ []) (hself : ¬ Overlaps f f) (t : List α) :
    rightmost f u t = leftmost f t := by
  induction t using search_induction hf with
  | nil => rfl
  | missed a t h ih => rw [rightmost, decide_eq_false (not_glued_of_missed hu ho h), leftmost_missed h, ih]
  | found t ih =>
    obtain ⟨y, b, z, hyz, hocc, -, hmarks⟩ := replaced_of_rewrites (rewrites_found hu ho hf t)
    cases y with
    | nil =>
      obtain rfl : f = b :: z := hyz
      rw [hmarks, leftmost_found hf, ih]
      rfl
    | cons a y =>
      have hlen := congrArg List.length hyz
      rw [List.length_append, List.length_cons, List.length_cons] at hlen
      refine absurd ⟨(a :: y).length, Nat.succ_pos _, ?_, ?_⟩ hself
      · rw [List.length_cons]
        omega
      · have hdrop : f.drop (a :: y).length = b :: z := by rw [hyz, List.drop_left]
        rw [hdrop]
        refine List.prefix_of_prefix_length_le (List.prefix_append (b :: z) _) hocc ?_
        rw [List.length_cons]
        omega

end NotOverlapping

theorem occurrences_overlapped_le {j : ℕ} (hf : f ≠ []) (hj : j < f.length) : occurrences f (f.take j ++ f) ≤ 1 := by
  have hle := occurrences_mul_le hf (f.take j ++ f)
  rw [List.length_append, List.length_take] at hle
  by_contra hgt
  have := Nat.mul_le_mul_right f.length (Nat.lt_of_not_le hgt)
  omega

theorem occurrences_lt_rewrites {j : ℕ} (hpos : 0 < j) (hj : j < f.length) (h : f.drop j <+: u) :
    occurrences f (f.take j ++ f) < rewrites f u (f.take j ++ f) := by
  have hf : f ≠ [] := by
    rintro rfl
    exact absurd hj (Nat.not_lt_zero j)
  have hglued : f <+: f.take j ++ rewriteBack f u f := by
    rw [(rewriteBack_self hf).1]
    nth_rewrite 1 [← List.take_append_drop j f]
    exact (List.prefix_append_right_inj _).mpr h
  have hne : f.take j ≠ [] := by
    intro hnil
    have := congrArg List.length hnil
    rw [List.length_take, List.length_nil] at this
    omega
  have hlt := rewrites_lt_of_glued hne hglued
  rw [(rewriteBack_self hf).2] at hlt
  have := occurrences_overlapped_le hf hj
  omega

theorem rightmost_ne_leftmost {j : ℕ} (hu : f.length ≤ u.length) (ho : ¬ Overlaps f u) (hpos : 0 < j)
    (hj : j < f.length) (h : f.drop j <+: f) : rightmost f u (f.take j ++ f) ≠ leftmost f (f.take j ++ f) := by
  have hf : f ≠ [] := by
    rintro rfl
    exact absurd hj (Nat.not_lt_zero j)
  have hhead : f <+: f.take j ++ f := by
    nth_rewrite 1 [← List.take_append_drop j f]
    exact (List.prefix_append_right_inj _).mpr h
  have hsame : rewrites f u (f.take j ++ f) = rewrites f u f := by
    have hge := rewrites_append_ge (f := f) (u := u) (f.take j) f
    have hle := occurrences_overlapped_le hf hj
    rw [← rewrites_eq_occurrences hu ho hf] at hle
    rw [(rewriteBack_self hf).2] at hge ⊢
    omega
  obtain ⟨v, hv⟩ := hhead
  obtain ⟨k, rfl⟩ : ∃ k, j = k + 1 := ⟨j - 1, by omega⟩
  rw [(unchanged_of_rewrites hsame).2, ← hv, leftmost_found hf, List.length_take, Nat.min_eq_left hj.le,
    List.replicate_succ]
  intro heq
  exact absurd (List.cons.inj heq).1 (by decide)

end Comparison

end LogoCore.TextSearch
