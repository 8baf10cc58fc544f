import Mathlib.Data.List.Count
import LogoCore.TextSearch

namespace LogoCore.TextSearch

variable {α : Type*}

variable [DecidableEq α]

def leftmostFrom (f : List α) : ℕ → List α → List Bool
  | _, [] => []
  | skip + 1, _ :: t => false :: leftmostFrom f skip t
  | 0, a :: t => if f <+: a :: t then true :: leftmostFrom f (f.length - 1) t else false :: leftmostFrom f 0 t

def leftmost (f t : List α) : List Bool := leftmostFrom f 0 t

def substituteFrom (f u : List α) : ℕ → List α → List α
  | _, [] => []
  | skip + 1, _ :: t => substituteFrom f u skip t
  | 0, a :: t => if f <+: a :: t then u ++ substituteFrom f u (f.length - 1) t else a :: substituteFrom f u 0 t

/-- The text with `u` for the leftmost non-overlapping occurrences of `f`. -/
def substitute (f u t : List α) : List α := substituteFrom f u 0 t

def occurrences (f t : List α) : ℕ := (leftmost f t).count true

def rewriteBack (f u : List α) : List α → List α
  | [] => []
  | a :: t =>
    if f <+: a :: rewriteBack f u t then u ++ (a :: rewriteBack f u t).drop f.length else a :: rewriteBack f u t

def rightmost (f u : List α) : List α → List Bool
  | [] => []
  | a :: t => decide (f <+: a :: rewriteBack f u t) :: rightmost f u t

def rewrites (f u t : List α) : ℕ := (rightmost f u t).count true

section Leftmost

variable {f u t : List α}

theorem search_induction {P : List α → Prop} (hf : f ≠ []) (nil : P []) (found : ∀ t, P t → P (f ++ t))
    (missed : ∀ a t, ¬ f <+: a :: t → P t → P (a :: t)) (t : List α) : P t := by
  induction hn : t.length using Nat.strong_induction_on generalizing t with
  | _ n ih =>
    have hpos := List.length_pos_iff.mpr hf
    cases t with
    | nil => exact nil
    | cons a t =>
      by_cases hhead : f <+: a :: t
      · obtain ⟨v, hv⟩ := hhead
        have hlen : f.length + v.length = n := by rw [← hn, ← hv, List.length_append]
        rw [← hv]
        exact found v (ih v.length (by omega) v rfl)
      · rw [List.length_cons] at hn
        exact missed a t hhead (ih t.length (by omega) t rfl)

theorem leftmostFrom_append (x t : List α) :
    leftmostFrom f x.length (x ++ t) = List.replicate x.length false ++ leftmost f t := by
  induction x with
  | nil => rfl
  | cons a x ih =>
    rw [List.length_cons, List.cons_append, leftmostFrom, ih]
    rfl

theorem substituteFrom_append (x t : List α) : substituteFrom f u x.length (x ++ t) = substitute f u t := by
  induction x with
  | nil => rfl
  | cons a x ih => rw [List.length_cons, List.cons_append, substituteFrom, ih]

theorem leftmost_found (hf : f ≠ []) (t : List α) :
    leftmost f (f ++ t) = true :: (List.replicate (f.length - 1) false ++ leftmost f t) := by
  cases f with
  | nil => exact absurd rfl hf
  | cons a f =>
    have hhead : a :: f <+: a :: (f ++ t) := List.prefix_append (a :: f) t
    rw [List.cons_append, leftmost, leftmostFrom, if_pos hhead]
    exact congrArg _ (leftmostFrom_append f t)

theorem substitute_found (hf : f ≠ []) (t : List α) : substitute f u (f ++ t) = u ++ substitute f u t := by
  cases f with
  | nil => exact absurd rfl hf
  | cons a f =>
    have hhead : a :: f <+: a :: (f ++ t) := List.prefix_append (a :: f) t
    rw [List.cons_append, substitute, substituteFrom, if_pos hhead]
    exact congrArg _ (substituteFrom_append f t)

theorem leftmost_missed {a : α} (h : ¬ f <+: a :: t) : leftmost f (a :: t) = false :: leftmost f t := if_neg h

theorem substitute_missed {a : α} (h : ¬ f <+: a :: t) : substitute f u (a :: t) = a :: substitute f u t := if_neg h

theorem occurrences_found (hf : f ≠ []) (t : List α) : occurrences f (f ++ t) = occurrences f t + 1 := by
  rw [occurrences, leftmost_found hf, List.count_cons_self, List.count_append, List.count_replicate]
  simp [occurrences]

theorem occurrences_missed {a : α} (h : ¬ f <+: a :: t) : occurrences f (a :: t) = occurrences f t := by
  rw [occurrences, leftmost_missed h, List.count_cons_of_ne (by decide), occurrences]

theorem substitute_of_none (hf : f ≠ []) (h : find f t = none) : substitute f u t = t ∧ occurrences f t = 0 := by
  rw [find_eq_none_iff hf] at h
  induction t with
  | nil => exact ⟨rfl, rfl⟩
  | cons a t ih =>
    obtain ⟨htext, hcount⟩ := ih fun i => h (i + 1)
    rw [substitute_missed (h 0), occurrences_missed (h 0), htext]
    exact ⟨rfl, hcount⟩

theorem exists_split_of_find (hf : f ≠ []) {i : ℕ} (h : find f t = some i) :
    ∃ g v, t = g ++ (f ++ v) ∧ g.length = i ∧ substitute f u t = g ++ (u ++ substitute f u v) ∧
      occurrences f t = occurrences f v + 1 := by
  rw [find_eq_some_iff hf] at h
  induction i generalizing t with
  | zero =>
    obtain ⟨v, rfl⟩ := h.1
    exact ⟨[], v, rfl, rfl, substitute_found hf v, occurrences_found hf v⟩
  | succ i ih =>
    cases t with
    | nil => exact absurd h.1 (by simpa using hf)
    | cons a t =>
      have hhead : ¬ f <+: a :: t := h.2 0 (Nat.succ_pos i)
      obtain ⟨g, v, htext, hlen, hsub, hcount⟩ := ih ⟨h.1, fun j hj => h.2 (j + 1) (Nat.succ_lt_succ hj)⟩
      refine ⟨a :: g, v, by rw [htext]; rfl, congrArg (· + 1) hlen, ?_, ?_⟩
      · rw [substitute_missed hhead, hsub]
        rfl
      · rw [occurrences_missed hhead, hcount]

theorem forall_mem_substitute {p : α → Prop} (hf : f ≠ []) (hu : ∀ b ∈ u, p b) (ht : ∀ b ∈ t, p b) :
    ∀ b ∈ substitute f u t, p b := by
  induction t using search_induction hf with
  | nil => exact nofun
  | found t ih =>
    rw [substitute_found hf, List.forall_mem_append]
    exact ⟨hu, ih (List.forall_mem_append.mp ht).2⟩
  | missed a t h ih =>
    rw [substitute_missed h, List.forall_mem_cons]
    exact ⟨ht a List.mem_cons_self, ih (List.forall_mem_cons.mp ht).2⟩

theorem length_substitute (hf : f ≠ []) (t : List α) :
    (substitute f u t).length + occurrences f t * f.length = t.length + occurrences f t * u.length := by
  induction t using search_induction hf with
  | nil => simp [substitute, substituteFrom, occurrences, leftmost, leftmostFrom]
  | found t ih =>
    rw [substitute_found hf, occurrences_found hf, List.length_append, List.length_append, Nat.add_mul, Nat.add_mul]
    omega
  | missed a t h ih =>
    rw [substitute_missed h, occurrences_missed h, List.length_cons, List.length_cons]
    omega

theorem length_substitute_of_le (hf : f ≠ []) (hu : f.length ≤ u.length) (t : List α) :
    (substitute f u t).length = t.length + occurrences f t * (u.length - f.length) := by
  obtain ⟨d, hd⟩ := Nat.exists_eq_add_of_le hu
  have hlen := length_substitute (u := u) hf t
  rw [hd, Nat.mul_add] at hlen
  rw [hd, Nat.add_sub_cancel_left]
  omega

theorem occurrences_mul_le (hf : f ≠ []) (t : List α) : occurrences f t * f.length ≤ t.length := by
  induction t using search_induction hf with
  | nil => simp [occurrences, leftmost, leftmostFrom]
  | found t ih =>
    rw [occurrences_found hf, List.length_append, Nat.add_mul]
    omega
  | missed a t h ih =>
    rw [occurrences_missed h, List.length_cons]
    omega

end Leftmost

section Rightmost

variable {f u : List α}

theorem rewriteBack_hit {a : α} {t : List α} (h : f <+: a :: rewriteBack f u t) :
    rewriteBack f u (a :: t) = u ++ (a :: rewriteBack f u t).drop f.length := if_pos h

theorem rewriteBack_miss {a : α} {t : List α} (h : ¬ f <+: a :: rewriteBack f u t) :
    rewriteBack f u (a :: t) = a :: rewriteBack f u t := if_neg h

theorem forall_mem_rewriteBack {p : α → Prop} {t : List α} (hu : ∀ b ∈ u, p b) (ht : ∀ b ∈ t, p b) :
    ∀ b ∈ rewriteBack f u t, p b := by
  induction t with
  | nil => exact nofun
  | cons a t ih =>
    have hall : ∀ b ∈ a :: rewriteBack f u t, p b :=
      List.forall_mem_cons.mpr ⟨ht a List.mem_cons_self, ih (List.forall_mem_cons.mp ht).2⟩
    by_cases h : f <+: a :: rewriteBack f u t
    · rw [rewriteBack_hit h, List.forall_mem_append]
      exact ⟨hu, fun b hb => hall b (List.mem_of_mem_drop hb)⟩
    · rw [rewriteBack_miss h]
      exact hall

theorem rewrites_hit {a : α} {t : List α} (h : f <+: a :: rewriteBack f u t) :
    rewrites f u (a :: t) = rewrites f u t + 1 := by
  rw [rewrites, rightmost, decide_eq_true h, List.count_cons_self, rewrites]

theorem rewrites_miss {a : α} {t : List α} (h : ¬ f <+: a :: rewriteBack f u t) :
    rewrites f u (a :: t) = rewrites f u t := by
  rw [rewrites, rightmost, decide_eq_false h, List.count_cons_of_ne (by decide), rewrites]

theorem length_rewriteBack (t : List α) :
    (rewriteBack f u t).length + rewrites f u t * f.length = t.length + rewrites f u t * u.length := by
  induction t with
  | nil => simp [rewriteBack, rewrites, rightmost]
  | cons a t ih =>
    by_cases h : f <+: a :: rewriteBack f u t
    · have hle := h.length_le
      rw [List.length_cons] at hle
      rw [rewriteBack_hit h, rewrites_hit h, List.length_append, List.length_drop, List.length_cons, List.length_cons,
        Nat.add_mul, Nat.add_mul]
      omega
    · rw [rewriteBack_miss h, rewrites_miss h, List.length_cons, List.length_cons]
      omega

theorem length_rewriteBack_of_le (hu : f.length ≤ u.length) (t : List α) :
    (rewriteBack f u t).length = t.length + rewrites f u t * (u.length - f.length) := by
  obtain ⟨d, hd⟩ := Nat.exists_eq_add_of_le hu
  have hlen := length_rewriteBack (f := f) (u := u) t
  rw [hd, Nat.mul_add] at hlen
  rw [hd, Nat.add_sub_cancel_left]
  omega

theorem rewrites_append_ge (x t : List α) : rewrites f u t ≤ rewrites f u (x ++ t) := by
  induction x with
  | nil => exact le_rfl
  | cons a x ih =>
    rw [List.cons_append]
    by_cases h : f <+: a :: rewriteBack f u (x ++ t)
    · rw [rewrites_hit h]
      omega
    · rw [rewrites_miss h]
      exact ih

theorem unchanged_of_rewrites {x t : List α} (h : rewrites f u (x ++ t) = rewrites f u t) :
    rewriteBack f u (x ++ t) = x ++ rewriteBack f u t ∧
      rightmost f u (x ++ t) = List.replicate x.length false ++ rightmost f u t := by
  induction x with
  | nil => exact ⟨rfl, rfl⟩
  | cons a x ih =>
    have hge := rewrites_append_ge (f := f) (u := u) x t
    rw [List.cons_append] at h ⊢
    by_cases hhead : f <+: a :: rewriteBack f u (x ++ t)
    · rw [rewrites_hit hhead] at h
      omega
    · rw [rewrites_miss hhead] at h
      obtain ⟨htext, hmarks⟩ := ih h
      rw [rewriteBack_miss hhead, rightmost, decide_eq_false hhead, htext, hmarks]
      exact ⟨rfl, rfl⟩

theorem unchanged_of_absent {x t : List α} (h : ∀ i < x.length, ¬ f <+: (x ++ rewriteBack f u t).drop i) :
    rewriteBack f u (x ++ t) = x ++ rewriteBack f u t ∧ rewrites f u (x ++ t) = rewrites f u t := by
  induction x with
  | nil => exact ⟨rfl, rfl⟩
  | cons a x ih =>
    obtain ⟨htext, hcount⟩ := ih fun i hi => h (i + 1) (Nat.succ_lt_succ hi)
    have hhead : ¬ f <+: a :: rewriteBack f u (x ++ t) := by
      rw [htext]
      exact h 0 (Nat.succ_pos _)
    rw [List.cons_append, rewriteBack_miss hhead, rewrites_miss hhead, htext, hcount]
    exact ⟨rfl, rfl⟩

def rewrittenDown (f u t : List α) (k : ℕ) : List α := t.take k ++ rewriteBack f u (t.drop k)

theorem rewrittenDown_of_none {t : List α} {k : ℕ} (hk : k ≤ t.length)
    (h : findLast f (rewrittenDown f u t k) k = none) :
    rewriteBack f u t = rewrittenDown f u t k ∧ rewrites f u t = rewrites f u (t.drop k) := by
  have hlen : (t.take k).length = k := List.length_take_of_le hk
  rw [findLast_eq_none_iff] at h
  have := unchanged_of_absent (x := t.take k) (t := t.drop k) (by rwa [hlen])
  rwa [List.take_append_drop] at this

theorem rewrittenDown_of_some {t : List α} {k i : ℕ} (hk : k ≤ t.length)
    (h : findLast f (rewrittenDown f u t k) k = some i) :
    i < k ∧ rewrites f u (t.drop i) = rewrites f u (t.drop k) + 1 ∧ rewrittenDown f u t i =
      (rewrittenDown f u t k).take i ++ (u ++ (rewrittenDown f u t k).drop (i + f.length)) := by
  obtain ⟨⟨hik, hocc⟩, hlast⟩ := findLast_eq_some_iff.mp h
  have hlen : (t.take k).length = k := List.length_take_of_le hk
  have htake : (rewrittenDown f u t k).take i = t.take i := by
    rw [rewrittenDown, List.take_append_of_le_length (by omega), List.take_take, Nat.min_eq_left hik.le]
  set z := (t.take k).drop (i + 1) with hz
  have hzlen : z.length = k - (i + 1) := by rw [hz, List.length_drop, hlen]
  have hsplit : t.drop (i + 1) = z ++ t.drop k := by
    rw [hz, ← List.drop_append_of_le_length (by omega), List.take_append_drop]
  have htail : (rewrittenDown f u t k).drop (i + 1) = z ++ rewriteBack f u (t.drop k) := by
    rw [rewrittenDown, List.drop_append_of_le_length (by omega)]
  obtain ⟨htext, hcount⟩ := unchanged_of_absent (f := f) (u := u) (x := z) (t := t.drop k) (by
    intro j hj hocc'
    rw [← htail, List.drop_drop] at hocc'
    have := hlast ⟨show i + 1 + j < k by omega, hocc'⟩
    omega)
  have hlt : i < (rewrittenDown f u t k).length := by
    rw [rewrittenDown, List.length_append]
    omega
  have hdrop : t.drop i = t[i] :: t.drop (i + 1) := List.drop_eq_getElem_cons (by omega)
  have hcur : (rewrittenDown f u t k).drop i = t[i] :: rewriteBack f u (t.drop (i + 1)) := by
    rw [hsplit, htext, ← htail, List.drop_eq_getElem_cons hlt]
    simp only [rewrittenDown]
    rw [List.getElem_append_left (by omega), List.getElem_take]
  rw [hcur] at hocc
  refine ⟨hik, ?_, ?_⟩
  · rw [hdrop, rewrites_hit hocc, hsplit, hcount]
  · rw [rewrittenDown, hdrop, rewriteBack_hit hocc, htake, ← hcur, List.drop_drop]

theorem rewrites_lt_of_glued {x t : List α} (hx : x ≠ []) (h : f <+: x ++ rewriteBack f u t) :
    rewrites f u t < rewrites f u (x ++ t) := by
  cases x with
  | nil => exact absurd rfl hx
  | cons a x =>
    have hge := rewrites_append_ge (f := f) (u := u) x t
    rw [List.cons_append]
    by_cases hhead : f <+: a :: rewriteBack f u (x ++ t)
    · rw [rewrites_hit hhead]
      omega
    · rw [rewrites_miss hhead]
      refine Nat.lt_of_le_of_ne hge fun heq => hhead ?_
      rw [(unchanged_of_rewrites heq.symm).1]
      exact h

theorem replaced_of_rewrites {x t : List α} (h : rewrites f u (x ++ t) = rewrites f u t + 1) :
    ∃ y b z, x = y ++ b :: z ∧ f <+: b :: z ++ rewriteBack f u t ∧
      rewriteBack f u (x ++ t) = y ++ (u ++ (b :: z ++ rewriteBack f u t).drop f.length) ∧
      rightmost f u (x ++ t) =
        List.replicate y.length false ++ true :: (List.replicate z.length false ++ rightmost f u t) := by
  induction x with
  | nil => exact absurd h (by simp)
  | cons a x ih =>
    rw [List.cons_append] at h ⊢
    by_cases hhead : f <+: a :: rewriteBack f u (x ++ t)
    · rw [rewrites_hit hhead] at h
      obtain ⟨htext, hmarks⟩ := unchanged_of_rewrites (Nat.succ_injective h)
      rw [rewriteBack_hit hhead, rightmost, decide_eq_true hhead, hmarks]
      rw [htext] at hhead ⊢
      exact ⟨[], a, x, rfl, hhead, rfl, rfl⟩
    · rw [rewrites_miss hhead] at h
      obtain ⟨y, b, z, rfl, hocc, htext, hmarks⟩ := ih h
      rw [rewriteBack_miss hhead, rightmost, decide_eq_false hhead, hmarks]
      rw [htext]
      exact ⟨a :: y, b, z, rfl, hocc, rfl, rfl⟩

theorem occurrences_le_rewrites (hf : f ≠ []) (t : List α) : occurrences f t ≤ rewrites f u t := by
  induction t using search_induction hf with
  | nil => exact le_rfl
  | found t ih =>
    have hlt := rewrites_lt_of_glued (t := t) hf (List.prefix_append f (rewriteBack f u t))
    rw [occurrences_found hf]
    omega
  | missed a t h ih =>
    have hge := rewrites_append_ge (f := f) (u := u) [a] t
    rw [List.singleton_append] at hge
    rw [occurrences_missed h]
    omega

theorem not_prefix_of_unmarked {a : α} {t : List α} {ms : List Bool} (h : rightmost f u (a :: t) = false :: ms) :
    ¬ f <+: rewriteBack f u (a :: t) := by
  have hhead : ¬ f <+: a :: rewriteBack f u t := by
    rw [rightmost] at h
    exact of_decide_eq_false (List.cons.inj h).1
  rwa [rewriteBack_miss hhead]

end Rightmost

end LogoCore.TextSearch
