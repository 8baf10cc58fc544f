import Mathlib.Data.List.Infix
import Mathlib.Order.Bounds.Basic

namespace LogoCore.PrefixMatching

variable {α : Type*}

def matchLengths (p w : List α) : Set ℕ := {k | k ≤ p.length ∧ p.take k <:+ w}

def Matched (p w : List α) (k : ℕ) : Prop := IsGreatest (matchLengths p w) k

def Continues (p : List α) (c : α) (k j : ℕ) : Prop := p[j]? = some c ∧ p.take j <:+ p.take k

def continuations (p : List α) (c : α) (k m : ℕ) : Set ℕ := {l | ∀ j, l = j + 1 → j < m ∧ Continues p c k j}

section Continuations

variable {p : List α} {c : α} {j k m : ℕ}

theorem succ_mem_continuations_iff : j + 1 ∈ continuations p c k m ↔ j < m ∧ Continues p c k j := by
  constructor
  · intro h
    exact h j rfl
  · rintro h i hi
    rwa [← Nat.succ_inj.mp hi]

theorem le_of_mem_continuations {l : ℕ} (h : l ∈ continuations p c k m) : l ≤ m := by
  cases l with
  | zero => exact Nat.zero_le m
  | succ j => exact (h j rfl).1

theorem isGreatest_continuations_zero : IsGreatest (continuations p c k 0) 0 :=
  ⟨nofun, fun _ => le_of_mem_continuations⟩

theorem isGreatest_continuations_succ (hc : Continues p c k m) : IsGreatest (continuations p c k (m + 1)) (m + 1) :=
  ⟨succ_mem_continuations_iff.mpr ⟨Nat.lt_succ_self m, hc⟩, fun _ => le_of_mem_continuations⟩

theorem continuations_succ (hnot : ¬ Continues p c k m) : continuations p c k (m + 1) = continuations p c k m := by
  ext l
  cases l with
  | zero => exact iff_of_true nofun nofun
  | succ j =>
    rw [succ_mem_continuations_iff, succ_mem_continuations_iff, Nat.lt_succ_iff_lt_or_eq]
    constructor
    · rintro ⟨hlt | rfl, hc⟩
      · exact ⟨hlt, hc⟩
      · exact absurd hc hnot
    · rintro ⟨hlt, hc⟩
      exact ⟨.inl hlt, hc⟩

end Continuations

section Steps

variable {p w : List α} {c : α} {j k : ℕ}

theorem take_suffix_take_iff (hj : j ≤ k) (hk : k ≤ p.length) :
    p.take j <:+ p.take k ↔ ∀ i < j, p[i]? = p[i + (k - j)]? := by
  have hlen : (p.take k).length - (p.take j).length = k - j := by
    rw [List.length_take, List.length_take]
    omega
  rw [List.suffix_iff_eq_drop, hlen, List.ext_getElem?_iff]
  constructor
  · intro h i hi
    have hat := h i
    rwa [List.getElem?_take_of_lt hi, List.getElem?_drop, List.getElem?_take_of_lt (by omega), Nat.add_comm] at hat
  · intro h i
    rw [List.getElem?_drop]
    by_cases hi : i < j
    · rw [List.getElem?_take_of_lt hi, List.getElem?_take_of_lt (by omega), h i hi, Nat.add_comm]
    · rw [List.getElem?_take_eq_none (by omega), List.getElem?_take_eq_none (by omega)]

theorem take_succ_suffix_iff (hj : j < p.length) :
    p.take (j + 1) <:+ w ++ [c] ↔ p[j]? = some c ∧ p.take j <:+ w := by
  rw [List.take_succ_eq_append_getElem hj, List.getElem?_eq_getElem hj, Option.some_inj]
  constructor
  · rintro ⟨v, hv⟩
    rw [← List.append_assoc] at hv
    obtain ⟨hinit, hlast⟩ := List.append_inj' hv rfl
    exact ⟨List.singleton_inj.mp hlast, v, hinit⟩
  · rintro ⟨rfl, v, rfl⟩
    exact ⟨v, by rw [← List.append_assoc]⟩

theorem Matched.eq_length_iff (h : Matched p w k) : k = p.length ↔ p <:+ w := by
  constructor
  · rintro rfl
    have hsuffix := h.1.2
    rwa [List.take_length] at hsuffix
  · intro hw
    apply le_antisymm h.1.1
    apply h.2
    refine ⟨le_rfl, ?_⟩
    rwa [List.take_length]

theorem matched_nil (p : List α) : Matched p [] 0 := by
  refine ⟨⟨Nat.zero_le _, List.suffix_rfl⟩, ?_⟩
  rintro k ⟨hk, hsuffix⟩
  have hlen := congrArg List.length (List.suffix_nil.mp hsuffix)
  rw [List.length_take, List.length_nil] at hlen
  omega

theorem Matched.succ_mem_iff (h : Matched p w k) (hk : k < p.length) :
    j + 1 ∈ matchLengths p (w ++ [c]) ↔ j ≤ k ∧ Continues p c k j := by
  constructor
  · rintro ⟨hj, hsuffix⟩
    obtain ⟨hc, hw⟩ := (take_succ_suffix_iff hj).mp hsuffix
    have hle : j ≤ k := h.2 ⟨by omega, hw⟩
    refine ⟨hle, hc, ?_⟩
    apply List.suffix_of_suffix_length_le hw h.1.2
    rw [List.length_take, List.length_take]
    omega
  · rintro ⟨hle, hc, hsuffix⟩
    exact ⟨by omega, (take_succ_suffix_iff (by omega)).mpr ⟨hc, hsuffix.trans h.1.2⟩⟩

theorem Matched.matchLengths_concat (h : Matched p w k) (hk : k < p.length) :
    matchLengths p (w ++ [c]) = continuations p c k (k + 1) := by
  ext l
  cases l with
  | zero => exact iff_of_true ⟨Nat.zero_le _, by simp⟩ nofun
  | succ j =>
    rw [h.succ_mem_iff hk, succ_mem_continuations_iff, Nat.lt_succ_iff]

end Steps

structure FirstHit (ps : List (List α)) (text consumed rest : List α) (i : ℕ) : Prop where
  split : text = consumed ++ rest
  hit : ∃ p, ps[i]? = some p ∧ p <:+ consumed
  least : ∀ j < i, ∀ p, ps[j]? = some p → ¬ p <:+ consumed
  shortest : ∀ w, w <+: consumed → w ≠ consumed → ∀ p ∈ ps, ¬ p <:+ w

/-- What trying every pattern at the end of every prefix finds, and the text that is left. -/
def NaiveSearch (ps : List (List α)) (text : List α) : Option ℕ → List α → Prop
  | some i, rest => ∃ consumed, FirstHit ps text consumed rest i
  | none, rest => (∀ p ∈ ps, ¬ p <:+: text) ∧ rest = []

def EndsFirst (p : List α) (q : Option (List α)) (text : List α) : Prop :=
  ∃ consumed, consumed <+: text ∧ p <:+ consumed ∧ ∀ w, w <+: consumed → w ≠ consumed → ∀ t ∈ q, ¬ t <:+ w

section Hits

variable {p : List α} {q : Option (List α)} {text consumed rest : List α} {i : ℕ}

theorem EndsFirst.isInfix (h : EndsFirst p q text) : p <:+: text := by
  obtain ⟨consumed, htext, hsuffix, -⟩ := h
  exact hsuffix.isInfix.trans htext.isInfix

theorem endsFirst_none_iff : EndsFirst p none text ↔ p <:+: text := by
  refine ⟨EndsFirst.isInfix, ?_⟩
  rintro ⟨u, v, rfl⟩
  exact ⟨u ++ p, ⟨v, rfl⟩, ⟨u, rfl⟩, fun w _ _ t ht => nomatch ht⟩

theorem FirstHit.of_concat {ps : List (List α)} {w : List α} {c : α} (hclear : ∀ p ∈ ps, ¬ p <:+: w)
    (hhit : ∃ p, ps[i]? = some p ∧ p <:+ w ++ [c]) (hleast : ∀ j < i, ∀ p, ps[j]? = some p → ¬ p <:+ w ++ [c]) :
    FirstHit ps (w ++ c :: rest) (w ++ [c]) rest i where
  split := by rw [List.append_assoc, List.singleton_append]
  hit := hhit
  least := hleast
  shortest := by
    intro v hv hne p hp hsuffix
    obtain heq | hv := List.prefix_concat_iff.mp hv
    · exact hne heq
    · exact hclear p hp (hsuffix.isInfix.trans hv.isInfix)

theorem FirstHit.zero_iff (h : FirstHit (p :: q.toList) text consumed rest i) : i = 0 ↔ EndsFirst p q text := by
  have hconsumed : consumed <+: text := ⟨rest, h.split.symm⟩
  constructor
  · rintro rfl
    obtain ⟨p', hp', hsuffix⟩ := h.hit
    obtain rfl := Option.some.inj hp'
    refine ⟨consumed, hconsumed, hsuffix, fun w hw hne t ht => h.shortest w hw hne t ?_⟩
    exact List.mem_cons_of_mem p (Option.mem_toList.mpr ht)
  · rintro ⟨other, hother, hsuffix, hfirst⟩
    have hle : consumed <+: other := by
      obtain hle | hle := List.prefix_or_prefix_of_prefix hconsumed hother
      · exact hle
      · by_contra hnot
        exact h.shortest other hle (fun heq => hnot (heq ▸ List.prefix_rfl)) p List.mem_cons_self hsuffix
    obtain ⟨t, ht, htsuffix⟩ := h.hit
    by_contra hi
    obtain ⟨j, rfl⟩ := Nat.exists_eq_succ_of_ne_zero hi
    by_cases heq : consumed = other
    · exact h.least 0 (Nat.succ_pos j) p rfl (heq ▸ hsuffix)
    · apply hfirst consumed hle heq t ?_ htsuffix
      rw [List.getElem?_cons_succ] at ht
      exact Option.mem_toList.mp (List.mem_of_getElem? ht)

theorem NaiveSearch.zero_iff {r : Option ℕ} (h : NaiveSearch (p :: q.toList) text r rest) :
    r = some 0 ↔ EndsFirst p q text := by
  cases r with
  | none => exact ⟨nofun, fun hends => absurd hends.isInfix (h.1 p List.mem_cons_self)⟩
  | some i =>
    obtain ⟨consumed, hhit⟩ := h
    rw [Option.some_inj]
    exact hhit.zero_iff

end Hits

end LogoCore.PrefixMatching
