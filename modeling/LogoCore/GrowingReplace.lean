import LogoCore.RewriteComparison
import LogoCore.WStringGrowth

namespace LogoCore.Strings

open CStrings TextSearch

/-- Every store was inside the block, and the String fits it and is terminated. -/
structure Edit.Inside (e : Edit) : Prop where
  stores : ∀ i ∈ e.stores, i ≤ e.str.capacity
  len : e.str.len ≤ e.str.capacity
  terminator : e.str.bytes[e.str.len]? = some 0

namespace WString

/-- A block that realloc() grants is an object of the platform. -/
def Provided (s : WString) (size : ℕ) (a : Alloc) : Prop := a ≠ none → s.capacity < size → size + 1 < 2 ^ 31

variable {s find replace : WString} {f u t : List UInt8} {fuel : ℕ} {a : Alloc}

theorem Valid.inside (hs : s.Valid t) : (Edit.mk s []).Inside := by
  obtain ⟨rest, rfl, -, -⟩ := hs
  exact ⟨nofun, Nat.le_add_right _ _, by simp [bytes, holding]⟩

theorem grownSize_eq (hf : f ≠ []) (hlt : f.length < u.length) (t : List UInt8) :
    grownSize f u t = (substitute f u t).length % 2 ^ 32 := by
  rw [grownSize, length_substitute_of_le hf hlt.le]

theorem not_inside_of_released {size : ℕ} (hs : s.Valid t) (hsize : size + 1 = 2 ^ 32) :
    ¬ (Edit.mk (s.changeBuffer size none).2 []).Inside := by
  obtain ⟨rest, rfl, -, -⟩ := hs
  intro hin
  have hnul := hin.terminator
  simp [changeBuffer, hsize, bytes, holding] at hnul

theorem Rewritten.inside_iff {cap : ℕ} {e : Edit} (h : Rewritten f u t cap [] e) :
    e.Inside ↔ (rewriteBack f u t).length ≤ cap := by
  constructor
  · exact fun hin => h.stores_iff.mp hin.stores
  · intro hfits
    obtain ⟨junk, hstr⟩ := h.text hfits
    refine ⟨h.stores_iff.mpr hfits, ?_, ?_⟩ <;> rw [hstr]
    · exact Nat.le_add_right _ _
    · simp [bytes, holding]

theorem grows_inside (hs : s.Valid t) (hfind : find.Valid f) (hf : f ≠ []) (hreplace : replace.Valid u)
    (hlt : f.length < u.length) (ho : ¬ Overlaps f u) (hsize : (substitute f u t).length + 1 < 2 ^ 32)
    (hfuel : s.len < fuel) (ha : s.Provided (grownSize f u t) a) :
    ∃ e, s.replaceString fuel find replace a = some e ∧ e.Inside ∧ e.str.len ≤ (substitute f u t).length := by
  rw [hs.rep.len] at hfuel
  have hgrown : grownSize f u t = (substitute f u t).length := by
    rw [grownSize_eq hf hlt, Nat.mod_eq_of_lt (by omega)]
  have hcount := rewrites_eq_occurrences hlt.le ho hf t
  have hlen : (rewriteBack f u t).length = (substitute f u t).length := by
    rw [length_rewriteBack_of_le hlt.le, hcount, length_substitute_of_le hf hlt.le]
  have hshorter : s.len ≤ (substitute f u t).length := by
    rw [hs.rep.len, length_substitute_of_le hf hlt.le]
    exact Nat.le_add_right _ _
  rcases replaceString_longer hs hfind hf hreplace hlt hfuel a ha with
    ⟨-, hrun⟩ | ⟨-, ⟨-, -, hrun⟩ | ⟨-, -, e, hrun, hout⟩⟩
  · exact ⟨_, hrun, hs.inside, hshorter⟩
  · rw [changeBuffer_fails (by omega)] at hrun
    exact ⟨_, hrun, hs.inside, hshorter⟩
  · have hfits : (rewriteBack f u t).length ≤ max s.capacity (grownSize f u t) := by
      rw [hlen, hgrown]
      exact Nat.le_max_right _ _
    obtain ⟨junk, hstr⟩ := hout.text hfits
    refine ⟨e, hrun, hout.inside_iff.mpr hfits, ?_⟩
    rw [hstr]
    exact hlen.le

theorem wrapped_inside_iff (hs : s.Valid t) (hfind : find.Valid f) (hf : f ≠ []) (hreplace : replace.Valid u)
    (hlt : f.length < u.length) (hsize : 2 ^ 32 ≤ (substitute f u t).length + 1) (hfuel : s.len < fuel)
    (ha : s.Provided (grownSize f u t) a) :
    ∃ e, s.replaceString fuel find replace a = some e ∧ (e.Inside ↔ e = ⟨s, []⟩) := by
  have hnothing {e : Edit} (h : ¬ e.Inside) : e.Inside ↔ e = ⟨s, []⟩ :=
    iff_of_false h fun heq => h (heq ▸ hs.inside)
  rw [hs.rep.len] at hfuel
  rcases replaceString_longer hs hfind hf hreplace hlt hfuel a ha with
    ⟨-, hrun⟩ | ⟨-, ⟨-, -, hrun⟩ | ⟨-, hmax, e, hrun, hout⟩⟩
  · exact ⟨_, hrun, iff_of_true hs.inside rfl⟩
  · refine ⟨_, hrun, ?_⟩
    have hbound : grownSize f u t < 2 ^ 32 := Nat.mod_lt _ (by decide)
    by_cases hzero : grownSize f u t + 1 = 2 ^ 32
    · exact hnothing (not_inside_of_released hs hzero)
    · rw [changeBuffer_fails (by omega)]
      exact iff_of_true hs.inside rfl
  · refine ⟨e, hrun, hnothing fun hin => ?_⟩
    have hfits := hout.inside_iff.mp hin
    have hcount := occurrences_le_rewrites (u := u) hf t
    have hmul := Nat.mul_le_mul_right (u.length - f.length) hcount
    rw [length_rewriteBack_of_le hlt.le] at hfits
    rw [length_substitute_of_le hf hlt.le] at hsize
    omega

theorem substitutes_iff (hs : s.Valid t) (hfind : find.Valid f) (hf : f ≠ []) (hreplace : replace.Valid u)
    (hlt : f.length < u.length) (hfuel : s.len < fuel) (fill : ℕ → UInt8)
    (hsize : (substitute f u t).length + 1 < 2 ^ 31) :
    (∃ e, s.replaceString fuel find replace (some fill) = some e ∧ (∀ i ∈ e.stores, i ≤ e.str.capacity) ∧
      e.str.Valid (substitute f u t)) ↔ rewriteBack f u t = substitute f u t := by
  rw [hs.rep.len] at hfuel
  have hgrown : grownSize f u t = (substitute f u t).length := by
    rw [grownSize_eq hf hlt, Nat.mod_eq_of_lt (by omega)]
  rcases replaceString_longer hs hfind hf hreplace hlt hfuel (some fill) fun _ _ => by omega with
    ⟨hsame, hrun⟩ | ⟨-, ⟨-, hnone, -⟩ | ⟨-, hmax, e, hrun, hout⟩⟩
  · have hlen := length_substitute_of_le (u := u) hf hlt.le t
    have hzero : occurrences f t * (u.length - f.length) = 0 := by omega
    obtain ⟨hsub, hback⟩ := unchanged_of_occurrences (u := u) hf
      ((Nat.mul_eq_zero.mp hzero).resolve_right (by omega))
    rw [hsub, hback]
    exact iff_of_true ⟨_, hrun, List.forall_mem_nil _, hs⟩ rfl
  · cases hnone
  · have hvalid (hfits : (rewriteBack f u t).length ≤ max s.capacity (grownSize f u t)) :
        e.str.Valid (rewriteBack f u t) := by
      obtain ⟨junk, hstr⟩ := hout.text hfits
      have hcap := hout.capacity
      rw [hstr] at hcap ⊢
      exact ⟨junk, rfl, forall_mem_rewriteBack hreplace.rep.nulFree hs.rep.nulFree, by rw [← hcap] at hmax; exact hmax⟩
    constructor
    · rintro ⟨e', hrun', hstores, hsub⟩
      obtain rfl := Option.some.inj (hrun.symm.trans hrun')
      exact (hvalid (hout.stores_iff.mp hstores)).unique hsub
    · intro htext
      have hfits : (rewriteBack f u t).length ≤ max s.capacity (grownSize f u t) := by
        rw [htext, hgrown]
        exact Nat.le_max_right _ _
      exact ⟨e, hrun, hout.stores_iff.mpr hfits, htext ▸ hvalid hfits⟩

section Overlapping

variable {j : ℕ} (hj : j < f.length) (hlt : f.length < u.length)

include hj hlt

theorem valid_overlapped (hfree : NulFree f) (hsum : f.length + u.length + 1 < 2 ^ 31) :
    (holding (f.take j ++ f) []).Valid (f.take j ++ f) := by
  refine ⟨[], rfl, nulFree_append.mpr ⟨hfree.take j, hfree⟩, ?_⟩
  simp only [List.length_append, List.length_take, List.length_nil]
  omega

theorem length_substitute_overlapped : (substitute f u (f.take j ++ f)).length ≤ j + u.length := by
  have hf : f ≠ [] := List.ne_nil_of_length_pos (by omega)
  have hle := Nat.mul_le_mul_right (u.length - f.length) (occurrences_overlapped_le hf hj)
  rw [length_substitute_of_le hf hlt.le, List.length_append, List.length_take, Nat.min_eq_left hj.le]
  omega

theorem overlapped_overruns (hpos : 0 < j) (h : f.drop j <+: u) (hsum : f.length + u.length + 1 < 2 ^ 31)
    (hfind : find.Valid f) (hreplace : replace.Valid u) (hfuel : (f.take j ++ f).length < fuel) (fill : ℕ → UInt8)
    {e : Edit} (hrun : (holding (f.take j ++ f) []).replaceString fuel find replace (some fill) = some e) :
    ¬ e.Inside := by
  have hf : f ≠ [] := List.ne_nil_of_length_pos (by omega)
  have hs := valid_overlapped hj hlt hfind.rep.nulFree hsum
  have hsub := length_substitute_overlapped (u := u) hj hlt
  have hgrown : grownSize f u (f.take j ++ f) = (substitute f u (f.take j ++ f)).length := by
    rw [grownSize_eq hf hlt, Nat.mod_eq_of_lt (by omega)]
  have hmore := occurrences_lt_rewrites hpos hj h
  have hcapacity : (holding (f.take j ++ f) []).capacity = (f.take j ++ f).length := rfl
  have hlen := length_substitute_of_le (u := u) hf hlt.le (f.take j ++ f)
  have hback := length_rewriteBack_of_le hlt.le (f.take j ++ f)
  have hmul := Nat.mul_le_mul_right (u.length - f.length) hmore
  rw [Nat.succ_mul] at hmul
  rcases replaceString_longer hs hfind hf hreplace hlt hfuel (some fill) fun _ _ => by omega with
    ⟨hsame, -⟩ | ⟨-, ⟨-, hnone, -⟩ | ⟨-, -, e', hrun', hout⟩⟩
  · -- the occurrence of `f` at the end is counted
    have hone : 0 < occurrences f (f.take j ++ f) := by
      by_contra hzero
      have hzero : occurrences f (f.take j ++ f) = 0 := by omega
      have hunchanged := (unchanged_of_occurrences (u := u) hf hzero).2
      rw [hunchanged] at hback
      omega
    have := Nat.mul_pos hone (Nat.sub_pos_of_lt hlt)
    omega
  · cases hnone
  · obtain rfl := Option.some.inj (hrun'.symm.trans hrun)
    rw [hout.inside_iff, hgrown, hcapacity]
    omega

end Overlapping

end WString

/-- For a given find and replacement the stores stay inside the block, and no more is substituted than was counted,
for all texts whose result has a size, exactly when no proper suffix of find begins the replacement. Where the size
wraps around, they do only if the call does nothing. -/
theorem growing_replace_inside_iff {find replace : WString} {f u : List UInt8} (hfind : find.Valid f) (hf : f ≠ [])
    (hreplace : replace.Valid u) (hlt : f.length < u.length) (hsum : f.length + u.length + 1 < 2 ^ 31) :
    ((∀ (s : WString) (t : List UInt8), s.Valid t → (substitute f u t).length + 1 < 2 ^ 32 →
      ∀ fuel a, s.len < fuel → s.Provided (WString.grownSize f u t) a →
        ∃ e, s.replaceString fuel find replace a = some e ∧ e.Inside ∧ e.str.len ≤ (substitute f u t).length) ↔
      ¬ Overlaps f u) ∧
    ∀ (s : WString) (t : List UInt8), s.Valid t → 2 ^ 32 ≤ (substitute f u t).length + 1 →
      ∀ fuel a, s.len < fuel → s.Provided (WString.grownSize f u t) a →
        ∃ e, s.replaceString fuel find replace a = some e ∧ (e.Inside ↔ e = ⟨s, []⟩) := by
  refine ⟨⟨?_, ?_⟩, ?_⟩
  · rintro hall ⟨j, hpos, hj, hover⟩
    have hs := WString.valid_overlapped hj hlt hfind.rep.nulFree hsum
    have hsub := WString.length_substitute_overlapped (u := u) hj hlt
    have hgrown := WString.grownSize_eq hf hlt (f.take j ++ f)
    have ha : (WString.holding (f.take j ++ f) []).Provided (WString.grownSize f u (f.take j ++ f))
        (some fun _ => 0) := by
      intro _ _
      rw [hgrown, Nat.mod_eq_of_lt] <;> omega
    obtain ⟨e, hrun, hin, -⟩ := hall _ _ hs (by omega) ((f.take j ++ f).length + 1) _ (Nat.lt_succ_self _) ha
    exact WString.overlapped_overruns hj hlt hpos hover hsum hfind hreplace (Nat.lt_succ_self _) _ hrun hin
  · exact fun ho s t hs hsize fuel a hfuel ha => WString.grows_inside hs hfind hf hreplace hlt ho hsize hfuel ha
  · exact fun s t hs hsize fuel a hfuel ha => WString.wrapped_inside_iff hs hfind hf hreplace hlt hsize hfuel ha

theorem growing_replace_inside_of_room :
    ∃ e, (WString.holding [120, 97, 98] []).replaceString 4 (WString.holding [97, 98] [])
      (WString.holding [99, 100, 101] []) (some fun _ => 0) = some e ∧ e.Inside := by
  have h := growing_replace_inside_iff (WString.valid_of_nulFree [97, 98] (by decide) (by decide)) (by decide)
    (WString.valid_of_nulFree [99, 100, 101] (by decide) (by decide)) (by decide) (by decide)
  obtain ⟨e, he, hin, -⟩ := h.1.mpr (by decide) _ _
    (WString.valid_of_nulFree [120, 97, 98] (by decide) (by decide)) (by decide) 4 (some fun _ => 0) (by decide)
    fun _ _ => by decide
  exact ⟨e, he, hin⟩

/-- "aab" with "bXX" for "ab": one occurrence is counted, but the first replacement makes another one with the "a"
before it, and the terminator of the second one is stored at index 5 of a block of 5 bytes. -/
theorem growing_replace_overruns :
    ∃ e, (WString.holding [97, 97, 98] []).replaceString 4 (WString.holding [97, 98] [])
      (WString.holding [98, 88, 88] []) (some fun _ => 0) = some e ∧ 5 ∈ e.stores ∧ e.str.capacity = 4 :=
  ⟨⟨⟨some [98, 88, 88, 88, 88], 4, 5⟩, [4, 1, 2, 3, 3, 4, 5, 0, 1, 2]⟩, by decide +kernel, by decide, rfl⟩

/-- For a given find and replacement the call yields the text substituted from the left, for all texts whose result
can be an object, exactly when no proper suffix of find begins the replacement or find itself. -/
theorem growing_replace_substitutes_iff {find replace : WString} {f u : List UInt8} (hfind : find.Valid f)
    (hf : f ≠ []) (hreplace : replace.Valid u) (hlt : f.length < u.length) (hsum : f.length + u.length + 1 < 2 ^ 31) :
    (∀ (s : WString) (t : List UInt8), s.Valid t → (substitute f u t).length + 1 < 2 ^ 31 →
      ∀ fuel fill, s.len < fuel →
      ∃ e, s.replaceString fuel find replace (some fill) = some e ∧ (∀ i ∈ e.stores, i ≤ e.str.capacity) ∧
        e.str.Valid (substitute f u t)) ↔
      ¬ Overlaps f u ∧ ¬ Overlaps f f := by
  constructor
  · intro hall
    have hmarks {j : ℕ} (hj : j < f.length) : rightmost f u (f.take j ++ f) = leftmost f (f.take j ++ f) := by
      have hs := WString.valid_overlapped hj hlt hfind.rep.nulFree hsum
      have hsize : (substitute f u (f.take j ++ f)).length + 1 < 2 ^ 31 := by
        have := WString.length_substitute_overlapped (u := u) hj hlt
        omega
      have hfuel : (WString.holding (f.take j ++ f) []).len < (f.take j ++ f).length + 1 := Nat.lt_succ_self _
      have hcall := hall _ _ hs hsize _ (fun _ => 0) hfuel
      rw [WString.substitutes_iff hs hfind hf hreplace hlt hfuel _ hsize] at hcall
      exact (rewriteBack_eq_substitute_iff hf hlt _).mp hcall
    have hu : ¬ Overlaps f u := by
      rintro ⟨j, hpos, hj, hover⟩
      have hmore := occurrences_lt_rewrites hpos hj hover
      rw [rewrites, hmarks hj, occurrences] at hmore
      exact lt_irrefl _ hmore
    refine ⟨hu, ?_⟩
    rintro ⟨j, hpos, hj, hover⟩
    exact rightmost_ne_leftmost hlt.le hu hpos hj hover (hmarks hj)
  · rintro ⟨hu, hself⟩ s t hs hsize fuel fill hfuel
    have htext := (rewriteBack_eq_substitute_iff hf hlt t).mpr (rightmost_eq_leftmost hlt.le hu hf hself t)
    exact (WString.substitutes_iff hs hfind hf hreplace hlt hfuel fill hsize).mpr htext

theorem growing_replace_substitutes_of_agreement :
    ∃ e, (WString.holding [120, 97, 98] []).replaceString 4 (WString.holding [97, 98] [])
      (WString.holding [99, 100, 101] []) (some fun _ => 0) = some e ∧
        e.str.Valid (substitute [97, 98] [99, 100, 101] [120, 97, 98]) := by
  have h := growing_replace_substitutes_iff (WString.valid_of_nulFree [97, 98] (by decide) (by decide)) (by decide)
    (WString.valid_of_nulFree [99, 100, 101] (by decide) (by decide)) (by decide) (by decide)
  obtain ⟨e, he, -, hvalid⟩ := h.mpr ⟨by decide, by decide⟩ _ _
    (WString.valid_of_nulFree [120, 97, 98] (by decide) (by decide)) (by decide) 4 (fun _ => 0) (by decide)
  exact ⟨e, he, hvalid⟩

/-- "aaa" with "bbb" for "aa" becomes "abbb"; from the left it would be "bbba". -/
theorem growing_replace_takes_last :
    ∃ e, (WString.holding [97, 97, 97] []).replaceString 4 (WString.holding [97, 97] [])
      (WString.holding [98, 98, 98] []) (some fun _ => 0) = some e ∧ e.str = WString.holding [97, 98, 98, 98] [] ∧
        substitute [97, 97] [98, 98, 98] [97, 97, 97] = ([98, 98, 98, 97] : List UInt8) :=
  ⟨⟨WString.holding [97, 98, 98, 98] [], [4, 1, 2, 3]⟩, by decide +kernel, rfl, by decide⟩

end LogoCore.Strings
