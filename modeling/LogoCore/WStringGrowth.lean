import LogoCore.WStringReplace

namespace LogoCore.Strings

open CStrings TextSearch

namespace WString

section Total

variable {find replace : WString} {diff : ℤ} {steps : ℕ}

theorem asInt_le (n : ℕ) : asInt n ≤ n := by
  rw [asInt]
  split <;> omega

theorem lastIndexOfFrom_total (s find : WString) {k : ℕ} (h : k + 1 < steps) :
    ∃ r, s.lastIndexOfFrom steps find k = some r ∧ r ≤ k := by
  rw [lastIndexOfFrom]
  split
  · exact ⟨-1, rfl, by omega⟩
  · set start := if s.len ≤ k then s.len - 1 else k with hstart
    have hle : start ≤ k := by
      rw [hstart]
      split <;> omega
    obtain ⟨r, hr, rfl | ⟨i, hi, rfl⟩⟩ := lastIndexOfLoop_total s.bytes find.bytes
      (show start + 1 - 0 < steps by omega) (-1)
    · exact ⟨-1, hr, by omega⟩
    · refine ⟨asInt i, hr, ?_⟩
      have := asInt_le i
      omega

theorem mem_replaceAt_stores {e : Edit} {i j : ℕ} (h : j ∈ e.stores) :
    j ∈ (replaceAt find replace diff e i).stores := by
  simp [replaceAt, Edit.write, Edit.memmove, Edit.grow, h]

theorem replaceLonger_total (find replace : WString) (diff : ℤ) {fuel k : ℕ} (hfuel : k < fuel) (hsteps : k < steps)
    (e : Edit) :
    ∃ e', replaceLonger find replace diff steps fuel e (k - 1) = some e' ∧ e'.str.capacity = e.str.capacity ∧
      ∀ i ∈ e.stores, i ∈ e'.stores := by
  induction fuel generalizing k e with
  | zero => exact absurd hfuel (Nat.not_lt_zero _)
  | succ fuel ih =>
    rw [replaceLonger]
    split
    · exact ⟨e, rfl, rfl, fun i hi => hi⟩
    · rename_i hk
      obtain ⟨r, hr, hle⟩ := lastIndexOfFrom_total e.str find (show (k - 1 : ℤ).toNat + 1 < steps by omega)
      rw [hr]
      simp only
      split
      · exact ⟨e, rfl, rfl, fun i hi => hi⟩
      · rename_i hpos
        obtain ⟨e', he', hcap, hst⟩ := ih (show r.toNat < fuel by omega) (by omega)
          (replaceAt find replace diff e r.toNat)
        rw [Int.toNat_of_nonneg (by omega)] at he'
        exact ⟨e', he', hcap, fun i hi => hst i (mem_replaceAt_stores hi)⟩

end Total

section Rewriting

variable {find replace : WString} {f u : List UInt8}

theorem replaceAt_eq (hu : replace.contents = u) (hflen : find.len = f.length) (hlt : f.length < u.length)
    (before after junk : List UInt8) (cap : ℕ) (st : List ℕ)
    (hshort : (before ++ (f ++ after)).length + (u.length - f.length) < 2 ^ 32) :
    replaceAt find replace (u.length - f.length : ℤ)
        ⟨⟨some (before ++ (f ++ after) ++ 0 :: junk), cap, (before ++ (f ++ after)).length⟩, st⟩ before.length =
      ⟨⟨some (overwrite (before ++ (f ++ after) ++ 0 :: junk) before.length (u ++ (after ++ [0]))), cap,
        (before ++ (u ++ after)).length⟩,
        st ++ List.range' (before.length + u.length) after.length ++ [(before ++ (u ++ after)).length] ++
          List.range' before.length u.length⟩ := by
  have hdiff : before.length + f.length + ((u.length : ℤ) - f.length).toNat = before.length + u.length := by omega
  have hmoved : ((before ++ (f ++ after)).length + 2 ^ 32 - (before.length + f.length)) % 2 ^ 32 = after.length := by
    simp only [List.length_append] at hshort ⊢
    omega
  have hsource : ((before ++ (f ++ after) ++ 0 :: junk).drop (before.length + f.length)).take after.length = after := by
    rw [← List.drop_drop, List.append_assoc, List.drop_left, List.append_assoc, List.drop_left, List.take_left]
  have hlen : addInt (before ++ (f ++ after)).length (u.length - f.length : ℤ) = (before ++ (u ++ after)).length := by
    simp only [List.length_append] at hshort ⊢
    exact addInt_eq (by omega) (by omega)
  have hend : (before ++ (u ++ after)).length = before.length + u.length + after.length := by
    simp only [List.length_append]
    omega
  simp only [replaceAt, Edit.memmove, Edit.grow, Edit.write, hflen, hu, hdiff, hmoved, hsource, hlen, Option.map_some]
  rw [hend, overwrite_append_right, overwrite_append_left]
  rfl

theorem exists_junk (before after junk : List UInt8)
    (hroom : (before ++ (u ++ after)).length ≤ (before ++ (f ++ after)).length + junk.length) :
    ∃ junk', overwrite (before ++ (f ++ after) ++ 0 :: junk) before.length (u ++ (after ++ [0])) =
      before ++ (u ++ after) ++ 0 :: junk' ∧
        (before ++ (u ++ after)).length + junk'.length = (before ++ (f ++ after)).length + junk.length := by
  refine ⟨(f ++ after ++ 0 :: junk).drop (u ++ (after ++ [0])).length, ?_, ?_⟩
  · rw [List.append_assoc before, overwrite_append]
    · simp only [List.append_assoc, List.singleton_append]
    · simp only [List.length_append, List.length_cons, List.length_nil] at hroom ⊢
      omega
  · simp only [List.length_append, List.length_cons, List.length_nil, List.length_drop] at hroom ⊢
    omega

theorem rewrittenDown_le {t : List UInt8} {k : ℕ} (hlt : f.length < u.length) (hk : k ≤ t.length) :
    (rewrittenDown f u t k).length ≤ (rewriteBack f u t).length := by
  have hge := rewrites_append_ge (f := f) (u := u) (t.take k) (t.drop k)
  rw [List.take_append_drop] at hge
  rw [rewrittenDown, List.length_append, length_rewriteBack_of_le hlt.le, length_rewriteBack_of_le hlt.le,
    List.length_take_of_le hk, List.length_drop]
  have := Nat.mul_le_mul_right (u.length - f.length) hge
  omega

structure Rewritten (f u t : List UInt8) (cap : ℕ) (st : List ℕ) (e : Edit) : Prop where
  capacity : e.str.capacity = cap
  text : (rewriteBack f u t).length ≤ cap → ∃ junk, e.str = holding (rewriteBack f u t) junk
  inside : (rewriteBack f u t).length ≤ cap → ∀ i ∈ e.stores, i ∈ st ∨ i ≤ cap
  outside : cap < (rewriteBack f u t).length → ∃ i ∈ e.stores, cap < i

theorem Rewritten.forget {t : List UInt8} {cap : ℕ} {st more : List ℕ} {e : Edit}
    (h : Rewritten f u t cap (st ++ more) e)
    (hmore : (rewriteBack f u t).length ≤ cap → ∀ j ∈ more, j ≤ cap) : Rewritten f u t cap st e := by
  refine ⟨h.capacity, h.text, fun hfits j hj => ?_, h.outside⟩
  rcases h.inside hfits j hj with hj | hj
  · exact (List.mem_append.mp hj).imp_right (hmore hfits j)
  · exact .inr hj

theorem Rewritten.stores_iff {t : List UInt8} {cap : ℕ} {e : Edit} (h : Rewritten f u t cap [] e) :
    (∀ i ∈ e.stores, i ≤ e.str.capacity) ↔ (rewriteBack f u t).length ≤ cap := by
  rw [h.capacity]
  constructor
  · intro hstores
    by_contra hover
    obtain ⟨i, hi, hgt⟩ := h.outside (by omega)
    have hle := hstores i hi
    omega
  · intro hfits i hi
    exact (h.inside hfits i hi).resolve_left nofun

theorem replaceLonger_spec (hfind : find.Valid f) (hf : f ≠ []) (hreplace : replace.Valid u)
    (hlt : f.length < u.length) {t : List UInt8} (ht : NulFree t) {cap steps fuel : ℕ} (hcap : cap + 1 < 2 ^ 31)
    (hsteps : t.length < steps) {k : ℕ} (hk : k ≤ t.length) (hfuel : k < fuel) {junk : List UInt8}
    (hblock : (rewrittenDown f u t k).length + junk.length = cap) (st : List ℕ) :
    ∃ e, replaceLonger find replace (u.length - f.length : ℤ) steps fuel ⟨holding (rewrittenDown f u t k) junk, st⟩
      (k - 1) = some e ∧ Rewritten f u t cap st e := by
  induction k using Nat.strong_induction_on generalizing fuel junk st with
  | _ k ih =>
    obtain ⟨fuel, rfl⟩ : ∃ n, fuel = n + 1 := ⟨fuel - 1, by omega⟩
    have hfree : NulFree (rewrittenDown f u t k) :=
      nulFree_append.mpr ⟨ht.take k, forall_mem_rewriteBack hreplace.rep.nulFree (ht.drop k)⟩
    have hvalid : (holding (rewrittenDown f u t k) junk).Valid (rewrittenDown f u t k) := ⟨junk, rfl, hfree, by omega⟩
    have hlong : k ≤ (rewrittenDown f u t k).length := by
      rw [rewrittenDown, List.length_append, List.length_take_of_le hk]
      omega
    have hdone (hback : rewriteBack f u t = rewrittenDown f u t k) :
        Rewritten f u t cap st ⟨holding (rewrittenDown f u t k) junk, st⟩ := by
      refine ⟨hblock, fun _ => ⟨junk, by rw [hback]⟩, fun _ i hi => .inl hi, fun h => ?_⟩
      rw [hback] at h
      omega
    rw [replaceLonger]
    split
    · rename_i hneg
      obtain rfl : k = 0 := by omega
      exact ⟨_, rfl, hdone rfl⟩
    · rename_i hnonneg
      have hindex : ((k : ℤ) - 1).toNat + 1 = k := by omega
      rw [lastIndexOfFrom_spec hvalid hfind hf (by omega), hindex, Nat.min_eq_left hlong]
      cases hlast : findLast f (rewrittenDown f u t k) k with
      | none =>
        simp only
        rw [if_pos (show position none < 0 by decide)]
        exact ⟨_, rfl, hdone (rewrittenDown_of_none hk hlast).1⟩
      | some i =>
        obtain ⟨hik, -, hnext⟩ := rewrittenDown_of_some hk hlast
        obtain ⟨⟨-, hocc⟩, -⟩ := findLast_eq_some_iff.mp hlast
        simp only
        rw [if_neg (show ¬ position (some i) < 0 by simp [position])]
        change ∃ e, replaceLonger find replace (u.length - f.length : ℤ) steps fuel
          (replaceAt find replace _ ⟨holding (rewrittenDown f u t k) junk, st⟩ i) ((i : ℤ) - 1) = some e ∧ _
        -- the text around the occurrence
        have hsplit := occurs_eq_append hocc
        have hbefore : ((rewrittenDown f u t k).take i).length = i := List.length_take_of_le (by omega)
        set before := (rewrittenDown f u t k).take i
        set after := (rewrittenDown f u t k).drop (i + f.length)
        have hpass := replaceAt_eq hreplace.contents hfind.rep.len hlt before after junk cap st (by
          have := hreplace.short
          rw [← hsplit]
          omega)
        rw [← hsplit, hbefore] at hpass
        rw [holding, hblock, hpass]
        have hmore : (rewrittenDown f u t i).length ≤ (rewriteBack f u t).length := rewrittenDown_le hlt (by omega)
        rcases Nat.lt_or_ge cap (rewrittenDown f u t i).length with hover | hroom
        · -- the terminator of the longer text is already stored behind the block
          obtain ⟨e, he, hcapacity, hstores⟩ := replaceLonger_total find replace (u.length - f.length)
            (show i < fuel by omega) (show i < steps by omega) _
          refine ⟨e, he, hcapacity, fun h => absurd h (by omega), fun h => absurd h (by omega), fun _ => ?_⟩
          refine ⟨(rewrittenDown f u t i).length, hstores _ ?_, hover⟩
          rw [hnext]
          simp
        · obtain ⟨junk', hbytes, hsize⟩ := exists_junk (f := f) (u := u) before after junk
            (by rw [← hnext, ← hsplit]; omega)
          rw [hbefore, ← hsplit, ← hnext] at hbytes
          rw [← hsplit, ← hnext, hblock] at hsize
          obtain ⟨e, he, hrun⟩ := ih i hik (by omega) (show i < fuel by omega) hsize (st ++
            (List.range' (i + u.length) after.length ++ [(before ++ (u ++ after)).length] ++ List.range' i u.length))
          rw [holding, hsize] at he
          simp only [← List.append_assoc st] at he
          rw [hbytes, ← hnext]
          rw [← hnext] at he
          refine ⟨e, he, hrun.forget fun hfits j hj => ?_⟩
          have hend : (rewrittenDown f u t i).length = i + u.length + after.length := by
            rw [hnext]
            simp only [List.length_append, hbefore]
            omega
          simp only [List.mem_append, List.mem_range'_1, List.mem_singleton, ← hnext] at hj
          omega

end Rewriting

/-- The size that the counting loop arrives at. -/
def grownSize (f u t : List UInt8) : ℕ := (t.length + occurrences f t * (u.length - f.length)) % 2 ^ 32

theorem sizeNeeded_spec {find : WString} {f u : List UInt8} (hfind : CStrings.cString find.bytes = f) (hf : f ≠ [])
    (hflen : find.len = f.length) (hlt : f.length < u.length) {fuel size : ℕ} (before : List UInt8) {v : List UInt8}
    (rest : List UInt8) (hv : NulFree v) (hsize : size < 2 ^ 32) (hfuel : v.length < fuel) :
    sizeNeeded find (before ++ (v ++ 0 :: rest)) (u.length - f.length : ℤ) fuel before.length size =
      some ((size + occurrences f v * (u.length - f.length)) % 2 ^ 32) := by
  induction fuel generalizing before v size with
  | zero => exact absurd hfuel (Nat.not_lt_zero _)
  | succ fuel ih =>
    have hsearch : strstr ((before ++ (v ++ 0 :: rest)).drop before.length) find.bytes = TextSearch.find f v := by
      rw [List.drop_left]
      exact strstr_text (p := 0) hv hfind (Nat.zero_le _)
    rw [sizeNeeded, hsearch]
    cases hfound : TextSearch.find f v with
    | none =>
      rw [(substitute_of_none (u := u) hf hfound).2, Nat.zero_mul, Nat.add_zero, Nat.mod_eq_of_lt hsize]
    | some o =>
      obtain ⟨g, w, rfl, rfl, -, hcount⟩ := exists_split_of_find (u := u) hf hfound
      have hpos := List.length_pos_iff.mpr hf
      have hw : NulFree w := (nulFree_append.mp (nulFree_append.mp hv).2).2
      have hnext : addInt size (u.length - f.length : ℤ) = (size + (u.length - f.length)) % 2 ^ 32 := by
        rw [addInt]
        omega
      have hcursor : before.length + g.length + f.length = (before ++ (g ++ f)).length := by
        simp only [List.length_append]
        omega
      have hblock : before ++ (g ++ (f ++ w) ++ 0 :: rest) = (before ++ (g ++ f)) ++ (w ++ 0 :: rest) := by
        simp only [List.append_assoc]
      simp only [List.length_append] at hfuel
      simp only [hflen, hcursor, hnext, hblock]
      rw [ih _ hw (Nat.mod_lt _ (by decide)) (by omega), hcount, Nat.mod_add_mod, Nat.add_mul, Nat.one_mul,
        Nat.add_assoc, Nat.add_comm (u.length - f.length)]

section Growth

variable {s find replace : WString} {t f u : List UInt8} {fuel : ℕ}

theorem replaceString_longer (hs : s.Valid t) (hfind : find.Valid f) (hf : f ≠ []) (hreplace : replace.Valid u)
    (hlt : f.length < u.length) (hfuel : t.length < fuel) (a : Alloc)
    (ha : a ≠ none → s.capacity < grownSize f u t → grownSize f u t + 1 < 2 ^ 31) :
    (grownSize f u t = t.length ∧ s.replaceString fuel find replace a = some ⟨s, []⟩) ∨
      grownSize f u t ≠ t.length ∧
        (s.capacity < grownSize f u t ∧ a = none ∧
          s.replaceString fuel find replace a = some ⟨(s.changeBuffer (grownSize f u t) none).2, []⟩ ∨
        (s.capacity < grownSize f u t → a ≠ none) ∧ max s.capacity (grownSize f u t) + 1 < 2 ^ 31 ∧
          ∃ e, s.replaceString fuel find replace a = some e ∧
            Rewritten f u t (max s.capacity (grownSize f u t)) [] e) := by
  have hpos := List.length_pos_iff.mpr hf
  have hfshort := hfind.short
  have hushort := hreplace.short
  have hneedle : CStrings.cString find.bytes = f := hfind.cString_bytes
  rw [replaceString, hfind.rep.len, hreplace.rep.len, hs.rep.len]
  obtain ⟨rest, rfl, ht, hblock⟩ := hs
  have hsize : sizeNeeded find (holding t rest).bytes (u.length - f.length : ℤ) fuel 0 t.length =
      some (grownSize f u t) :=
    sizeNeeded_spec hneedle hf hfind.rep.len hlt [] rest ht (by omega) hfuel
  by_cases hempty : t.length = 0
  · left
    obtain rfl := List.length_eq_zero_iff.mp hempty
    exact ⟨by simp [grownSize, occurrences, leftmost, leftmostFrom], if_pos (.inl rfl)⟩
  rw [if_neg (by omega)]
  simp only [asInt_sub (show f.length < 2 ^ 31 by omega) (show u.length < 2 ^ 31 by omega)]
  rw [if_neg (by omega), if_neg (by omega), hsize]
  by_cases hsame : grownSize f u t = t.length
  · exact .inl ⟨hsame, if_pos hsame⟩
  refine .inr ⟨hsame, ?_⟩
  simp only
  rw [if_neg hsame]
  -- the loop starts at the last byte of the text
  have hrun (more : List UInt8) (hcap : t.length + more.length + 1 < 2 ^ 31) :
      ∃ e, replaceLonger find replace (u.length - f.length : ℤ) fuel fuel ⟨holding t more, []⟩
        (asInt ((holding t more).len - 1)) = some e ∧ Rewritten f u t (t.length + more.length) [] e := by
    have hall : rewrittenDown f u t t.length = t := by simp [rewrittenDown, rewriteBack]
    have hindex : asInt ((holding t more).len - 1) = (t.length : ℤ) - 1 := by
      change asInt (t.length - 1) = _
      rw [asInt_of_lt (by omega)]
      omega
    have := replaceLonger_spec hfind hf hreplace hlt ht hcap hfuel le_rfl hfuel
      (show (rewrittenDown f u t t.length).length + more.length = t.length + more.length by rw [hall]) []
    rwa [hall, ← hindex] at this
  by_cases hroom : (holding t rest).capacity < grownSize f u t
  · rw [if_pos hroom]
    cases a with
    | none =>
      left
      exact ⟨hroom, rfl, rfl⟩
    | some fill =>
      right
      have hgrant := ha (Option.some_ne_none fill) hroom
      obtain ⟨more, hchange, hcap⟩ := changeBuffer_holding (by omega) hroom fill
      rw [hchange, Nat.max_eq_right hroom.le, ← hcap]
      exact ⟨fun _ => Option.some_ne_none fill, by omega, hrun (rest ++ more) (by omega)⟩
  · rw [if_neg hroom, Nat.max_eq_left (Nat.le_of_not_lt hroom)]
    exact .inr ⟨fun h => absurd h hroom, hblock, hrun rest hblock⟩

end Growth

end WString

end LogoCore.Strings
