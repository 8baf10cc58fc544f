import LogoCore.StoredStrings

namespace LogoCore.Strings

open CStrings TextSearch

/-- An unsigned number converted to `int`. -/
def asInt (n : ℕ) : ℤ := if n % 2 ^ 32 < 2 ^ 31 then (n % 2 ^ 32 : ℕ) else (n % 2 ^ 32 : ℕ) - 2 ^ 32

theorem asInt_of_lt {n : ℕ} (h : n < 2 ^ 31) : asInt n = n := by
  have hmod : n % 2 ^ 32 = n := Nat.mod_eq_of_lt (by omega)
  rw [asInt, hmod, if_pos h]

namespace WString

def lastIndexOfLoop (bs needle : List UInt8) (fromIndex : ℕ) : ℕ → ℕ → ℤ → Option ℤ
  | 0, _, _ => none
  | fuel + 1, p, found =>
    if fromIndex < p then some found
    else
      match strstr (bs.drop p) needle with
      | none => some found
      | some o =>
        lastIndexOfLoop bs needle fromIndex fuel (p + o + 1) (if p + o ≤ fromIndex then asInt (p + o) else found)

def lastIndexOfFrom (fuel : ℕ) (s s2 : WString) (fromIndex : ℕ) : Option ℤ :=
  if s2.len = 0 ∨ s.len = 0 ∨ s.len < s2.len then some (-1)
  else
    lastIndexOfLoop s.bytes s2.bytes (if s.len ≤ fromIndex then s.len - 1 else fromIndex)
      fuel 0 (-1)

def lastIndexOf (fuel : ℕ) (s s2 : WString) : Option ℤ :=
  s.lastIndexOfFrom fuel s2 ((s.len + 2 ^ 32 - s2.len) % 2 ^ 32)

def position : Option ℕ → ℤ
  | none => -1
  | some i => i

def LastMatch (t u : List UInt8) (p : ℕ → Prop) (result : ℤ) : Prop :=
  (u ≠ [] ∧ ∃ i : ℕ, IsGreatest {i | p i ∧ u <+: t.drop i} i ∧ result = i) ∨
    (u = [] ∨ ∀ i, p i → ¬ u <+: t.drop i) ∧ result = -1

section Loop

variable {needle : List UInt8} {fromIndex : ℕ}

theorem lastIndexOfLoop_total (bs needle : List UInt8) {fuel p : ℕ} (hfuel : fromIndex + 1 - p < fuel) (found : ℤ) :
    ∃ r, lastIndexOfLoop bs needle fromIndex fuel p found = some r ∧ (r = found ∨ ∃ i ≤ fromIndex, r = asInt i) := by
  induction fuel generalizing p found with
  | zero => exact absurd hfuel (Nat.not_lt_zero _)
  | succ fuel ih =>
    rw [lastIndexOfLoop]
    split
    · exact ⟨found, rfl, .inl rfl⟩
    · split
      · exact ⟨found, rfl, .inl rfl⟩
      · rename_i o _
        split
        · rename_i hle
          obtain ⟨r, hr, heq | hi⟩ := ih (show fromIndex + 1 - (p + o + 1) < fuel by omega) (asInt (p + o))
          · exact ⟨r, hr, .inr ⟨p + o, hle, heq⟩⟩
          · exact ⟨r, hr, .inr hi⟩
        · exact ih (by omega) found

variable {t f rest : List UInt8}

theorem strstr_text (ht : NulFree t) (hf : CStrings.cString needle = f) {p : ℕ} (hp : p ≤ t.length) :
    strstr ((t ++ 0 :: rest).drop p) needle = find f (t.drop p) := by
  rw [strstr, hf, List.drop_append_of_le_length hp, cString_append_nul (ht.drop p)]

theorem lastIndexOfLoop_spec (ht : NulFree t) (hshort : t.length < 2 ^ 31) (hneedle : CStrings.cString needle = f)
    (hf : f ≠ []) (hfrom : fromIndex < t.length) {fuel p : ℕ} (hfuel : fromIndex + 1 - p < fuel) {found : ℤ}
    (hfound : found = position (findLast f t (min p (fromIndex + 1)))) :
    lastIndexOfLoop (t ++ 0 :: rest) needle fromIndex fuel p found =
      some (position (findLast f t (fromIndex + 1))) := by
  induction fuel generalizing p found with
  | zero => exact absurd hfuel (Nat.not_lt_zero _)
  | succ fuel ih =>
    rw [lastIndexOfLoop]
    split
    · rename_i hp
      rw [hfound, Nat.min_eq_right (by omega)]
    · rename_i hp
      rw [Nat.min_eq_left (by omega)] at hfound
      rw [strstr_text ht hneedle (by omega)]
      cases hfind : find f (t.drop p) with
      | none =>
        rw [find_eq_none_iff hf] at hfind
        simp only [hfound, Option.some.injEq]
        rw [findLast_skip (show p ≤ fromIndex + 1 by omega)]
        intro i hi _ hocc
        apply hfind (i - p)
        rwa [List.drop_drop, Nat.add_sub_cancel' hi]
      | some o =>
        rw [find_eq_some_iff hf, List.drop_drop] at hfind
        obtain ⟨hocc, hfirst⟩ := hfind
        simp only
        apply ih (by omega)
        split
        · rename_i hle
          rw [Nat.min_eq_left (by omega), findLast_of_occurs hocc, asInt_of_lt (by omega)]
          rfl
        · rename_i hgt
          rw [Nat.min_eq_right (by omega), hfound, findLast_skip (show p ≤ fromIndex + 1 by omega)]
          intro i hi hlt hocc'
          apply hfirst (i - p) (by omega)
          rwa [List.drop_drop, Nat.add_sub_cancel' hi]

end Loop

section LastIndexOf

variable {s r : WString} {t u : List UInt8} {fuel : ℕ}

theorem lastIndexOfFrom_spec (hs : s.Valid t) (hr : r.Valid u) (hu : u ≠ []) {k : ℕ}
    (hfuel : min (k + 1) t.length < fuel) :
    s.lastIndexOfFrom fuel r k = some (position (findLast u t (min (k + 1) t.length))) := by
  have hneedle := hr.cString_bytes
  have hpos := List.length_pos_iff.mpr hu
  rw [lastIndexOfFrom, hr.rep.len, hs.rep.len]
  split
  · rename_i hnone
    have habsent : findLast u t (min (k + 1) t.length) = none := by
      rw [findLast_eq_none_iff]
      intro i _ hocc
      have := occurs_le_length hu hocc
      omega
    rw [habsent, position]
  · rename_i hsome
    have hshort := hs.short
    obtain ⟨rest, rfl, ht, -⟩ := hs
    have hlast : min (k + 1) t.length = (if t.length ≤ k then t.length - 1 else k) + 1 := by split <;> omega
    rw [hlast] at hfuel ⊢
    apply lastIndexOfLoop_spec ht (by omega) hneedle hu
    · split <;> omega
    · omega
    · rw [Nat.zero_min]
      rfl

theorem lastMatch_position {p : ℕ → Prop} {n : ℕ} (hu : u ≠ []) (h : ∀ i, u <+: t.drop i → (p i ↔ i < n)) :
    LastMatch t u p (position (findLast u t n)) := by
  cases hlast : findLast u t n with
  | none =>
    rw [findLast_eq_none_iff] at hlast
    exact .inr ⟨.inr fun i hi hocc => hlast i ((h i hocc).mp hi) hocc, rfl⟩
  | some i =>
    rw [findLast_eq_some_iff] at hlast
    have hset : {i | p i ∧ u <+: t.drop i} = {i | i < n ∧ u <+: t.drop i} := by
      ext j
      exact and_congr_left (h j)
    exact .inl ⟨hu, i, hset ▸ hlast, rfl⟩

end LastIndexOf

end WString

theorem lastIndexOf_finds_last_match {s r : WString} {t u : List UInt8} (hs : s.Valid t) (hr : r.Valid u) (fuel : ℕ)
    (hfuel : s.len < fuel) :
    (∀ fromIndex < 2 ^ 32, ∃ i, s.lastIndexOfFrom fuel r fromIndex = some i ∧
      WString.LastMatch t u (· ≤ fromIndex) i) ∧
      ∃ i, s.lastIndexOf fuel r = some i ∧ WString.LastMatch t u (fun _ => True) i := by
  rw [hs.rep.len] at hfuel
  by_cases hu : u = []
  · have hnone (k : ℕ) : s.lastIndexOfFrom fuel r k = some (-1) := by
      rw [WString.lastIndexOfFrom, if_pos (.inl (by rw [hr.rep.len, hu, List.length_nil]))]
    exact ⟨fun k _ => ⟨-1, hnone k, .inr ⟨.inl hu, rfl⟩⟩, -1, hnone _, .inr ⟨.inl hu, rfl⟩⟩
  · have hpos := List.length_pos_iff.mpr hu
    refine ⟨fun k _ => ⟨_, WString.lastIndexOfFrom_spec hs hr hu (by omega), ?_⟩, _,
      WString.lastIndexOfFrom_spec hs hr hu (by omega), ?_⟩
    · apply WString.lastMatch_position hu
      intro i hocc
      have := occurs_le_length hu hocc
      omega
    · apply WString.lastMatch_position hu
      intro i hocc
      have := occurs_le_length hu hocc
      have := hs.short
      have := hr.short
      rw [hs.rep.len, hr.rep.len]
      exact ⟨fun _ => by omega, fun _ => trivial⟩

theorem lastIndexOf_finds_last_match_abab :
    ∃ i, (WString.holding [97, 98, 97, 98] []).lastIndexOf 5 (WString.holding [97, 98] []) = some i ∧
      WString.LastMatch [97, 98, 97, 98] [97, 98] (fun _ => True) i :=
  (lastIndexOf_finds_last_match (WString.valid_of_nulFree _ (by decide) (by decide))
    (WString.valid_of_nulFree _ (by decide) (by decide)) 5 (by decide)).2

end LogoCore.Strings
