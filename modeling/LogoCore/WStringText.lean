import LogoCore.WString

namespace LogoCore.Strings

open CStrings

namespace WString

def holding (t rest : List UInt8) : WString := ⟨some (t ++ 0 :: rest), t.length + rest.length, t.length⟩

def Rep (s : WString) (t : List UInt8) : Prop :=
  (s = init ∧ t = []) ∨ ∃ rest, s = holding t rest ∧ NulFree t ∧ t.length + rest.length + 1 < 2 ^ 32

theorem rep_init : Rep init [] := .inl ⟨rfl, rfl⟩

theorem rep_holding {t rest : List UInt8} (ht : NulFree t) (h : t.length + rest.length + 1 < 2 ^ 32) :
    Rep (holding t rest) t := .inr ⟨rest, rfl, ht, h⟩

theorem rep_of_buffer {s : WString} {t : List UInt8} (rest : List UInt8) (hb : s.buffer = some (t ++ 0 :: rest))
    (hc : s.capacity = t.length + rest.length) (hl : s.len = t.length) (ht : NulFree t)
    (h : t.length + rest.length + 1 < 2 ^ 32) : Rep s t := by
  obtain ⟨b, c, l⟩ := s
  obtain rfl : b = _ := hb
  obtain rfl : c = _ := hc
  obtain rfl : l = _ := hl
  exact rep_holding ht h

theorem rep_terminate {bs : List UInt8} {cap n : ℕ} (hlen : bs.length = cap + 1) (hcap : cap + 1 < 2 ^ 32)
    (hn : n ≤ cap) (h : NulFree (bs.take n)) : Rep ⟨some (overwrite bs n [0]), cap, n⟩ (bs.take n) := by
  have htake : (bs.take n).length = n := by
    rw [List.length_take]
    omega
  have hdrop : (bs.drop (n + 1)).length = cap - n := by
    rw [List.length_drop]
    omega
  refine rep_of_buffer _ (congrArg some (overwrite_nul bs n (by omega))) ?_ htake.symm h (by omega)
  change cap = _
  omega

theorem rep_strcpy {t ys src u : List UInt8} {cap : ℕ} (hlen : (t ++ ys).length = cap + 1) (hcap : cap + 1 < 2 ^ 32)
    (hfit : t.length + u.length ≤ cap) (ht : NulFree t) (hsrc : cString src = u) :
    Rep ⟨some (strcpy (t ++ ys) t.length src), cap, t.length + u.length⟩ (t ++ u) := by
  have hu : NulFree u := hsrc ▸ nulFree_cString src
  rw [List.length_append] at hlen
  have hwrite := overwrite_append t ys (u ++ [0]) (by simp only [List.length_append, List.length_singleton]; omega)
  have hrest : (t ++ u).length + (ys.drop (u ++ [0]).length).length = cap := by
    simp only [List.length_append, List.length_drop, List.length_singleton]
    omega
  refine rep_of_buffer (ys.drop (u ++ [0]).length) ?_ hrest.symm List.length_append.symm
    (nulFree_append.mpr ⟨ht, hu⟩) (by omega)
  simp only [strcpy, hsrc, hwrite, List.append_assoc, List.singleton_append]

theorem Rep.nulFree {s : WString} {t : List UInt8} (h : s.Rep t) : NulFree t := by
  rcases h with ⟨-, rfl⟩ | ⟨rest, -, ht, -⟩
  · exact nulFree_nil
  · exact ht

theorem Rep.len {s : WString} {t : List UInt8} (h : s.Rep t) : s.len = t.length := by
  rcases h with ⟨rfl, rfl⟩ | ⟨rest, rfl, -, -⟩ <;> rfl

theorem Rep.short {s : WString} {t : List UInt8} (h : s.Rep t) : t.length + 1 < 2 ^ 32 := by
  rcases h with ⟨rfl, rfl⟩ | ⟨rest, rfl, -, hlen⟩
  · decide
  · omega

theorem Rep.capacity {s : WString} {t : List UInt8} (h : s.Rep t) : s.capacity + 1 < 2 ^ 32 := by
  rcases h with ⟨rfl, rfl⟩ | ⟨rest, rfl, -, hlen⟩
  · decide
  · exact hlen

theorem Rep.cString {s : WString} {t bs : List UInt8} (h : s.Rep t) (hb : s.buffer = some bs) : cString bs = t := by
  rcases h with ⟨rfl, rfl⟩ | ⟨rest, rfl, ht, -⟩
  · cases hb
  · obtain rfl := Option.some.inj hb
    exact cString_append_nul ht rest

section Reserve

variable {s : WString} {t : List UInt8} {size : ℕ}

theorem changeBuffer_fails (hsize : size + 1 < 2 ^ 32) : s.changeBuffer size none = (false, s) := by
  have hmod : (size + 1) % 2 ^ 32 = size + 1 := Nat.mod_eq_of_lt hsize
  rw [changeBuffer, hmod]
  simp

theorem changeBuffer_some (hsize : size + 1 < 2 ^ 32) (fill : ℕ → UInt8) : s.changeBuffer size (some fill) =
    (true, { s with buffer := some (resize (s.buffer.getD []) (size + 1) fill), capacity := size }) := by
  rw [changeBuffer, Nat.mod_eq_of_lt hsize]

theorem changeBuffer_holding {rest : List UInt8} (hsize : size + 1 < 2 ^ 32) (hgrow : t.length + rest.length < size)
    (fill : ℕ → UInt8) :
    ∃ more, (holding t rest).changeBuffer size (some fill) = (true, holding t (rest ++ more)) ∧
      t.length + (rest ++ more).length = size := by
  refine ⟨(List.range (size + 1 - (t ++ 0 :: rest).length)).map fill, ?_⟩
  have hblock : resize (t ++ 0 :: rest) (size + 1) fill =
      t ++ 0 :: (rest ++ (List.range (size + 1 - (t ++ 0 :: rest).length)).map fill) := by
    rw [resize_of_le (by simp; omega)]
    simp
  have hcap : t.length + (rest ++ (List.range (size + 1 - (t ++ 0 :: rest).length)).map fill).length = size := by
    simp only [List.length_append, List.length_cons, List.length_map, List.length_range]
    omega
  refine ⟨?_, hcap⟩
  rw [changeBuffer_some hsize]
  simp only [holding, Option.getD_some, hblock, hcap]

theorem reserve_of_rep (h : s.Rep t) (hsize : size + 1 < 2 ^ 32) (a : Alloc) :
    s.reserve size a = (false, s) ∨ ∃ rest, s.reserve size a = (true, holding t rest) ∧
      size ≤ t.length + rest.length ∧ t.length + rest.length + 1 < 2 ^ 32 := by
  rcases h with ⟨rfl, rfl⟩ | ⟨rest, rfl, ht, hlen⟩
  · rw [reserve, if_neg (by simp [init])]
    cases a with
    | none => exact .inl (by rw [changeBuffer_fails hsize])
    | some fill =>
      right
      have hblock : (resize [] (size + 1) fill).length = size + 1 := by simp [resize]
      have hrest : ((resize [] (size + 1) fill).drop 1).length = size := by
        rw [List.length_drop]
        omega
      refine ⟨(resize [] (size + 1) fill).drop 1, ?_, by rw [hrest, List.length_nil, Nat.zero_add],
        by rwa [hrest, List.length_nil, Nat.zero_add]⟩
      rw [changeBuffer_some hsize]
      simp only [init, Option.getD_none, if_true, Option.map_some, holding, hrest]
      rw [overwrite_nul _ 0 (by omega)]
      simp
  · rw [reserve]
    split
    · rename_i hfits
      exact .inr ⟨rest, rfl, hfits.2, hlen⟩
    · rename_i hsmall
      have hgrow : t.length + rest.length < size := by simpa [holding] using hsmall
      cases a with
      | none => exact .inl (by rw [changeBuffer_fails hsize])
      | some fill =>
        right
        obtain ⟨more, hchange, hcap⟩ := changeBuffer_holding hsize hgrow fill
        refine ⟨rest ++ more, ?_, hcap.ge, by omega⟩
        rw [hchange]
        by_cases hzero : (holding t (rest ++ more)).len = 0
        · obtain rfl : t = [] := List.length_eq_zero_iff.mp hzero
          simp only [holding, Option.map_some, List.nil_append]
          rw [overwrite_nul _ 0 (by simp)]
          simp
        · simp only [if_neg hzero]

theorem reserve_rep (h : s.Rep t) (hsize : size + 1 < 2 ^ 32) (a : Alloc) : (s.reserve size a).2.Rep t := by
  rcases reserve_of_rep h hsize a with hr | ⟨rest, hr, -, hlen⟩
  · rw [hr]
    exact h
  · rw [hr]
    exact rep_holding h.nulFree hlen

theorem reserve_null_fails (h : s.buffer = none) : s.reserve size none = (false, s) := by
  obtain ⟨b, c, l⟩ := s
  obtain rfl : b = none := h
  simp [reserve, changeBuffer]

end Reserve

section Copies

variable {s : WString} {t c src : List UInt8}

theorem copy_of_rep (h : s.Rep t) (hsrc : CStrings.cString src = c) (hlen : c.length + 1 < 2 ^ 32) (a : Alloc) :
    s.copy src c.length a = init ∨ (s.copy src c.length a).Rep c := by
  rcases reserve_of_rep h hlen a with hr | ⟨rest, hr, hroom, hsize⟩
  · left
    rw [copy, hr]
    rfl
  · right
    have hblock : ([] ++ (t ++ 0 :: rest)).length = t.length + rest.length + 1 := by simp; omega
    have hcopy := rep_strcpy hblock hsize (by simpa using hroom) nulFree_nil hsrc
    rw [copy, hr]
    simpa [holding] using hcopy

theorem copy_rep (h : s.Rep t) (hsrc : CStrings.cString src = c) (hlen : c.length + 1 < 2 ^ 32) (a : Alloc) :
    ∃ u, (s.copy src c.length a).Rep u := by
  rcases copy_of_rep h hsrc hlen a with hc | hc
  · exact ⟨[], hc ▸ rep_init⟩
  · exact ⟨c, hc⟩

theorem assign_rep {r : WString} {u : List UInt8} (h : s.Rep t) (hr : r.Rep u) (a : Alloc) :
    ∃ w, (s.assign r a).Rep w := by
  unfold assign
  split
  · rename_i bs hbs
    rw [hr.len]
    exact copy_rep h (hr.cString hbs) hr.short a
  · exact ⟨[], rep_init⟩

theorem assignCStr_rep {cstr : Option (List UInt8)} (h : s.Rep t) (hc : ∀ c ∈ cstr, strlen c + 1 < 2 ^ 32)
    (a : Alloc) : ∃ w, (s.assignCStr cstr a).Rep w := by
  cases cstr with
  | none => exact ⟨[], rep_init⟩
  | some c => exact copy_rep h rfl (hc c rfl) a

theorem concat_of_rep {u : List UInt8} {cstr : Option (List UInt8)} (h : s.Rep t)
    (hsrc : ∀ c ∈ cstr, CStrings.cString c = u) (hlen : t.length + u.length + 1 < 2 ^ 32) (a : Alloc) :
    s.concat cstr u.length a = (false, s) ∨ ∃ s', s.concat cstr u.length a = (true, s') ∧ s'.Rep (t ++ u) := by
  cases cstr with
  | none => exact .inl rfl
  | some c =>
    have hnew : (s.len + u.length) % 2 ^ 32 = t.length + u.length := by
      rw [h.len, Nat.mod_eq_of_lt (by omega)]
    simp only [concat, hnew]
    split
    · rename_i hzero
      obtain rfl := List.length_eq_zero_iff.mp hzero
      exact .inr ⟨s, rfl, by rwa [List.append_nil]⟩
    · rcases reserve_of_rep h hlen a with hr | ⟨rest, hr, hroom, hsize⟩
      · left
        rw [hr]
      · right
        have hblock : (t ++ 0 :: rest).length = t.length + rest.length + 1 := by simp; omega
        rw [hr]
        exact ⟨_, rfl, rep_strcpy hblock hsize hroom h.nulFree (hsrc c rfl)⟩

theorem concat_rep {u : List UInt8} {cstr : Option (List UInt8)} (h : s.Rep t)
    (hsrc : ∀ c ∈ cstr, CStrings.cString c = u) (hlen : t.length + u.length + 1 < 2 ^ 32) (a : Alloc) :
    ∃ w, (s.concat cstr u.length a).2.Rep w := by
  rcases concat_of_rep h hsrc hlen a with hc | ⟨s', hc, hs'⟩
  · exact ⟨t, hc ▸ h⟩
  · exact ⟨t ++ u, hc ▸ hs'⟩

theorem plus_rep {u : List UInt8} {cstr : Option (List UInt8)} (h : s.Rep t)
    (hsrc : ∀ c ∈ cstr, CStrings.cString c = u) (hlen : t.length + u.length + 1 < 2 ^ 32) (a : Alloc) :
    ∃ w, (s.plus cstr u.length a).Rep w := by
  rcases concat_of_rep h hsrc hlen a with hc | ⟨s', hc, hs'⟩
  · exact ⟨[], by rw [plus, hc]; exact rep_init⟩
  · exact ⟨t ++ u, by rw [plus, hc]; exact hs'⟩

end Copies

section Moves

variable {s r : WString} {t u : List UInt8}

theorem move_of_rep (h : s.Rep t) (hr : r.Rep u) :
    s.move r = (r, init) ∨ (s.buffer.isSome ∧ r.buffer.isSome ∧ r.len ≤ s.capacity ∧
      (s.move r).1.Rep u ∧ (s.move r).2 = { r with len := 0 }) := by
  rcases h with ⟨rfl, rfl⟩ | ⟨rest, rfl, -, hlen⟩
  · left
    rfl
  · cases hbuf : r.buffer with
    | none =>
      left
      simp only [move, holding, hbuf]
      rfl
    | some rs =>
      by_cases hroom : r.len ≤ t.length + rest.length
      · right
        have hmove : (holding t rest).move r = (⟨some (strcpy (t ++ 0 :: rest) 0 rs), t.length + rest.length, r.len⟩,
            { r with len := 0 }) := by
          simp only [move, holding, hbuf, if_pos hroom]
        have hblock : ([] ++ (t ++ 0 :: rest)).length = t.length + rest.length + 1 := by simp; omega
        have hcopy := rep_strcpy hblock hlen (by simpa [hr.len] using hroom) nulFree_nil (hr.cString hbuf)
        rw [hmove]
        exact ⟨rfl, rfl, hroom, by simpa [hr.len] using hcopy, by rw [hbuf]⟩
      · left
        simp only [move, holding, hbuf, if_neg hroom]
        rfl

end Moves

end WString

end LogoCore.Strings
