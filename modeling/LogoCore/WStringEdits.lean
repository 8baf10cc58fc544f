import LogoCore.WStringText
import Mathlib.Data.List.DropRight

namespace LogoCore.Strings.WString

open CStrings

variable {s : WString} {t : List UInt8}

theorem setCharAt_rep (h : s.Rep t) (loc : ℕ) {c : UInt8} (hc : c ≠ 0) : ∃ w, (s.setCharAt loc c).Rep w := by
  unfold setCharAt
  split
  · rename_i hloc
    rcases h with ⟨rfl, rfl⟩ | ⟨rest, rfl, ht, hlen⟩
    · exact absurd hloc (by simp [init])
    · have hlt : loc < t.length := hloc
      refine ⟨t.set loc c, rep_of_buffer rest ?_ ?_ ?_ (ht.set loc hc) ?_⟩
      · simp only [holding, Option.map_some, List.set_append_left _ _ hlt]
      · simp only [holding, List.length_set]
      · simp only [holding, List.length_set]
      · rwa [List.length_set]
  · exact ⟨t, h⟩

theorem mapText_rep (h : s.Rep t) {f : UInt8 → UInt8} (hf : ∀ b, b ≠ 0 → f b ≠ 0) :
    ({ s with buffer := s.buffer.map (mapText f) } : WString).Rep (t.map f) := by
  rcases h with ⟨rfl, rfl⟩ | ⟨rest, rfl, ht, hlen⟩
  · exact rep_init
  · refine rep_of_buffer rest ?_ ?_ ?_ (ht.map hf) ?_
    · simp only [holding, Option.map_some, mapText_append_nul ht]
    · simp only [holding, List.length_map]
    · simp only [holding, List.length_map]
    · rwa [List.length_map]

theorem replace_rep (h : s.Rep t) (find : UInt8) {new : UInt8} (hnew : new ≠ 0) : ∃ w, (s.replace find new).Rep w :=
  ⟨_, mapText_rep h fun b hb => by split <;> assumption⟩

theorem toLowerCase_rep (h : s.Rep t) : s.toLowerCase.Rep (t.map toLower) := mapText_rep h toLower_ne_zero

theorem toUpperCase_rep (h : s.Rep t) : s.toUpperCase.Rep (t.map toUpper) := mapText_rep h toUpper_ne_zero

theorem remove_rep (h : s.Rep t) (index count : ℕ) :
    (s.remove index count).Rep (t.take index ++ t.drop (index + count)) := by
  have hlen := h.len
  unfold remove
  split
  · rename_i hindex
    rwa [List.take_of_length_le (by omega), List.drop_eq_nil_of_le (by omega), List.append_nil]
  split
  · rename_i hcount
    rwa [hcount, Nat.add_zero, List.take_append_drop]
  rename_i hindex hcount
  rcases h with ⟨rfl, rfl⟩ | ⟨rest, rfl, ht, hlen⟩
  · exact absurd (Nat.zero_le index) hindex
  have hin : index < t.length := Nat.lt_of_not_le hindex
  set n := if (holding t rest).len - index < count then (holding t rest).len - index else count with hn
  have hn : index + n ≤ t.length := by
    change index + n ≤ (holding t rest).len
    rw [hn]
    split <;> omega
  have hsrc : ((t ++ 0 :: rest).drop (index + n)) = t.drop (index + n) ++ 0 :: rest :=
    List.drop_append_of_le_length hn
  have hcount : (t.drop (index + n)).length = t.length - n - index := by
    rw [List.length_drop]
    omega
  have hcopy : strncpy (t ++ 0 :: rest) index ((t ++ 0 :: rest).drop (index + n)) (t.length - n - index) =
      overwrite (t ++ 0 :: rest) index (t.drop (index + n)) := by
    refine strncpy_eq_overwrite _ _ _ ?_ hcount
    rw [hsrc, cString_append_nul (ht.drop _), List.take_of_length_le hcount.le]
  have hblock : (overwrite (t ++ 0 :: rest) index (t.drop (index + n))).length = t.length + rest.length + 1 := by
    simp
    omega
  have hkeep := overwrite_take (t ++ 0 :: rest) (t.drop (index + n)) index (t.length - n - index)
    (by simp; omega) hcount
  rw [show index + (t.length - n - index) = t.length - n by omega, List.take_append_of_le_length hin.le] at hkeep
  have htail : t.drop (index + count) = t.drop (index + n) := by
    rcases Nat.lt_or_ge (t.length - index) count with hlt | hge
    · have hn : n = t.length - index := if_pos hlt
      rw [List.drop_eq_nil_of_le (by omega), List.drop_eq_nil_of_le (by omega)]
    · have hn : n = count := if_neg (not_lt.mpr hge)
      rw [hn]
  rw [htail]
  change Rep ⟨some (overwrite (strncpy (t ++ 0 :: rest) index ((t ++ 0 :: rest).drop (index + n))
    (t.length - n - index)) (t.length - n) [0]), t.length + rest.length, t.length - n⟩ _
  rw [hcopy, ← hkeep]
  refine rep_terminate hblock hlen (by omega) ?_
  rw [hkeep]
  exact nulFree_append.mpr ⟨ht.take _, ht.drop _⟩

theorem trimEnd_le (bs : List UInt8) (start n : ℕ) : trimEnd bs start n ≤ n := by
  induction n with
  | zero => exact le_rfl
  | succ n ih =>
    rw [trimEnd]
    split <;> omega

theorem le_trimEnd (bs : List UInt8) {start n : ℕ} (h : start ≤ n) : start ≤ trimEnd bs start n := by
  induction n with
  | zero => exact h
  | succ n ih =>
    rw [trimEnd]
    split
    · rename_i hspace
      exact ih hspace.2
    · exact h

theorem takeWhile_isSpace_nul (t rest : List UInt8) :
    (t ++ 0 :: rest).takeWhile isSpace = t.takeWhile isSpace := by
  induction t with
  | nil => rfl
  | cons b t ih =>
    rw [List.cons_append, List.takeWhile_cons, List.takeWhile_cons, ih]

theorem drop_take_trimEnd (t rest : List UInt8) {start n : ℕ} (hstart : start ≤ n) (hn : n ≤ t.length) :
    (t.take (trimEnd (t ++ rest) start n)).drop start = ((t.take n).drop start).rdropWhile isSpace := by
  induction n with
  | zero =>
    rw [trimEnd, List.take_zero, List.drop_nil, List.rdropWhile_nil]
  | succ n ih =>
    have hbyte : (t ++ rest).getD n 0 = t.get ⟨n, hn⟩ := by
      rw [List.getD_eq_getElem?_getD, List.getElem?_append_left hn, List.getElem?_eq_getElem hn]
      rfl
    have htake : t.take (n + 1) = t.take n ++ [t.get ⟨n, hn⟩] := List.take_succ_eq_append_getElem hn
    rw [trimEnd, hbyte]
    rcases Nat.lt_or_eq_of_le hstart with hlt | rfl
    · have hdrop : (t.take (n + 1)).drop start = (t.take n).drop start ++ [t.get ⟨n, hn⟩] := by
        rw [htake, List.drop_append_of_le_length]
        rw [List.length_take]
        omega
      rw [hdrop, List.rdropWhile_concat]
      by_cases hspace : isSpace (t.get ⟨n, hn⟩) = true
      · rw [if_pos ⟨hspace, by omega⟩, if_pos hspace]
        exact ih (by omega) (by omega)
      · rw [if_neg fun h => hspace h.1, if_neg hspace, hdrop]
    · rw [if_neg fun h => by omega, List.drop_eq_nil_of_le (List.length_take_le _ _), List.rdropWhile_nil]

theorem trim_rep (h : s.Rep t) : s.trim.Rep ((t.dropWhile isSpace).rdropWhile isSpace) := by
  rcases h with ⟨rfl, rfl⟩ | ⟨rest, rfl, ht, hlen⟩
  · exact rep_init
  by_cases hempty : t.length = 0
  · obtain rfl := List.length_eq_zero_iff.mp hempty
    exact rep_holding ht hlen
  set bs := t ++ 0 :: rest with hbs
  set start := (bs.takeWhile isSpace).length
  set stop := trimEnd bs start t.length
  have hstart : start = (t.takeWhile isSpace).length := by rw [← takeWhile_isSpace_nul t rest]
  have hs : start ≤ t.length := hstart ▸ (List.takeWhile_prefix _).length_le
  have hle : stop ≤ t.length := trimEnd_le bs start t.length
  have hge : start ≤ stop := le_trimEnd bs hs
  have hmod : (stop + 2 ^ 32 - start) % 2 ^ 32 = stop - start := by omega
  set moved := if 0 < start then overwrite bs 0 ((bs.drop start).take (stop - start)) else bs with hmoved
  have htrim : (holding t rest).trim = ⟨some (overwrite moved (stop - start) [0]), t.length + rest.length,
      stop - start⟩ := by
    rw [hmoved, ← hmod]
    exact if_neg hempty
  have hblock : bs.length = t.length + rest.length + 1 := by
    simp only [hbs, List.length_append, List.length_cons]
    omega
  have hkeep : (bs.drop start).take (stop - start) = (t.drop start).take (stop - start) := by
    rw [hbs, List.drop_append_of_le_length hs, List.take_append_of_le_length]
    rw [List.length_drop]
    omega
  have htake : moved.take (stop - start) = (t.drop start).take (stop - start) := by
    rw [hmoved, ← hkeep]
    split
    · have hw : ((bs.drop start).take (stop - start)).length = stop - start := by
        rw [List.length_take, List.length_drop]
        omega
      simpa using overwrite_take bs _ 0 (stop - start) (by omega) hw
    · rename_i hzero
      rw [Nat.eq_zero_of_not_pos hzero, List.drop_zero]
  have hsize : moved.length = t.length + rest.length + 1 := by
    rw [hmoved]
    split
    · rwa [length_overwrite]
    · exact hblock
  rw [htrim]
  have hkept : (t.drop start).take (stop - start) = (t.dropWhile isSpace).rdropWhile isSpace := by
    have hfront : t.drop start = t.dropWhile isSpace := by
      rw [hstart]
      nth_rewrite 2 [← List.takeWhile_append_dropWhile (p := isSpace) (l := t)]
      rw [List.drop_left]
    rw [← hfront, ← List.drop_take, drop_take_trimEnd t (0 :: rest) hs le_rfl, List.take_length]
  rw [← hkept, ← htake]
  refine rep_terminate hsize hlen (by omega) ?_
  rw [htake]
  exact (ht.drop _).take _

theorem cString_between (rest : List UInt8) (ht : NulFree t) {left right : ℕ} (hlr : left ≤ right)
    (hr : right ≤ t.length) :
    CStrings.cString ((overwrite (t ++ 0 :: rest) right [0]).drop left) = (t.take right).drop left := by
  have hlen : (t.take right).length = right := by
    rw [List.length_take]
    omega
  rw [overwrite_nul _ _ (by simp; omega), List.take_append_of_le_length hr,
    List.drop_append_of_le_length (by omega), cString_append_nul ((ht.take _).drop _)]

def slice (t : List UInt8) (left right : ℕ) : List UInt8 :=
  (t.take (min (max left right) t.length)).drop (min left right)

theorem swap_eq (left right : ℕ) :
    (if right < left then (right, left) else (left, right)) = (min left right, max left right) := by
  split
  · rw [Nat.min_eq_right (by omega), Nat.max_eq_left (by omega)]
  · rw [Nat.min_eq_left (by omega), Nat.max_eq_right (by omega)]

theorem slice_of_le {left right : ℕ} (h : t.length ≤ min left right) : slice t left right = [] := by
  rw [slice, List.drop_eq_nil_of_le]
  rw [List.length_take]
  omega

theorem substring_of_rep (h : s.Rep t) (left right : ℕ) (a a' : Alloc) :
    (slice t left right = [] ∧ s.substring left right a a' = init.copy [] 0 a) ∨
      ∃ src, CStrings.cString src = slice t left right ∧
        s.substring left right a a' = (init.copy [] 0 a).copy src (slice t left right).length a' := by
  simp only [substring, swap_eq]
  by_cases hl : s.len ≤ min left right
  · rw [if_pos hl]
    exact .inl ⟨slice_of_le (h.len ▸ hl), rfl⟩
  · rw [if_neg hl]
    rcases h with ⟨rfl, rfl⟩ | ⟨rest, rfl, ht, hlen⟩
    · exact absurd (Nat.zero_le _) hl
    · have hright : (if (holding t rest).len < max left right then (holding t rest).len else max left right) =
          min (max left right) t.length := by
        have hlen' : (holding t rest).len = t.length := rfl
        rw [hlen']
        split <;> omega
      have hl : min left right < t.length := Nat.lt_of_not_le hl
      have hsrc := cString_between rest ht (show min left right ≤ min (max left right) t.length by omega)
        (Nat.min_le_right _ _)
      refine .inr ⟨(overwrite (t ++ 0 :: rest) (min (max left right) t.length) [0]).drop (min left right), hsrc, ?_⟩
      rw [hright, slice, ← hsrc]
      rfl

theorem length_slice_le (t : List UInt8) (left right : ℕ) : (slice t left right).length ≤ t.length := by
  rw [slice, List.length_drop, List.length_take]
  omega

theorem substring_rep (h : s.Rep t) (left right : ℕ) (a a' : Alloc) : ∃ w, (s.substring left right a a').Rep w := by
  obtain ⟨w, hout⟩ : ∃ w, (init.copy [] 0 a).Rep w :=
    copy_rep rep_init (show CStrings.cString [] = [] from rfl) (by decide) a
  rcases substring_of_rep h left right a a' with ⟨-, hsub⟩ | ⟨src, hsrc, hsub⟩
  · rw [hsub]
    exact ⟨w, hout⟩
  · rw [hsub]
    have hle := length_slice_le t left right
    have hshort := h.short
    exact copy_rep hout hsrc (by omega) a'

end LogoCore.Strings.WString
