import LogoCore.CStrings
import LogoCore.TextSearch

namespace LogoCore.CStrings

def strstr (haystack needle : List UInt8) : Option ℕ := TextSearch.find (cString needle) (cString haystack)

def strrchr (bs : List UInt8) (c : UInt8) : Option ℕ := TextSearch.findLast [c] (cString bs ++ [0]) (strlen bs + 1)

def memcpyWithin (bs : List UInt8) (dst src : ℕ) : ℕ → List UInt8
  | 0 => bs
  | n + 1 => memcpyWithin (bs.set dst (bs.getD src 0)) (dst + 1) (src + 1) n

def strcpyFrom : ℕ → List UInt8 → ℕ → ℕ → Option (List UInt8)
  | 0, _, _, _ => none
  | room + 1, bs, dst, src =>
    match bs[src]? with
    | none => none
    | some b => if b = 0 then some (bs.set dst b) else strcpyFrom room (bs.set dst b) (dst + 1) (src + 1)

def strcpyWithin (bs : List UInt8) (dst src : ℕ) : Option (List UInt8) := strcpyFrom (bs.length - dst) bs dst src

/-- strcpy() of a block with the bytes `src` to index `i` of a block of `n` bytes leaves neither of them. -/
def Copyable (src : List UInt8) (i n : ℕ) : Prop := strlen src < src.length ∧ i + strlen src < n

instance (src : List UInt8) (i n : ℕ) : Decidable (Copyable src i n) := inferInstanceAs (Decidable (_ ∧ _))

section Overwrite

variable {bs ws vs : List UInt8} {i : ℕ}

theorem getElem?_overwrite (bs ws : List UInt8) (i k : ℕ) : (overwrite bs i ws)[k]? =
    if i ≤ k ∧ k < i + ws.length ∧ k < bs.length then ws[k - i]? else bs[k]? := by
  rw [overwrite, List.getElem?_take]
  by_cases hk : k < bs.length
  · rw [if_pos hk, List.append_assoc, List.getElem?_append, List.length_take]
    by_cases hi : k < i
    · rw [if_pos (by omega), List.getElem?_take, if_pos hi, if_neg (by omega)]
    · rw [if_neg (by omega), List.getElem?_append]
      by_cases hw : k < i + ws.length
      · rw [if_pos (by omega), if_pos ⟨by omega, hw, hk⟩]
        congr 1
        omega
      · rw [if_neg (by omega), if_neg (by omega), List.getElem?_drop]
        congr 1
        omega
  · rw [if_neg hk, if_neg (by omega), List.getElem?_eq_none (by omega)]

theorem overwrite_nil (bs : List UInt8) (i : ℕ) : overwrite bs i [] = bs := by
  rw [overwrite, List.append_nil, List.length_nil, Nat.add_zero, List.take_append_drop, List.take_length]

theorem overwrite_cons (bs ws : List UInt8) (i : ℕ) (b : UInt8) :
    overwrite bs i (b :: ws) = overwrite (bs.set i b) (i + 1) ws := by
  apply List.ext_getElem?
  intro k
  simp only [getElem?_overwrite, List.length_cons, List.length_set, List.getElem?_set]
  grind

theorem overwrite_exact (xs x ys : List UInt8) {ws : List UInt8} (h : ws.length = x.length) :
    overwrite (xs ++ (x ++ ys)) xs.length ws = xs ++ (ws ++ ys) := by
  rw [overwrite_append _ _ _ (by rw [List.length_append]; omega), h, List.drop_left, List.append_assoc]

theorem overwrite_append_right (bs ws vs : List UInt8) (i : ℕ) :
    overwrite (overwrite bs i ws) (i + ws.length) vs = overwrite bs i (ws ++ vs) := by
  apply List.ext_getElem?
  intro k
  simp only [getElem?_overwrite, List.length_append, length_overwrite, List.getElem?_append]
  grind

theorem overwrite_append_left (bs ws vs : List UInt8) (i : ℕ) :
    overwrite (overwrite bs (i + ws.length) vs) i ws = overwrite bs i (ws ++ vs) := by
  apply List.ext_getElem?
  intro k
  simp only [getElem?_overwrite, List.length_append, length_overwrite, List.getElem?_append]
  grind

theorem overwrite_restore {bs : List UInt8} {i : ℕ} (hi : i < bs.length) (b : UInt8) :
    overwrite (overwrite bs i [b]) i [bs.getD i 0] = bs := by
  apply List.ext_getElem?
  intro k
  rw [getElem?_overwrite, getElem?_overwrite, length_overwrite, List.length_singleton, List.length_singleton]
  by_cases hk : k = i
  · subst hk
    rw [if_pos (by omega), Nat.sub_self, List.getElem?_cons_zero, List.getD_eq_getElem?_getD,
      List.getElem?_eq_getElem hi, Option.getD_some]
  · rw [if_neg (by omega), if_neg (by omega)]

end Overwrite

theorem length_resize (bs : List UInt8) (n : ℕ) (fill : ℕ → UInt8) : (resize bs n fill).length = n := by
  simp only [resize, List.length_append, List.length_take, List.length_map, List.length_range]
  omega

theorem getElem?_resize {bs : List UInt8} {n i : ℕ} (hi : i < n) (fill : ℕ → UInt8) :
    (resize bs n fill)[i]? = (bs[i]?).or (some (fill (i - bs.length))) := by
  rw [resize]
  rcases Nat.lt_or_ge i bs.length with hlt | hge
  · rw [List.getElem?_append_left (by rw [List.length_take]; omega), List.getElem?_take, if_pos hi,
      List.getElem?_eq_getElem hlt, Option.some_or]
  · rw [List.getElem?_append_right (by rw [List.length_take]; omega), List.length_take,
      Nat.min_eq_right (by omega), List.getElem?_map, List.getElem?_range (by omega), Option.map_some,
      List.getElem?_eq_none hge, Option.none_or]

section Within

variable {bs w : List UInt8} {dst src : ℕ}

theorem memcpyWithin_eq {n : ℕ} (hle : dst ≤ src) (hn : src + n ≤ bs.length) :
    memcpyWithin bs dst src n = overwrite bs dst ((bs.drop src).take n) := by
  induction n generalizing bs dst src with
  | zero => rw [memcpyWithin, List.take_zero, overwrite_nil]
  | succ n ih =>
    have hread : bs.drop src = bs[src] :: bs.drop (src + 1) := List.drop_eq_getElem_cons (by omega)
    rw [memcpyWithin, ih (by omega) (by rw [List.length_set]; omega), List.drop_set_of_lt (by omega), hread,
      List.take_succ_cons, overwrite_cons, List.getD_eq_getElem?_getD, List.getElem?_eq_getElem (by omega),
      Option.getD_some]

theorem cString_nul (t : List UInt8) : cString (0 :: t) = [] := rfl

theorem cString_cons {b : UInt8} (hb : b ≠ 0) (t : List UInt8) : cString (b :: t) = b :: cString t := by
  rw [cString, List.takeWhile_cons_of_pos (by simpa using hb), cString]

theorem exists_nul (h : strlen bs < bs.length) : ∃ rest, bs = cString bs ++ 0 :: rest := by
  induction bs with
  | nil => exact absurd h (Nat.not_lt_zero _)
  | cons b bs ih =>
    by_cases hb : b = 0
    · exact ⟨bs, by rw [hb, cString_nul, List.nil_append]⟩
    · rw [strlen, cString_cons hb, List.length_cons, List.length_cons] at h
      obtain ⟨rest, hrest⟩ := ih (Nat.lt_of_succ_lt_succ h)
      exact ⟨rest, by rw [cString_cons hb, List.cons_append, ← hrest]⟩

theorem strlen_le (bs : List UInt8) : strlen bs ≤ bs.length := (List.takeWhile_prefix _).length_le

theorem cString_set_beyond {k : ℕ} (hend : strlen bs < bs.length) (hk : strlen bs < k) (b : UInt8) :
    cString (bs.set k b) = cString bs := by
  obtain ⟨rest, hrest⟩ := exists_nul hend
  rw [hrest, List.set_append_right _ _ (by rw [strlen] at hk; omega)]
  obtain ⟨j, hj⟩ : ∃ j, k - (cString bs).length = j + 1 := ⟨k - (cString bs).length - 1, by rw [strlen] at hk; omega⟩
  rw [hj, List.set_cons_succ, cString_append_nul (nulFree_cString bs), cString_append_nul (nulFree_cString bs)]

theorem strcpyFrom_eq {room : ℕ} (hw : cString (bs.drop src) = w) (hend : src + w.length < bs.length)
    (hsep : dst ≤ src ∨ src + w.length < dst) (hroom : w.length < room) :
    strcpyFrom room bs dst src = some (overwrite bs dst (w ++ [0])) := by
  induction w generalizing bs dst src room with
  | nil =>
    obtain ⟨room, rfl⟩ : ∃ r, room = r + 1 := ⟨room - 1, by omega⟩
    have hread : bs.drop src = bs[src] :: bs.drop (src + 1) := List.drop_eq_getElem_cons (by simpa using hend)
    have hzero : bs[src] = 0 := by
      by_contra hb
      rw [hread, cString_cons hb] at hw
      cases hw
    rw [strcpyFrom, List.getElem?_eq_getElem (by simpa using hend), hzero, List.nil_append,
      overwrite_cons, overwrite_nil]
    rfl
  | cons b w ih =>
    rw [List.length_cons] at hend hsep hroom
    obtain ⟨room, rfl⟩ : ∃ r, room = r + 1 := ⟨room - 1, by omega⟩
    have hread : bs.drop src = bs[src] :: bs.drop (src + 1) := List.drop_eq_getElem_cons (by omega)
    have hne : bs[src] ≠ 0 := by
      intro hzero
      rw [hread, hzero, cString_nul] at hw
      cases hw
    rw [hread, cString_cons hne, List.cons.injEq] at hw
    obtain ⟨hb, hw⟩ := hw
    rw [strcpyFrom, List.getElem?_eq_getElem (by omega), hb, List.cons_append, overwrite_cons]
    simp only [if_neg (hb ▸ hne)]
    apply ih
    · rcases hsep with hle | hlt
      · rw [List.drop_set_of_lt (by omega), hw]
      · have hshort : strlen (bs.drop (src + 1)) = w.length := by rw [strlen, hw]
        rw [List.drop_set, if_neg (by omega), cString_set_beyond (by rw [List.length_drop]; omega) (by omega), hw]
    · rw [List.length_set]
      omega
    · omega
    · omega

theorem strcpyWithin_eq (hw : cString (bs.drop src) = w) (hend : src + w.length < bs.length)
    (hsep : dst ≤ src ∨ src + w.length < dst) (hdst : dst + w.length < bs.length) :
    strcpyWithin bs dst src = some (overwrite bs dst (w ++ [0])) :=
  strcpyFrom_eq hw hend hsep (by omega)

theorem strcpyFrom_eq_none {room : ℕ} (hfree : NulFree (bs.take dst)) (hlt : src < dst) :
    strcpyFrom room bs dst src = none := by
  induction room generalizing bs dst src with
  | zero => rfl
  | succ room ih =>
    rw [strcpyFrom]
    cases hread : bs[src]? with
    | none => rfl
    | some b =>
      have hb : b ≠ 0 := by
        refine hfree b (List.mem_of_getElem? (i := src) ?_)
        rw [List.getElem?_take, if_pos hlt, hread]
      simp only [if_neg hb]
      refine ih ?_ (by omega)
      rw [List.take_add_one, List.take_set_of_le le_rfl, nulFree_append]
      refine ⟨hfree, fun c hc => ?_⟩
      rw [List.getElem?_set, if_pos rfl] at hc
      split at hc
      · obtain rfl : c = b := by simpa using hc
        exact hb
      · simp at hc

end Within

theorem getElem?_copied {src : List UInt8} {k : ℕ} (hk : k ≤ strlen src) (hlt : k < src.length) :
    (cString src ++ [0])[k]? = src[k]? := by
  rcases Nat.lt_or_eq_of_le hk with hk | rfl
  · obtain ⟨v, hv⟩ : cString src <+: src := List.takeWhile_prefix _
    rw [List.getElem?_append_left hk]
    nth_rewrite 2 [← hv]
    rw [List.getElem?_append_left hk]
  · obtain ⟨rest, hrest⟩ := exists_nul hlt
    have hzero : (cString src ++ 0 :: rest)[strlen src]? = some 0 := by
      rw [strlen, List.getElem?_append_right le_rfl, Nat.sub_self, List.getElem?_cons_zero]
    rw [← hrest] at hzero
    rw [hzero, strlen, List.getElem?_concat_length]

theorem strcpy_take (bs src : List UInt8) (i : ℕ) : (strcpy bs i src).take i = bs.take i := by
  apply List.ext_getElem?
  intro k
  rw [List.getElem?_take, List.getElem?_take, strcpy, getElem?_overwrite]
  split
  · rw [if_neg (by omega)]
  · rfl

theorem strcpy_range_eq_iff {bs ws : List UInt8} (src : List UInt8) {i : ℕ} (hi : i + ws.length ≤ bs.length) :
    ((strcpy bs i src).drop i).take ws.length = ws ↔
      ∀ k < ws.length, (if k ≤ strlen src then (cString src ++ [0])[k]? else bs[i + k]?) = ws[k]? := by
  have hpoint (k : ℕ) (hk : k < ws.length) :
      (strcpy bs i src)[i + k]? = if k ≤ strlen src then (cString src ++ [0])[k]? else bs[i + k]? := by
    rw [strcpy, getElem?_overwrite, Nat.add_sub_cancel_left, List.length_append, List.length_singleton]
    split
    · rw [if_pos (by rw [strlen]; omega)]
    · rw [if_neg (by rw [strlen]; omega)]
  rw [List.ext_getElem?_iff]
  refine ⟨fun h k hk => ?_, fun h k => ?_⟩
  · have hbyte := h k
    rwa [List.getElem?_take, if_pos hk, List.getElem?_drop, hpoint k hk] at hbyte
  · rw [List.getElem?_take, List.getElem?_drop]
    split
    · rename_i hk
      rw [hpoint k hk, h k hk]
    · rw [List.getElem?_eq_none (by omega)]

theorem strcpy_range_iff {bs : List UInt8} (src : List UInt8) {i n : ℕ} (hi : i + n ≤ bs.length) (hn : n ≤ src.length) :
    ((strcpy bs i src).drop i).take n = src.take n ↔
      ∀ k, strlen src < k → k < n → bs[i + k]? = src[k]? := by
  have hlen : (src.take n).length = n := List.length_take_of_le hn
  have hrange := strcpy_range_eq_iff src (show i + (src.take n).length ≤ bs.length by omega)
  rw [hlen] at hrange
  rw [hrange]
  refine ⟨fun h k hlt hk => ?_, fun h k hk => ?_⟩
  · have hbyte := h k hk
    rwa [if_neg (by omega), List.getElem?_take, if_pos hk] at hbyte
  · rw [List.getElem?_take, if_pos hk]
    split
    · rename_i hle
      exact getElem?_copied hle (by omega)
    · exact h k (by omega) hk

theorem strcpy_terminated_iff {bs : List UInt8} (src : List UInt8) {i n : ℕ} (hi : i + n < bs.length)
    (hn : n < src.length) :
    ((strcpy bs i src).drop i).take (n + 1) = src.take n ++ [0] ↔
      strlen src ≤ n ∧ ∀ k, strlen src < k → k ≤ n → bs[i + k]? = (src.take n ++ [0])[k]? := by
  have htake : (src.take n).length = n := List.length_take_of_le hn.le
  have hlen : (src.take n ++ [0]).length = n + 1 := by rw [List.length_append, htake, List.length_singleton]
  have hlast : (src.take n ++ [0])[n]? = some 0 := by
    nth_rewrite 2 [← htake]
    exact List.getElem?_concat_length
  have hrange := strcpy_range_eq_iff src (show i + (src.take n ++ [0]).length ≤ bs.length by omega)
  rw [hlen] at hrange
  rw [hrange]
  refine ⟨fun h => ⟨?_, fun k hlt hk => ?_⟩, fun ⟨hle, h⟩ k hk => ?_⟩
  · by_contra hlong
    have hbyte := h n (Nat.lt_succ_self n)
    rw [if_pos (by omega), hlast, List.getElem?_append_left (by rw [strlen] at hlong; omega)] at hbyte
    exact nulFree_cString src 0 (List.mem_of_getElem? hbyte) rfl
  · have hbyte := h k (by omega)
    rwa [if_neg (by omega)] at hbyte
  · split
    · rename_i hshort
      rcases Nat.lt_or_eq_of_le (Nat.le_of_lt_succ hk) with hlt | rfl
      · have hright : (src.take n ++ [0])[k]? = src[k]? := by
          rw [List.getElem?_append_left (by omega), List.getElem?_take, if_pos hlt]
        rw [hright, getElem?_copied hshort (by omega)]
      · obtain rfl : strlen src = k := by omega
        rw [hlast, strlen, List.getElem?_concat_length]
    · exact h k (by omega) (by omega)

section Strrchr

variable {bs : List UInt8} {c : UInt8} {i : ℕ}

theorem singleton_occurs_terminated_iff (hc : c ≠ 0) :
    i < strlen bs + 1 ∧ [c] <+: (cString bs ++ [0]).drop i ↔ (cString bs)[i]? = some c := by
  rw [TextSearch.singleton_occurs_iff, strlen]
  rcases lt_trichotomy i (cString bs).length with hlt | rfl | hgt
  · rw [List.getElem?_append_left hlt]
    exact and_iff_right (by omega)
  · rw [List.getElem?_concat_length, List.getElem?_eq_none le_rfl, Option.some.injEq]
    exact iff_of_false (fun h => hc h.2.symm) (Option.some_ne_none c).symm
  · rw [List.getElem?_eq_none hgt.le]
    exact iff_of_false (fun h => absurd h.1 (by omega)) (Option.some_ne_none c).symm

theorem strrchr_eq_some_iff (hc : c ≠ 0) :
    strrchr bs c = some i ↔ IsGreatest {i : ℕ | (cString bs)[i]? = some c} i := by
  rw [strrchr, TextSearch.findLast_eq_some_iff]
  simp only [singleton_occurs_terminated_iff hc]

theorem strrchr_eq_none_iff (hc : c ≠ 0) : strrchr bs c = none ↔ ∀ i : ℕ, (cString bs)[i]? ≠ some c := by
  rw [strrchr, TextSearch.findLast_eq_none_iff]
  apply forall_congr'
  intro i
  rw [← not_and, singleton_occurs_terminated_iff hc]

end Strrchr

end LogoCore.CStrings
