import LogoCore.StoredStrings
import LogoCore.WStringEdits
import LogoCore.WStringSearch

namespace LogoCore.Strings

open CStrings

namespace WString

def poke (s : WString) (i : ℕ) (b : UInt8) : WString := { s with buffer := s.buffer.map (overwrite · i [b]) }

/-- `substring(left, right)`: the receiver as the call leaves it, and the result. -/
def substringConst (s : WString) (left right : ℕ) (a a' : Alloc) : WString × WString :=
  let (left, right) := if right < left then (right, left) else (left, right)
  let out := init.copy [] 0 a
  if s.len ≤ left then (s, out)
  else
    let right := if s.len < right then s.len else right
    -- the byte at right is saved, replaced by a terminator while the copy is made, and restored
    let temp := s.bytes.getD right 0
    let ended := s.poke right 0
    let out := out.assignCStr (ended.buffer.map (·.drop left)) a'
    (ended.poke right temp, out)

/-- `lastIndexOf(ch, fromIndex)`: the receiver as the call leaves it, and the result. -/
def lastIndexOfCharFrom (s : WString) (ch : UInt8) (fromIndex : ℕ) : WString × ℤ :=
  if s.len ≤ fromIndex then (s, -1)
  else
    let tempchar := s.bytes.getD (fromIndex + 1) 0
    let ended := s.poke (fromIndex + 1) 0
    let temp := strrchr ended.bytes ch
    (ended.poke (fromIndex + 1) tempchar, position temp)

def lastIndexOfChar (s : WString) (ch : UInt8) : WString × ℤ :=
  s.lastIndexOfCharFrom ch ((s.len + 2 ^ 32 - 1) % 2 ^ 32)

def removeFrom (s : WString) (index : ℕ) : WString := s.remove index (2 ^ 32 - 1)

def LastByte (t : List UInt8) (c : UInt8) (k : ℕ) (result : ℤ) : Prop :=
  if k < t.length then
    (∃ i : ℕ, IsGreatest {i | i ≤ k ∧ t[i]? = some c} i ∧ result = i) ∨ (∀ i ≤ k, t[i]? ≠ some c) ∧ result = -1
  else result = -1

structure ListOperations (s : WString) (t : List UInt8) : Prop where
  substring : ∀ left right a a', a ≠ none → a' ≠ none → (s.substringConst left right a a').2.Valid (slice t left right)
  substringFails : ∀ left right a a', (s.substringConst left right a a').2 = init ∨
    (s.substringConst left right a a').2.Valid (slice t left right)
  substringConst : ∀ left right a a', (s.substringConst left right a a').1 = s
  lastIndexOf : ∀ c k, c ≠ 0 → LastByte t c k (s.lastIndexOfCharFrom c k).2
  lastIndexOfConst : ∀ c k, (s.lastIndexOfCharFrom c k).1 = s
  remove : ∀ index count, (s.remove index count).Valid (t.take index ++ t.drop (index + count))
  trim : s.trim.Valid ((t.dropWhile isSpace).rdropWhile isSpace)

section Const

variable {s : WString} {bs t : List UInt8}

theorem poke_restore {i : ℕ} (hs : s.Stored bs) (hi : i ≤ s.len) (b : UInt8) :
    (s.poke i b).poke i (s.bytes.getD i 0) = s := by
  obtain ⟨hbuffer, hsize, hlen, -⟩ := hs
  obtain ⟨buffer, capacity, len⟩ := s
  obtain rfl : buffer = some bs := hbuffer
  have hlt : i < bs.length := by
    simp only at hsize hlen hi
    omega
  simp only [poke, bytes, Option.map_some, Option.getD_some, overwrite_restore hlt]

theorem substringConst_fst (hs : s.Stored bs) (left right : ℕ) (a a' : Alloc) :
    (s.substringConst left right a a').1 = s := by
  simp only [substringConst, swap_eq]
  by_cases hl : s.len ≤ min left right
  · rw [if_pos hl]
  · rw [if_neg hl]
    exact poke_restore hs (by split <;> omega) 0

theorem substringConst_snd (s : WString) (left right : ℕ) (a a' : Alloc) :
    (s.substringConst left right a a').2 = s.substring left right a a' := by
  simp only [substringConst, substring, swap_eq]
  by_cases hl : s.len ≤ min left right
  · rw [if_pos hl, if_pos hl]
  · rw [if_neg hl, if_neg hl]
    simp only [poke, Option.map_map]
    rfl

theorem lastIndexOfCharFrom_fst (hs : s.Stored bs) (c : UInt8) (k : ℕ) : (s.lastIndexOfCharFrom c k).1 = s := by
  rw [lastIndexOfCharFrom]
  split
  · rfl
  · exact poke_restore hs (by omega) 0

theorem lastIndexOfCharFrom_snd (hs : s.Valid t) {c : UInt8} (hc : c ≠ 0) (k : ℕ) :
    LastByte t c k (s.lastIndexOfCharFrom c k).2 := by
  have hlen := hs.rep.len
  rw [LastByte]
  by_cases hk : k < t.length
  · have hresult : (s.lastIndexOfCharFrom c k).2 = position (strrchr (s.poke (k + 1) 0).bytes c) := by
      rw [lastIndexOfCharFrom, if_neg (by omega)]
    have hended : CStrings.cString (s.poke (k + 1) 0).bytes = t.take (k + 1) := by
      obtain ⟨rest, rfl, ht, -⟩ := hs
      exact cString_between rest ht (Nat.zero_le _) hk
    have hbyte (i : ℕ) : (t.take (k + 1))[i]? = some c ↔ i ≤ k ∧ t[i]? = some c := by
      rw [List.getElem?_take]
      split
      · exact (and_iff_right (by omega)).symm
      · exact ⟨nofun, fun h => by omega⟩
    rw [if_pos hk, hresult]
    cases hfound : strrchr (s.poke (k + 1) 0).bytes c with
    | none =>
      rw [strrchr_eq_none_iff hc, hended] at hfound
      exact .inr ⟨fun i hi h => hfound i ((hbyte i).mpr ⟨hi, h⟩), rfl⟩
    | some i =>
      rw [strrchr_eq_some_iff hc, hended] at hfound
      simp only [hbyte] at hfound
      exact .inl ⟨i, hfound, rfl⟩
  · rw [if_neg hk, lastIndexOfCharFrom, if_pos (by omega)]

end Const

section Results

variable {s : WString} {t : List UInt8}

theorem copy_init (a : Alloc) : (init.copy [] 0 a).Held [] := by
  by_cases ha : init.Granted 0 a
  · exact .inr (copy_granted (c := []) (.inl rfl) rfl (by decide) ha)
  · exact .inl ⟨copy_denied (by decide) ha, rfl⟩

theorem substring_valid (hs : s.Valid t) (left right : ℕ) (fill fill' : ℕ → UInt8) :
    (s.substring left right (some fill) (some fill')).Valid (slice t left right) := by
  rcases substring_of_rep hs.rep left right (some fill) (some fill') with ⟨hnil, hsub⟩ | ⟨src, hsrc, hsub⟩
  · rw [hsub, hnil]
    exact copy_granted (c := []) (.inl rfl) rfl (by decide) (.inr nofun)
  · have hle := length_slice_le t left right
    have hshort := hs.short
    rw [hsub]
    exact copy_granted (copy_init _).any hsrc (by omega) (.inr nofun)

theorem substring_or_init (hs : s.Valid t) (left right : ℕ) (a a' : Alloc) :
    s.substring left right a a' = init ∨ (s.substring left right a a').Valid (slice t left right) := by
  rcases substring_of_rep hs.rep left right a a' with ⟨hnil, hsub⟩ | ⟨src, hsrc, hsub⟩
  · rw [hsub, hnil]
    exact (copy_init a).imp And.left id
  · have hle := length_slice_le t left right
    have hshort := hs.short
    rw [hsub]
    by_cases ha : (init.copy [] 0 a).Granted (slice t left right).length a'
    · exact .inr (copy_granted (copy_init a).any hsrc (by omega) ha)
    · exact .inl (copy_denied (by omega) ha)

theorem remove_valid (hs : s.Valid t) (index count : ℕ) :
    (s.remove index count).Valid (t.take index ++ t.drop (index + count)) := by
  have hcap := hs.stored.object
  have hbuffer := hs.stored.buffer
  apply (remove_rep hs.rep index count).valid
  · unfold remove
    split
    · rw [hbuffer]
      nofun
    · split
      · rw [hbuffer]
        nofun
      · simp only [hbuffer, Option.map_some]
        nofun
  · unfold remove
    split
    · exact hcap
    · split <;> exact hcap

theorem trim_valid (hs : s.Valid t) : s.trim.Valid ((t.dropWhile isSpace).rdropWhile isSpace) := by
  have hcap := hs.stored.object
  have hbuffer := hs.stored.buffer
  apply (trim_rep hs.rep).valid
  · simp only [trim, hbuffer]
    split
    · rw [hbuffer]
      nofun
    · nofun
  · simp only [trim, hbuffer]
    split <;> exact hcap

theorem removeFrom_valid (hs : s.Valid t) (index : ℕ) : (s.removeFrom index).Valid (t.take index) := by
  have hshort := hs.short
  have hremove := remove_valid hs index (2 ^ 32 - 1)
  rwa [List.drop_eq_nil_of_le (by omega), List.append_nil] at hremove

theorem lastIndexOfChar_valid (hs : s.Valid t) {c : UInt8} (hc : c ≠ 0) :
    (s.lastIndexOfChar c).1 = s ∧ LastByte t c (t.length - 1) (s.lastIndexOfChar c).2 := by
  refine ⟨lastIndexOfCharFrom_fst hs.stored c _, ?_⟩
  have hlast := lastIndexOfCharFrom_snd hs hc ((s.len + 2 ^ 32 - 1) % 2 ^ 32)
  have hshort := hs.short
  have hlen := hs.rep.len
  rw [lastIndexOfChar]
  by_cases hempty : t.length = 0
  · rw [LastByte, if_neg (by omega)] at hlast ⊢
    exact hlast
  · rwa [show t.length - 1 = (s.len + 2 ^ 32 - 1) % 2 ^ 32 by omega]

end Results

end WString

theorem slices_are_list_operations {s : WString} {t : List UInt8} (hs : s.Valid t) : s.ListOperations t := by
  constructor
  case substring =>
    intro left right a a' ha ha'
    obtain ⟨fill, rfl⟩ := Option.ne_none_iff_exists'.mp ha
    obtain ⟨fill', rfl⟩ := Option.ne_none_iff_exists'.mp ha'
    rw [WString.substringConst_snd]
    exact WString.substring_valid hs left right fill fill'
  case substringFails =>
    intro left right a a'
    rw [WString.substringConst_snd]
    exact WString.substring_or_init hs left right a a'
  case substringConst => exact WString.substringConst_fst hs.stored
  case lastIndexOf => exact fun c k hc => WString.lastIndexOfCharFrom_snd hs hc k
  case lastIndexOfConst => exact WString.lastIndexOfCharFrom_fst hs.stored
  case remove => exact WString.remove_valid hs
  case trim => exact WString.trim_valid hs

theorem slices_of_padded_text : (WString.holding [32, 97, 98, 9] []).ListOperations [32, 97, 98, 9] :=
  slices_are_list_operations (WString.valid_of_nulFree [32, 97, 98, 9] (by decide) (by decide))

end LogoCore.Strings
