import Mathlib.Data.List.TakeWhile
import Mathlib.Data.UInt

namespace LogoCore.CStrings

def NulFree (t : List UInt8) : Prop := ∀ b ∈ t, b ≠ 0

instance (t : List UInt8) : Decidable (NulFree t) := List.decidableBAll (· ≠ 0) t

/-- The bytes that a C string function reads from memory: those before the first zero byte. -/
def cString (bs : List UInt8) : List UInt8 := bs.takeWhile (· != 0)

def strlen (bs : List UInt8) : ℕ := (cString bs).length

/-- Writes into a block; bytes written past its end are not part of it. -/
def overwrite (bs : List UInt8) (i : ℕ) (ws : List UInt8) : List UInt8 :=
  (bs.take i ++ ws ++ bs.drop (i + ws.length)).take bs.length

-- for a source that ends in its block and a copy that fits; other calls have no result, see Copyable
def strcpy (bs : List UInt8) (i : ℕ) (src : List UInt8) : List UInt8 := overwrite bs i (cString src ++ [0])

def strncpy (bs : List UInt8) (i : ℕ) (src : List UInt8) (n : ℕ) : List UInt8 :=
  overwrite bs i ((cString src).take n ++ List.replicate (n - strlen src) 0)

def mapText (f : UInt8 → UInt8) (bs : List UInt8) : List UInt8 := (cString bs).map f ++ bs.drop (strlen bs)

def resize (bs : List UInt8) (n : ℕ) (fill : ℕ → UInt8) : List UInt8 :=
  bs.take n ++ (List.range (n - bs.length)).map fill

def compareBytes : List UInt8 → List UInt8 → ℤ
  | [], [] => 0
  | [], b :: _ => -b.toNat
  | a :: _, [] => a.toNat
  | a :: as, b :: bs => if a = b then compareBytes as bs else a.toNat - b.toNat

def strcmp (as bs : List UInt8) : ℤ := compareBytes (cString as) (cString bs)

def isSpace (b : UInt8) : Bool := b == 32 || (9 ≤ b && b ≤ 13)

def toLower (b : UInt8) : UInt8 := if 65 ≤ b ∧ b ≤ 90 then b + 32 else b

def toUpper (b : UInt8) : UInt8 := if 97 ≤ b ∧ b ≤ 122 then b - 32 else b

def isDigit (b : UInt8) : Bool := 48 ≤ b && b ≤ 57

def decimal (bs : List UInt8) : ℤ := (bs.takeWhile isDigit).foldl (fun n b => 10 * n + (b.toNat - 48)) 0

def atol (bs : List UInt8) : ℤ :=
  match (cString bs).dropWhile isSpace with
  | 45 :: ds => max (-decimal ds) (-2 ^ 31)
  | 43 :: ds => min (decimal ds) (2 ^ 31 - 1)
  | ds => min (decimal ds) (2 ^ 31 - 1)

section NulFree

variable {t u : List UInt8}

@[simp] theorem nulFree_nil : NulFree [] := by simp [NulFree]

theorem nulFree_append : NulFree (t ++ u) ↔ NulFree t ∧ NulFree u := List.forall_mem_append

theorem NulFree.take (h : NulFree t) (n : ℕ) : NulFree (t.take n) := fun b hb => h b (List.mem_of_mem_take hb)

theorem NulFree.drop (h : NulFree t) (n : ℕ) : NulFree (t.drop n) := fun b hb => h b (List.mem_of_mem_drop hb)

theorem NulFree.map (h : NulFree t) {f : UInt8 → UInt8} (hf : ∀ b, b ≠ 0 → f b ≠ 0) : NulFree (t.map f) := by
  intro b hb
  obtain ⟨a, ha, rfl⟩ := List.mem_map.mp hb
  exact hf a (h a ha)

theorem NulFree.set (h : NulFree t) (i : ℕ) {b : UInt8} (hb : b ≠ 0) : NulFree (t.set i b) := by
  intro a ha
  rcases List.mem_or_eq_of_mem_set ha with ha | rfl
  · exact h a ha
  · exact hb

theorem nulFree_cString (bs : List UInt8) : NulFree (cString bs) :=
  fun b hb => by simpa using List.mem_takeWhile_imp hb

end NulFree

section CString

variable {t : List UInt8}

theorem cString_append_nul (h : NulFree t) (rest : List UInt8) : cString (t ++ 0 :: rest) = t := by
  rw [cString, List.takeWhile_append_of_pos (by simpa [NulFree] using h)]
  simp

theorem cString_eq_self (h : NulFree t) : cString t = t := by
  rw [cString, List.takeWhile_eq_self_iff]
  simpa [NulFree] using h

@[simp] theorem cString_cString (bs : List UInt8) : cString (cString bs) = cString bs :=
  cString_eq_self (nulFree_cString bs)

theorem mapText_append_nul (h : NulFree t) (f : UInt8 → UInt8) (rest : List UInt8) :
    mapText f (t ++ 0 :: rest) = t.map f ++ 0 :: rest := by
  rw [mapText, strlen, cString_append_nul h, List.drop_left]

end CString

section Overwrite

variable (xs ys ws : List UInt8)

@[simp] theorem length_overwrite (bs : List UInt8) (i : ℕ) : (overwrite bs i ws).length = bs.length := by
  simp only [overwrite, List.length_take, List.length_append, List.length_drop]
  omega

theorem overwrite_append (h : ws.length ≤ ys.length) :
    overwrite (xs ++ ys) xs.length ws = xs ++ ws ++ ys.drop ws.length := by
  have hdrop : (xs ++ ys).drop (xs.length + ws.length) = ys.drop ws.length := by
    rw [← List.drop_drop, List.drop_left]
  rw [overwrite, List.take_left, hdrop, List.take_of_length_le]
  simp only [List.length_append, List.length_drop]
  omega

theorem overwrite_take (i n : ℕ) (h : i + n ≤ ys.length) (hw : ws.length = n) :
    (overwrite ys i ws).take (i + n) = ys.take i ++ ws := by
  have hlen : (ys.take i ++ ws).length = i + n := by
    simp only [List.length_append, List.length_take]
    omega
  rw [overwrite, List.take_take, Nat.min_eq_left h, List.append_assoc, ← List.append_assoc,
    List.take_append_of_le_length hlen.ge, List.take_of_length_le hlen.le]

theorem overwrite_nul (n : ℕ) (h : n < ys.length) : overwrite ys n [0] = ys.take n ++ 0 :: ys.drop (n + 1) := by
  have hlen : (ys.take n).length = n := by
    rw [List.length_take]
    omega
  have hsplit := overwrite_append (ys.take n) (ys.drop n) [0] (by
    rw [List.length_drop]
    simp only [List.length_singleton]
    omega)
  rw [List.take_append_drop, hlen] at hsplit
  rw [hsplit, List.length_singleton, List.drop_drop, List.append_assoc, List.singleton_append]

theorem strncpy_eq_overwrite (bs : List UInt8) (i n : ℕ) {src t : List UInt8} (h : (cString src).take n = t)
    (hn : t.length = n) : strncpy bs i src n = overwrite bs i t := by
  have hle : n ≤ strlen src := by
    rw [← hn, ← h, List.length_take, strlen]
    omega
  rw [strncpy, h, Nat.sub_eq_zero_of_le hle, List.replicate_zero, List.append_nil]

end Overwrite

theorem resize_of_le {bs : List UInt8} {n : ℕ} (h : bs.length ≤ n) (fill : ℕ → UInt8) :
    resize bs n fill = bs ++ (List.range (n - bs.length)).map fill := by
  rw [resize, List.take_of_length_le h]

theorem compareBytes_eq_zero {t u : List UInt8} (ht : NulFree t) (hu : NulFree u) :
    compareBytes t u = 0 ↔ t = u := by
  induction t generalizing u with
  | nil =>
    cases u with
    | nil => simp [compareBytes]
    | cons b u =>
      have hb : b.toNat ≠ 0 := fun h => hu b (by simp) (UInt8.toNat_inj.mp h)
      simp [compareBytes, hb]
  | cons a t ih =>
    cases u with
    | nil =>
      have ha : a.toNat ≠ 0 := fun h => ht a (by simp) (UInt8.toNat_inj.mp h)
      simp [compareBytes, ha]
    | cons b u =>
      rw [compareBytes]
      by_cases hab : a = b
      · rw [if_pos hab, ih (fun c hc => ht c (by simp [hc])) (fun c hc => hu c (by simp [hc]))]
        simp [hab]
      · have hne : (a.toNat : ℤ) - b.toNat ≠ 0 := fun h => hab (UInt8.toNat_inj.mp (by omega))
        simp [hab, hne]

theorem toLower_ne_zero (b : UInt8) (h : b ≠ 0) : toLower b ≠ 0 := by
  unfold toLower
  split
  · rename_i hb
    intro h0
    have := hb.1
    have := hb.2
    simp only [UInt8.le_iff_toNat_le, ← UInt8.toNat_inj, UInt8.toNat_add] at *
    simp at *
    omega
  · exact h

theorem toUpper_ne_zero (b : UInt8) (h : b ≠ 0) : toUpper b ≠ 0 := by
  unfold toUpper
  split
  · rename_i hb
    intro h0
    have h1 := hb.1
    have hsub := UInt8.toNat_sub_of_le b 32 (UInt8.le_trans (by decide : (32 : UInt8) ≤ 97) h1)
    rw [h0] at hsub
    simp only [UInt8.le_iff_toNat_le] at h1
    simp at *
    omega
  · exact h

end LogoCore.CStrings
