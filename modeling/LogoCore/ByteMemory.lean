import Mathlib.Data.List.Basic

namespace LogoCore.ByteMemory

abbrev Memory := ℕ → UInt8

def load32 (m : Memory) (a : ℕ) : UInt32 :=
  UInt32.ofNat ((m a).toNat + 256 * (m (a + 1)).toNat + 65536 * (m (a + 2)).toNat + 16777216 * (m (a + 3)).toNat)

def store8 (m : Memory) (a : ℕ) (v : UInt8) : Memory := fun k => if k = a then v else m k

def store32 (m : Memory) (a : ℕ) (v : UInt32) : Memory :=
  store8 (store8 (store8 (store8 m a (UInt8.ofNat v.toNat)) (a + 1) (UInt8.ofNat (v.toNat / 256))) (a + 2)
    (UInt8.ofNat (v.toNat / 65536))) (a + 3) (UInt8.ofNat (v.toNat / 16777216))

variable {m m' : Memory} {a k : ℕ}

@[simp] theorem store8_same (v : UInt8) : store8 m a v a = v := if_pos rfl

theorem store8_of_ne (v : UInt8) (h : k ≠ a) : store8 m a v k = m k := if_neg h

theorem store32_of_apart (v : UInt32) (h : k < a ∨ a + 4 ≤ k) : store32 m a v k = m k := by
  rw [store32, store8_of_ne _ (by omega), store8_of_ne _ (by omega), store8_of_ne _ (by omega),
    store8_of_ne _ (by omega)]

theorem load32_congr (h : ∀ i < 4, m' (a + i) = m (a + i)) : load32 m' a = load32 m a := by
  have h0 := h 0 (by decide)
  have h1 := h 1 (by decide)
  have h2 := h 2 (by decide)
  have h3 := h 3 (by decide)
  rw [Nat.add_zero] at h0
  rw [load32, load32, h0, h1, h2, h3]

@[simp] theorem load32_store32 (v : UInt32) : load32 (store32 m a v) a = v := by
  have h0 : store32 m a v a = UInt8.ofNat v.toNat := by
    rw [store32, store8_of_ne _ (by omega), store8_of_ne _ (by omega), store8_of_ne _ (by omega), store8_same]
  have h1 : store32 m a v (a + 1) = UInt8.ofNat (v.toNat / 256) := by
    rw [store32, store8_of_ne _ (by omega), store8_of_ne _ (by omega), store8_same]
  have h2 : store32 m a v (a + 2) = UInt8.ofNat (v.toNat / 65536) := by
    rw [store32, store8_of_ne _ (by omega), store8_same]
  have h3 : store32 m a v (a + 3) = UInt8.ofNat (v.toNat / 16777216) := store8_same _
  have hv := v.toNat_lt
  apply UInt32.toNat_inj.mp
  rw [load32, h0, h1, h2, h3, UInt32.toNat_ofNat', UInt8.toNat_ofNat', UInt8.toNat_ofNat', UInt8.toNat_ofNat',
    UInt8.toNat_ofNat']
  omega

theorem load32_store32_of_apart (v : UInt32) (h : k + 4 ≤ a ∨ a + 4 ≤ k) :
    load32 (store32 m a v) k = load32 m k :=
  load32_congr fun i _ => store32_of_apart v (by omega)

def bytes (m : Memory) (a n : ℕ) : List UInt8 := (List.range n).map fun i => m (a + i)

@[simp] theorem length_bytes (n : ℕ) : (bytes m a n).length = n := by
  rw [bytes, List.length_map, List.length_range]

theorem bytes_congr {n : ℕ} (h : ∀ i < n, m' (a + i) = m (a + i)) : bytes m' a n = bytes m a n :=
  List.map_congr_left fun i hi => h i (List.mem_range.mp hi)

theorem bytes_store8 {i n : ℕ} (v : UInt8) : bytes (store8 m (a + i) v) a n = (bytes m a n).set i v := by
  apply List.ext_getElem
  · simp
  · intro j hj hj'
    rw [List.getElem_set]
    simp only [bytes, List.getElem_map, List.getElem_range]
    by_cases h : i = j
    · rw [if_pos h, h, store8_same]
    · rw [if_neg h, store8_of_ne _ (by omega)]

theorem bytes_take (i n : ℕ) : (bytes m a n).take i = bytes m a (min i n) := by
  rw [bytes, bytes, ← List.map_take, List.take_range]

end LogoCore.ByteMemory
