import LogoCore.ByteLanes

namespace LogoCore.Storage

open ByteLanes

structure Eeprom where
  words : List (BitVec 32)

namespace Eeprom

def eepromSizeGet (e : Eeprom) : ℕ := 4 * e.words.length

def eepromBlockFromAddr (address : ℕ) : ℕ := address >>> 6

def offsetFromAddr (address : ℕ) : ℕ := (address >>> 2) &&& 0x0F

-- the offset register counts up by itself and wraps at the end of a block
def readWords (e : Eeprom) : ℕ → ℕ → ℕ → List (BitVec 32)
  | 0, _, _ => []
  | n + 1, block, offset =>
    let next := (offset + 1) % 16
    e.words.getD (16 * block + offset) 0 :: readWords e n (if n ≠ 0 ∧ next = 0 then block + 1 else block) next

def eepromRead (e : Eeprom) (address count : ℕ) : List (BitVec 32) :=
  e.readWords (count / 4) (eepromBlockFromAddr address) (offsetFromAddr address)

-- every word is written without error
def programWords (e : Eeprom) : List (BitVec 32) → ℕ → ℕ → Eeprom
  | [], _, _ => e
  | v :: vs, block, offset =>
    let next := (offset + 1) % 16
    programWords ⟨e.words.set (16 * block + offset) v⟩ vs (if vs ≠ [] ∧ next = 0 then block + 1 else block) next

def eepromProgram (e : Eeprom) (data : List (BitVec 32)) (address count : ℕ) : Eeprom :=
  e.programWords (data.take (count / 4)) (eepromBlockFromAddr address) (offsetFromAddr address)

def read (e : Eeprom) (index : ℕ) : BitVec 8 :=
  let byteAddr := index - index % 4
  let wordVal := (e.eepromRead byteAddr 4).headD 0
  (wordVal >>> (8 * (index % 4))).setWidth 8

-- the word is read at the index itself and programmed at the aligned address
def write (e : Eeprom) (index : ℕ) (val : BitVec 8) : Eeprom :=
  let byteAddr := index - index % 4
  let wordVal := (e.eepromRead index 4).headD 0
  let wordVal := wordVal &&& ~~~(0xFF#32 <<< (8 * (index % 4)))
  let wordVal := wordVal + (val.setWidth 32 <<< (8 * (index % 4)))
  e.eepromProgram [wordVal] byteAddr 4

def update (e : Eeprom) (index : ℕ) (val : BitVec 8) : Eeprom := if val ≠ e.read index then e.write index val else e

def get (e : Eeprom) : ℕ → ℕ → List (BitVec 8)
  | _, 0 => []
  | idx, count + 1 => e.read idx :: e.get (idx + 1) count

def put (e : Eeprom) : ℕ → List (BitVec 8) → Eeprom
  | _, [] => e
  | idx, b :: t => (e.update idx b).put (idx + 1) t

section Words

variable (e : Eeprom)

theorem word_of_addr (address : ℕ) : 16 * eepromBlockFromAddr address + offsetFromAddr address = address / 4 := by
  have hmask : offsetFromAddr address = address / 4 % 16 := by
    rw [offsetFromAddr, show 0x0F = 2 ^ 4 - 1 from rfl, Nat.and_two_pow_sub_one_eq_mod, Nat.shiftRight_eq_div_pow]
  rw [hmask, eepromBlockFromAddr, Nat.shiftRight_eq_div_pow]
  omega

theorem eepromRead_word (address : ℕ) : (e.eepromRead address 4).headD 0 = e.words.getD (address / 4) 0 := by
  rw [eepromRead, ← word_of_addr address]
  rfl

theorem eepromProgram_word (v : BitVec 32) (address : ℕ) :
    e.eepromProgram [v] address 4 = ⟨e.words.set (address / 4) v⟩ := by
  rw [eepromProgram, ← word_of_addr address]
  rfl

theorem aligned_word (index : ℕ) : (index - index % 4) / 4 = index / 4 := by omega

theorem read_eq (index : ℕ) : e.read index = getLane (e.words.getD (index / 4) 0) (index % 4) := by
  simp only [read]
  rw [eepromRead_word, aligned_word]
  rfl

theorem write_eq (index : ℕ) (val : BitVec 8) :
    e.write index val = ⟨e.words.set (index / 4) (setLane (e.words.getD (index / 4) 0) (index % 4) val)⟩ := by
  simp only [write]
  rw [eepromProgram_word, eepromRead_word, aligned_word]
  rfl

end Words

section Bytes

variable {e : Eeprom} {i : ℕ}

theorem read_write (h : i < e.eepromSizeGet) (v : BitVec 8) (j : ℕ) :
    (e.write i v).read j = if j = i then v else e.read j := by
  have hword : i / 4 < e.words.length := by
    rw [eepromSizeGet] at h
    omega
  rw [read_eq, read_eq, write_eq]
  simp only [List.getD_eq_getElem?_getD]
  by_cases hsame : j / 4 = i / 4
  · rw [hsame, List.getElem?_set_self hword, Option.getD_some]
    by_cases hlane : j % 4 = i % 4
    · rw [hlane, getLane_setLane_self _ (by omega), if_pos (by omega)]
    · rw [getLane_setLane_other _ (by omega) hlane, if_neg (by omega)]
  · rw [List.getElem?_set_ne (Ne.symm hsame), if_neg (by omega)]

theorem size_write (v : BitVec 8) : (e.write i v).eepromSizeGet = e.eepromSizeGet := by
  rw [write_eq, eepromSizeGet, eepromSizeGet, List.length_set]

theorem read_update (h : i < e.eepromSizeGet) (v : BitVec 8) (j : ℕ) :
    (e.update i v).read j = if j = i then v else e.read j := by
  unfold update
  split
  · exact read_write h v j
  · rename_i hsame
    split
    · rename_i hj
      rw [hj]
      exact (not_not.mp hsame).symm
    · rfl

theorem size_update (v : BitVec 8) : (e.update i v).eepromSizeGet = e.eepromSizeGet := by
  unfold update
  split
  · exact size_write v
  · rfl

theorem read_put {t : List (BitVec 8)} (h : i + t.length ≤ e.eepromSizeGet) (j : ℕ) :
    (e.put i t).read j = if i ≤ j ∧ j < i + t.length then t.getD (j - i) 0 else e.read j := by
  induction t generalizing e i with
  | nil => rw [put, List.length_nil, if_neg (by omega)]
  | cons b t ih =>
    rw [List.length_cons] at h ⊢
    rw [put, ih (by rw [size_update]; omega), read_update (by omega)]
    by_cases hfirst : j = i
    · rw [hfirst, if_neg (by omega), if_pos rfl, if_pos (by omega), Nat.sub_self, List.getD_cons_zero]
    · rw [if_neg hfirst]
      apply ite_congr
      · exact propext (by omega)
      · intro hin
        rw [show j - i = j - (i + 1) + 1 by omega, List.getD_cons_succ]
      · intro _
        rfl

theorem get_eq_map (idx count : ℕ) : e.get idx count = (List.range' idx count).map e.read := by
  induction count generalizing idx with
  | zero => rfl
  | succ count ih => rw [get, ih, List.range'_succ, List.map_cons]

theorem get_put {t : List (BitVec 8)} (h : i + t.length ≤ e.eepromSizeGet) : (e.put i t).get i t.length = t := by
  rw [get_eq_map]
  apply List.ext_getElem
  · simp
  · intro k hk hk'
    rw [List.getElem_map, List.getElem_range', Nat.one_mul, read_put h, if_pos (by omega), Nat.add_sub_cancel_left,
      List.getD_eq_getElem?_getD, List.getElem?_eq_getElem hk', Option.getD_some]

end Bytes

/-- The EEPROM is a byte array. -/
theorem eeprom_is_byte_array (e : Eeprom) :
    (∀ i < e.eepromSizeGet, ∀ v, (e.write i v).read i = v ∧ (e.update i v).read i = v ∧
      ∀ j < e.eepromSizeGet, j ≠ i → (e.write i v).read j = e.read j ∧ (e.update i v).read j = e.read j) ∧
    ∀ idx t, idx + t.length ≤ e.eepromSizeGet → (e.put idx t).get idx t.length = t ∧
      ∀ j < e.eepromSizeGet, j < idx ∨ idx + t.length ≤ j → (e.put idx t).read j = e.read j := by
  constructor
  · intro i hi v
    refine ⟨?_, ?_, ?_⟩
    · rw [read_write hi, if_pos rfl]
    · rw [read_update hi, if_pos rfl]
    · intro j _ hne
      rw [read_write hi, read_update hi, if_neg hne]
      exact ⟨rfl, rfl⟩
  · intro idx t ht
    refine ⟨get_put ht, ?_⟩
    intro j _ hout
    rw [read_put ht, if_neg (by omega)]

theorem eeprom_straddling_object :
    let e : Eeprom := ⟨[0x03020100#32, 0x07060504#32, 0x0B0A0908#32]⟩
    (e.put 3 [0xAA, 0xBB, 0xCC, 0xDD, 0xEE]).get 3 5 = [0xAA, 0xBB, 0xCC, 0xDD, 0xEE] ∧
      (e.put 3 [0xAA, 0xBB, 0xCC, 0xDD, 0xEE]).read 8 = e.read 8 := by
  intro e
  obtain ⟨hget, hframe⟩ := (eeprom_is_byte_array e).2 3 [0xAA, 0xBB, 0xCC, 0xDD, 0xEE] (by decide)
  exact ⟨hget, hframe 8 (by decide) (by decide)⟩

end Eeprom

end LogoCore.Storage
