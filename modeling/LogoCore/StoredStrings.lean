import LogoCore.BlockCopies
import LogoCore.WStringText

namespace LogoCore.Strings

open CStrings

namespace WString

def bytes (s : WString) : List UInt8 := s.buffer.getD []

def contents (s : WString) : List UInt8 := s.bytes.take s.len

/-- A valid String with the NUL-free text `t`; its block is an object of the platform, of at most PTRDIFF_MAX
bytes. -/
def Valid (s : WString) (t : List UInt8) : Prop :=
  ∃ rest, s = holding t rest ∧ NulFree t ∧ t.length + rest.length + 1 < 2 ^ 31

/-- A String that is valid or invalid, by the text that its bytes stand for. -/
def Held (s : WString) (t : List UInt8) : Prop := (s = init ∧ t = []) ∨ s.Valid t

/-- A valid String with any bytes, zero bytes and a missing terminator included. -/
structure Stored (s : WString) (bs : List UInt8) : Prop where
  buffer : s.buffer = some bs
  size : bs.length = s.capacity + 1
  len : s.len ≤ s.capacity
  object : s.capacity + 1 < 2 ^ 31

def Any (s : WString) : Prop := s = init ∨ ∃ bs, s.Stored bs

/-- The call of reserve() finds room or gets memory. -/
def Granted (s : WString) (size : ℕ) (a : Alloc) : Prop := (s.buffer.isSome ∧ size ≤ s.capacity) ∨ a ≠ none

/-- What stands at index `i` of the block, or comes to stand there when the block is extended. -/
def memory (s : WString) (a : Alloc) (i : ℕ) : Option UInt8 :=
  (s.bytes[i]?).or (a.map fun fill => fill (i - s.bytes.length))

def reserved (s : WString) (size : ℕ) (a : Alloc) : List UInt8 := (s.reserve size a).2.bytes

/-- copy() from a block with the bytes `src`; a copy that leaves one of the two blocks has no result. -/
def copyBlock (s : WString) (src : List UInt8) (length : ℕ) (a : Alloc) : Option WString :=
  if (s.reserve length a).1 → Copyable src 0 (s.reserved length a).length then some (s.copy src length a) else none

def assignBlock (s rhs : WString) (a : Alloc) : Option WString :=
  match rhs.buffer with
  | some bs => s.copyBlock bs rhs.len a
  | none => some s.invalidate

-- only the copying branch of move() calls strcpy()
def moveBlock (s rhs : WString) : Option (WString × WString) :=
  if s.buffer.isSome ∧ rhs.buffer.isSome ∧ rhs.len ≤ s.capacity → Copyable rhs.bytes 0 s.bytes.length
  then some (s.move rhs) else none

def concatBlock (s : WString) (src : Option (List UInt8)) (length : ℕ) (a : Alloc) : Option (Bool × WString) :=
  let newlen := (s.len + length) % 2 ^ 32
  if ∀ c ∈ src, length ≠ 0 → (s.reserve newlen a).1 → Copyable c s.len (s.reserved newlen a).length
  then some (s.concat src length a) else none

def plusBlock (s : WString) (src : Option (List UInt8)) (length : ℕ) (a : Alloc) : Option WString :=
  (s.concatBlock src length a).map fun
    | (true, s) => s
    | (false, s) => s.invalidate

section Valid

variable {s : WString} {t t' : List UInt8}

theorem valid_of_nulFree (t : List UInt8) (ht : NulFree t) (h : t.length + 1 < 2 ^ 31) : (holding t []).Valid t :=
  ⟨[], rfl, ht, h⟩

theorem Valid.rep (h : s.Valid t) : s.Rep t := by
  obtain ⟨rest, rfl, ht, hlen⟩ := h
  exact rep_holding ht (by omega)

theorem Valid.short (h : s.Valid t) : t.length + 1 < 2 ^ 31 := by
  obtain ⟨rest, rfl, -, hlen⟩ := h
  omega

theorem Valid.cString_bytes (h : s.Valid t) : CStrings.cString s.bytes = t := by
  obtain ⟨rest, rfl, ht, -⟩ := h
  exact cString_append_nul ht rest

theorem Valid.contents (h : s.Valid t) : s.contents = t := by
  obtain ⟨rest, rfl, -, -⟩ := h
  exact List.take_left

theorem Valid.unique (h : s.Valid t) (h' : s.Valid t') : t = t' := by
  rw [← h.contents, h'.contents]

theorem Held.contents (h : s.Held t) : s.contents = t := by
  rcases h with ⟨rfl, rfl⟩ | h
  · rfl
  · exact h.contents

theorem Held.len (h : s.Held t) : s.len = t.length := by
  rcases h with ⟨rfl, rfl⟩ | h
  · rfl
  · exact h.rep.len

theorem Held.nulFree (h : s.Held t) : NulFree t := by
  rcases h with ⟨rfl, rfl⟩ | h
  · exact nulFree_nil
  · exact h.rep.nulFree

end Valid

section Stored

variable {s : WString} {bs : List UInt8}

theorem Stored.bytes_eq (h : s.Stored bs) : s.bytes = bs := by rw [bytes, h.buffer, Option.getD_some]

theorem Any.len_le (h : s.Any) : s.len ≤ s.bytes.length := by
  rcases h with rfl | ⟨bs, h⟩
  · exact le_rfl
  · rw [h.bytes_eq, h.size]
    exact h.len.trans (Nat.le_succ _)

theorem Any.len_lt (h : s.Any) (hsome : s.buffer.isSome) : s.len < s.bytes.length := by
  rcases h with rfl | ⟨bs, h⟩
  · cases hsome
  · rw [h.bytes_eq, h.size]
    exact Nat.lt_succ_of_le h.len

theorem Any.length_contents (h : s.Any) : s.contents.length = s.len := List.length_take_of_le h.len_le

theorem Any.short (h : s.Any) : s.len + 1 < 2 ^ 31 := by
  rcases h with rfl | ⟨bs, h⟩
  · decide
  · have := h.len
    have := h.object
    omega

theorem Valid.stored {t : List UInt8} (h : s.Valid t) : s.Stored s.bytes := by
  obtain ⟨rest, rfl, ht, hlen⟩ := h
  refine ⟨rfl, ?_, Nat.le_add_right _ _, hlen⟩
  simp only [bytes, holding, Option.getD_some, List.length_append, List.length_cons]
  omega

theorem Any.capacity_lt (h : s.Any) : s.capacity + 1 < 2 ^ 31 := by
  rcases h with rfl | ⟨bs, h⟩
  · decide
  · exact h.object

theorem Rep.valid {t : List UInt8} (h : s.Rep t) (hbuffer : s.buffer ≠ none) (hcap : s.capacity + 1 < 2 ^ 31) :
    s.Valid t := by
  rcases h with ⟨rfl, -⟩ | ⟨rest, rfl, ht, -⟩
  · exact absurd rfl hbuffer
  · exact ⟨rest, rfl, ht, hcap⟩

theorem Held.any {t : List UInt8} (h : s.Held t) : s.Any := h.imp And.left fun h => ⟨_, h.stored⟩

end Stored

section Reserve

variable {s : WString} {size : ℕ}

theorem reserve_fits (h : s.buffer.isSome ∧ size ≤ s.capacity) (a : Alloc) : s.reserve size a = (true, s) := if_pos h

theorem reserve_fails (h : ¬ (s.buffer.isSome ∧ size ≤ s.capacity)) (hsize : size + 1 < 2 ^ 32) :
    s.reserve size none = (false, s) := by
  rw [reserve, if_neg h, changeBuffer_fails hsize]

theorem reserve_denied (hsize : size + 1 < 2 ^ 32) {a : Alloc} (ha : ¬ s.Granted size a) :
    s.reserve size a = (false, s) := by
  obtain ⟨hroom, hnone⟩ := not_or.mp ha
  obtain rfl := not_not.mp hnone
  exact reserve_fails hroom hsize

theorem copy_denied {src : List UInt8} (hsize : size + 1 < 2 ^ 32) {a : Alloc} (ha : ¬ s.Granted size a) :
    s.copy src size a = init := by
  rw [copy, reserve_denied hsize ha]
  rfl

theorem capacity_reserve_le (s : WString) (size : ℕ) (a : Alloc) :
    (s.reserve size a).2.capacity ≤ max s.capacity size := by
  rw [reserve]
  split
  · exact le_max_left _ _
  · cases a with
    | none =>
      simp only [changeBuffer]
      split <;> exact le_max_left _ _
    | some fill =>
      simp only [changeBuffer]
      split <;> exact le_max_right _ _

theorem reserve_grows (h : ¬ (s.buffer.isSome ∧ size ≤ s.capacity)) (hsize : size + 1 < 2 ^ 32)
    (hlen : s.len ≤ size) (hbytes : s.len ≤ s.bytes.length) (fill : ℕ → UInt8) :
    ∃ bs, s.reserve size (some fill) = (true, ⟨some bs, size, s.len⟩) ∧ bs.length = size + 1 ∧
      bs.take s.len = s.contents := by
  have hchange := changeBuffer_some (s := s) hsize fill
  by_cases hzero : s.len = 0
  · refine ⟨overwrite (resize s.bytes (size + 1) fill) 0 [0], ?_, ?_, ?_⟩
    · rw [reserve, if_neg h, hchange]
      simp only [hzero, if_true, Option.map_some, bytes]
    · rw [length_overwrite, length_resize]
    · rw [contents, hzero, List.take_zero, List.take_zero]
  · refine ⟨resize s.bytes (size + 1) fill, ?_, length_resize _ _ _, ?_⟩
    · rw [reserve, if_neg h, hchange]
      simp only [if_neg hzero, bytes]
    · rw [resize, List.take_append_of_le_length (by rw [List.length_take]; omega), List.take_take,
        Nat.min_eq_left (by omega), contents]

theorem reserve_granted (hs : s.Any) (hsize : size + 1 < 2 ^ 32) {a : Alloc} (ha : s.Granted size a) :
    ∃ bs cap, s.reserve size a = (true, ⟨some bs, cap, s.len⟩) ∧ bs.length = cap + 1 ∧ size ≤ cap ∧
      bs.take s.len = s.contents := by
  by_cases hfits : s.buffer.isSome ∧ size ≤ s.capacity
  · rcases hs with rfl | ⟨bs, hs⟩
    · cases hfits.1
    · refine ⟨bs, s.capacity, ?_, hs.size, hfits.2, by rw [contents, hs.bytes_eq]⟩
      rw [reserve_fits hfits, ← hs.buffer]
  · obtain ⟨fill, rfl⟩ := Option.ne_none_iff_exists'.mp (ha.resolve_left hfits)
    have hlen : s.len ≤ size := by
      rcases hs with rfl | ⟨bs, hs⟩
      · exact Nat.zero_le _
      · have hcap : ¬ size ≤ s.capacity := fun h => hfits ⟨by rw [hs.buffer]; rfl, h⟩
        have := hs.len
        omega
    obtain ⟨bs, hreserve, hbs, htext⟩ := reserve_grows hfits hsize hlen hs.len_le fill
    exact ⟨bs, size, hreserve, hbs, le_rfl, htext⟩

theorem length_reserved (hs : s.Any) (hsize : size + 1 < 2 ^ 32) {a : Alloc} (ha : s.Granted size a) :
    (s.reserved size a).length = max s.capacity size + 1 := by
  by_cases hfits : s.buffer.isSome ∧ size ≤ s.capacity
  · rcases hs with rfl | ⟨bs, hs⟩
    · cases hfits.1
    · rw [reserved, reserve_fits hfits, hs.bytes_eq, hs.size, max_eq_left hfits.2]
  · obtain ⟨fill, rfl⟩ := Option.ne_none_iff_exists'.mp (ha.resolve_left hfits)
    have hcap : s.capacity ≤ size := by
      rcases hs with rfl | ⟨bs, hs⟩
      · exact Nat.zero_le _
      · exact (Nat.lt_of_not_le fun h => hfits ⟨by rw [hs.buffer]; rfl, h⟩).le
    rw [reserved, reserve, if_neg hfits, changeBuffer_some hsize, max_eq_right hcap]
    by_cases hzero : s.len = 0
    · simp only [if_pos hzero, Option.map_some, bytes, Option.getD_some, length_overwrite, length_resize]
    · simp only [if_neg hzero, bytes, Option.getD_some, length_resize]

theorem getElem?_reserved (hs : s.Any) (hsize : size + 1 < 2 ^ 32) {a : Alloc} (ha : s.Granted size a) {i : ℕ}
    (hpos : 0 < i) (hi : i ≤ size) : (s.reserved size a)[i]? = s.memory a i := by
  by_cases hfits : s.buffer.isSome ∧ size ≤ s.capacity
  · rcases hs with rfl | ⟨bs, hs⟩
    · cases hfits.1
    · have hlt : i < bs.length := by
        rw [hs.size]
        omega
      rw [reserved, reserve_fits hfits, memory, hs.bytes_eq, List.getElem?_eq_getElem hlt, Option.some_or]
  · obtain ⟨fill, rfl⟩ := Option.ne_none_iff_exists'.mp (ha.resolve_left hfits)
    rw [reserved, reserve, if_neg hfits, changeBuffer_some hsize]
    by_cases hzero : s.len = 0
    · simp only [if_pos hzero, Option.map_some, bytes, Option.getD_some]
      rw [getElem?_overwrite, if_neg (by simp only [List.length_singleton]; omega)]
      exact getElem?_resize (by omega) fill
    · simp only [if_neg hzero, bytes, Option.getD_some]
      exact getElem?_resize (by omega) fill

theorem copy_granted {src c : List UInt8} (hs : s.Any) (hsrc : CStrings.cString src = c) (hc : c.length + 1 < 2 ^ 31)
    {a : Alloc} (ha : s.Granted c.length a) : (s.copy src c.length a).Valid c := by
  obtain ⟨bs, cap, hreserve, hblock, hroom, -⟩ := reserve_granted hs (by omega) ha
  have hcap : cap + 1 < 2 ^ 31 := by
    have hle := capacity_reserve_le s c.length a
    have hlt := hs.capacity_lt
    rw [hreserve] at hle
    simp only at hle
    omega
  have hcopy : s.copy src c.length a = ⟨some (strcpy bs 0 src), cap, c.length⟩ := by
    simp only [copy, hreserve, Option.map_some]
  have hrep := rep_strcpy (t := []) hblock (by omega) (by simpa using hroom) nulFree_nil hsrc
  rw [hcopy]
  apply Rep.valid
  · simpa using hrep
  · exact Option.some_ne_none _
  · exact hcap

def differing (bs : List UInt8) (i : ℕ) : UInt8 := bs.getD i 0 + 1

theorem memory_differing {bs : List UInt8} {i : ℕ} (hi : i < bs.length) :
    init.memory (some (differing bs)) i ≠ bs[i]? := by
  have hfresh : init.memory (some (differing bs)) i = some (differing bs i) := rfl
  rw [hfresh, differing, List.getD_eq_getElem?_getD, List.getElem?_eq_getElem hi, Option.getD_some]
  simp

end Reserve

end WString

end LogoCore.Strings
