import LogoCore.StoredStrings

namespace LogoCore.Strings

open CStrings

namespace WString

/-- `operator[]` of a String. -/
def charAt (s : WString) (index : ℕ) : UInt8 :=
  if s.len ≤ index ∨ s.buffer = none then 0 else s.bytes.getD index 0

/-- `+=` of the characters that a stream delivers before its time runs out, with the outcome of each allocation. -/
def readString (ret : WString) (cs : List (UInt8 × Alloc)) : Option WString :=
  cs.foldlM (fun ret c => (ret.concatBlock (some [c.1, 0]) 1 c.2).map Prod.snd) ret

def readStringUntil (ret : WString) (terminator : UInt8) (cs : List (UInt8 × Alloc)) : Option WString :=
  ret.readString (cs.takeWhile (·.1 ≠ terminator))

end WString

inductive Assignment
  | construct
  | copy
  | move

namespace Assignment

def apply : Assignment → WString → WString → Alloc → Option WString
  | .construct, _, s, a => WString.init.assignBlock s a
  | .copy, d, s, a => d.assignBlock s a
  | .move, d, s, _ => (d.moveBlock s).map Prod.fst

/-- The String into whose block strcpy() copies, unless there is nothing to copy or the block is taken over. -/
def target : Assignment → WString → WString → Option WString
  | .construct, _, s => if s.buffer.isSome then some .init else none
  | .copy, d, s => if s.buffer.isSome then some d else none
  | .move, d, s => if d.buffer.isSome ∧ s.buffer.isSome ∧ s.len ≤ d.capacity then some d else none

theorem isSome_of_target {op : Assignment} {d s r : WString} (h : r ∈ op.target d s) : s.buffer.isSome := by
  by_contra hnone
  cases op <;> simp [target, hnone] at h

end Assignment

namespace WString

def Preserved (s r : WString) : Prop := r.len = s.len ∧ ∀ i < s.len, r.charAt i = s.charAt i

/-- strcpy() into the block of `r` stays inside both blocks, and the bytes that it does not reach stand there. -/
def Kept (s r : WString) (fill : ℕ → UInt8) : Prop :=
  Copyable s.bytes 0 (max r.capacity s.len + 1) ∧
    ∀ k, strlen s.bytes < k → k < s.len → r.memory (some fill) k = s.bytes[k]?

section Copies

variable {s d r : WString} {bs block : List UInt8}

theorem exists_mem_ite_iff {p : Prop} [Decidable p] {P : WString → Prop} :
    (∃ x ∈ (if p then some r else none), P x) ↔ p ∧ P r := by
  split
  · rename_i hp
    simp [hp]
  · rename_i hp
    simp [hp]

theorem charAt_of_lt {i : ℕ} (hi : i < s.len) (hlen : s.len ≤ s.bytes.length) : some (s.charAt i) = s.contents[i]? := by
  have hsome : ¬ (s.len ≤ i ∨ s.buffer = none) := by
    rintro (h | h)
    · omega
    · rw [bytes, h] at hlen
      exact absurd hlen (by simp; omega)
  rw [charAt, if_neg hsome, contents, List.getElem?_take, if_pos hi, List.getD_eq_getElem?_getD,
    List.getElem?_eq_getElem (by omega), Option.getD_some]

theorem preserved_iff (hs : s.len ≤ s.bytes.length) (hr : r.len ≤ r.bytes.length) (hlen : r.len = s.len) :
    Preserved s r ↔ r.contents = s.contents := by
  constructor
  · rintro ⟨-, h⟩
    apply List.ext_getElem?
    intro i
    by_cases hi : i < s.len
    · rw [← charAt_of_lt hi hs, ← charAt_of_lt (hlen ▸ hi) hr, h i hi]
    · rw [contents, contents, List.getElem?_take, if_neg (by omega), List.getElem?_take, if_neg hi]
  · intro h
    refine ⟨hlen, fun i hi => Option.some.inj ?_⟩
    rw [charAt_of_lt hi hs, charAt_of_lt (hlen ▸ hi) hr, h]

theorem preserved_copied_iff (hs : s.Stored bs) (hblock : s.len ≤ block.length) (cap : ℕ) :
    Preserved s ⟨some (strcpy block 0 bs), cap, s.len⟩ ↔
      ∀ k, strlen bs < k → k < s.len → block[k]? = bs[k]? := by
  have hlen : s.len ≤ bs.length := by
    have := Any.len_le (.inr ⟨bs, hs⟩)
    rwa [hs.bytes_eq] at this
  have hrange := strcpy_range_iff bs (show 0 + s.len ≤ block.length by omega) hlen
  simp only [List.drop_zero, Nat.zero_add] at hrange
  have hiff := preserved_iff (r := ⟨some (strcpy block 0 bs), cap, s.len⟩) (Any.len_le (.inr ⟨bs, hs⟩))
    (by simpa [bytes, strcpy] using hblock) rfl
  rw [hiff, ← hrange, contents, contents, hs.bytes_eq]
  rfl

theorem preserved_assign_iff (hd : d.Any) (hs : s.Stored bs) (fill : ℕ → UInt8) :
    (∃ r ∈ d.assignBlock s (some fill), s.Preserved r) ↔ s.Kept d fill := by
  have hshort := Any.short (.inr ⟨bs, hs⟩)
  have hsize : s.len + 1 < 2 ^ 32 := by omega
  have hgranted : d.Granted s.len (some fill) := .inr nofun
  obtain ⟨block, cap, hreserve, hblock, hroom, -⟩ := reserve_granted hd hsize hgranted
  have hcopy : d.copy bs s.len (some fill) = ⟨some (strcpy block 0 bs), cap, s.len⟩ := by
    simp only [copy, hreserve, Option.map_some]
  have hassign : d.assignBlock s (some fill) = if Copyable bs 0 (max d.capacity s.len + 1)
      then some ⟨some (strcpy block 0 bs), cap, s.len⟩ else none := by
    simp only [assignBlock, hs.buffer, copyBlock, length_reserved hd hsize hgranted, hreserve, hcopy, forall_const]
  rw [hassign, exists_mem_ite_iff, preserved_copied_iff hs (by omega), Kept, hs.bytes_eq]
  apply and_congr_right'
  apply forall₃_congr
  intro k hk hlt
  have hbyte := getElem?_reserved hd hsize hgranted (Nat.zero_lt_of_lt hk) hlt.le
  rw [reserved, hreserve] at hbyte
  rw [← hbyte]
  rfl

theorem preserved_move_iff (hd : d.Any) (hs : s.Stored bs) (fill : ℕ → UInt8) :
    (∃ r ∈ (d.moveBlock s).map Prod.fst, s.Preserved r) ↔
      (d.buffer.isSome ∧ s.buffer.isSome ∧ s.len ≤ d.capacity → s.Kept d fill) := by
  have hself : s.Preserved s := ⟨rfl, fun _ _ => rfl⟩
  by_cases hcopies : d.buffer.isSome ∧ s.buffer.isSome ∧ s.len ≤ d.capacity
  · obtain ⟨ds, hd⟩ := hd.resolve_left (by rintro rfl; cases hcopies.1)
    have hroom := hcopies.2.2
    have hsize := hd.size
    have hmove : (d.moveBlock s).map Prod.fst = if Copyable bs 0 (max d.capacity s.len + 1)
        then some ⟨some (strcpy ds 0 bs), d.capacity, s.len⟩ else none := by
      rw [moveBlock, hs.bytes_eq, hd.bytes_eq, hsize, max_eq_left hroom, apply_ite (Option.map Prod.fst)]
      simp only [move, hd.buffer, hs.buffer, Option.isSome_some, true_and, hroom, forall_const, if_true,
        Option.map_some, Option.map_none]
    rw [hmove, exists_mem_ite_iff, imp_iff_right hcopies, preserved_copied_iff hs (by omega), Kept, hs.bytes_eq]
    apply and_congr_right'
    apply forall₃_congr
    intro k hk hlt
    rw [memory, hd.bytes_eq, List.getElem?_eq_getElem (by omega), Option.some_or]
  · have htaken : d.move s = (s, init) := by
      rcases hd with rfl | ⟨ds, hd⟩
      · rfl
      · have hroom : ¬ s.len ≤ d.capacity := fun h => hcopies ⟨by rw [hd.buffer]; rfl, by rw [hs.buffer]; rfl, h⟩
        simp only [move, hd.buffer, hs.buffer, if_neg hroom]
        rfl
    rw [moveBlock, if_pos fun h => absurd h hcopies, htaken]
    exact ⟨fun _ h => absurd h hcopies, fun _ => ⟨s, rfl, hself⟩⟩

theorem preserved_init (hd : d.Any) (op : Assignment) (a : Alloc) :
    ∃ r ∈ op.apply d init a, init.Preserved r := by
  suffices ∃ r ∈ op.apply d init a, r.len = 0 by
    obtain ⟨r, hr, hlen⟩ := this
    exact ⟨r, hr, hlen, fun i hi => absurd hi (Nat.not_lt_zero i)⟩
  cases op with
  | construct => exact ⟨init, rfl, rfl⟩
  | copy => exact ⟨init, rfl, rfl⟩
  | move =>
    refine ⟨init, ?_, rfl⟩
    have hmove : d.move init = (init, init) := by
      rcases hd with rfl | ⟨ds, hd⟩
      · rfl
      · simp only [move, hd.buffer]
        rfl
    rw [Assignment.apply, moveBlock, if_pos (fun h => by cases h.2.1), hmove]
    rfl

theorem preserved_apply_iff (hs : s.Any) (hd : d.Any) (op : Assignment) (fill : ℕ → UInt8) :
    (∃ r ∈ op.apply d s (some fill), s.Preserved r) ↔ ∀ r ∈ op.target d s, s.Kept r fill := by
  rcases hs with rfl | ⟨bs, hs⟩
  · have hnone : op.target d init = none := by
      cases op with
      | construct => rfl
      | copy => rfl
      | move => exact if_neg fun h => by cases h.2.1
    rw [hnone]
    exact ⟨fun _ _ h => (nomatch h), fun _ => preserved_init hd op _⟩
  · have hsome : s.buffer.isSome := by rw [hs.buffer]; rfl
    cases op with
    | construct =>
      simp only [Assignment.apply, Assignment.target, if_pos hsome, Option.mem_some_iff, forall_eq']
      exact preserved_assign_iff (.inl rfl) hs fill
    | copy =>
      simp only [Assignment.apply, Assignment.target, if_pos hsome, Option.mem_some_iff, forall_eq']
      exact preserved_assign_iff hd hs fill
    | move =>
      rw [Assignment.apply, preserved_move_iff hd hs fill, Assignment.target]
      split
      · rename_i hroom
        simp only [imp_iff_right hroom, Option.mem_some_iff, forall_eq']
      · rename_i hroom
        exact ⟨fun _ r hr => (nomatch hr), fun _ h => absurd h hroom⟩

end Copies

end WString

end LogoCore.Strings
