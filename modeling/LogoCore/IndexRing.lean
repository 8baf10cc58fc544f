import LogoCore.RingBuffer

namespace LogoCore

structure IndexRing (α : Type*) where
  cells : ℕ → α
  size : ℕ
  readIndex : ℕ
  writeIndex : ℕ

namespace IndexRing

variable {α : Type*}

def IsEmpty (r : IndexRing α) : Prop := r.readIndex = r.writeIndex

def IsFull (r : IndexRing α) : Prop := (r.writeIndex + 1) % r.size = r.readIndex

instance (r : IndexRing α) : Decidable r.IsEmpty := inferInstanceAs (Decidable (_ = _))

instance (r : IndexRing α) : Decidable r.IsFull := inferInstanceAs (Decidable (_ = _))

def put (r : IndexRing α) (a : α) : IndexRing α :=
  { r with cells := Function.update r.cells r.writeIndex a, writeIndex := (r.writeIndex + 1) % r.size }

def putAll (r : IndexRing α) (as : List α) : IndexRing α := as.foldl put r

def skip (r : IndexRing α) : IndexRing α := { r with readIndex := (r.readIndex + 1) % r.size }

def fill (r : IndexRing α) : ℕ :=
  if r.readIndex ≤ r.writeIndex then r.writeIndex - r.readIndex else r.size - (r.readIndex - r.writeIndex)

def counted (r : IndexRing α) : RingBuffer α := ⟨r.cells, r.readIndex, r.writeIndex, r.fill⟩

def contents (r : IndexRing α) : List α := r.counted.toList r.size

structure Valid (r : IndexRing α) : Prop where
  read : r.readIndex < r.size
  write : r.writeIndex < r.size

variable {r : IndexRing α}

theorem length_contents : r.contents.length = r.fill := RingBuffer.length_toList

theorem mem_contents {a : α} (h : a ∈ r.contents) : ∃ i, a = r.cells i := by
  obtain ⟨i, -, rfl⟩ := List.mem_map.mp h
  exact ⟨_, rfl⟩

namespace Valid

variable (h : r.Valid)

include h

theorem fill_lt : r.fill < r.size := by
  have hread := h.read
  have hwrite := h.write
  unfold fill
  split <;> omega

theorem write_eq : r.writeIndex = (r.readIndex + r.fill) % r.size := by
  have hread := h.read
  have hwrite := h.write
  unfold fill
  split
  · rw [Nat.add_sub_cancel' ‹_›, Nat.mod_eq_of_lt hwrite]
  · have hsum : r.readIndex + (r.size - (r.readIndex - r.writeIndex)) = r.writeIndex + r.size := by omega
    rw [hsum, Nat.add_mod_right, Nat.mod_eq_of_lt hwrite]

theorem fill_eq_of_write {k : ℕ} (hk : k < r.size) (hw : r.writeIndex = (r.readIndex + k) % r.size) : r.fill = k := by
  have hmod : Nat.ModEq r.size (r.readIndex + r.fill) (r.readIndex + k) := h.write_eq.symm.trans hw
  have hcancel := Nat.ModEq.add_left_cancel' r.readIndex hmod
  rwa [Nat.ModEq, Nat.mod_eq_of_lt h.fill_lt, Nat.mod_eq_of_lt hk] at hcancel

theorem counted : r.counted.Valid r.size := ⟨h.read, h.write_eq, h.fill_lt.le⟩

theorem isEmpty_iff : r.IsEmpty ↔ r.fill = 0 := by
  have hread := h.read
  have hwrite := h.write
  unfold IsEmpty fill
  split <;> omega

theorem isFull_iff : r.IsFull ↔ r.fill + 1 = r.size := by
  have hlt := h.fill_lt
  have hread := h.read
  rw [IsFull, h.write_eq, Nat.mod_add_mod, Nat.add_assoc]
  constructor
  · intro hfull
    by_contra hne
    have hmod : Nat.ModEq r.size (r.readIndex + (r.fill + 1)) (r.readIndex + 0) := by
      rw [Nat.ModEq, hfull, Nat.add_zero, Nat.mod_eq_of_lt hread]
    have hcancel := Nat.ModEq.add_left_cancel' r.readIndex hmod
    rw [Nat.ModEq, Nat.mod_eq_of_lt (by omega), Nat.zero_mod] at hcancel
    omega
  · intro hfull
    rw [hfull, Nat.add_mod_right, Nat.mod_eq_of_lt hread]

theorem put (hfull : ¬ r.IsFull) (a : α) : (r.put a).Valid ∧ (r.put a).contents = r.contents ++ [a] := by
  have hlt := h.fill_lt
  have hroom : r.fill + 1 < r.size := by
    rw [h.isFull_iff] at hfull
    omega
  have hvalid : (r.put a).Valid := ⟨h.read, Nat.mod_lt _ (by omega)⟩
  have hfill : (r.put a).fill = r.fill + 1 := by
    apply hvalid.fill_eq_of_write hroom
    change (r.writeIndex + 1) % r.size = (r.readIndex + (r.fill + 1)) % r.size
    rw [h.write_eq, Nat.mod_add_mod, Nat.add_assoc]
  have hpush : (r.put a).counted = r.counted.push r.size a := by
    rw [IndexRing.counted, hfill]
    simp only [IndexRing.put, RingBuffer.push, IndexRing.counted, RingBuffer.wrap_succ h.write]
  refine ⟨hvalid, ?_⟩
  rw [contents, hpush]
  exact (h.counted.push hlt a).2

theorem skip (hempty : ¬ r.IsEmpty) : r.skip.Valid ∧ r.contents = r.cells r.readIndex :: r.skip.contents := by
  have hlt := h.fill_lt
  have hpos : 0 < r.fill := by
    rw [h.isEmpty_iff] at hempty
    omega
  have hvalid : r.skip.Valid := ⟨Nat.mod_lt _ (by omega), h.write⟩
  have hfill : r.skip.fill = r.fill - 1 := by
    apply hvalid.fill_eq_of_write (show r.fill - 1 < r.size by omega)
    change r.writeIndex = ((r.readIndex + 1) % r.size + (r.fill - 1)) % r.size
    rw [Nat.mod_add_mod, Nat.add_assoc, Nat.add_sub_cancel' hpos]
    exact h.write_eq
  have hpop : r.skip.counted = r.counted.pop r.size := by
    rw [IndexRing.counted, hfill]
    simp only [IndexRing.skip, RingBuffer.pop, IndexRing.counted, RingBuffer.wrap_succ h.read]
  refine ⟨hvalid, ?_⟩
  have hcons := (h.counted.pop hpos).2
  rw [← hpop] at hcons
  exact hcons

end Valid

section PutAll

theorem size_putAll (r : IndexRing α) (as : List α) : (r.putAll as).size = r.size := by
  induction as generalizing r with
  | nil => rfl
  | cons a as ih => exact ih (r.put a)

theorem readIndex_putAll (r : IndexRing α) (as : List α) : (r.putAll as).readIndex = r.readIndex := by
  induction as generalizing r with
  | nil => rfl
  | cons a as ih => exact ih (r.put a)

theorem writeIndex_putAll (h : r.writeIndex < r.size) (as : List α) :
    (r.putAll as).writeIndex = (r.writeIndex + as.length) % r.size := by
  induction as generalizing r with
  | nil => exact (Nat.mod_eq_of_lt h).symm
  | cons a as ih =>
    have hnext : (r.put a).writeIndex < (r.put a).size := Nat.mod_lt _ (Nat.zero_lt_of_lt h)
    refine (ih hnext).trans ?_
    change ((r.writeIndex + 1) % r.size + as.length) % r.size = (r.writeIndex + (as.length + 1)) % r.size
    rw [Nat.mod_add_mod, Nat.add_assoc, Nat.add_comm 1]

theorem cells_putAll (h : r.writeIndex < r.size) {as : List α} {j : ℕ}
    (hj : ∀ m < as.length, (r.writeIndex + m) % r.size ≠ j) : (r.putAll as).cells j = r.cells j := by
  induction as generalizing r with
  | nil => rfl
  | cons a as ih =>
    have hnext : (r.put a).writeIndex < (r.put a).size := Nat.mod_lt _ (Nat.zero_lt_of_lt h)
    have hfirst : j ≠ r.writeIndex := by
      have hzero := hj 0 (Nat.succ_pos _)
      rw [Nat.add_zero, Nat.mod_eq_of_lt h] at hzero
      exact hzero.symm
    have hrest : ((r.put a).putAll as).cells j = (r.put a).cells j := by
      apply ih hnext
      intro m hm
      change ((r.writeIndex + 1) % r.size + m) % r.size ≠ j
      rw [Nat.mod_add_mod, Nat.add_assoc, Nat.add_comm 1]
      exact hj (m + 1) (Nat.succ_lt_succ hm)
    exact hrest.trans (Function.update_of_ne hfirst _ _)

namespace Valid

variable (h : r.Valid)

include h

theorem putAll (as : List α) : (r.putAll as).Valid ∧ (r.putAll as).fill = (r.fill + as.length) % r.size := by
  have hpos : 0 < r.size := Nat.zero_lt_of_lt h.read
  have hwrite := writeIndex_putAll h.write as
  have hvalid : (r.putAll as).Valid := by
    refine ⟨?_, ?_⟩
    · rw [readIndex_putAll, size_putAll]
      exact h.read
    · rw [hwrite, size_putAll]
      exact Nat.mod_lt _ hpos
  refine ⟨hvalid, hvalid.fill_eq_of_write ?_ ?_⟩
  · rw [size_putAll]
    exact Nat.mod_lt _ hpos
  · rw [hwrite, readIndex_putAll, size_putAll, Nat.add_mod_mod, h.write_eq, Nat.mod_add_mod, Nat.add_assoc]

theorem cells_putAll {as : List α} (hroom : r.fill + as.length ≤ r.size) {k : ℕ} (hk : k < r.fill) :
    (r.putAll as).cells ((r.readIndex + k) % r.size) = r.cells ((r.readIndex + k) % r.size) := by
  apply IndexRing.cells_putAll h.write
  intro m hm heq
  rw [h.write_eq, Nat.mod_add_mod, Nat.add_assoc] at heq
  have hcancel := Nat.ModEq.add_left_cancel' r.readIndex heq
  rw [Nat.ModEq, Nat.mod_eq_of_lt (by omega), Nat.mod_eq_of_lt (by omega)] at hcancel
  omega

theorem contents_putAll {as : List α} (hroom : r.fill + as.length < r.size) :
    (r.putAll as).contents = r.contents ++ as := by
  induction as generalizing r with
  | nil => exact (List.append_nil _).symm
  | cons a as ih =>
    rw [List.length_cons] at hroom
    have hfull : ¬ r.IsFull := by
      rw [h.isFull_iff]
      omega
    obtain ⟨hvalid, hcontents⟩ := h.put hfull a
    have hfill : (r.put a).fill = r.fill + 1 := by
      rw [← length_contents, hcontents, List.length_append, length_contents]
      rfl
    have hsize : (r.put a).size = r.size := rfl
    have hrest : ((r.put a).putAll as).contents = (r.put a).contents ++ as := by
      apply ih hvalid
      omega
    rw [hcontents, List.append_assoc, List.singleton_append] at hrest
    exact hrest

end Valid

end PutAll

end IndexRing

end LogoCore
