import LogoCore.ByteComparison
import LogoCore.StoredStrings

namespace LogoCore.Strings

open CStrings

namespace WString

/-- The byte at an index from the start of the block; `mem` is what memory holds behind the block. -/
def peek (s : WString) (mem : ℕ → UInt8) (i : ℕ) : UInt8 := (s.bytes[i]?).getD (mem i)

/-- `startsWith(s2, offset)`, with the number of bytes that are read of the receiver from `offset` on. -/
def startsWithAt (mem : ℕ → UInt8) (s s2 : WString) (offset : ℕ) : Bool × ℕ :=
  -- len - s2.len is a difference of unsigned numbers
  if (s.len + 2 ^ 32 - s2.len) % 2 ^ 32 < offset ∨ s.buffer = none ∨ s2.buffer = none then (false, 0)
  else
    let r := strncmp s2.len (fun i => s.peek mem (offset + i)) (fun i => s2.bytes.getD i 0)
    (r.1 = 0, r.2)

def startsWith (mem : ℕ → UInt8) (s s2 : WString) : Bool × ℕ :=
  if s.len < s2.len then (false, 0) else startsWithAt mem s s2 0

/-- The answer is that of the texts, and no index beyond the length of the receiver is read. -/
def ExactPrefix (s s2 : WString) (offset : ℕ) (r : Bool × ℕ) : Prop :=
  (r.1 = true ↔ offset + s2.len ≤ s.len ∧ (s.bytes.drop offset).take s2.len = s2.contents) ∧
    ∀ i < r.2, offset + i ≤ s.len

/-- A zero byte that the texts share, with a difference behind it. -/
def Hidden (s s2 : WString) (offset : ℕ) : Prop :=
  ∃ i j, i < j ∧ j < s2.len ∧ (∀ k ≤ i, s.bytes[offset + k]? = s2.bytes[k]?) ∧ s2.bytes[i]? = some 0 ∧
    s.bytes[offset + j]? ≠ s2.bytes[j]?

/-- A difference that the comparison meets before it leaves the receiver. -/
def Differs (s s2 : WString) (offset : ℕ) : Prop :=
  ∃ j, offset + j ≤ s.len ∧ (∀ i < j, s.bytes[offset + i]? = s2.bytes[i]? ∧ s2.bytes[i]? ≠ some 0) ∧
    s.bytes[offset + j]? ≠ s2.bytes[j]?

section Compared

variable {s s2 : WString} {bs cs : List UInt8} {mem : ℕ → UInt8} {offset : ℕ}

theorem startsWithAt_rejects (h : (s.len + 2 ^ 32 - s2.len) % 2 ^ 32 < offset) :
    s.startsWithAt mem s2 offset = (false, 0) := if_pos (.inl h)

theorem startsWithAt_compares (hs : s.Stored bs) (hs2 : s2.Stored cs)
    (h : offset ≤ (s.len + 2 ^ 32 - s2.len) % 2 ^ 32) :
    s.startsWithAt mem s2 offset =
      (decide ((strncmp s2.len (fun i => s.peek mem (offset + i)) (fun i => s2.bytes.getD i 0)).1 = 0),
        (strncmp s2.len (fun i => s.peek mem (offset + i)) (fun i => s2.bytes.getD i 0)).2) := by
  have hguard : ¬ ((s.len + 2 ^ 32 - s2.len) % 2 ^ 32 < offset ∨ s.buffer = none ∨ s2.buffer = none) := by
    rw [hs.buffer, hs2.buffer]
    rintro (h' | h' | h')
    · omega
    · cases h'
    · cases h'
  rw [startsWithAt, if_neg hguard]

theorem peek_eq_iff (mem : ℕ → UInt8) {i : ℕ} (hi : offset + i < s.bytes.length) (hi2 : i < s2.bytes.length) :
    s.peek mem (offset + i) = s2.bytes.getD i 0 ↔ s.bytes[offset + i]? = s2.bytes[i]? := by
  rw [peek, List.getD_eq_getElem?_getD, List.getElem?_eq_getElem hi, List.getElem?_eq_getElem hi2, Option.getD_some,
    Option.getD_some, Option.some.injEq]

theorem getD_eq_zero_iff {i : ℕ} (hi : i < s2.bytes.length) : s2.bytes.getD i 0 = 0 ↔ s2.bytes[i]? = some 0 := by
  rw [List.getD_eq_getElem?_getD, List.getElem?_eq_getElem hi, Option.getD_some, Option.some.injEq]

theorem reached_iff (mem : ℕ → UInt8) {j : ℕ} (hj : offset + j ≤ s.bytes.length) (hj2 : j ≤ s2.bytes.length) :
    Reached (fun i => s.peek mem (offset + i)) (fun i => s2.bytes.getD i 0) j ↔
      ∀ i < j, s.bytes[offset + i]? = s2.bytes[i]? ∧ s2.bytes[i]? ≠ some 0 := by
  apply forall₂_congr
  intro i hi
  rw [← peek_eq_iff mem (show offset + i < s.bytes.length by omega) (show i < s2.bytes.length by omega),
    ne_eq, ne_eq, ← getD_eq_zero_iff (show i < s2.bytes.length by omega)]
  apply and_congr_right
  intro heq
  rw [heq]

theorem slice_eq_iff :
    (s.bytes.drop offset).take s2.len = s2.contents ↔ ∀ j < s2.len, s.bytes[offset + j]? = s2.bytes[j]? := by
  rw [contents, List.ext_getElem?_iff]
  apply forall_congr'
  intro j
  rw [List.getElem?_take, List.getElem?_take, List.getElem?_drop]
  split
  · rename_i hj
    exact ⟨fun h _ => h, fun h => h hj⟩
  · rename_i hj
    exact ⟨fun _ h => absurd h hj, fun _ => rfl⟩

theorem met_all_iff {equal nul : ℕ → Prop} {n : ℕ} :
    ((∀ j < n, (∀ i < j, equal i ∧ ¬ nul i) → equal j) ↔ ∀ j < n, equal j) ↔
      ¬ ∃ i j, i < j ∧ j < n ∧ (∀ k ≤ i, equal k) ∧ nul i ∧ ¬ equal j := by
  constructor
  · rintro h ⟨i, j, hij, hj, heq, hnul, hne⟩
    apply hne
    refine h.mp (fun m _ hreached => ?_) j hj
    have hmi : m ≤ i := not_lt.mp fun him => (hreached i him).2 hnul
    exact heq m hmi
  · intro hidden
    refine ⟨fun h j => ?_, fun h j hj _ => h j hj⟩
    induction j using Nat.strong_induction_on with
    | _ j ih =>
      intro hj
      by_contra hne
      refine hne (h j hj fun i hi => ⟨ih i hi (hi.trans hj), fun hnul => ?_⟩)
      exact hidden ⟨i, j, hi, hj, fun k hk => ih k (by omega) (by omega), hnul, hne⟩

theorem exactPrefix_inside_iff (hs : s.Stored bs) (hs2 : s2.Stored cs) (h : offset + s2.len ≤ s.len) :
    ExactPrefix s s2 offset (s.startsWithAt mem s2 offset) ↔ ¬ s.Hidden s2 offset := by
  have hlen := Any.len_le (.inr ⟨bs, hs⟩)
  have hlen2 := Any.len_le (.inr ⟨cs, hs2⟩)
  have hshort := Any.short (.inr ⟨bs, hs⟩)
  have hbounds : ∀ i < (s.startsWithAt mem s2 offset).2, offset + i ≤ s.len := by
    intro i hi
    rw [startsWithAt_compares hs hs2 (by omega), lt_strncmp_iff] at hi
    omega
  rw [ExactPrefix, and_iff_left hbounds, and_iff_right h, slice_eq_iff, startsWithAt_compares hs hs2 (by omega),
    decide_eq_true_iff, strncmp_eq_zero_iff, Hidden, ← met_all_iff]
  refine iff_congr (forall₂_congr fun j hj => ?_) Iff.rfl
  rw [reached_iff mem (by omega) (by omega), peek_eq_iff mem (by omega) (by omega)]

theorem exactPrefix_beyond_iff (hs : s.Stored bs) (hs2 : s2.Stored cs) (hlt : s.len < s2.len)
    (h : offset + s2.len ≤ s.len + 2 ^ 32) :
    ExactPrefix s s2 offset (s.startsWithAt mem s2 offset) ↔ s.Differs s2 offset := by
  have hlen : s.len < s.bytes.length := by
    rw [hs.bytes_eq, hs.size]
    exact Nat.lt_succ_of_le hs.len
  have hlen2 := Any.len_le (.inr ⟨cs, hs2⟩)
  have hfalse : ¬ (offset + s2.len ≤ s.len ∧ (s.bytes.drop offset).take s2.len = s2.contents) := fun h => by omega
  rw [ExactPrefix, iff_false_right hfalse, startsWithAt_compares hs hs2 (by omega)]
  simp only [decide_eq_true_iff, strncmp_eq_zero_iff, lt_strncmp_iff]
  constructor
  · rintro ⟨hne, hbounds⟩
    push Not at hne
    obtain ⟨j, hj, hreached, hne⟩ := hne
    have hle := hbounds j ⟨hj, hreached⟩
    rw [reached_iff mem (by omega) (by omega)] at hreached
    rw [ne_eq, peek_eq_iff mem (by omega) (by omega)] at hne
    exact ⟨j, hle, hreached, hne⟩
  · rintro ⟨j, hle, hreached, hne⟩
    rw [← reached_iff mem (by omega) (by omega)] at hreached
    rw [ne_eq, ← peek_eq_iff mem (by omega) (by omega)] at hne
    refine ⟨fun h => hne (h j (by omega) hreached), fun i hi => ?_⟩
    have hij : i ≤ j := not_lt.mp fun hji => hne (hi.2 j hji).1
    omega

theorem exactPrefix_iff (hs : s.Stored bs) (hs2 : s2.Stored cs) :
    ExactPrefix s s2 offset (s.startsWithAt mem s2 offset) ↔ (offset + s2.len ≤ s.len → ¬ s.Hidden s2 offset) ∧
      (s.len < s2.len → offset + s2.len ≤ s.len + 2 ^ 32 → s.Differs s2 offset) := by
  have hshort := Any.short (.inr ⟨bs, hs⟩)
  have hshort2 := Any.short (.inr ⟨cs, hs2⟩)
  by_cases hinside : offset + s2.len ≤ s.len
  · rw [exactPrefix_inside_iff hs hs2 hinside, imp_iff_right hinside]
    exact (and_iff_left fun hlt => by omega).symm
  · have hno : offset + s2.len ≤ s.len → ¬ s.Hidden s2 offset := fun h => absurd h hinside
    rw [and_iff_right hno]
    by_cases hpasses : s.len < s2.len ∧ offset + s2.len ≤ s.len + 2 ^ 32
    · rw [exactPrefix_beyond_iff hs hs2 hpasses.1 hpasses.2, imp_iff_right hpasses.1, imp_iff_right hpasses.2]
    · refine iff_of_true ?_ fun hlt h => absurd ⟨hlt, h⟩ hpasses
      rw [startsWithAt_rejects (by omega)]
      exact ⟨⟨fun h => (nomatch h), fun h => absurd h.1 hinside⟩, fun i hi => absurd hi (Nat.not_lt_zero i)⟩

theorem startsWith_exactPrefix_iff (hs : s.Stored bs) (hs2 : s2.Stored cs) :
    ExactPrefix s s2 0 (s.startsWith mem s2) ↔ (s2.len ≤ s.len → ¬ s.Hidden s2 0) := by
  rw [startsWith]
  by_cases hlt : s.len < s2.len
  · rw [if_pos hlt]
    refine iff_of_true ⟨⟨fun h => (nomatch h), fun h => by omega⟩, fun i hi => absurd hi (Nat.not_lt_zero i)⟩ ?_
    exact fun h => absurd hlt (not_lt.mpr h)
  · have hle := not_lt.mp hlt
    rw [if_neg hlt, exactPrefix_inside_iff hs hs2 (by omega), imp_iff_right hle]

end Compared

section NulFree

variable {s s2 : WString} {t u : List UInt8} {offset : ℕ}

theorem Valid.getElem?_ne_nul (h : s.Valid t) {i : ℕ} (hi : i < s.len) : s.bytes[i]? ≠ some 0 := by
  obtain ⟨rest, rfl, ht, -⟩ := h
  intro hzero
  simp only [bytes, holding, Option.getD_some] at hzero hi
  rw [List.getElem?_append_left hi] at hzero
  exact ht 0 (List.mem_of_getElem? hzero) rfl

theorem Valid.getElem?_len (h : s.Valid t) : s.bytes[s.len]? = some 0 := by
  obtain ⟨rest, rfl, -, -⟩ := h
  simp only [bytes, holding, Option.getD_some, List.getElem?_append_right le_rfl, Nat.sub_self,
    List.getElem?_cons_zero]

theorem differs_iff (hs : s.Valid t) (hs2 : s2.Valid u) (hlt : s.len < s2.len) :
    s.Differs s2 offset ↔ offset ≤ s.len := by
  refine ⟨fun ⟨j, hle, _⟩ => by omega, fun hle => ?_⟩
  -- without a difference before it, the terminator of the receiver meets a byte of the longer text
  by_contra hsame
  have heq (j : ℕ) : offset + j ≤ s.len → s.bytes[offset + j]? = s2.bytes[j]? := by
    induction j using Nat.strong_induction_on with
    | _ j ih =>
      intro hj
      by_contra hne
      exact hsame ⟨j, hj, fun i hi => ⟨ih i hi (by omega), hs2.getElem?_ne_nul (by omega)⟩, hne⟩
  have hend := heq (s.len - offset) (by omega)
  rw [Nat.add_sub_cancel' hle, hs.getElem?_len] at hend
  exact hs2.getElem?_ne_nul (show s.len - offset < s2.len by omega) hend.symm

theorem not_hidden (hs2 : s2.Valid u) : ¬ s.Hidden s2 offset :=
  fun ⟨_, _, hij, hj, _, hnul, _⟩ => hs2.getElem?_ne_nul (hij.trans hj) hnul

end NulFree

end WString

theorem startsWithAt_exact_iff (mem : ℕ → UInt8) (s s2 : WString) (offset : ℕ) :
    (∀ bs cs, s.Stored bs → s2.Stored cs → (s.ExactPrefix s2 offset (s.startsWithAt mem s2 offset) ↔
      (offset + s2.len ≤ s.len → ¬ s.Hidden s2 offset) ∧
        (s.len < s2.len → offset + s2.len ≤ s.len + 2 ^ 32 → s.Differs s2 offset))) ∧
    ∀ t u, s.Valid t → s2.Valid u → (s.ExactPrefix s2 offset (s.startsWithAt mem s2 offset) ↔
      ¬ (s.len < s2.len ∧ s.len < offset ∧ offset + s2.len ≤ s.len + 2 ^ 32)) := by
  refine ⟨fun bs cs hs hs2 => WString.exactPrefix_iff hs hs2, fun t u hs hs2 => ?_⟩
  rw [WString.exactPrefix_iff hs.stored hs2.stored, and_iff_right fun _ => WString.not_hidden hs2]
  constructor
  · rintro h ⟨hlt, hbeyond, hpasses⟩
    have hle := (WString.differs_iff hs hs2 hlt).mp (h hlt hpasses)
    omega
  · intro h hlt hpasses
    apply (WString.differs_iff hs hs2 hlt).mpr
    by_contra hbeyond
    exact h ⟨hlt, not_le.mp hbeyond, hpasses⟩

theorem startsWithAt_exact_bc :
    (WString.holding [97, 98, 99] []).ExactPrefix (WString.holding [98, 99] []) 1
      ((WString.holding [97, 98, 99] []).startsWithAt (fun _ => 7) (WString.holding [98, 99] []) 1) :=
  ((startsWithAt_exact_iff (fun _ => 7) _ _ 1).2 [97, 98, 99] [98, 99]
    (WString.valid_of_nulFree [97, 98, 99] (by decide) (by decide))
    (WString.valid_of_nulFree [98, 99] (by decide) (by decide))).mpr (by decide)

/-- The String "a" does start with "ab" at 2, where the memory behind its block of two bytes holds "ab". -/
theorem startsWithAt_reads_behind :
    WString.Valid (WString.holding [97] []) [97] ∧ WString.Valid (WString.holding [97, 98] []) [97, 98] ∧
      (WString.holding [97] []).startsWithAt (fun i => if i = 2 then 97 else 98) (WString.holding [97, 98] []) 2 =
        (true, 2) :=
  ⟨WString.valid_of_nulFree [97] (by decide) (by decide), WString.valid_of_nulFree [97, 98] (by decide) (by decide),
    by decide +kernel⟩

end LogoCore.Strings
