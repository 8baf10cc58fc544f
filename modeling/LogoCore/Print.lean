import LogoCore.CStrings
import LogoCore.Numerals

namespace LogoCore.Streams

open CStrings Numerals

/-- A subclass of Print, by its write(uint8_t): the byte is taken (1 is returned) or refused (0). -/
structure Sink (σ : Type) where
  write : σ → UInt8 → Bool × σ

structure Output (σ : Type) where
  state : σ
  written : List UInt8

section Writing

variable {σ : Type} (k : Sink σ)

def write (o : Output σ) (b : UInt8) : ℕ × Output σ :=
  match k.write o.state b with
  | (true, s) => (1, ⟨s, o.written ++ [b]⟩)
  | (false, s) => (0, ⟨s, o.written⟩)

def writeBuffer : List UInt8 → Output σ → ℕ × Output σ
  | [], o => (0, o)
  | b :: bs, o =>
    let r := write k o b
    if r.1 ≠ 0 then ((writeBuffer bs r.2).1 + 1, (writeBuffer bs r.2).2) else (0, r.2)

def numeral (c : ℕ) : UInt8 := if c < 10 then UInt8.ofNat (c + 48) else UInt8.ofNat (c + 65 - 10)

-- none: a digit would be stored in front of buf
def storeDigits (base : ℕ) : ℕ → ℕ → List UInt8 → Option (List UInt8 × ℕ)
  | 0, _, _ => none
  | str + 1, n, buf =>
    let buf := buf.set str (numeral (n % base))
    if n / base = 0 then some (buf, str) else storeDigits base str (n / base) buf

/-- The local array is filled from its end; `fill` is what the stack held there. -/
def printNumber (fill : ℕ → UInt8) (n : UInt32) (base : UInt8) (o : Output σ) : Option (ℕ × Output σ) := do
  let buf := ((List.range 33).map fill).set 32 0
  let base := if base < 2 then 10 else base
  let (buf, str) ← storeDigits base.toNat 32 n.toNat buf
  return writeBuffer k (cString (buf.drop str)) o

/-- Print::print(long, int), which the overload for int calls. -/
def print (fill : ℕ → UInt8) (n : Int32) (base : Int32) (o : Output σ) : Option (ℕ × Output σ) :=
  if base = 0 then some (write k o n.toUInt32.toUInt8)
  else if base = 10 then
    if n < 0 then
      let r := write k o 45
      (printNumber k fill (-n).toUInt32 10 r.2).map fun p => (p.1 + r.1, p.2)
    else printNumber k fill n.toUInt32 10 o
  else printNumber k fill n.toUInt32 base.toUInt32.toUInt8 o

end Writing

structure Spells (ds : List UInt8) (n : ℕ) : Prop where
  nonempty : ds ≠ []
  digits : ∀ d ∈ ds, isDigit d
  value : ds.foldl (fun v d => v * 10 + (d.toNat - 48)) 0 = n

theorem isDigit_numeral {c : ℕ} (h : c < 10) : isDigit (numeral c) ∧ (numeral c).toNat - 48 = c := by
  have hall : ∀ c < 10, isDigit (numeral c) ∧ (numeral c).toNat - 48 = c := by decide
  exact hall c h

theorem spells_single {n : ℕ} (h : n < 10) : Spells [numeral n] n := by
  obtain ⟨hdigit, hvalue⟩ := isDigit_numeral h
  exact ⟨by simp, by simpa using hdigit, by simpa using hvalue⟩

theorem Spells.append {ds : List UInt8} {n c : ℕ} (h : Spells ds n) (hc : c < 10) :
    Spells (ds ++ [numeral c]) (n * 10 + c) := by
  obtain ⟨hdigit, hvalue⟩ := isDigit_numeral hc
  refine ⟨by simp, ?_, ?_⟩
  · rw [List.forall_mem_append]
    exact ⟨h.digits, by simpa using hdigit⟩
  · rw [List.foldl_append, h.value, List.foldl_cons, List.foldl_nil, hvalue]

theorem Spells.nulFree {ds : List UInt8} {n : ℕ} (h : Spells ds n) : NulFree ds := by
  intro d hd hzero
  have := h.digits d hd
  rw [hzero] at this
  exact absurd this (by decide)

theorem drop_set_self {buf : List UInt8} {i : ℕ} (h : i < buf.length) (d : UInt8) :
    (buf.set i d).drop i = d :: buf.drop (i + 1) := by
  rw [List.drop_set, if_neg (lt_irrefl i), Nat.sub_self, List.drop_eq_getElem_cons h, List.set_cons_zero]

theorem storeDigits_digits {base : ℕ} (hbase : 1 < base) {str n : ℕ} {buf : List UInt8}
    (hfits : (lowDigits base n).length ≤ str) (hlen : str ≤ buf.length) :
    ∃ buf' j, storeDigits base str n buf = some (buf', j) ∧
      buf'.drop j = (lowDigits base n).reverse.map numeral ++ buf.drop str := by
  induction str generalizing n buf with
  | zero => exact absurd hfits (by simp [lowDigits])
  | succ str ih =>
    rw [storeDigits]
    by_cases hdiv : n / base = 0
    · refine ⟨_, str, if_pos hdiv, ?_⟩
      rw [drop_set_self hlen, lowDigits_last hdiv]
      rfl
    · rw [lowDigits_next hbase hdiv, List.length_cons] at hfits
      have hlen' : str ≤ (buf.set str (numeral (n % base))).length := by
        rw [List.length_set]
        omega
      obtain ⟨buf', j, hstore, hdrop⟩ := ih (Nat.le_of_succ_le_succ hfits) hlen'
      refine ⟨buf', j, ?_, ?_⟩
      · rw [if_neg hdiv, hstore]
      · rw [hdrop, drop_set_self hlen, lowDigits_next hbase hdiv, List.reverse_cons, List.map_append,
          List.append_assoc]
        rfl

theorem spells_lowDigits (n : ℕ) : Spells ((lowDigits 10 n).reverse.map numeral) n := by
  induction n using Nat.strong_induction_on with
  | _ n ih =>
    by_cases hdiv : n / 10 = 0
    · rw [lowDigits_last hdiv, Nat.mod_eq_of_lt (by omega)]
      exact spells_single (by omega)
    · have happ := (ih (n / 10) (by omega)).append (Nat.mod_lt n (show 0 < 10 by decide))
      rw [Nat.div_add_mod'] at happ
      rwa [lowDigits_next (by decide) hdiv, List.reverse_cons, List.map_append]

theorem numeral_ne_zero {c : ℕ} (h : c < 36) : numeral c ≠ 0 := by
  have hall : ∀ c < 36, numeral c ≠ 0 := by decide
  exact hall c h

section Printing

variable {σ : Type} (k : Sink σ) (fill : ℕ → UInt8)

theorem printNumber_digits (n : UInt32) (base : UInt8) (hbase : 2 ≤ base.toNat ∧ base.toNat ≤ 36) (o : Output σ) :
    printNumber k fill n base o =
      some (writeBuffer k ((lowDigits base.toNat n.toNat).reverse.map numeral) o) := by
  have hn : n.toNat < base.toNat ^ 32 := lt_of_lt_of_le n.toNat_lt (Nat.pow_le_pow_left hbase.1 32)
  have hfits := length_lowDigits_le (by omega) (by decide) hn
  obtain ⟨buf, j, hstore, hdrop⟩ := storeDigits_digits (by omega) hfits
    (show 32 ≤ (((List.range 33).map fill).set 32 0).length by simp)
  have hend : (((List.range 33).map fill).set 32 0).drop 32 = [0] := by
    rw [drop_set_self (by simp)]
    simp
  have hnul : NulFree ((lowDigits base.toNat n.toNat).reverse.map numeral) := by
    intro b hb
    obtain ⟨d, hd, rfl⟩ := List.mem_map.mp hb
    exact numeral_ne_zero ((lowDigits_lt (by omega) d (List.mem_reverse.mp hd)).trans_le hbase.2)
  have htext : cString (buf.drop j) = (lowDigits base.toNat n.toNat).reverse.map numeral := by
    rw [hdrop, hend]
    exact cString_append_nul hnul []
  have hkeep : ¬ base < 2 := by
    rw [UInt8.lt_iff_toNat_lt]
    exact Nat.not_lt.mpr hbase.1
  simp only [printNumber, if_neg hkeep, hstore, Option.bind_eq_bind, Option.bind_some, Option.pure_def, htext]

theorem printNumber_ten (n : UInt32) (o : Output σ) :
    ∃ ds, printNumber k fill n 10 o = some (writeBuffer k ds o) ∧ Spells ds n.toNat :=
  ⟨_, printNumber_digits k fill n 10 (by decide) o, spells_lowDigits n.toNat⟩

theorem print_ten (n : Int32) (o : Output σ) :
    (¬ n < 0 ∧ ∃ ds, Spells ds n.toUInt32.toNat ∧ print k fill n 10 o = some (writeBuffer k ds o)) ∨
    (n < 0 ∧ ∃ ds, Spells ds (-n).toUInt32.toNat ∧
      print k fill n 10 o = some ((writeBuffer k ds (write k o 45).2).1 + (write k o 45).1,
        (writeBuffer k ds (write k o 45).2).2)) := by
  by_cases hneg : n < 0
  · obtain ⟨ds, hprint, hspells⟩ := printNumber_ten k fill (-n).toUInt32 (write k o 45).2
    refine Or.inr ⟨hneg, ds, hspells, ?_⟩
    rw [print, if_neg (by decide), if_pos rfl, if_pos hneg]
    simp only [hprint, Option.map_some]
  · obtain ⟨ds, hprint, hspells⟩ := printNumber_ten k fill n.toUInt32 o
    refine Or.inl ⟨hneg, ds, hspells, ?_⟩
    rw [print, if_neg (by decide), if_pos rfl, if_neg hneg, hprint]

theorem write_cases (o : Output σ) (b : UInt8) :
    (write k o b).1 = 1 ∧ (write k o b).2.written = o.written ++ [b] ∨
    (write k o b).1 = 0 ∧ (write k o b).2.written = o.written := by
  unfold write
  split
  · exact Or.inl ⟨rfl, rfl⟩
  · exact Or.inr ⟨rfl, rfl⟩

theorem writeBuffer_counts (bs : List UInt8) (o : Output σ) :
    ∃ t, (writeBuffer k bs o).2.written = o.written ++ t ∧ (writeBuffer k bs o).1 = t.length := by
  induction bs generalizing o with
  | nil => exact ⟨[], by simp [writeBuffer]⟩
  | cons b bs ih =>
    simp only [writeBuffer]
    obtain ⟨hone, hwritten⟩ | ⟨hzero, hwritten⟩ := write_cases k o b
    · obtain ⟨t, ht, hcount⟩ := ih (write k o b).2
      rw [if_pos (by omega)]
      refine ⟨b :: t, ?_, ?_⟩
      · rw [ht, hwritten, List.append_assoc, List.singleton_append]
      · rw [hcount, List.length_cons]
    · rw [if_neg (by omega)]
      exact ⟨[], by rw [hwritten, List.append_nil], rfl⟩

theorem print_counts (n : Int32) (o : Output σ) :
    ∃ c o' t, print k fill n 10 o = some (c, o') ∧ o'.written = o.written ++ t ∧ c = t.length := by
  obtain ⟨-, ds, -, hprint⟩ | ⟨-, ds, -, hprint⟩ := print_ten k fill n o
  · obtain ⟨t, ht, hcount⟩ := writeBuffer_counts k ds o
    exact ⟨_, _, t, hprint, ht, hcount⟩
  · obtain ⟨t, ht, hcount⟩ := writeBuffer_counts k ds (write k o 45).2
    obtain ⟨hone, hwritten⟩ | ⟨hzero, hwritten⟩ := write_cases k o 45
    · refine ⟨_, _, 45 :: t, hprint, ?_, ?_⟩
      · rw [ht, hwritten, List.append_assoc, List.singleton_append]
      · rw [hcount, hone, List.length_cons]
    · refine ⟨_, _, t, hprint, ?_, ?_⟩
      · rw [ht, hwritten]
      · rw [hcount, hzero, Nat.add_zero]

end Printing

section Accepting

variable {σ : Type} {k : Sink σ} (hk : ∀ s b, (k.write s b).1 = true) (fill : ℕ → UInt8)

include hk

theorem write_accepted (o : Output σ) (b : UInt8) :
    (write k o b).1 = 1 ∧ (write k o b).2.written = o.written ++ [b] := by
  have hyes := hk o.state b
  unfold write
  split
  · exact ⟨rfl, rfl⟩
  · rename_i hno
    rw [hno] at hyes
    exact absurd hyes Bool.false_ne_true

theorem writeBuffer_accepted (bs : List UInt8) (o : Output σ) :
    (writeBuffer k bs o).2.written = o.written ++ bs := by
  induction bs generalizing o with
  | nil => simp [writeBuffer]
  | cons b bs ih =>
    obtain ⟨hone, hwritten⟩ := write_accepted hk o b
    simp only [writeBuffer]
    rw [if_pos (by omega), ih, hwritten, List.append_assoc, List.singleton_append]

theorem print_text {n : Int32} {o o' : Output σ} {c : ℕ} {t : List UInt8}
    (hprint : print k fill n 10 o = some (c, o')) (ht : o'.written = o.written ++ t) :
    (¬ n < 0 ∧ Spells t n.toUInt32.toNat) ∨ (n < 0 ∧ ∃ ds, Spells ds (-n).toUInt32.toNat ∧ t = 45 :: ds) := by
  obtain ⟨hpos, ds, hspells, heq⟩ | ⟨hneg, ds, hspells, heq⟩ := print_ten k fill n o
  · rw [heq, Option.some_inj] at hprint
    have hwritten := writeBuffer_accepted hk ds o
    rw [hprint, ht, List.append_cancel_left_eq] at hwritten
    rw [hwritten]
    exact Or.inl ⟨hpos, hspells⟩
  · rw [heq, Option.some_inj, Prod.mk.injEq] at hprint
    have hwritten := writeBuffer_accepted hk ds (write k o 45).2
    rw [hprint.2, ht, (write_accepted hk o 45).2, List.append_assoc, List.append_cancel_left_eq] at hwritten
    exact Or.inr ⟨hneg, ds, hspells, hwritten⟩

end Accepting

end LogoCore.Streams
