import LogoCore.BlockCopies
import LogoCore.NumberText
import LogoCore.Numerals
import LogoCore.Print

namespace LogoCore.Strings

open CStrings Numerals Streams

def store (bs : List UInt8) (i : ℕ) (b : UInt8) : Option (List UInt8) :=
  if i < bs.length then some (bs.set i b) else none

-- `room` is what tmp has from tp on
def pushDigits (radix : ℕ) : ℕ → ℕ → ℕ → List UInt8 → Option (List UInt8 × ℕ)
  | room, v, tp, tmp =>
    if v ≠ 0 ∨ tp = 0 then
      match room with
      | 0 => none
      | room + 1 => pushDigits radix room (v / radix) (tp + 1) (tmp.set tp (digit (v % radix)))
    else some (tmp, tp)

def popDigits (tmp : List UInt8) : ℕ → ℕ → List UInt8 → Option (List UInt8)
  | 0, sp, string => store string sp 0
  | tp + 1, sp, string => do
    let string ← store string sp (tmp.getD tp 0)
    popDigits tmp tp (sp + 1) string

/-- ltoa() on the memory it works with: false is the null pointer it returns, none a store outside tmp or string;
`fill` is what the stack held in tmp. -/
def ltoaInto (fill : ℕ → UInt8) (value : Int32) (string : List UInt8) (radix : ℕ) : Option (Bool × List UInt8) :=
  if radix > 36 ∨ radix ≤ 1 then some (false, string)
  else do
    let sign := radix = 10 ∧ value < 0
    let v := if sign then (-value).toUInt32 else value.toUInt32
    let (tmp, tp) ← pushDigits radix 33 v.toNat 0 ((List.range 33).map fill)
    let string ← if sign then store string 0 45 else some string
    let string ← popDigits tmp tp (if sign then 1 else 0) string
    return (true, string)

section Loops

variable {radix : ℕ}

theorem digits_eq_map (hradix : 1 < radix) (v : ℕ) : digits radix v = (lowDigits radix v).map digit := by
  fun_induction digits radix v with
  | case1 v h ih => rw [lowDigits_next hradix h.2, List.map_cons, ih]
  | case2 v h =>
    have hdiv : v / radix = 0 := by
      by_contra hne
      exact h ⟨hradix, hne⟩
    rw [lowDigits_last hdiv, List.map_singleton]

theorem take_set_succ {bs : List UInt8} {i : ℕ} (h : i < bs.length) (b : UInt8) :
    (bs.set i b).take (i + 1) = bs.take i ++ [b] := by
  rw [List.take_succ_eq_append_getElem (by rwa [List.length_set]), List.take_set_of_le le_rfl, List.getElem_set_self]

theorem pushDigits_zero {room tp : ℕ} {tmp : List UInt8} (htp : tp ≠ 0) :
    pushDigits radix room 0 tp tmp = some (tmp, tp) := by
  unfold pushDigits
  exact if_neg (by simp [htp])

theorem pushDigits_rest (hradix : 1 < radix) (room v tp : ℕ) (tmp : List UInt8) (hroom : tmp.length = tp + room)
    (htp : tp ≠ 0) (hfits : (Nat.digits radix v).length ≤ room) :
    ∃ tmp', pushDigits radix room v tp tmp = some (tmp', tp + (Nat.digits radix v).length) ∧
      tmp'.length = tmp.length ∧
      tmp'.take (tp + (Nat.digits radix v).length) = tmp.take tp ++ (Nat.digits radix v).map digit := by
  induction room generalizing v tp tmp with
  | zero =>
    have hv : v = 0 := Nat.digits_eq_nil_iff_eq_zero.mp (List.length_eq_zero_iff.mp (Nat.le_zero.mp hfits))
    subst hv
    exact ⟨tmp, by simpa using pushDigits_zero htp, rfl, by simp⟩
  | succ room ih =>
    by_cases hv : v = 0
    · subst hv
      exact ⟨tmp, by simpa using pushDigits_zero htp, rfl, by simp⟩
    · rw [pushDigits, if_pos (Or.inl hv)]
      rw [Nat.digits_def' hradix (Nat.pos_of_ne_zero hv), List.length_cons] at hfits ⊢
      obtain ⟨tmp', hpush, hlen, htake⟩ := ih (v / radix) (tp + 1) (tmp.set tp (digit (v % radix)))
        (by rw [List.length_set]; omega) (Nat.succ_ne_zero tp) (by omega)
      have hcount : tp + 1 + (Nat.digits radix (v / radix)).length =
          tp + ((Nat.digits radix (v / radix)).length + 1) := by omega
      rw [hcount] at hpush htake
      refine ⟨tmp', hpush, by rw [hlen, List.length_set], ?_⟩
      rw [htake, take_set_succ (by omega), List.append_assoc, List.singleton_append, List.map_cons]

theorem pushDigits_digits (hradix : 1 < radix) {v : ℕ} {tmp : List UInt8}
    (hfits : (lowDigits radix v).length ≤ tmp.length) :
    ∃ tmp', pushDigits radix tmp.length v 0 tmp = some (tmp', (lowDigits radix v).length) ∧
      tmp'.length = tmp.length ∧ tmp'.take (lowDigits radix v).length = (lowDigits radix v).map digit := by
  rw [lowDigits, List.length_cons] at hfits
  obtain ⟨room, hroom⟩ := Nat.exists_eq_succ_of_ne_zero (by omega : tmp.length ≠ 0)
  obtain ⟨tmp', hpush, hlen, htake⟩ :=
    pushDigits_rest hradix room (v / radix) 1 (tmp.set 0 (digit (v % radix)))
      (by rw [List.length_set]; omega) one_ne_zero (by omega)
  rw [Nat.add_comm 1] at hpush htake
  refine ⟨tmp', ?_, by rw [hlen, List.length_set], ?_⟩
  · rw [hroom, pushDigits, if_pos (Or.inr rfl)]
    exact hpush
  · rw [lowDigits, List.length_cons, htake, take_set_succ (by omega)]
    rfl

theorem popDigits_reverses {tmp : List UInt8} {tp sp : ℕ} {string : List UInt8} (htmp : tp ≤ tmp.length)
    (hfits : sp + tp < string.length) :
    popDigits tmp tp sp string = some (overwrite string sp ((tmp.take tp).reverse ++ [0])) := by
  induction tp generalizing sp string with
  | zero =>
    rw [popDigits, store, if_pos (by omega), List.take_zero, List.reverse_nil, List.nil_append, overwrite_cons,
      overwrite_nil]
  | succ tp ih =>
    have hlast : tmp.take (tp + 1) = tmp.take tp ++ [tmp.getD tp 0] := by
      rw [List.take_succ_eq_append_getElem (by omega), List.getD_eq_getElem?_getD,
        List.getElem?_eq_getElem (by omega), Option.getD_some]
    rw [popDigits, store, if_pos (by omega), hlast, List.reverse_append, List.reverse_singleton,
      List.singleton_append, List.cons_append, overwrite_cons]
    exact ih (by omega) (by rw [List.length_set]; omega)

end Loops

def magnitude (value : Int32) (radix : ℕ) : ℕ :=
  if radix = 10 ∧ value < 0 then value.toInt.natAbs else (value.toInt % 2 ^ 32).toNat

def signText (value : Int32) (radix : ℕ) : List UInt8 := if radix = 10 ∧ value < 0 then [45] else []

section Magnitude

variable (value : Int32)

theorem toUInt32_toNat : value.toUInt32.toNat = (value.toInt % 2 ^ 32).toNat := by
  have htoInt : value.toInt = value.toUInt32.toBitVec.toInt := rfl
  have htoNat : value.toUInt32.toNat = value.toUInt32.toBitVec.toNat := rfl
  have hlt := value.toUInt32.toBitVec.isLt
  rw [htoInt, htoNat, BitVec.toInt_eq_toNat_cond]
  split <;> omega

theorem neg_toUInt32_toNat (h : value < 0) : (-value).toUInt32.toNat = value.toInt.natAbs := by
  have hneg : value.toInt < 0 := Int32.lt_iff_toInt_lt.mp h
  have hle := value.minValue_le_toInt
  have hmin : Int32.minValue.toInt = -2147483648 := rfl
  have hmod : (-value.toInt).bmod (2 ^ 32) % 2 ^ 32 = -value.toInt % 2 ^ 32 := Int.bmod_emod
  rw [toUInt32_toNat, Int32.toInt_neg, hmod]
  omega

theorem toNat_eq_magnitude (radix : ℕ) :
    (if radix = 10 ∧ value < 0 then (-value).toUInt32 else value.toUInt32).toNat = magnitude value radix := by
  unfold magnitude
  split
  · rename_i h
    exact neg_toUInt32_toNat value h.2
  · exact toUInt32_toNat value

theorem magnitude_lt (radix : ℕ) : magnitude value radix < 2 ^ 32 := by
  rw [← toNat_eq_magnitude]
  exact UInt32.toNat_lt _

theorem length_magnitude_le {radix : ℕ} (h : 1 < radix) : (lowDigits radix (magnitude value radix)).length ≤ 32 :=
  length_lowDigits_le h (by decide) (lt_of_lt_of_le (magnitude_lt value radix) (Nat.pow_le_pow_left h 32))

theorem length_magnitude_ten_le : (lowDigits 10 (magnitude value 10)).length ≤ 10 :=
  length_lowDigits_le (by decide) (by decide) (lt_trans (magnitude_lt value 10) (by decide))

theorem length_signText (radix : ℕ) : (signText value radix).length = if radix = 10 ∧ value < 0 then 1 else 0 := by
  unfold signText
  split <;> rfl

end Magnitude

section Formats

variable (value : Int32) {radix : ℕ}

theorem ltoaInto_writes (hradix : 2 ≤ radix ∧ radix ≤ 36) (fill : ℕ → UInt8) {string text : List UInt8}
    (htext : text = signText value radix ++ (lowDigits radix (magnitude value radix)).reverse.map digit)
    (hfits : text.length < string.length) :
    ltoaInto fill value string radix = some (true, overwrite string 0 (text ++ [0])) := by
  have htmp : ((List.range 33).map fill).length = 33 := by simp
  have hshort := length_magnitude_le value hradix.1
  obtain ⟨tmp, hpush, hlen, htake⟩ := pushDigits_digits (by omega)
    (hshort.trans (by rw [htmp]; decide) : _ ≤ ((List.range 33).map fill).length)
  rw [htmp] at hpush hlen
  have hfits' := hfits
  rw [htext, List.length_append, List.length_map, List.length_reverse, length_signText] at hfits'
  rw [ltoaInto, if_neg (by omega)]
  simp only [toNat_eq_magnitude, hpush, Option.bind_eq_bind, Option.bind_some, Option.pure_def]
  by_cases hsign : radix = 10 ∧ value < 0
  · rw [if_pos hsign] at hfits'
    rw [if_pos hsign, if_pos hsign, store, if_pos (by omega), Option.bind_some, popDigits_reverses (by omega)
      (by rw [List.length_set]; omega), Option.bind_some, htake, ← overwrite_cons, htext, signText, if_pos hsign,
      List.map_reverse]
    rfl
  · rw [if_neg hsign] at hfits'
    rw [if_neg hsign, if_neg hsign, popDigits_reverses (by omega) (by omega), Option.bind_some, htake, htext,
      signText, if_neg hsign, List.map_reverse]
    rfl

theorem ltoa_eq_text (hradix : 2 ≤ radix ∧ radix ≤ 36) :
    ltoa value.toInt radix =
      some (signText value radix ++ (lowDigits radix (magnitude value radix)).reverse.map digit) := by
  have hsign : (radix = 10 ∧ value.toInt < 0) ↔ radix = 10 ∧ value < 0 := by
    rw [Int32.lt_iff_toInt_lt]
    rfl
  have hmin : Int32.minValue.toInt = -2147483648 := rfl
  have hle := value.minValue_le_toInt
  rw [ltoa, if_neg (by omega), List.map_reverse, ← digits_eq_map (by omega), signText, magnitude]
  by_cases h : radix = 10 ∧ value < 0
  · have hneg := (hsign.mpr h).2
    have habs : (-value.toInt % 2 ^ 32).toNat = value.toInt.natAbs := by omega
    rw [if_pos (hsign.mpr h), if_pos h, if_pos h, habs]
    rfl
  · rw [if_neg (mt hsign.mp h), if_neg h, if_neg h, List.nil_append]

theorem print_writes {σ : Type} {k : Sink σ} (hk : ∀ s b, (k.write s b).1 = true) (fill : ℕ → UInt8)
    (hradix : 2 ≤ radix ∧ radix ≤ 36) (o : Output σ) :
    ∃ c o', print k fill value (Int32.ofNat radix) o = some (c, o') ∧
      o'.written = o.written ++
        (signText value radix ++ (lowDigits radix (magnitude value radix)).reverse.map numeral) := by
  have hall : ∀ b < 37, (Int32.ofNat b).toUInt32.toUInt8.toNat = b ∧ (Int32.ofNat b = 0 ↔ b = 0) ∧
      (Int32.ofNat b = 10 ↔ b = 10) := by decide
  obtain ⟨hnat, hzero, hten⟩ := hall radix (by omega)
  have hne : Int32.ofNat radix ≠ 0 := fun h => absurd (hzero.mp h) (by omega)
  rw [print, if_neg hne, signText, magnitude]
  by_cases h10 : radix = 10
  · subst h10
    rw [if_pos (hten.mpr rfl)]
    by_cases hneg : value < 0
    · rw [if_pos hneg, if_pos ⟨rfl, hneg⟩, if_pos ⟨rfl, hneg⟩]
      simp only [printNumber_digits k fill _ 10 (by decide), Option.map_some, neg_toUInt32_toNat value hneg]
      refine ⟨_, _, rfl, ?_⟩
      rw [writeBuffer_accepted hk, (write_accepted hk o 45).2, List.append_assoc]
      rfl
    · rw [if_neg hneg, if_neg (fun h => hneg h.2), if_neg (fun h => hneg h.2),
        printNumber_digits k fill _ 10 (by decide), toUInt32_toNat]
      exact ⟨_, _, rfl, writeBuffer_accepted hk _ o⟩
  · rw [if_neg (mt hten.mp h10), if_neg (fun h => h10 h.1), if_neg (fun h => h10 h.1),
      printNumber_digits k fill _ _ (by rw [hnat]; exact hradix), hnat, toUInt32_toNat]
    exact ⟨_, _, rfl, writeBuffer_accepted hk _ o⟩

theorem map_toUpper_digits {ds : List ℕ} (h : ∀ d ∈ ds, d < 36) : (ds.map digit).map toUpper = ds.map numeral := by
  have hall : ∀ d < 36, toUpper (digit d) = numeral d := by decide
  rw [List.map_map]
  apply List.map_congr_left
  exact fun d hd => hall d (h d hd)

theorem map_toUpper_signText (radix : ℕ) : (signText value radix).map toUpper = signText value radix := by
  unfold signText
  split <;> rfl

end Formats

/-- The buf of String(int, base) and String(long, base). -/
def constructorBuffer : ℕ := 2 + 8 * 4

/-- The buf of concat(int) and concat(long). -/
def concatBuffer : ℕ := 2 + 3 * 4

theorem integer_formats_agree (n : Int32) (base : ℕ) (hbase : 2 ≤ base ∧ base ≤ 36) :
    ∃ ds text, ShortestNumeral base ds (magnitude n base) ∧ text = signText n base ++ ds.map digit ∧
      (∀ (fill : ℕ → UInt8) (string : List UInt8), text.length < string.length →
        ltoaInto fill n string base = some (true, overwrite string 0 (text ++ [0]))) ∧
      (∀ (σ : Type) (k : Sink σ) (fill : ℕ → UInt8) (o : Output σ), (∀ s b, (k.write s b).1 = true) →
        ∃ c o', print k fill n (Int32.ofNat base) o = some (c, o') ∧ o'.written = o.written ++ text.map toUpper) ∧
      (Number.int n).render base = some text ∧ (Number.long n).render base = some text ∧
      text.length < constructorBuffer ∧
      (base = 10 → (Number.int n).renderDecimal = some text ∧ (Number.long n).renderDecimal = some text ∧
        text.length < concatBuffer) := by
  have hlength := length_signText n base
  refine ⟨(lowDigits base (magnitude n base)).reverse, _, shortestNumeral_lowDigits hbase.1 _, rfl, ?_, ?_,
    ltoa_eq_text n hbase, ltoa_eq_text n hbase, ?_, ?_⟩
  · exact fun fill string hfits => ltoaInto_writes n hbase fill rfl hfits
  · intro σ k fill o hk
    obtain ⟨c, o', hprint, hwritten⟩ := print_writes n hk fill hbase o
    refine ⟨c, o', hprint, ?_⟩
    have hsmall : ∀ d ∈ (lowDigits base (magnitude n base)).reverse, d < 36 :=
      fun d hd => (lowDigits_lt hbase.1 d (List.mem_reverse.mp hd)).trans_le hbase.2
    rw [hwritten, List.map_append, map_toUpper_signText, map_toUpper_digits hsmall]
  · have hle := length_magnitude_le n hbase.1
    rw [List.length_append, List.length_map, List.length_reverse, constructorBuffer]
    split at hlength <;> omega
  · rintro rfl
    refine ⟨ltoa_eq_text n hbase, ltoa_eq_text n hbase, ?_⟩
    have hle := length_magnitude_ten_le n
    rw [List.length_append, List.length_map, List.length_reverse, concatBuffer]
    split at hlength <;> omega

theorem minimum_formats_agree :
    ∃ ds text, ShortestNumeral 10 ds (magnitude (-2147483648) 10) ∧
      text = signText (-2147483648) 10 ++ ds.map digit ∧
      ltoaInto (fun _ => 0) (-2147483648) (List.replicate concatBuffer 0) 10 =
        some (true, overwrite (List.replicate concatBuffer 0) 0 (text ++ [0])) := by
  obtain ⟨ds, text, hshortest, htext, hltoa, -, -, -, -, hten⟩ := integer_formats_agree (-2147483648) 10 (by decide)
  refine ⟨ds, text, hshortest, htext, hltoa _ _ ?_⟩
  rw [List.length_replicate]
  exact (hten rfl).2.2

end LogoCore.Strings
