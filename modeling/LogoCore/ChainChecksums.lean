import LogoCore.InetChksum

namespace LogoCore.Lwip

open OnesComplement

theorem toNat_and_low (u : UInt32) : (u &&& 0xffff).toNat = u.toNat % 65536 := by
  rw [UInt32.toNat_and]
  exact Nat.and_two_pow_sub_one_eq_mod u.toNat 16

theorem toNat_foldU32T (u : UInt32) : (foldU32T u).toNat = u.toNat / 65536 + u.toNat % 65536 := by
  have hu := u.toNat_lt
  have hshift : (u >>> 16).toNat = u.toNat / 65536 := by
    rw [UInt32.toNat_shiftRight]
    exact Nat.shiftRight_eq_div_pow u.toNat 16
  rw [foldU32T, UInt32.toNat_add, hshift, toNat_and_low]
  omega

theorem toNat_swapBytesInWord (w : UInt32) (hw : w.toNat < 65536) :
    (swapBytesInWord w).toNat = 256 * (w.toNat % 256) + w.toNat / 256 := by
  have hlow : (w &&& 0xff).toNat = w.toNat % 256 := by
    rw [UInt32.toNat_and]
    exact Nat.and_two_pow_sub_one_eq_mod w.toNat 8
  have hleft : ((w &&& 0xff) <<< 8).toNat = (w.toNat % 256) <<< 8 := by
    rw [UInt32.toNat_shiftLeft, hlow]
    change (w.toNat % 256) <<< 8 % 2 ^ 32 = _
    rw [Nat.shiftLeft_eq]
    omega
  have hright : ((w &&& 0xff00) >>> 8).toNat = w.toNat / 256 := by
    rw [UInt32.toNat_shiftRight, UInt32.toNat_and]
    change (w.toNat &&& 0xff00) >>> 8 = _
    rw [Nat.shiftRight_and_distrib]
    change w.toNat >>> 8 &&& 0xff = _
    have := Nat.and_two_pow_sub_one_eq_mod (w.toNat >>> 8) 8
    rw [Nat.shiftRight_eq_div_pow] at this ⊢
    change w.toNat / 256 &&& 255 = w.toNat / 256
    change w.toNat / 256 &&& 255 = w.toNat / 256 % 256 at this
    omega
  rw [swapBytesInWord, UInt32.toNat_or, hleft, hright, ← Nat.shiftLeft_add_eq_or_of_lt (by omega), Nat.shiftLeft_eq]
  omega

theorem toNat_word (x y : UInt8) : (x.toUInt32 + 256 * y.toUInt32).toNat = x.toNat + 256 * y.toNat := by
  have hx := x.toNat_lt
  have hy := y.toNat_lt
  rw [UInt32.toNat_add, UInt32.toNat_mul, UInt8.toNat_toUInt32, UInt8.toNat_toUInt32]
  change (x.toNat + 256 * y.toNat % 4294967296) % 4294967296 = _
  omega

theorem addWords_same (sum : UInt32) (l : List UInt8) (hsum : sum.toNat + 65536 * l.length < 4294967296) :
    Same ((addWords sum l).sum.toNat + ((addWords sum l).rest.head?.getD 0).toNat) (sum.toNat + littleEndian l) ∧
      (addWords sum l).sum.toNat ≤ sum.toNat + 65536 * l.length := by
  induction sum, l using addWords.induct with
  | case1 sum x y l ih =>
    have hword : (sum + (x.toUInt32 + 256 * y.toUInt32)).toNat = sum.toNat + (x.toNat + 256 * y.toNat) := by
      have hx := x.toNat_lt
      have hy := y.toNat_lt
      rw [List.length_cons, List.length_cons] at hsum
      rw [UInt32.toNat_add, toNat_word]
      omega
    have hx := x.toNat_lt
    have hy := y.toNat_lt
    rw [List.length_cons, List.length_cons] at hsum
    obtain ⟨hsame, hbound⟩ := ih (by rw [hword]; omega)
    rw [hword] at hsame hbound
    rw [addWords, List.length_cons, List.length_cons]
    refine ⟨hsame.trans ?_, by omega⟩
    rw [littleEndian_cons, littleEndian_cons, Nat.add_assoc, Nat.mul_add, Nat.add_assoc]
    exact (Same.refl _).add ((Same.refl _).add ((Same.refl _).add (same_shift_shift _).symm))
  | case2 sum l hshort =>
    cases l with
    | nil =>
      rw [addWords]
      · exact ⟨.refl _, Nat.le_add_right _ _⟩
      · exact hshort
    | cons x l =>
      cases l with
      | nil =>
        rw [addWords]
        · refine ⟨?_, Nat.le_add_right _ _⟩
          rw [littleEndian_cons, littleEndian_nil]
          exact .refl _
        · exact hshort
      | cons y l => exact absurd rfl (hshort x y l)

theorem foldU32T_same (u : UInt32) : Same (foldU32T u).toNat u.toNat := by
  rw [toNat_foldU32T]
  exact same_fold _

theorem swapBytesInWord_same {w : UInt32} (hw : w.toNat < 65536) :
    Same (swapBytesInWord w).toNat (256 * w.toNat) ∧ (swapBytesInWord w).toNat < 65536 := by
  rw [toNat_swapBytesInWord w hw]
  exact ⟨same_swap hw, by omega⟩

theorem lwipStandardChksum_same (odd : Bool) (data : List UInt8) (hlen : data.length < 65536) :
    Same (lwipStandardChksum odd data).toNat (littleEndian data) := by
  have hfolded (u : UInt32) : (foldU32T (foldU32T u)).toNat < 65536 := by
    have hu := u.toNat_lt
    rw [toNat_foldU32T, toNat_foldU32T]
    omega
  have htail (l : List UInt8) (high : UInt8) (hl : l.length < 65536) :
      Same (foldU32T (foldU32T ((addWords 0 l).sum +
        (((addWords 0 l).rest.head?.getD 0).toUInt32 + 256 * high.toUInt32)))).toNat
        (256 * high.toNat + littleEndian l) := by
    obtain ⟨hsame, hbound⟩ := addWords_same 0 l (show (0 : UInt32).toNat + 65536 * l.length < 4294967296 by
      rw [UInt32.toNat_zero]; omega)
    rw [UInt32.toNat_zero, Nat.zero_add] at hsame hbound
    refine (foldU32T_same _).trans ((foldU32T_same _).trans ?_)
    have hhigh := high.toNat_lt
    have hrest := ((addWords 0 l).rest.head?.getD 0).toNat_lt
    rw [UInt32.toNat_add, toNat_word, Nat.mod_eq_of_lt (by omega), ← Nat.add_assoc, Nat.add_comm]
    exact (Same.refl _).add hsame
  rw [lwipStandardChksum]
  cases odd with
  | false =>
    have hsame := htail data 0 hlen
    rw [show (0 : UInt8).toNat = 0 from rfl, Nat.mul_zero, Nat.zero_add] at hsame
    simp only [Bool.false_eq_true, if_false]
    rw [UInt32.toNat_toUInt16, Nat.mod_eq_of_lt (hfolded _)]
    exact hsame
  | true =>
    simp only [if_true]
    have hsame := htail data.tail (data.head?.getD 0) (by rw [List.length_tail]; omega)
    obtain ⟨hswap, hlt⟩ := swapBytesInWord_same (hfolded ((addWords 0 data.tail).sum +
        (((addWords 0 data.tail).rest.head?.getD 0).toUInt32 + 256 * (data.head?.getD 0).toUInt32)))
    rw [UInt32.toNat_toUInt16, Nat.mod_eq_of_lt hlt]
    refine hswap.trans (hsame.shift.trans ?_)
    cases data with
    | nil => exact .refl _
    | cons x l =>
      rw [littleEndian_cons, Nat.mul_add]
      exact (same_shift_shift _).add (.refl _)

structure ChksumAcc.Sums (a : ChksumAcc) (l : List UInt8) : Prop where
  low : a.acc.toNat < 65536
  swapped : a.swapped = decide (l.length % 2 ≠ 0)
  sum : Same a.acc.toNat (if a.swapped then 256 * littleEndian l else littleEndian l)

theorem ChksumAcc.Sums.add {a : ChksumAcc} {l : List UInt8} (h : a.Sums l) {q : ChksumBuf}
    (hq : q.data.length < 65536) : (a.add q).Sums (l ++ q.data) := by
  have hlow := h.low
  have hchk := (lwipStandardChksum q.odd q.data).toNat_lt
  have hplus : (a.acc + (lwipStandardChksum q.odd q.data).toUInt32).toNat =
      a.acc.toNat + (lwipStandardChksum q.odd q.data).toNat := by
    rw [UInt32.toNat_add, UInt16.toNat_toUInt32]
    omega
  have hfold : (foldU32T (a.acc + (lwipStandardChksum q.odd q.data).toUInt32)).toNat < 65536 := by
    rw [toNat_foldU32T, hplus]
    omega
  have hsum : Same (foldU32T (a.acc + (lwipStandardChksum q.odd q.data).toUInt32)).toNat
      (if a.swapped then 256 * littleEndian (l ++ q.data) else littleEndian (l ++ q.data)) := by
    refine (foldU32T_same _).trans ?_
    rw [hplus]
    refine (h.sum.add (lwipStandardChksum_same q.odd q.data hq)).trans ?_
    have happend := (same_append l q.data).symm
    rw [h.swapped]
    by_cases hodd : l.length % 2 = 0
    · rw [if_pos hodd] at happend
      simpa [hodd] using happend
    · rw [if_neg hodd] at happend
      have hshift := happend.shift
      rw [Nat.mul_add] at hshift
      simpa [hodd] using ((Same.refl _).add (same_shift_shift _).symm).trans hshift
  rw [ChksumAcc.add]
  have hlength : (l ++ q.data).length = l.length + q.data.length := List.length_append
  by_cases hodd : q.data.length % 2 ≠ 0
  · obtain ⟨hswap, hlt⟩ := swapBytesInWord_same hfold
    rw [if_pos hodd]
    refine ⟨hlt, ?_, hswap.trans (hsum.shift.trans ?_)⟩
    · dsimp only
      rw [h.swapped, hlength, ← decide_not]
      exact decide_eq_decide.mpr (by omega)
    · cases a.swapped with
      | true => exact same_shift_shift _
      | false => exact .refl _
  · rw [if_neg hodd]
    refine ⟨hfold, ?_, hsum⟩
    dsimp only
    rw [h.swapped, hlength]
    exact decide_eq_decide.mpr (by omega)

theorem ChksumAcc.Sums.foldl {a : ChksumAcc} {l : List UInt8} (h : a.Sums l) {p : List ChksumBuf}
    (hp : ∀ q ∈ p, q.data.length < 65536) : (p.foldl ChksumAcc.add a).Sums (l ++ p.flatMap ChksumBuf.data) := by
  induction p generalizing a l with
  | nil => rwa [List.flatMap_nil, List.append_nil]
  | cons q p ih =>
    rw [List.flatMap_cons, ← List.append_assoc]
    exact ih (h.add (hp q List.mem_cons_self)) fun q' hq' => hp q' (List.mem_cons_of_mem _ hq')

theorem inetChksumPbuf_same {p : List ChksumBuf} (hp : ∀ q ∈ p, q.data.length < 65536) :
    ∃ r < 65536, (inetChksumPbuf p).toNat = 65535 - r ∧ Same r (littleEndian (p.flatMap ChksumBuf.data)) := by
  have hstart : ChksumAcc.Sums ⟨0, false⟩ [] := ⟨by decide, rfl, .refl _⟩
  have hsums := hstart.foldl hp
  rw [List.nil_append] at hsums
  rw [inetChksumPbuf]
  generalize p.foldl ChksumAcc.add ⟨0, false⟩ = a at hsums
  obtain ⟨acc, hacc, hlow, hsame⟩ : ∃ acc, acc = (if a.swapped then swapBytesInWord a.acc else a.acc) ∧
      acc.toNat < 65536 ∧ Same acc.toNat (littleEndian (p.flatMap ChksumBuf.data)) := by
    have hsum := hsums.sum
    cases hswapped : a.swapped with
    | true =>
      rw [hswapped, if_pos rfl] at hsum
      obtain ⟨hswap, hlt⟩ := swapBytesInWord_same hsums.low
      exact ⟨_, rfl, hlt, hswap.trans (hsum.shift.trans (same_shift_shift _))⟩
    | false =>
      rw [hswapped, if_neg Bool.false_ne_true] at hsum
      exact ⟨_, rfl, hsums.low, hsum⟩
  refine ⟨acc.toNat, hlow, ?_, hsame⟩
  rw [← hacc, UInt32.toNat_toUInt16, UInt32.toNat_not, toNat_and_low]
  change (4294967296 - 1 - acc.toNat % 65536) % 65536 = _
  omega

theorem toNat_inetChksum (odd : Bool) (data : List UInt8) :
    (inetChksum odd data).toNat = 65535 - (lwipStandardChksum odd data).toNat := by
  rw [inetChksum, UInt16.toNat_not]
  rfl

theorem length_lt_of_chain {p : List ChksumBuf} (hp : (p.flatMap ChksumBuf.data).length < 65536) :
    ∀ q ∈ p, q.data.length < 65536 := fun _ hq =>
  Nat.lt_of_le_of_lt (List.sublist_flatten_of_mem (List.mem_map_of_mem hq)).length_le hp

/-- However the bytes are split over the pbufs of a chain and wherever the pbufs lie, the checksum of the chain is that
of the bytes in one piece. -/
theorem chksum_of_chain (p : List ChksumBuf) (hp : (p.flatMap ChksumBuf.data).length < 65536) (odd : Bool) :
    inetChksumPbuf p = inetChksum odd (p.flatMap ChksumBuf.data) := by
  obtain ⟨r, hr, hchksum, hsame⟩ := inetChksumPbuf_same (length_lt_of_chain hp)
  have hone := lwipStandardChksum_same odd (p.flatMap ChksumBuf.data) hp
  have heq := (hsame.trans hone.symm).eq_of_lt hr (UInt16.toNat_lt _)
  rw [← UInt16.toNat_inj, hchksum, toNat_inetChksum, heq]

def oddChain : List ChksumBuf := [⟨false, [8, 0, 1]⟩, ⟨true, [2, 3]⟩, ⟨false, [4]⟩]

theorem oddChain_chksum : inetChksumPbuf oddChain = inetChksum true [8, 0, 1, 2, 3, 4] :=
  chksum_of_chain oddChain (by decide) true

/-- If one byte of a packet changes, its checksum changes, also if the chain is another one. -/
theorem chksum_detects_byte (p p' : List ChksumBuf) (l r : List UInt8) (x y : UInt8)
    (hp : p.flatMap ChksumBuf.data = l ++ x :: r) (hp' : p'.flatMap ChksumBuf.data = l ++ y :: r) (hne : x ≠ y)
    (hlen : (l ++ x :: r).length < 65536) : inetChksumPbuf p ≠ inetChksumPbuf p' := by
  have hlen' : (l ++ y :: r).length < 65536 := by
    rw [List.length_append, List.length_cons] at hlen ⊢
    exact hlen
  obtain ⟨c, hc, hchksum, hsame⟩ := inetChksumPbuf_same (length_lt_of_chain (hp ▸ hlen))
  obtain ⟨c', hc', hchksum', hsame'⟩ := inetChksumPbuf_same (length_lt_of_chain (hp' ▸ hlen'))
  intro heq
  have hcc : c = c' := by
    have := congrArg UInt16.toNat heq
    omega
  rw [hp] at hsame
  rw [hp', ← hcc] at hsame'
  exact not_same_of_byte l r hne (hsame.mod.symm.trans hsame'.mod)

theorem oddChain_detects : inetChksumPbuf oddChain ≠ inetChksumPbuf [⟨true, [8, 0, 1, 7, 3, 4]⟩] :=
  chksum_detects_byte oddChain [⟨true, [8, 0, 1, 7, 3, 4]⟩] [8, 0, 1] [3, 4] 2 7 rfl rfl (by decide) (by decide)

def storedChksum (chksum : UInt16) : List UInt8 := [chksum.toUInt8, (chksum >>> 8).toUInt8]

theorem littleEndian_stored (chksum : UInt16) (r : List UInt8) :
    Same (littleEndian (storedChksum chksum ++ r)) (chksum.toNat + littleEndian r) := by
  have hlt := chksum.toNat_lt
  have hlow : chksum.toUInt8.toNat = chksum.toNat % 256 := UInt16.toNat_toUInt8 _
  have hhigh : (chksum >>> 8).toUInt8.toNat = chksum.toNat / 256 := by
    rw [UInt16.toNat_toUInt8, UInt16.toNat_shiftRight]
    change chksum.toNat >>> 8 % 256 = _
    rw [Nat.shiftRight_eq_div_pow]
    omega
  have hbytes : littleEndian (storedChksum chksum) = chksum.toNat := by
    rw [storedChksum, littleEndian_cons, littleEndian_cons, littleEndian_nil, hlow, hhigh]
    omega
  have happend := same_append (storedChksum chksum) r
  have htwo : (storedChksum chksum).length = 2 := rfl
  rwa [hbytes, htwo, if_pos (by decide)] at happend

/-- A message whose checksum was computed with a zero in its field verifies, however it arrives in a chain. -/
theorem computed_chksum_verifies (l r : List UInt8) (heven : l.length % 2 = 0)
    (hlen : (l ++ 0 :: 0 :: r).length < 65536) (odd : Bool) (p : List ChksumBuf)
    (hp : p.flatMap ChksumBuf.data = l ++ storedChksum (inetChksum odd (l ++ 0 :: 0 :: r)) ++ r) :
    inetChksumPbuf p = 0 := by
  have hsum := lwipStandardChksum_same odd (l ++ 0 :: 0 :: r) hlen
  have hempty := same_append l (0 :: 0 :: r)
  have hzeros := littleEndian_stored 0 r
  have hfull := same_append l (storedChksum (inetChksum odd (l ++ 0 :: 0 :: r)) ++ r)
  have hstored := littleEndian_stored (inetChksum odd (l ++ 0 :: 0 :: r)) r
  have hword := (lwipStandardChksum odd (l ++ 0 :: 0 :: r)).toNat_lt
  rw [if_pos heven] at hempty hfull
  rw [toNat_inetChksum] at hstored
  rw [← List.append_assoc, ← hp] at hfull
  have hlength : (p.flatMap ChksumBuf.data).length < 65536 := by
    rw [hp, List.length_append, List.length_append]
    rw [List.length_append, List.length_cons, List.length_cons] at hlen
    change l.length + 2 + r.length < 65536
    omega
  obtain ⟨c, hc, hchksum, hsame⟩ := inetChksumPbuf_same (length_lt_of_chain hlength)
  have hzero : Same (littleEndian (0 :: 0 :: r)) (littleEndian r) := by
    have : (0 : UInt16).toNat + littleEndian r = littleEndian r := Nat.zero_add _
    rw [this] at hzeros
    exact hzeros
  have hall := hsame.trans (hfull.trans ((Same.refl (littleEndian l)).add hstored))
  have hsumAll := hsum.trans (hempty.trans ((Same.refl (littleEndian l)).add hzero))
  have hmax : c = 65535 := by
    refine (same_max_iff hall hc).mpr ?_
    have hmod := hsumAll.mod
    have hiff := hsumAll.zero
    omega
  rw [← UInt16.toNat_inj, hchksum, hmax]
  rfl

theorem echoRequest_verifies :
    inetChksumPbuf [⟨false, [8]⟩, ⟨true, 0 :: storedChksum (inetChksum false [8, 0, 0, 0, 5])⟩, ⟨false, [5]⟩] = 0 :=
  computed_chksum_verifies [8, 0] [5] (by decide) (by decide) false _ rfl

end LogoCore.Lwip
