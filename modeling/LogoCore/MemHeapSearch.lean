import LogoCore.MemHeapOperations

namespace LogoCore.Lwip.Heap

open ByteMemory BlockLayout

variable {h : Heap} {mem want ptr : UInt32} {b : Block} {pre post l : List Block} {p o s n fuel : ℕ}

theorem scan_cases (hl : Linked h.ram p o l) (hs : Sized l) (hend : o + total l = 65536) (hwant : want.toNat ≤ 65536)
    (hfuel : l.length < fuel) (hptr : ptr.toNat = o) :
    (∃ pre s post mem, l = pre ++ ⟨s, false⟩ :: post ∧ want.toNat + 12 ≤ s ∧ h.scan want fuel ptr = .found mem ∧
        mem.toNat = o + total pre) ∨
      h.scan want fuel ptr = .full ∧ ∀ x ∈ extents false o l, x.2 < want.toNat + 12 := by
  have hle : want ≤ memSizeAligned := by rwa [UInt32.le_iff_toNat_le, toNat_memSizeAligned]
  induction l generalizing p o fuel ptr with
  | nil =>
    refine .inr ⟨?_, fun x hx => absurd hx List.not_mem_nil⟩
    cases fuel with
    | zero => exact absurd hfuel (Nat.lt_irrefl _)
    | succ fuel =>
      rw [total_nil] at hend
      refine if_neg ?_
      rw [UInt32.lt_iff_toNat_lt, UInt32.toNat_sub_of_le _ _ hle, toNat_memSizeAligned]
      omega
  | cons b rest ih =>
    obtain ⟨hnext, -, hused, hrest⟩ := hl
    obtain ⟨hb, hsrest⟩ := sized_cons.mp hs
    rw [total_cons] at hend
    cases fuel with
    | zero => exact absurd hfuel (Nat.not_lt_zero _)
    | succ fuel =>
      have hnext' : (h.next ptr).toNat = o + b.size := by rw [next, hptr, hnext]
      have hroom : (h.next ptr - (ptr + sizeofStructMem)).toNat = b.size - 12 := by
        have hadd : (ptr + sizeofStructMem).toNat = o + 12 := by
          rw [UInt32.toNat_add, hptr, toNat_sizeofStructMem]
          omega
        rw [UInt32.toNat_sub_of_le _ _ (by rw [UInt32.le_iff_toNat_le]; omega), hnext', hadd]
        omega
      have hused' : h.used ptr = b.used := by rw [used, hptr, hused]
      rw [scan]
      by_cases hinside : ptr < memSizeAligned - want
      · rw [if_pos hinside]
        by_cases hfound : h.used ptr = false ∧ want ≤ h.next ptr - (ptr + sizeofStructMem)
        · rw [if_pos hfound]
          rw [hused', UInt32.le_iff_toNat_le, hroom] at hfound
          exact .inl ⟨[], b.size, rest, ptr, by rw [← hfound.1]; rfl, by omega, rfl, hptr⟩
        · rw [if_neg hfound]
          obtain ⟨pre, s, post, mem, hsplit, hbig, hscan, hmem⟩ | ⟨hscan, hsmall⟩ :=
            ih hrest hsrest (by omega) (Nat.lt_of_succ_lt_succ hfuel) hnext'
          · refine .inl ⟨b :: pre, s, post, mem, by rw [hsplit]; rfl, hbig, hscan, ?_⟩
            rw [hmem, total_cons, Nat.add_assoc]
          · refine .inr ⟨hscan, fun x hx => ?_⟩
            rw [extents] at hx
            split_ifs at hx with hfree
            · obtain rfl | hx := List.mem_cons.mp hx
              · rw [hused', UInt32.le_iff_toNat_le, hroom] at hfound
                have hnot : ¬ want.toNat ≤ b.size - 12 := fun hle => hfound ⟨hfree, hle⟩
                dsimp only
                omega
              · exact hsmall x hx
            · exact hsmall x hx
      · rw [if_neg hinside]
        refine .inr ⟨rfl, fun x hx => ?_⟩
        rw [UInt32.lt_iff_toNat_lt, UInt32.toNat_sub_of_le _ _ hle, toNat_memSizeAligned] at hinside
        have := extents_bounds (l := b :: rest) hx
        rw [total_cons] at this
        omega

theorem lowestFree_eq (hl : Linked h.ram p o l) (hs : Sized l) (hend : o + total l = 65536)
    (hfuel : l.length < fuel) (hptr : ptr.toNat = o) :
    ∃ cur, h.lowestFree fuel ptr = some cur ∧ cur.toNat = firstFree o l := by
  induction l generalizing p o fuel ptr with
  | nil =>
    cases fuel with
    | zero => exact absurd hfuel (Nat.lt_irrefl _)
    | succ fuel =>
      have hlast : ptr = memSizeAligned := UInt32.toNat_inj.mp (hptr.trans hend)
      exact ⟨ptr, if_neg fun hne => hne.2 hlast, hptr⟩
  | cons b rest ih =>
    obtain ⟨hnext, -, hused, hrest⟩ := hl
    obtain ⟨hb, hsrest⟩ := sized_cons.mp hs
    rw [total_cons] at hend
    cases fuel with
    | zero => exact absurd hfuel (Nat.not_lt_zero _)
    | succ fuel =>
      have hnext' : (h.next ptr).toNat = o + b.size := by rw [next, hptr, hnext]
      have hused' : h.used ptr = b.used := by rw [used, hptr, hused]
      have hinside : ptr ≠ memSizeAligned := fun heq => by
        rw [heq, toNat_memSizeAligned] at hptr
        omega
      rw [lowestFree, firstFree, hused']
      by_cases hb' : b.used = true
      · rw [if_pos ⟨hb', hinside⟩, if_pos hb']
        exact ih hrest hsrest (by omega) (Nat.lt_of_succ_lt_succ hfuel) hnext'
      · rw [if_neg fun hne => hb' hne.1, if_neg hb']
        exact ⟨ptr, rfl, hptr⟩

def Ample (fuel : ℕ) : Prop := ∀ l, Sized l → total l ≤ 65536 → l.length < fuel

theorem ample_memSize : Ample memSizeAligned.toNat := by
  intro l hs hwhole
  have hlength : ∀ l, Sized l → 24 * l.length ≤ total l := by
    intro l hs
    induction l with
    | nil => exact le_rfl
    | cons b rest ih =>
      obtain ⟨hb, hrest⟩ := sized_cons.mp hs
      have := ih hrest
      rw [List.length_cons, total_cons]
      omega
  have := hlength l hs
  rw [toNat_memSizeAligned]
  omega

theorem take_chained (hc : Chained h.ram (pre ++ ⟨s, false⟩ :: post)) (hmem : mem.toNat = total pre)
    (hdvd : 4 ∣ want.toNat) (hlow : 12 ≤ want.toNat) (hbig : want.toNat + 12 ≤ s) :
    ∃ rest s', want.toNat + 12 ≤ s' ∧ s' ≤ s ∧ s' < want.toNat + 36 ∧
      (rest = post ∧ s' = s ∨ rest = ⟨s - s', false⟩ :: post) ∧
      Chained (h.take mem want).ram (pre ++ ⟨s', true⟩ :: rest) ∧
      Preserved h.ram (h.take mem want).ram (pre ++ ⟨s', true⟩ :: rest) := by
  have hwhole := hc.whole
  rw [total_append, total_cons] at hwhole
  dsimp only at hwhole
  have hnext : (h.next mem).toNat = total pre + s := next_eq hc.linked hmem
  have hptr : (mem + sizeofStructMem + want).toNat = total pre + (want.toNat + 12) := by
    rw [UInt32.toNat_add, UInt32.toNat_add, hmem, toNat_sizeofStructMem]
    omega
  have hcut : want + sizeofStructMem + minSizeAligned ≤ h.next mem - (mem + sizeofStructMem) ↔
      want.toNat + 36 ≤ s := by
    have hadd : (mem + sizeofStructMem).toNat = total pre + 12 := by
      rw [UInt32.toNat_add, hmem, toNat_sizeofStructMem]
      omega
    rw [UInt32.le_iff_toNat_le, UInt32.toNat_sub_of_le _ _ (by rw [UInt32.le_iff_toNat_le]; omega), hnext, hadd,
      UInt32.toNat_add, UInt32.toNat_add, toNat_sizeofStructMem, show minSizeAligned.toNat = 12 from rfl]
    omega
  rw [take]
  by_cases hlong : want.toNat + 36 ≤ s
  · rw [if_pos (hcut.mpr hlong)]
    have hinsert : Chained (h.insertFree mem (mem + sizeofStructMem + want) (h.next mem)).ram
        (pre ++ ⟨want.toNat + 12, false⟩ :: ⟨s - (want.toNat + 12), false⟩ :: post) :=
      hc.insert [] hmem hptr hnext (by omega) (by omega) (by rw [total_nil]; dsimp only; omega)
    have hkept := preserved_insertFree (h := h) true hmem hptr hnext (by omega) (by omega) post
    have hset := hinsert.setUsed hmem 1
    exact ⟨_, want.toNat + 12, le_rfl, hbig, by omega, .inr rfl, hset,
      hkept.trans (preserved_setUsed hset.sized hmem 1)⟩
  · rw [if_neg (mt hcut.mp hlong)]
    have hset := hc.setUsed hmem 1
    exact ⟨post, s, hbig, le_rfl, by omega, .inl ⟨rfl, rfl⟩, hset, preserved_setUsed hset.sized hmem 1⟩

theorem take_lfree : (h.take mem want).lfree = h.lfree := by
  rw [take]
  split_ifs
  · exact insertFree_lfree _ _
  · rfl

theorem take_holds (hh : Holds h (pre ++ ⟨s, false⟩ :: post)) (hfuel : Ample fuel) (hmem : mem.toNat = total pre)
    (hdvd : 4 ∣ want.toNat) (hlow : 12 ≤ want.toNat) (hbig : want.toNat + 12 ≤ s) :
    ∃ lfree rest s', Cut h { h.take mem want with lfree := lfree } pre post s (want.toNat + 12) rest s' ∧
      if mem = (h.take mem want).lfree then (h.take mem want).lowestFree fuel (h.take mem want).lfree = some lfree
      else lfree = (h.take mem want).lfree := by
  obtain ⟨rest, s', henough, hwithin, hclose, hrest, hchained, hkept⟩ :=
    take_chained hh.tiled.toChained hmem hdvd hlow hbig
  obtain ⟨hpre, hpost, -⟩ := List.isChain_append.mp hh.coalesced
  have hfirst : ∀ y ∈ post.head?, y.used = true := fun y hy =>
    ((List.isChain_cons.mp hpost).1 y hy).resolve_left Bool.false_ne_true
  have hcoalesced : Coalesced rest := by
    obtain ⟨rfl, -⟩ | rfl := hrest
    · exact hpost.tail
    · exact coalesced_free hpost.tail hfirst _
  have hothers : extents true (total pre + s') rest = extents true (total pre + s) post := by
    obtain ⟨rfl, rfl⟩ | rfl := hrest
    · rfl
    · rw [extents, if_neg Bool.false_ne_true]
      congr 1
      dsimp only
      omega
  have hcut (lfree : UInt32) (hlfree : lfree.toNat = firstFree 0 (pre ++ ⟨s', true⟩ :: rest)) :
      Cut h { h.take mem want with lfree := lfree } pre post s (want.toNat + 12) rest s' :=
    ⟨henough, hwithin, hclose, hothers, ⟨⟨hchained, hlfree⟩, coalesced_used hpre hcoalesced rfl⟩, hkept⟩
  have hlfree := hh.tiled.lfree
  rw [take_lfree]
  obtain hused | hfree := all_used_or_free pre
  · rw [firstFree_of_used hused, Nat.zero_add, firstFree_cons_free rfl, ← hmem] at hlfree
    have hsame : h.lfree = mem := UInt32.toNat_inj.mp hlfree
    have hlinked := ((linked_split pre (⟨s', true⟩ :: rest)).mp hchained.linked).2
    have hsized := (sized_append.mp hchained.sized).2
    have hwhole := hchained.whole
    rw [total_append] at hwhole
    obtain ⟨cur, hcur, hcur'⟩ := lowestFree_eq hlinked hsized hwhole (hfuel _ hsized (by omega)) hmem
    refine ⟨cur, rest, s', hcut cur ?_, ?_⟩
    · rw [hcur', firstFree_of_used hused, Nat.zero_add]
    · rw [if_pos hsame.symm, hsame]
      exact hcur
  · rw [firstFree_of_free hfree] at hlfree
    have hlt := firstFree_lt hfree (fun c hc => hh.tiled.pos c (List.mem_append_left _ hc)) 0
    have hother : mem ≠ h.lfree := fun heq => by
      rw [← heq, hmem] at hlfree
      omega
    refine ⟨h.lfree, rest, s', hcut h.lfree ?_, ?_⟩
    · rw [firstFree_of_free hfree, hlfree]
    · rw [if_neg hother]

theorem allocate_cases (hh : Holds h l) (hfuel : Ample fuel) (hdvd : 4 ∣ want.toNat) (hlow : 12 ≤ want.toNat)
    (hwant : want.toNat ≤ 65536) :
    (h.allocate want fuel = some ⟨h, none⟩ ∧ ∀ x ∈ extents false 0 l, x.2 < want.toNat + 12) ∨
      ∃ pre s post h' rmem rest s', l = pre ++ ⟨s, false⟩ :: post ∧ h.allocate want fuel = some ⟨h', some rmem⟩ ∧
        rmem.toNat = total pre + 12 ∧ Cut h h' pre post s (want.toNat + 12) rest s' := by
  obtain ⟨front, back, rfl, hused, hfirst⟩ := exists_split_firstFree l
  have hlfree := hh.tiled.lfree
  rw [hfirst, Nat.zero_add] at hlfree
  have hwhole := hh.tiled.whole
  rw [total_append] at hwhole
  have hsized := (sized_append.mp hh.tiled.sized).2
  rw [allocate]
  obtain ⟨pre, s, post, mem, rfl, hbig, hscan, hmem⟩ | ⟨hscan, hsmall⟩ :=
    scan_cases ((linked_split front back).mp hh.tiled.linked).2 hsized hwhole hwant (hfuel _ hsized (by omega)) hlfree
  · rw [hscan]
    dsimp only
    rw [← List.append_assoc] at hh ⊢
    rw [← total_append] at hmem
    obtain ⟨lfree, rest, s', hcut, hstep⟩ := take_holds hh hfuel hmem hdvd hlow hbig
    have hwhole := hh.tiled.whole
    rw [total_append, total_cons] at hwhole
    have hrmem : (mem + sizeofStructMem).toNat = total (front ++ pre) + 12 := by
      rw [UInt32.toNat_add, hmem, toNat_sizeofStructMem]
      dsimp only at hwhole
      omega
    refine .inr ⟨front ++ pre, s, post, _, mem + sizeofStructMem, rest, s', rfl, ?_, hrmem, hcut⟩
    split_ifs at hstep ⊢
    · rw [hstep]
      rfl
    · rw [hstep]
  · rw [hscan]
    refine .inl ⟨rfl, fun x hx => hsmall x ?_⟩
    have hgone : ∀ b ∈ front, b.used ≠ false := fun b hb => by rw [hused b hb]; exact Bool.false_ne_true.symm
    rw [extents_append, extents_eq_nil hgone, List.nil_append, Nat.zero_add] at hx
    exact hx

theorem memMalloc_cases (hh : Holds h l) {size : UInt32} (hsize : size.toNat + 3 < 2 ^ 32) (hzero : size ≠ 0) :
    (h.memMalloc size = some ⟨h, none⟩ ∧ ∀ x ∈ extents false 0 l, x.2 < padded size.toNat + 12) ∨
      ∃ pre s post h' rmem rest s', l = pre ++ ⟨s, false⟩ :: post ∧ h.memMalloc size = some ⟨h', some rmem⟩ ∧
        rmem.toNat = total pre + 12 ∧ Cut h h' pre post s (padded size.toNat + 12) rest s' := by
  have hpad := toNat_padded hsize
  have hdvd := dvd_padded size.toNat
  have hlow : 12 ≤ padded size.toNat := Nat.le_max_left _ _
  have hfuel := ample_memSize
  rw [memMalloc, if_neg hzero]
  dsimp only
  generalize memSizeAligned.toNat = fuel at hfuel
  generalize (if lwipMemAlignSize size < minSizeAligned then minSizeAligned else lwipMemAlignSize size) = want
    at hpad ⊢
  rw [← hpad] at hdvd hlow ⊢
  by_cases hhuge : memSizeAligned < want
  · rw [if_pos hhuge]
    refine .inl ⟨rfl, fun x hx => ?_⟩
    rw [UInt32.lt_iff_toNat_lt, toNat_memSizeAligned] at hhuge
    have := extents_bounds hx
    have := hh.tiled.whole
    omega
  · rw [if_neg hhuge]
    rw [UInt32.lt_iff_toNat_lt, toNat_memSizeAligned] at hhuge
    exact allocate_cases hh hfuel hdvd hlow (Nat.le_of_not_lt hhuge)

end LogoCore.Lwip.Heap
