import LogoCore.MemHeapLayout

namespace LogoCore.Lwip.Heap

open ByteMemory BlockLayout

variable {h : Heap} {mem rmem newsize : UInt32} {b x y : Block} {pre post l : List Block} {s n : ℕ}

structure Holds (h : Heap) (l : List Block) : Prop where
  tiled : Tiled h l
  coalesced : Coalesced l

theorem toNat_sub_header (hr : rmem.toNat = total pre + 12) : (rmem - sizeofStructMem).toNat = total pre := by
  have hsize : sizeofStructMem.toNat = 12 := rfl
  rw [UInt32.toNat_sub_of_le _ _ (by rw [UInt32.le_iff_toNat_le]; omega)]
  omega

theorem not_beyond (ht : Tiled h (pre ++ b :: post)) (hr : rmem.toNat = total pre + 12) :
    ¬ memSizeAligned ≤ rmem := by
  have hwhole := ht.whole
  have hb := ht.sized b (by simp)
  have hsize : memSizeAligned.toNat = 65536 := rfl
  rw [total_append, total_cons] at hwhole
  rw [UInt32.le_iff_toNat_le]
  omega

theorem memFree_holds (hh : Holds h (pre ++ ⟨s, true⟩ :: post)) (hr : rmem.toNat = total pre + 12) :
    Holds (h.memFree (some rmem)) (coalesce (pre ++ ⟨s, false⟩ :: post)) ∧
      Preserved h.ram (h.memFree (some rmem)).ram (coalesce (pre ++ ⟨s, false⟩ :: post)) := by
  have hmem := toNat_sub_header hr
  have hunused := hh.tiled.unuse hmem
  obtain ⟨hpre, hpost, -⟩ := List.isChain_append.mp hh.coalesced
  obtain ⟨htiled, hkept⟩ := hunused.plugHoles rfl hmem hpre hpost.tail
  have hmark : Preserved h.ram (h.setUsed (rmem - sizeofStructMem) 0).ram (pre ++ ⟨s, false⟩ :: post) := by
    have hs := hunused.sized
    exact preserved_setUsed hs hmem 0
  have hram : (if rmem - sizeofStructMem < (h.setUsed (rmem - sizeofStructMem) 0).lfree then
      { h.setUsed (rmem - sizeofStructMem) 0 with lfree := rmem - sizeofStructMem }
      else h.setUsed (rmem - sizeofStructMem) 0).ram = (h.setUsed (rmem - sizeofStructMem) 0).ram := by
    split_ifs
    · rfl
    · rfl
  rw [memFree, if_neg (not_beyond hh.tiled hr)]
  rw [hram] at hkept
  exact ⟨⟨htiled, coalesced_coalesce _⟩, (hmark.congr (live_coalesce _ _)).trans hkept⟩

/-- The bytes that `mem_malloc` and `mem_trim` reserve for `n` bytes. -/
def padded (n : ℕ) : ℕ := max 12 ((n + 3) / 4 * 4)

theorem toNat_align {size : UInt32} (hsize : size.toNat + 3 < 2 ^ 32) :
    (lwipMemAlignSize size).toNat = (size.toNat + 3) / 4 * 4 := by
  have hmask : ∀ v : BitVec 32, v &&& ~~~3#32 = (v >>> 2) <<< 2 := by
    intro v
    apply BitVec.eq_of_getLsbD_eq
    intro i hi
    have hthree : (3#32).getLsbD i = decide (i < 2) := by
      rw [BitVec.getLsbD_ofNat, show 3 = 2 ^ 2 - 1 from rfl, Nat.testBit_two_pow_sub_one, decide_eq_true hi,
        Bool.true_and]
    rw [BitVec.getLsbD_and, BitVec.getLsbD_not, BitVec.getLsbD_shiftLeft, BitVec.getLsbD_ushiftRight, hthree]
    by_cases hlow : i < 2
    · simp [hlow]
    · simp [hlow, hi, Nat.add_sub_cancel' (Nat.le_of_not_lt hlow)]
  have hsum : (size + 3).toNat = size.toNat + 3 := by
    rw [UInt32.toNat_add, show (3 : UInt32).toNat = 3 from rfl, Nat.mod_eq_of_lt hsize]
  have : (lwipMemAlignSize size).toNat = ((size + 3).toBitVec &&& ~~~3#32).toNat := rfl
  rw [this, hmask, BitVec.toNat_shiftLeft, BitVec.toNat_ushiftRight, UInt32.toNat_toBitVec, hsum,
    Nat.shiftRight_eq_div_pow, Nat.shiftLeft_eq]
  omega

theorem toNat_padded {size : UInt32} (hsize : size.toNat + 3 < 2 ^ 32) :
    (if lwipMemAlignSize size < minSizeAligned then minSizeAligned else lwipMemAlignSize size).toNat =
      padded size.toNat := by
  have halign := toNat_align hsize
  have hmin : minSizeAligned.toNat = 12 := rfl
  rw [padded]
  split_ifs with hlt
  · rw [UInt32.lt_iff_toNat_lt, halign, hmin] at hlt
    omega
  · rw [UInt32.lt_iff_toNat_lt, halign, hmin] at hlt
    omega

theorem dvd_padded (n : ℕ) : 4 ∣ padded n := by
  rw [padded]
  omega

theorem le_padded (n : ℕ) : n ≤ padded n := by
  rw [padded]
  omega

theorem insertFree_lfree (ptr2 nxt : UInt32) : (h.insertFree mem ptr2 nxt).lfree = h.lfree := by
  rw [insertFree]
  split_ifs
  · rfl
  · rfl

theorem Chained.insert (mid : List Block) {ptr2 nxt : UInt32} (hc : Chained h.ram (pre ++ b :: (mid ++ post)))
    (hmem : mem.toNat = total pre) (hptr : ptr2.toNat = total pre + n)
    (hnxt : nxt.toNat = total pre + (b.size + total mid)) (hn : 24 ≤ n) (hdvd : 4 ∣ n)
    (hsize : n + 24 ≤ b.size + total mid) :
    Chained (h.insertFree mem ptr2 nxt).ram
      (pre ++ ⟨n, b.used⟩ :: ⟨b.size + total mid - n, false⟩ :: post) := by
  obtain ⟨hpre, hb⟩ := (linked_split pre (b :: (mid ++ post))).mp hc.linked
  have hpost := ((linked_append _ _ mid post).mp hb.2.2.2).2
  rw [Nat.add_assoc] at hpost
  obtain ⟨hspre, hsb, hsmid⟩ := (sized_append.mp hc.sized).imp_right sized_cons.mp
  obtain ⟨hsmid, hspost⟩ := sized_append.mp hsmid
  have hwhole := hc.whole
  simp only [total_append, total_cons] at hwhole
  have hend : nxt = memSizeAligned → post = [] := by
    intro heq
    have hlast : memSizeAligned.toNat = 65536 := rfl
    rw [heq] at hnxt
    exact eq_nil_of_total hspost (by omega)
  refine ⟨?_, ?_, ?_, ?_⟩
  · have hused : h.used mem = b.used := used_eq hc.linked hmem
    exact hused ▸ linked_insertFree hpre hb.2.1 hpost hend hspre hspost hmem hptr hnxt hn hsize
  · rw [sized_append, sized_cons, sized_cons]
    have hmiddvd := dvd_total hsmid
    exact ⟨hspre, ⟨hn, hdvd⟩, ⟨by dsimp only; omega, by dsimp only; omega⟩, hspost⟩
  · simp only [total_append, total_cons]
    omega
  · have hinserted := (@insertFree_inserted _ h mem ptr2 nxt n _ hmem hptr hnxt hn hsize).1
    rw [hinserted.others _ (by omega) (by omega) (by omega)]
    exact hc.ending

theorem move_lfree {c : Prop} [Decidable c] (v : UInt32) :
    (if c then { h with lfree := v } else h) = { h with lfree := if c then v else h.lfree } := by
  split_ifs
  · rfl
  · rfl

theorem toNat_memSizeAligned : memSizeAligned.toNat = 65536 := rfl

theorem toNat_sizeofStructMem : sizeofStructMem.toNat = 12 := rfl

structure Cut (h h' : Heap) (pre post : List Block) (s n : ℕ) (rest : List Block) (s' : ℕ) : Prop where
  enough : n ≤ s'
  within : s' ≤ s
  close : s' < n + 24
  others : extents true (total pre + s') rest = extents true (total pre + s) post
  holds : Holds h' (pre ++ ⟨s', true⟩ :: rest)
  kept : Preserved h.ram h'.ram (pre ++ ⟨s', true⟩ :: rest)

section Trim

theorem lfree_eq (ht : Tiled h (pre ++ ⟨s, true⟩ :: post)) :
    h.lfree.toNat = if ∃ b ∈ pre, b.used = false then firstFree 0 pre else firstFree (total pre + s) post := by
  rw [ht.lfree]
  split_ifs with hfree
  · exact firstFree_of_free hfree 0 _
  · rw [firstFree_of_used ((all_used_or_free pre).resolve_right hfree), Nat.zero_add, firstFree_cons_used rfl]

theorem cut_insertFree (mid : List Block) {ptr2 nxt lfree : UInt32} (hh : Holds h (pre ++ ⟨s, true⟩ :: (mid ++ post)))
    (hmem : mem.toNat = total pre) (hptr : ptr2.toNat = total pre + n) (hnxt : nxt.toNat = total pre + (s + total mid))
    (hn : 24 ≤ n) (hns : n ≤ s) (hdvd : 4 ∣ n) (hsize : n + 24 ≤ s + total mid)
    (hmid : ∀ y ∈ mid, y.used = false) (hnext : ∀ y ∈ post.head?, y.used = true)
    (hlfree : lfree.toNat = if ∃ b ∈ pre, b.used = false then firstFree 0 pre else total pre + n) :
    Cut h ({ h with lfree := lfree }.insertFree mem ptr2 nxt) pre (mid ++ post) s n
      (⟨s + total mid - n, false⟩ :: post) n := by
  have hchained : Chained ({ h with lfree := lfree } : Heap).ram (pre ++ ⟨s, true⟩ :: (mid ++ post)) :=
    hh.tiled.toChained
  obtain ⟨hpre, hrest, -⟩ := List.isChain_append.mp hh.coalesced
  obtain ⟨-, hpost, -⟩ := List.isChain_append.mp hrest.tail
  refine ⟨le_rfl, hns, by omega, ?_, ⟨⟨hchained.insert mid hmem hptr hnxt hn hdvd hsize, ?_⟩,
    coalesced_used hpre (coalesced_free hpost hnext _) rfl⟩, preserved_insertFree true hmem hptr hnxt hn hsize post⟩
  · have hgone : ∀ y ∈ mid, y.used ≠ true := fun y hy => by rw [hmid y hy]; exact Bool.false_ne_true
    rw [extents_append, extents, if_neg Bool.false_ne_true, extents_eq_nil hgone, List.nil_append]
    congr 1
    dsimp only
    omega
  · rw [insertFree_lfree]
    refine hlfree.trans ?_
    split_ifs with hfree
    · exact (firstFree_of_free hfree 0 _).symm
    · rw [firstFree_of_used ((all_used_or_free pre).resolve_right hfree), Nat.zero_add, firstFree_cons_used rfl,
        firstFree_cons_free rfl]

theorem trim_moves {ptr2 : UInt32} {rest : List Block} (hh : Holds h (pre ++ ⟨s, true⟩ :: y :: rest))
    (hy : y.used = false) (hmem : mem.toNat = total pre) (hptr : ptr2.toNat = total pre + n) (hn : 24 ≤ n)
    (hns : n ≤ s) (hdvd : 4 ∣ n) :
    Cut h ({ h with lfree := if h.lfree = h.next mem then ptr2 else h.lfree }.insertFree mem ptr2
        (h.next (h.next mem))) pre (y :: rest) s n (⟨s + total [y] - n, false⟩ :: rest) n := by
  have hnext : (h.next mem).toNat = total pre + s := next_eq hh.tiled.linked hmem
  have hlinked := hh.tiled.linked
  rw [List.append_cons] at hlinked
  have hbeyond : (h.next (h.next mem)).toNat = total pre + (s + total [y]) := by
    rw [next_eq hlinked (by rw [hnext, total_append]; rfl)]
    simp [Nat.add_assoc]
  have hsize := hh.tiled.sized y (by simp)
  have hsecond : ∀ z ∈ rest.head?, z.used = true := by
    intro z hz
    have hchain := (List.isChain_append.mp hh.coalesced).2.1.tail
    exact ((List.isChain_cons.mp hchain).1 z hz).resolve_left (by rw [hy]; exact Bool.false_ne_true)
  refine cut_insertFree [y] hh hmem hptr hbeyond hn hns hdvd (by rw [total_cons]; omega)
    (fun z hz => by rw [List.mem_singleton.mp hz, hy]) hsecond ?_
  have hlfree := lfree_eq hh.tiled
  rw [firstFree_cons_free hy] at hlfree
  split_ifs at hlfree ⊢ with hsome hmoved hmoved
  · have := firstFree_lt hmoved (fun c hc => hh.tiled.pos c (List.mem_append_left _ hc)) 0
    rw [hsome, hnext] at hlfree
    omega
  · exact hptr
  · exact hlfree
  · exact absurd (UInt32.toNat_inj.mp (hlfree.trans hnext.symm)) hsome

theorem trim_splits {ptr2 : UInt32} (hh : Holds h (pre ++ ⟨s, true⟩ :: post))
    (hfirst : ∀ y ∈ post.head?, y.used = true) (hmem : mem.toNat = total pre) (hptr : ptr2.toNat = total pre + n)
    (hn : 24 ≤ n) (hns : n + 24 ≤ s) (hdvd : 4 ∣ n) :
    Cut h ({ h with lfree := if ptr2 < h.lfree then ptr2 else h.lfree }.insertFree mem ptr2 (h.next mem)) pre post s n
      (⟨s + total [] - n, false⟩ :: post) n := by
  have hnext : (h.next mem).toNat = total pre + s := next_eq hh.tiled.linked hmem
  refine cut_insertFree [] hh hmem hptr hnext hn (by omega) hdvd (by rw [total_nil]; omega) (by simp) hfirst ?_
  have hlfree := lfree_eq hh.tiled
  have hpost := le_firstFree (total pre + s) post
  split_ifs at hlfree ⊢ with hlt hsome hsome
  · have := firstFree_lt hsome (fun c hc => hh.tiled.pos c (List.mem_append_left _ hc)) 0
    rw [UInt32.lt_iff_toNat_lt] at hlt
    omega
  · exact hptr
  · exact hlfree
  · rw [UInt32.lt_iff_toNat_lt] at hlt
    omega

theorem next_used (ht : Tiled h (pre ++ b :: post)) (hmem : mem.toNat = total pre) :
    h.used (h.next mem) = (post.head?.map Block.used).getD true := by
  have hnext : (h.next mem).toNat = total pre + b.size := next_eq ht.linked hmem
  cases post with
  | nil =>
    have hwhole := ht.whole
    rw [total_append, total_cons, total_nil] at hwhole
    exact ht.used_end (hnext.trans hwhole)
  | cons y rest =>
    have hlinked := ht.linked
    rw [List.append_cons] at hlinked
    exact used_eq hlinked (by rw [hnext, total_append]; rfl)

theorem memTrim_cut (hh : Holds h (pre ++ ⟨s, true⟩ :: post)) (hr : rmem.toNat = total pre + 12)
    (hnew : newsize.toNat + 3 < 2 ^ 32) :
    (s < padded newsize.toNat + 12 ∧ h.memTrim rmem newsize = ⟨h, none⟩) ∨
      (h.memTrim rmem newsize).rmem = some rmem ∧
        ∃ rest s', Cut h (h.memTrim rmem newsize).heap pre post s (padded newsize.toNat + 12) rest s' := by
  have hmem := toNat_sub_header hr
  have hpad := toNat_padded hnew
  have hdvd := dvd_padded newsize.toNat
  have hlow : 12 ≤ padded newsize.toNat := Nat.le_max_left _ _
  have hwhole := hh.tiled.whole
  have hsize := hh.tiled.sized ⟨s, true⟩ (by simp)
  rw [total_append, total_cons] at hwhole
  dsimp only at hsize hwhole
  rw [memTrim]
  generalize (if lwipMemAlignSize newsize < minSizeAligned then minSizeAligned else lwipMemAlignSize newsize) = want
    at hpad ⊢
  generalize padded newsize.toNat = n at hpad hdvd hlow ⊢
  generalize rmem - sizeofStructMem = mem at hmem
  have hnext : (h.next mem).toNat = total pre + s := next_eq hh.tiled.linked hmem
  have hroom : (h.next mem - mem - sizeofStructMem).toNat = s - 12 := by
    rw [UInt32.toNat_sub_of_le, UInt32.toNat_sub_of_le, hnext, hmem, toNat_sizeofStructMem]
    · omega
    · rw [UInt32.le_iff_toNat_le]
      omega
    · rw [UInt32.le_iff_toNat_le, UInt32.toNat_sub_of_le _ _ (by rw [UInt32.le_iff_toNat_le]; omega),
        toNat_sizeofStructMem]
      omega
  by_cases hhuge : memSizeAligned < want
  · rw [if_pos hhuge]
    rw [UInt32.lt_iff_toNat_lt, toNat_memSizeAligned] at hhuge
    exact .inl ⟨by omega, rfl⟩
  rw [if_neg hhuge, if_neg (not_beyond hh.tiled hr)]
  by_cases hgrow : h.next mem - mem - sizeofStructMem < want
  · rw [if_pos hgrow]
    rw [UInt32.lt_iff_toNat_lt] at hgrow
    exact .inl ⟨by omega, rfl⟩
  rw [if_neg hgrow]
  rw [UInt32.lt_iff_toNat_lt] at hgrow
  have hsame (hclose : s < n + 36) : ∃ rest s', Cut h h pre post s (n + 12) rest s' :=
    ⟨post, s, by omega, le_rfl, by omega, rfl, hh, fun _ _ _ _ _ => rfl⟩
  by_cases hfit : want = h.next mem - mem - sizeofStructMem
  · rw [if_pos hfit]
    have : n = s - 12 := by rw [← hpad, hfit, hroom]
    exact .inr ⟨rfl, hsame (by omega)⟩
  rw [if_neg hfit]
  have hless : n + 12 < s := by
    have : n ≠ s - 12 := fun heq => hfit (UInt32.toNat_inj.mp (by rw [hpad, hroom, heq]))
    omega
  have hptr : (mem + sizeofStructMem + want).toNat = total pre + (n + 12) := by
    rw [UInt32.toNat_add, UInt32.toNat_add, hmem, hpad, toNat_sizeofStructMem]
    omega
  have hshort : want + sizeofStructMem + minSizeAligned ≤ h.next mem - mem - sizeofStructMem ↔ n + 36 ≤ s := by
    rw [UInt32.le_iff_toNat_le, hroom, UInt32.toNat_add, UInt32.toNat_add, hpad, toNat_sizeofStructMem,
      show minSizeAligned.toNat = 12 from rfl]
    omega
  have hused := next_used hh.tiled hmem
  by_cases hfree : h.used (h.next mem) = false
  · rw [if_pos hfree, move_lfree]
    obtain ⟨y, rest, rfl, hy⟩ : ∃ y rest, post = y :: rest ∧ y.used = false := by
      cases post with
      | nil => exact absurd (hused.symm.trans hfree) Bool.false_ne_true.symm
      | cons y rest => exact ⟨y, rest, rfl, hused.symm.trans hfree⟩
    exact .inr ⟨rfl, _, _, trim_moves hh hy hmem hptr (by omega) (by omega) (by omega)⟩
  · rw [if_neg hfree]
    by_cases hcut : want + sizeofStructMem + minSizeAligned ≤ h.next mem - mem - sizeofStructMem
    · rw [if_pos hcut, move_lfree]
      have hfirst : ∀ y ∈ post.head?, y.used = true := by
        intro y hy
        rw [Option.mem_def.mp hy] at hused
        exact hused.symm.trans (by simpa using hfree)
      have hlong := hshort.mp hcut
      exact .inr ⟨rfl, _, _, trim_splits hh hfirst hmem hptr (by omega) (by omega) (by omega)⟩
    · rw [if_neg hcut]
      have hlong := mt hshort.mpr hcut
      exact .inr ⟨rfl, hsame (by omega)⟩

end Trim

end LogoCore.Lwip.Heap
