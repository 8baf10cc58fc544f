import LogoCore.MemHeapLinks

namespace LogoCore.Lwip.Heap

open ByteMemory BlockLayout

structure Chained (m : Memory) (l : List Block) : Prop where
  linked : Linked m 0 0 l
  sized : Sized l
  whole : total l = 65536
  ending : m 65544 ≠ 0

/-- Moreover `lfree` is the lowest free block. -/
structure Tiled (h : Heap) (l : List Block) : Prop extends Chained h.ram l where
  lfree : h.lfree.toNat = firstFree 0 l

variable {h : Heap} {mem : UInt32} {b x y : Block} {pre post l : List Block} {s n : ℕ}

theorem used_eq (hl : Linked h.ram 0 0 (pre ++ b :: post)) (hmem : mem.toNat = total pre) :
    h.used mem = b.used := by
  rw [used, hmem]
  exact ((linked_split pre (b :: post)).mp hl).2.2.2.1

theorem prev_eq (hl : Linked h.ram 0 0 (pre ++ b :: post)) (hmem : mem.toNat = total pre) :
    (h.prev mem).toNat = lastOffset 0 0 pre := by
  rw [prev, hmem]
  exact ((linked_split pre (b :: post)).mp hl).2.2.1

theorem Chained.pos {m : Memory} (h : Chained m l) : ∀ b ∈ l, 0 < b.size := fun b hb => by
  have := (h.sized b hb).1
  omega

theorem Tiled.used_end (ht : Tiled h l) {mem : UInt32} (hmem : mem.toNat = 65536) : h.used mem = true := by
  rw [used, hmem, bne_iff_ne]
  exact ht.ending

theorem lfree_free (ht : Tiled h (pre ++ b :: post)) (hb : b.used = false) :
    h.lfree.toNat ≤ total pre := by
  rw [ht.lfree]
  obtain hused | hfree := all_used_or_free pre
  · rw [firstFree_of_used hused, firstFree_cons_free hb, Nat.zero_add]
  · rw [firstFree_of_free hfree]
    have := firstFree_lt hfree (fun c hc => ht.pos c (List.mem_append_left _ hc)) 0
    omega

theorem Tiled.join (ht : Tiled h (pre ++ x :: y :: post)) (hx : x.used = false) (hmem : mem.toNat = total pre)
    {nmem : UInt32} (hnmem : nmem.toNat = total pre + x.size) :
    Tiled (h.join mem nmem) (pre ++ ⟨x.size + y.size, false⟩ :: post) := by
  have hlfree := lfree_free ht hx
  have hsize := ht.sized x (by simp)
  have htotal := ht.whole
  simp only [total_append, total_cons] at htotal
  refine ⟨⟨hx ▸ linked_join ht.linked ht.sized hmem hnmem, sized_join ht.sized _, ?_, ?_⟩, ?_⟩
  · simp only [total_append, total_cons]
    omega
  · rw [join_ram ht.linked ht.sized hmem hnmem, store32_of_apart _ (by omega), store32_of_apart _ (by omega)]
    exact ht.ending
  · have hother : h.lfree ≠ nmem := fun heq => by
      rw [heq] at hlfree
      omega
    have hkeep : (h.join mem nmem).lfree = h.lfree := by
      rw [Heap.join, if_neg hother]
      rfl
    rw [hkeep, ht.lfree]
    obtain hused | hfree := all_used_or_free pre
    · rw [firstFree_of_used hused, firstFree_of_used hused, firstFree_cons_free hx, firstFree_cons_free rfl]
    · rw [firstFree_of_free hfree, firstFree_of_free hfree]

theorem Chained.setUsed (hc : Chained h.ram (pre ++ b :: post)) (hmem : mem.toNat = total pre) (v : UInt8) :
    Chained (h.setUsed mem v).ram (pre ++ ⟨b.size, v != 0⟩ :: post) := by
  have hsize := hc.sized b (by simp)
  have hwhole := hc.whole
  simp only [total_append, total_cons] at hwhole
  refine ⟨linked_setUsed hc.linked hc.sized hmem v, ?_, ?_, ?_⟩
  · have := hc.sized
    simp only [sized_append, sized_cons] at this ⊢
    exact this
  · simp only [total_append, total_cons]
    exact hwhole
  · have hother : 65544 ≠ mem.toNat + 8 := by omega
    exact (store8_of_ne v hother).trans_ne hc.ending

theorem Tiled.unuse (ht : Tiled h (pre ++ ⟨s, true⟩ :: post)) (hmem : mem.toNat = total pre) :
    Tiled (if mem < (h.setUsed mem 0).lfree then { h.setUsed mem 0 with lfree := mem } else h.setUsed mem 0)
      (pre ++ ⟨s, false⟩ :: post) := by
  have hchained : Chained (h.setUsed mem 0).ram (pre ++ ⟨s, false⟩ :: post) := ht.toChained.setUsed hmem 0
  have hlow : h.lfree.toNat = firstFree 0 (pre ++ ⟨s, true⟩ :: post) := ht.lfree
  have hsame : (h.setUsed mem 0).lfree = h.lfree := rfl
  have hsize := (ht.sized ⟨s, true⟩ (by simp)).1
  dsimp only at hsize
  obtain hused | hfree := all_used_or_free pre
  · rw [firstFree_of_used hused, Nat.zero_add, firstFree_cons_used rfl] at hlow
    dsimp only at hlow
    have := le_firstFree (total pre + s) post
    rw [if_pos (by rw [UInt32.lt_iff_toNat_lt, hsame]; omega)]
    refine ⟨hchained, ?_⟩
    rw [firstFree_of_used hused, Nat.zero_add, firstFree_cons_free rfl]
    exact hmem
  · rw [firstFree_of_free hfree] at hlow
    have := firstFree_lt hfree (fun c hc => ht.pos c (List.mem_append_left _ hc)) 0
    rw [if_neg (by rw [UInt32.lt_iff_toNat_lt, hsame]; omega)]
    refine ⟨hchained, ?_⟩
    rw [firstFree_of_free hfree, hsame, hlow]

theorem Tiled.plugForward (ht : Tiled h (pre ++ b :: post)) (hb : b.used = false) (hmem : mem.toNat = total pre) :
    Tiled (h.plugForward mem) (pre ++ glue b post) ∧
      Preserved h.ram (h.plugForward mem).ram (pre ++ glue b post) := by
  have hnext : (h.next mem).toNat = total pre + b.size := next_eq ht.linked hmem
  have hsize := ht.sized b (by simp)
  have hmore : mem ≠ h.next mem := fun heq => by
    rw [← heq] at hnext
    omega
  have hwhole := ht.whole
  rw [total_append, total_cons] at hwhole
  rw [Heap.plugForward]
  cases post with
  | nil =>
    have hend := ht.used_end (hnext.trans (by rw [total_nil] at hwhole; omega))
    rw [if_neg (by rw [hend]; simp)]
    exact ⟨ht, fun _ _ _ _ _ => rfl⟩
  | cons y rest =>
    have hy := ht.sized y (by simp)
    have hlinked := ht.linked
    rw [List.append_cons] at hlinked
    have hused : h.used (h.next mem) = y.used := used_eq hlinked (by rw [hnext, total_append]; rfl)
    have hinside : h.next mem ≠ memSizeAligned := fun heq => by
      have hsize : memSizeAligned.toNat = 65536 := rfl
      rw [heq] at hnext
      rw [total_cons] at hwhole
      omega
    rw [hused, glue]
    cases hfree : y.used with
    | true =>
      rw [if_neg (by simp), if_pos (.inr rfl)]
      exact ⟨ht, fun _ _ _ _ _ => rfl⟩
    | false =>
      rw [if_pos ⟨hmore, rfl, hinside⟩, if_neg (by simp [hb])]
      exact ⟨ht.join hb hmem hnext, hb ▸ preserved_join ht.linked ht.sized hmem hnext⟩

theorem plugBackward_used (ht : Tiled h (pre ++ b :: post)) (hmem : mem.toNat = total pre)
    (hlast : ∀ x ∈ pre.getLast?, x.used = true) : h.plugBackward mem = h := by
  have hprev := prev_eq ht.linked hmem
  rw [Heap.plugBackward]
  obtain rfl | ⟨front, x, rfl⟩ := pre.eq_nil_or_concat'
  · exact if_neg fun hne => hne.1 (UInt32.toNat_inj.mp (hprev.trans hmem.symm))
  · rw [lastOffset_concat, Nat.zero_add] at hprev
    have hlinked := ht.linked
    rw [List.append_assoc] at hlinked
    have hused : h.used (h.prev mem) = x.used := used_eq hlinked hprev
    rw [hlast x (by simp)] at hused
    exact if_neg fun hne => Bool.false_ne_true (hne.2.symm.trans hused)

theorem Tiled.plugBackward (ht : Tiled h (pre ++ x :: b :: post)) (hx : x.used = false)
    (hmem : mem.toNat = total pre + x.size) :
    Tiled (h.plugBackward mem) (pre ++ ⟨x.size + b.size, false⟩ :: post) ∧
      Preserved h.ram (h.plugBackward mem).ram (pre ++ ⟨x.size + b.size, false⟩ :: post) := by
  have hlinked := ht.linked
  rw [List.append_cons] at hlinked
  have hprev : (h.prev mem).toNat = total pre := by
    rw [prev_eq hlinked (by rw [hmem, total_append]; rfl), lastOffset_concat, Nat.zero_add]
  have hsize := ht.sized x (by simp)
  have hother : h.prev mem ≠ mem := fun heq => by
    rw [heq] at hprev
    omega
  rw [Heap.plugBackward, if_pos ⟨hother, (used_eq ht.linked hprev).trans hx⟩]
  exact ⟨ht.join hx hprev hmem, hx ▸ preserved_join ht.linked ht.sized hprev hmem⟩

theorem Tiled.plugHoles (ht : Tiled h (pre ++ b :: post)) (hb : b.used = false) (hmem : mem.toNat = total pre)
    (hpre : Coalesced pre) (hpost : Coalesced post) :
    Tiled (h.plugHoles mem) (coalesce (pre ++ b :: post)) ∧
      Preserved h.ram (h.plugHoles mem).ram (coalesce (pre ++ b :: post)) := by
  obtain ⟨hforward, hkept⟩ := ht.plugForward hb hmem
  obtain ⟨q, qs, hglue, hq, -⟩ := glue_free hb post
  have hrest : coalesce (b :: post) = q :: qs := by rw [coalesce, coalesce_of_coalesced hpost, hglue]
  rw [hglue] at hforward hkept
  rw [Heap.plugHoles]
  by_cases hlast : ∀ x ∈ pre.getLast?, x.used = true
  · rw [coalesce_append hpre hlast, hrest, plugBackward_used hforward hmem hlast]
    exact ⟨hforward, hkept⟩
  · obtain ⟨front, x, rfl⟩ : ∃ front x, pre = front ++ [x] := by
      obtain rfl | ⟨front, x, rfl⟩ := pre.eq_nil_or_concat'
      · exact absurd (fun x hx => absurd hx (by simp)) hlast
      · exact ⟨front, x, rfl⟩
    have hx : x.used = false := by
      cases hu : x.used with
      | false => rfl
      | true =>
        refine absurd (fun y hy => ?_) hlast
        rw [List.getLast?_concat, Option.mem_some_iff] at hy
        rw [← hy, hu]
    obtain ⟨hfront, -, hseam⟩ := List.isChain_append.mp hpre
    have hfrontLast : ∀ y ∈ front.getLast?, y.used = true := fun y hy =>
      (hseam y hy x (by simp)).resolve_right (by rw [hx]; exact Bool.false_ne_true)
    have hresult : coalesce (front ++ [x] ++ b :: post) = front ++ ⟨x.size + q.size, false⟩ :: qs := by
      rw [List.append_assoc, coalesce_append hfront hfrontLast, List.singleton_append, coalesce, hrest, glue,
        if_neg (by simp [hx, hq])]
    rw [List.append_assoc] at hforward hkept
    rw [total_append] at hmem
    obtain ⟨hbackward, hkept'⟩ := hforward.plugBackward hx hmem
    rw [hresult]
    refine ⟨hbackward, Preserved.trans (hkept.congr ?_) hkept'⟩
    rw [extents_append, extents_append]
    simp [extents, hx, hq, Nat.add_assoc]

end LogoCore.Lwip.Heap
