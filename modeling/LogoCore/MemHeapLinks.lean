import LogoCore.BlockLayout
import LogoCore.MemHeap

namespace LogoCore.Lwip.Heap

open ByteMemory BlockLayout

variable {m m' : Memory} {p o k n : ℕ} {b : Block} {l l' pre post : List Block}

def Linked (m : Memory) : ℕ → ℕ → List Block → Prop
  | _, _, [] => True
  | p, o, b :: rest =>
    (load32 m o).toNat = o + b.size ∧ (load32 m (o + 4)).toNat = p ∧ (m (o + 8) != 0) = b.used ∧
      Linked m o (o + b.size) rest

def lastOffset : ℕ → ℕ → List Block → ℕ
  | p, _, [] => p
  | _, o, b :: rest => lastOffset o (o + b.size) rest

theorem linked_append (p o : ℕ) (l l' : List Block) :
    Linked m p o (l ++ l') ↔ Linked m p o l ∧ Linked m (lastOffset p o l) (o + total l) l' := by
  induction l generalizing p o with
  | nil => exact (true_and _).symm ▸ Iff.rfl
  | cons b rest ih =>
    rw [List.cons_append, Linked, ih, Linked, lastOffset, total_cons, Nat.add_assoc]
    tauto

theorem lastOffset_concat (p o : ℕ) (l : List Block) (b : Block) : lastOffset p o (l ++ [b]) = o + total l := by
  induction l generalizing p o with
  | nil => rfl
  | cons c rest ih => rw [List.cons_append, lastOffset, ih, total_cons, Nat.add_assoc]

def offsets : ℕ → List Block → List ℕ
  | _, [] => []
  | o, b :: rest => o :: offsets (o + b.size) rest

theorem Linked.transport (h : Linked m p o l) (hsame : ∀ x ∈ offsets o l, ∀ i < 12, m' (x + i) = m (x + i)) :
    Linked m' p o l := by
  induction l generalizing p o with
  | nil => trivial
  | cons b rest ih =>
    obtain ⟨hnext, hprev, hused, hrest⟩ := h
    have hhead := hsame o List.mem_cons_self
    have hword : ∀ i < 4, m' (o + 4 + i) = m (o + 4 + i) := by
      intro i hi
      rw [Nat.add_assoc]
      exact hhead (4 + i) (by omega)
    refine ⟨?_, ?_, ?_, ih hrest fun x hx => hsame x (List.mem_cons_of_mem _ hx)⟩
    · rw [load32_congr fun i hi => hhead i (by omega), hnext]
    · rw [load32_congr hword, hprev]
    · rw [hhead 8 (by decide), hused]

def Sized (l : List Block) : Prop := ∀ b ∈ l, 24 ≤ b.size ∧ 4 ∣ b.size

theorem offsets_bounds (hs : Sized l) {x : ℕ} (hx : x ∈ offsets o l) : o ≤ x ∧ x + 24 ≤ o + total l := by
  induction l generalizing o with
  | nil => exact absurd hx List.not_mem_nil
  | cons b rest ih =>
    have hb := (hs b List.mem_cons_self).1
    rw [total_cons]
    obtain rfl | hrest := List.mem_cons.mp hx
    · omega
    · have := ih (fun c hc => hs c (List.mem_cons_of_mem _ hc)) hrest
      omega

theorem Linked.frame (h : Linked m p o l) (hs : Sized l) (hsame : ∀ a, o ≤ a → a < o + total l → m' a = m a) :
    Linked m' p o l := by
  refine h.transport fun x hx i hi => ?_
  obtain ⟨hlow, hhigh⟩ := offsets_bounds hs hx
  exact hsame _ (by omega) (by omega)

theorem Linked.relink (h : Linked m p o l) (hs : Sized l) (v : UInt32) :
    Linked (store32 m (o + 4) v) v.toNat o l := by
  cases l with
  | nil => trivial
  | cons b rest =>
    obtain ⟨hnext, -, hused, hrest⟩ := h
    have hb := (hs b List.mem_cons_self).1
    refine ⟨?_, ?_, ?_, ?_⟩
    · rw [load32_store32_of_apart _ (by omega), hnext]
    · rw [load32_store32]
    · rw [store32_of_apart _ (by omega), hused]
    · exact hrest.frame (fun c hc => hs c (List.mem_cons_of_mem _ hc)) fun a ha _ => store32_of_apart _ (by omega)

/-- What the owners of the blocks stored in them is still there. -/
def Preserved (m m' : Memory) (l : List Block) : Prop :=
  ∀ x ∈ extents true 0 l, ∀ a, x.1 + 12 ≤ a → a < x.1 + x.2 → m' a = m a

theorem Preserved.trans {m'' : Memory} (h : Preserved m m' l) (h' : Preserved m' m'' l) : Preserved m m'' l :=
  fun x hx a ha ha' => (h' x hx a ha ha').trans (h x hx a ha ha')

theorem Preserved.congr (h : Preserved m m' l) (hlive : extents true 0 l' = extents true 0 l) :
    Preserved m m' l' := by
  rw [Preserved, hlive]
  exact h

theorem preserved_header (hs : Sized (pre ++ b :: post))
    (hsame : ∀ a, a < total pre ∨ total pre + 12 ≤ a → m' a = m a) : Preserved m m' (pre ++ b :: post) := by
  intro x hx a ha ha'
  have hb := (hs b (by simp)).1
  rw [extents_append, Nat.zero_add] at hx
  obtain hpre | hrest := List.mem_append.mp hx
  · have := (extents_bounds hpre).2
    exact hsame a (.inl (by omega))
  · rw [extents] at hrest
    have hlater (hpost : x ∈ extents true (total pre + b.size) post) : m' a = m a := by
      have := (extents_bounds hpost).1
      exact hsame a (.inr (by omega))
    split_ifs at hrest
    · obtain rfl | hpost := List.mem_cons.mp hrest
      · exact hsame a (.inr ha)
      · exact hlater hpost
    · exact hlater hrest

theorem preserved_prev (hs : Sized (pre ++ post)) (v : UInt32) :
    Preserved m (store32 m (total pre + 4) v) (pre ++ post) := by
  cases post with
  | nil =>
    intro x hx a _ ha'
    rw [List.append_nil] at hx
    have := (extents_bounds hx).2
    exact store32_of_apart _ (by omega)
  | cons b rest => exact preserved_header hs fun a ha => store32_of_apart _ (by omega)

theorem sized_append : Sized (l ++ l') ↔ Sized l ∧ Sized l' := by
  simp only [Sized, List.mem_append]
  exact ⟨fun h => ⟨fun b hb => h b (.inl hb), fun b hb => h b (.inr hb)⟩, fun h b hb => hb.elim (h.1 b) (h.2 b)⟩

theorem sized_cons : Sized (b :: l) ↔ (24 ≤ b.size ∧ 4 ∣ b.size) ∧ Sized l := List.forall_mem_cons

theorem dvd_total (hs : Sized l) : 4 ∣ total l := by
  induction l with
  | nil => exact Nat.dvd_zero 4
  | cons b rest ih =>
    obtain ⟨hb, hrest⟩ := sized_cons.mp hs
    exact Nat.dvd_add hb.2 (ih hrest)

theorem eq_nil_of_total (hs : Sized l) (h : total l = 0) : l = [] := by
  cases l with
  | nil => rfl
  | cons b rest =>
    have := (hs b List.mem_cons_self).1
    rw [total_cons] at h
    omega

theorem linked_split (pre post : List Block) :
    Linked m 0 0 (pre ++ post) ↔ Linked m 0 0 pre ∧ Linked m (lastOffset 0 0 pre) (total pre) post := by
  rw [linked_append, Nat.zero_add]

theorem Linked.before (h : Linked m 0 0 (pre ++ post)) (hs : Sized (pre ++ post))
    (hsame : ∀ a < total pre, m' a = m a) : Linked m' 0 0 pre :=
  ((linked_split pre post).mp h).1.frame (sized_append.mp hs).1 fun a _ ha => hsame a (by omega)

variable {h : Heap} {mem : UInt32}

theorem linked_setUsed (hl : Linked h.ram 0 0 (pre ++ b :: post)) (hs : Sized (pre ++ b :: post))
    (hmem : mem.toNat = total pre) (v : UInt8) :
    Linked (h.setUsed mem v).ram 0 0 (pre ++ ⟨b.size, v != 0⟩ :: post) := by
  obtain ⟨-, hnext, hprev, -, hpost⟩ := (linked_split pre (b :: post)).mp hl
  have hsize := sized_cons.mp (sized_append.mp hs).2
  have hram : (h.setUsed mem v).ram = store8 h.ram (total pre + 8) v := by rw [setUsed, hmem]
  rw [linked_split, hram]
  refine ⟨hl.before hs fun a ha => store8_of_ne _ (by omega), ?_, ?_, ?_, ?_⟩
  · rw [load32_congr fun i hi => store8_of_ne _ (by omega), hnext]
  · rw [load32_congr fun i hi => store8_of_ne _ (by omega), hprev]
  · rw [store8_same]
  · exact hpost.frame hsize.2 fun a ha _ => store8_of_ne _ (by omega)

theorem preserved_setUsed (hs : Sized (pre ++ b :: post)) (hmem : mem.toNat = total pre) (v : UInt8) :
    Preserved h.ram (h.setUsed mem v).ram (pre ++ b :: post) := by
  refine preserved_header hs fun a ha => ?_
  have hother : a ≠ mem.toNat + 8 := by omega
  exact store8_of_ne v hother

section Join

variable {x y : Block} {nmem : UInt32}

theorem next_eq (hl : Linked h.ram 0 0 (pre ++ b :: post)) (hmem : mem.toNat = total pre) :
    (h.next mem).toNat = total pre + b.size := by
  rw [next, hmem]
  exact ((linked_split pre (b :: post)).mp hl).2.1

theorem join_ram (hl : Linked h.ram 0 0 (pre ++ x :: y :: post)) (hs : Sized (pre ++ x :: y :: post))
    (hmem : mem.toNat = total pre) (hnmem : nmem.toNat = total pre + x.size) :
    (h.join mem nmem).ram =
      store32 (store32 h.ram (total pre) (h.next nmem)) (total pre + (x.size + y.size) + 4) mem := by
  have hx := (sized_cons.mp (sized_append.mp hs).2).1
  have hy : (h.next nmem).toNat = total pre + (x.size + y.size) := by
    rw [List.append_cons] at hl
    rw [next_eq hl (by rw [hnmem]; simp), total_append, total_cons, total_nil]
    omega
  have hsame : load32 (store32 h.ram (total pre) (h.next nmem)) nmem.toNat = h.next nmem := by
    rw [load32_store32_of_apart _ (by omega)]
    rfl
  have hjoin : (h.join mem nmem).ram = store32 (store32 h.ram mem.toNat (h.next nmem))
      ((load32 (store32 h.ram mem.toNat (h.next nmem)) nmem.toNat).toNat + 4) mem := by
    rw [join]
    split_ifs
    · rfl
    · rfl
  rw [hjoin, hmem, hsame, hy]

theorem linked_join (hl : Linked h.ram 0 0 (pre ++ x :: y :: post)) (hs : Sized (pre ++ x :: y :: post))
    (hmem : mem.toNat = total pre) (hnmem : nmem.toNat = total pre + x.size) :
    Linked (h.join mem nmem).ram 0 0 (pre ++ ⟨x.size + y.size, x.used⟩ :: post) := by
  rw [join_ram hl hs hmem hnmem]
  obtain ⟨-, -, hprev, hused, hnext, -, -, hpost⟩ := (linked_split pre (x :: y :: post)).mp hl
  obtain ⟨hx, hsize⟩ := sized_cons.mp (sized_append.mp hs).2
  obtain ⟨hy, hsize⟩ := sized_cons.mp hsize
  have hnext' : (h.next nmem).toNat = total pre + (x.size + y.size) := by
    rw [next, hnmem, hnext, Nat.add_assoc]
  rw [linked_split]
  refine ⟨hl.before hs fun a ha => ?_, ?_, ?_, ?_, ?_⟩
  · rw [store32_of_apart _ (by omega), store32_of_apart _ (by omega)]
  · rw [load32_store32_of_apart _ (by omega), load32_store32, hnext']
  · rw [load32_store32_of_apart _ (by omega), load32_store32_of_apart _ (by omega), hprev]
  · rw [store32_of_apart _ (by omega), store32_of_apart _ (by omega), hused]
  · rw [Nat.add_assoc] at hpost
    have hframe : Linked (store32 h.ram (total pre) (h.next nmem)) (total pre + x.size)
        (total pre + (x.size + y.size)) post := hpost.frame hsize fun a ha _ => store32_of_apart _ (by omega)
    exact hmem ▸ hframe.relink hsize mem

theorem sized_join (hs : Sized (pre ++ x :: y :: post)) (u : Bool) :
    Sized (pre ++ ⟨x.size + y.size, u⟩ :: post) := by
  simp only [sized_append, sized_cons] at hs ⊢
  exact ⟨hs.1, ⟨by omega, (Nat.dvd_add_right hs.2.1.2).mpr hs.2.2.1.2⟩, hs.2.2.2⟩

theorem preserved_join (hl : Linked h.ram 0 0 (pre ++ x :: y :: post)) (hs : Sized (pre ++ x :: y :: post))
    (hmem : mem.toNat = total pre) (hnmem : nmem.toNat = total pre + x.size) :
    Preserved h.ram (h.join mem nmem).ram (pre ++ ⟨x.size + y.size, x.used⟩ :: post) := by
  rw [join_ram hl hs hmem hnmem]
  have hs' := sized_join hs x.used
  have hnext : Preserved h.ram (store32 h.ram (total pre) (h.next nmem)) (pre ++ ⟨x.size + y.size, x.used⟩ :: post) :=
    preserved_header hs' fun a ha => store32_of_apart _ (by omega)
  refine hnext.trans ?_
  rw [List.append_cons] at hs' ⊢
  have := @preserved_prev (store32 h.ram (total pre) (h.next nmem)) _ _ hs' mem
  rwa [total_append, total_cons, total_nil, Nat.add_zero] at this

end Join

section Insert

variable {ptr2 nxt : UInt32} {n size : ℕ} {u : Bool}

structure Inserted (m m' : Memory) (k n size : ℕ) : Prop where
  next : (load32 m' k).toNat = k + n
  prev : load32 m' (k + 4) = load32 m (k + 4)
  used : m' (k + 8) = m (k + 8)
  nextFree : (load32 m' (k + n)).toNat = k + size
  prevFree : (load32 m' (k + n + 4)).toNat = k
  usedFree : m' (k + n + 8) = 0
  others : ∀ a, a < k ∨ k + 12 ≤ a → a < k + n ∨ k + n + 12 ≤ a → a < k + size + 4 ∨ k + size + 8 ≤ a → m' a = m a

theorem insertFree_inserted (hmem : mem.toNat = k) (hptr : ptr2.toNat = k + n) (hnxt : nxt.toNat = k + size)
    (hn : 24 ≤ n) (hsize : n + 24 ≤ size) :
    Inserted h.ram (h.insertFree mem ptr2 nxt).ram k n size ∧
      (nxt ≠ memSizeAligned → (load32 (h.insertFree mem ptr2 nxt).ram (k + size + 4)).toNat = k + n) := by
  have hram : (((h.setUsed ptr2 0).setNext ptr2 nxt).setPrev ptr2 mem).setNext mem ptr2 =
      ⟨store32 (store32 (store32 (store8 h.ram (k + n + 8) 0) (k + n) nxt) (k + n + 4) mem) k ptr2, h.lfree⟩ := by
    simp only [setUsed, setNext, setPrev, hmem, hptr]
  rw [insertFree, hram]
  generalize hm : store32 (store32 (store32 (store8 h.ram (k + n + 8) 0) (k + n) nxt) (k + n + 4) mem) k ptr2 = m
  have hother : ∀ a, a < k ∨ k + 4 ≤ a → a < k + n ∨ k + n + 9 ≤ a → m a = h.ram a := by
    intro a ha ha'
    rw [← hm, store32_of_apart _ (by omega), store32_of_apart _ (by omega), store32_of_apart _ (by omega),
      store8_of_ne _ (by omega)]
  have hnext : load32 m (k + n) = nxt := by
    rw [← hm, load32_store32_of_apart _ (by omega), load32_store32_of_apart _ (by omega), load32_store32]
  have hinserted : Inserted h.ram m k n size := by
    refine ⟨?_, ?_, ?_, ?_, ?_, ?_, ?_⟩
    · rw [← hm, load32_store32, hptr]
    · exact load32_congr fun i hi => hother _ (by omega) (by omega)
    · exact hother _ (by omega) (by omega)
    · rw [hnext, hnxt]
    · rw [← hm, load32_store32_of_apart _ (by omega), load32_store32, hmem]
    · rw [← hm, store32_of_apart _ (by omega), store32_of_apart _ (by omega), store32_of_apart _ (by omega),
        store8_same]
    · exact fun a ha ha' _ => hother a (by omega) (by omega)
  have hread : Heap.next ⟨m, h.lfree⟩ ptr2 = nxt := by rw [Heap.next, hptr, hnext]
  rw [hread]
  by_cases hlast : nxt = memSizeAligned
  · rw [if_neg (not_not.mpr hlast)]
    exact ⟨hinserted, fun h => absurd hlast h⟩
  · rw [if_pos hlast, setPrev, hnxt]
    dsimp only
    have hsame : ∀ a, a < k + size + 4 ∨ k + size + 8 ≤ a → store32 m (k + size + 4) ptr2 a = m a :=
      fun a ha => store32_of_apart _ (by omega)
    refine ⟨⟨?_, ?_, ?_, ?_, ?_, ?_, ?_⟩, fun _ => ?_⟩
    · rw [load32_congr fun i hi => hsame _ (by omega), hinserted.next]
    · rw [load32_congr fun i hi => hsame _ (by omega), hinserted.prev]
    · rw [hsame _ (by omega), hinserted.used]
    · rw [load32_congr fun i hi => hsame _ (by omega), hinserted.nextFree]
    · rw [load32_congr fun i hi => hsame _ (by omega), hinserted.prevFree]
    · rw [hsame _ (by omega), hinserted.usedFree]
    · exact fun a ha ha' hout => (hsame a hout).trans (hinserted.others a ha ha' hout)
    · rw [load32_store32, hptr]

theorem linked_insertFree (hpre : Linked h.ram 0 0 pre)
    (hprev : (load32 h.ram (total pre + 4)).toNat = lastOffset 0 0 pre)
    (hpost : Linked h.ram p (total pre + size) post) (hend : nxt = memSizeAligned → post = [])
    (hs : Sized pre) (hs' : Sized post) (hmem : mem.toNat = total pre) (hptr : ptr2.toNat = total pre + n)
    (hnxt : nxt.toNat = total pre + size) (hn : 24 ≤ n) (hsize : n + 24 ≤ size) :
    Linked (h.insertFree mem ptr2 nxt).ram 0 0
      (pre ++ ⟨n, h.used mem⟩ :: ⟨size - n, false⟩ :: post) := by
  obtain ⟨hinserted, hback⟩ := @insertFree_inserted _ h mem ptr2 nxt n size hmem hptr hnxt hn hsize
  have hstop : total pre + n + (size - n) = total pre + size := by omega
  rw [linked_split]
  refine ⟨hpre.frame hs fun a _ ha => hinserted.others a (by omega) (by omega) (by omega), hinserted.next, ?_, ?_,
    ?_, hinserted.prevFree, ?_, ?_⟩
  · rw [hinserted.prev, hprev]
  · rw [hinserted.used, Heap.used, hmem]
  · rw [hinserted.nextFree, hstop]
  · rw [hinserted.usedFree]
    rfl
  · dsimp only
    rw [hstop]
    cases post with
    | nil => trivial
    | cons b rest =>
      obtain ⟨hnext, -, hused, hrest⟩ := hpost
      obtain ⟨hb, hrests⟩ := sized_cons.mp hs'
      have hsame : ∀ a, total pre + size + 8 ≤ a → (h.insertFree mem ptr2 nxt).ram a = h.ram a :=
        fun a ha => hinserted.others a (by omega) (by omega) (by omega)
      refine ⟨?_, hback fun hlast => absurd (hend hlast) (List.cons_ne_nil _ _), ?_, ?_⟩
      · rw [load32_congr fun i hi => hinserted.others _ (by omega) (by omega) (by omega), hnext]
      · rw [hsame _ (by omega), hused]
      · exact hrest.frame hrests fun a ha _ => hsame a (by omega)

theorem preserved_insertFree (u : Bool) (hmem : mem.toNat = total pre) (hptr : ptr2.toNat = total pre + n)
    (hnxt : nxt.toNat = total pre + size) (hn : 24 ≤ n) (hsize : n + 24 ≤ size) (post : List Block) :
    Preserved h.ram (h.insertFree mem ptr2 nxt).ram (pre ++ ⟨n, u⟩ :: ⟨size - n, false⟩ :: post) := by
  have hinserted := (@insertFree_inserted _ h mem ptr2 nxt n size hmem hptr hnxt hn hsize).1
  intro x hx a ha ha'
  rw [extents_append, Nat.zero_add] at hx
  obtain hpre | hrest := List.mem_append.mp hx
  · have := (extents_bounds hpre).2
    exact hinserted.others a (by omega) (by omega) (by omega)
  · have hlater (hpost : x ∈ extents true (total pre + n + (size - n)) post) :
        (h.insertFree mem ptr2 nxt).ram a = h.ram a := by
      have := (extents_bounds hpost).1
      exact hinserted.others a (by omega) (by omega) (by omega)
    rw [extents, extents, if_neg Bool.false_ne_true] at hrest
    split_ifs at hrest
    · obtain rfl | hpost := List.mem_cons.mp hrest
      · dsimp only at ha ha'
        exact hinserted.others a (by omega) (by omega) (by omega)
      · exact hlater hpost
    · exact hlater hrest

end Insert

end LogoCore.Lwip.Heap
