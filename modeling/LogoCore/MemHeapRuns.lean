import LogoCore.MemHeapSearch

namespace LogoCore.Lwip

open ByteMemory BlockLayout Heap

/-- Memory that a caller of `mem_malloc` holds, and what it stored there. -/
structure Owned where
  ptr : UInt32
  data : List UInt8

structure HeapUse where
  heap : Heap
  owned : List Owned

inductive HeapEvent where
  | malloc (size : UInt32)
  | free (ptr : UInt32)
  | trim (ptr newsize : UInt32)
  | store (ptr : UInt32) (i : ℕ) (v : UInt8)

def heapStep (w : HeapUse) : HeapEvent → HeapUse
  | .malloc size =>
    match w.heap.memMalloc size with
    | some ⟨heap, some rmem⟩ => ⟨heap, ⟨rmem, bytes heap.ram rmem.toNat size.toNat⟩ :: w.owned⟩
    | some ⟨heap, none⟩ => { w with heap := heap }
    | none => w
  | .free ptr => ⟨w.heap.memFree (some ptr), w.owned.filter fun a => a.ptr != ptr⟩
  | .trim ptr newsize =>
    let t := w.heap.memTrim ptr newsize
    if t.rmem.isSome then
      ⟨t.heap, w.owned.map fun a => if a.ptr = ptr then { a with data := a.data.take newsize.toNat } else a⟩
    else { w with heap := t.heap }
  | .store ptr i v =>
    ⟨{ w.heap with ram := store8 w.heap.ram (ptr.toNat + i) v },
      w.owned.map fun a => if a.ptr = ptr then { a with data := a.data.set i v } else a⟩

/-- The callers of the heap use what they own, and ask for less than four gigabytes. -/
def heapMachine : Machine HeapUse HeapEvent where
  enabled w e :=
    match e with
    | .malloc size => size.toNat + 3 < 2 ^ 32
    | .free ptr => ∃ a ∈ w.owned, a.ptr = ptr
    | .trim ptr newsize => (∃ a ∈ w.owned, a.ptr = ptr) ∧ newsize.toNat + 3 < 2 ^ 32
    | .store ptr i _ => ∃ a ∈ w.owned, a.ptr = ptr ∧ i < a.data.length
  step := heapStep

instance (w : HeapUse) (e : HeapEvent) : Decidable (heapMachine.enabled w e) :=
  match e with
  | .malloc size => inferInstanceAs (Decidable (size.toNat + 3 < 2 ^ 32))
  | .free ptr => inferInstanceAs (Decidable (∃ a ∈ w.owned, a.ptr = ptr))
  | .trim ptr newsize => inferInstanceAs (Decidable ((∃ a ∈ w.owned, a.ptr = ptr) ∧ newsize.toNat + 3 < 2 ^ 32))
  | .store ptr i _ => inferInstanceAs (Decidable (∃ a ∈ w.owned, a.ptr = ptr ∧ i < a.data.length))

def Owned.In (m : Memory) (l : List Block) (a : Owned) : Prop :=
  ∃ s, a.data.length + 12 ≤ s ∧ 12 ≤ a.ptr.toNat ∧ (a.ptr.toNat - 12, s) ∈ extents true 0 l ∧
    bytes m a.ptr.toNat a.data.length = a.data

structure Accounted (w : HeapUse) (l : List Block) : Prop where
  holds : Holds w.heap l
  owned : ∀ a ∈ w.owned, a.In w.heap.ram l
  used : ∀ x ∈ extents true 0 l, ∃ a ∈ w.owned, a.ptr.toNat = x.1 + 12
  apart : w.owned.Pairwise fun a b => a.ptr ≠ b.ptr

theorem memInit_holds (ram : Memory) : Holds (memInit ram) [⟨65536, false⟩] := by
  have hzero : (0 : UInt32).toNat = 0 := rfl
  have hram : (memInit ram).ram = store32 (store32 (store8 (store8 (store32 (store32 ram 0 memSizeAligned) 4 0) 8 0)
      65544 1) 65536 memSizeAligned) 65540 memSizeAligned := rfl
  have hlow (a : ℕ) (ha : a < 65536) : (memInit ram).ram a =
      store8 (store32 (store32 ram 0 memSizeAligned) 4 0) 8 0 a := by
    rw [hram, store32_of_apart _ (by omega), store32_of_apart _ (by omega), store8_of_ne _ (by omega)]
  refine ⟨⟨⟨⟨?_, ?_, ?_, trivial⟩, ?_, rfl, ?_⟩, rfl⟩, List.isChain_singleton _⟩
  · rw [load32_congr fun i hi => hlow _ (by omega), load32_congr fun i hi => store8_of_ne _ (by omega),
      load32_store32_of_apart _ (by omega), load32_store32]
    rfl
  · rw [load32_congr fun i hi => hlow _ (by omega), load32_congr fun i hi => store8_of_ne _ (by omega),
      load32_store32, hzero]
  · rw [hlow _ (by omega), store8_same]
    rfl
  · intro b hb
    rw [List.mem_singleton.mp hb]
    decide
  · rw [hram, store32_of_apart _ (by omega), store32_of_apart _ (by omega), store8_same]
    decide

variable {m m' : Memory} {l l' pre post : List Block} {a : Owned} {w : HeapUse} {s n : ℕ}

theorem Owned.In.mono (h : a.In m l) (hlive : ∀ s, (a.ptr.toNat - 12, s) ∈ extents true 0 l →
    (a.ptr.toNat - 12, s) ∈ extents true 0 l') (hkept : Preserved m m' l') : a.In m' l' := by
  obtain ⟨s, hlen, hlow, hmem, hdata⟩ := h
  have hmem' := hlive s hmem
  refine ⟨s, hlen, hlow, hmem', (bytes_congr fun i hi => hkept _ hmem' _ ?_ ?_).trans hdata⟩
  · dsimp only
    omega
  · dsimp only
    omega

theorem Owned.In.split (h : a.In m l) :
    ∃ pre s post, l = pre ++ ⟨s, true⟩ :: post ∧ a.ptr.toNat = total pre + 12 ∧ a.data.length + 12 ≤ s := by
  obtain ⟨s, hlen, hlow, hmem, -⟩ := h
  obtain ⟨pre, post, hl, hk⟩ := exists_split_of_mem hmem
  exact ⟨pre, s, post, hl, by omega, hlen⟩

theorem Accounted.free (h : Accounted w l) {ptr : UInt32} (hptr : ∃ a ∈ w.owned, a.ptr = ptr) :
    ∃ l', Accounted (heapStep w (.free ptr)) l' := by
  obtain ⟨a, ha, rfl⟩ := hptr
  obtain ⟨pre, s, post, rfl, hat, -⟩ := (h.owned a ha).split
  obtain ⟨hholds, hkept⟩ := memFree_holds h.holds hat
  have hlive := live_split pre post s
  have hlive' : extents true 0 (coalesce (pre ++ ⟨s, false⟩ :: post)) =
      extents true 0 pre ++ extents true (total pre + s) post := by rw [live_coalesce, live_split_free]
  refine ⟨_, hholds, fun b hb => ?_, fun x hx => ?_, h.apart.filter _⟩
  · obtain ⟨hb, hne⟩ := List.mem_filter.mp hb
    refine (h.owned b hb).mono (fun s' hs' => ?_) hkept
    obtain ⟨-, -, hlow, -⟩ := h.owned b hb
    rw [hlive, List.mem_append, List.mem_cons] at hs'
    rw [hlive', List.mem_append]
    obtain hpre | heq | hpost := hs'
    · exact .inl hpre
    · have hsame : b.ptr = a.ptr := UInt32.toNat_inj.mp (by
        have := (Prod.mk.inj heq).1
        omega)
      exact absurd hsame (bne_iff_ne.mp hne)
    · exact .inr hpost
  · rw [hlive', List.mem_append] at hx
    obtain ⟨b, hb, hat'⟩ := h.used x (by
      rw [hlive, List.mem_append, List.mem_cons]
      exact hx.imp_right .inr)
    refine ⟨b, List.mem_filter.mpr ⟨hb, bne_iff_ne.mpr fun heq => ?_⟩, hat'⟩
    have hne := extents_ne (fun c hc => h.holds.tiled.pos c (List.mem_append_left _ hc))
      (h.holds.tiled.pos ⟨s, true⟩ (by simp)) hx
    rw [heq] at hat'
    omega

theorem Accounted.trim (h : Accounted w l) {ptr newsize : UInt32} (hptr : ∃ a ∈ w.owned, a.ptr = ptr)
    (hnew : newsize.toNat + 3 < 2 ^ 32) : ∃ l', Accounted (heapStep w (.trim ptr newsize)) l' := by
  obtain ⟨a, ha, rfl⟩ := hptr
  obtain ⟨pre, s, post, rfl, hat, -⟩ := (h.owned a ha).split
  rw [heapStep]
  obtain ⟨-, hfail⟩ | ⟨hdone, rest, s', hcut⟩ := memTrim_cut h.holds hat hnew
  · rw [hfail]
    exact ⟨_, h⟩
  rw [hdone, Option.isSome_some, if_pos rfl]
  have hlive := live_split pre post s
  have hlive' := live_split pre rest s'
  rw [hcut.others] at hlive'
  have hpos : ∀ c ∈ pre, 0 < c.size := fun c hc => h.holds.tiled.pos c (List.mem_append_left _ hc)
  have hspos : 0 < s := h.holds.tiled.pos ⟨s, true⟩ (by simp)
  refine ⟨_, hcut.holds, fun b hb => ?_, fun x hx => ?_, ?_⟩
  · obtain ⟨c, hc, rfl⟩ := List.mem_map.mp hb
    obtain ⟨sc, hlen, hlow, hmem, hdata⟩ := h.owned c hc
    split_ifs with hsame
    · have hcat : c.ptr.toNat - 12 = total pre := by rw [hsame, hat]; omega
      have hlen' : (c.data.take newsize.toNat).length + 12 ≤ s' := by
        have hpad := le_padded newsize.toNat
        have henough := hcut.enough
        rw [List.length_take]
        omega
      have hmem' : (c.ptr.toNat - 12, s') ∈ extents true 0 (pre ++ ⟨s', true⟩ :: rest) := by
        rw [hlive', hcat]
        simp
      have htake : bytes w.heap.ram c.ptr.toNat (c.data.take newsize.toNat).length = c.data.take newsize.toNat := by
        rw [List.length_take, ← bytes_take, hdata]
      refine ⟨s', hlen', hlow, hmem', (bytes_congr fun i hi => hcut.kept _ hmem' _ ?_ ?_).trans htake⟩
      · dsimp only
        omega
      · dsimp only at hi ⊢
        omega
    · refine (h.owned c hc).mono (fun s'' hs => ?_) hcut.kept
      rw [hlive, List.mem_append, List.mem_cons] at hs
      rw [hlive', List.mem_append, List.mem_cons]
      obtain hpre | heq | hpost := hs
      · exact .inl hpre
      · have := (Prod.mk.inj heq).1
        exact absurd (UInt32.toNat_inj.mp (by omega)) hsame
      · exact .inr (.inr hpost)
  · obtain ⟨y, hy, hxy⟩ : ∃ y ∈ extents true 0 (pre ++ ⟨s, true⟩ :: post), y.1 = x.1 := by
      rw [hlive]
      rw [hlive', List.mem_append, List.mem_cons] at hx
      obtain hpre | rfl | hpost := hx
      · exact ⟨x, List.mem_append_left _ hpre, rfl⟩
      · exact ⟨(total pre, s), by simp, rfl⟩
      · exact ⟨x, List.mem_append_right _ (List.mem_cons_of_mem _ hpost), rfl⟩
    obtain ⟨b, hb, hbat⟩ := h.used y hy
    refine ⟨_, List.mem_map.mpr ⟨b, hb, rfl⟩, ?_⟩
    rw [← hxy, ← hbat]
    split_ifs
    · rfl
    · rfl
  · refine List.pairwise_map.mpr (h.apart.imp fun {b c} hne => ?_)
    split_ifs
    · exact hne
    · exact hne
    · exact hne
    · exact hne

theorem Accounted.malloc (h : Accounted w l) {size : UInt32} (hsize : size.toNat + 3 < 2 ^ 32) :
    ∃ l', Accounted (heapStep w (.malloc size)) l' := by
  rw [heapStep]
  by_cases hzero : size = 0
  · rw [memMalloc, if_pos hzero]
    exact ⟨l, h⟩
  obtain ⟨hfail, -⟩ | ⟨pre, s, post, heap, rmem, rest, s', rfl, hdone, hat, hcut⟩ :=
    memMalloc_cases h.holds hsize hzero
  · rw [hfail]
    exact ⟨l, h⟩
  rw [hdone]
  have hlive := live_split_free pre post s
  have hlive' := live_split pre rest s'
  rw [hcut.others] at hlive'
  have hmem : (rmem.toNat - 12, s') ∈ extents true 0 (pre ++ ⟨s', true⟩ :: rest) := by
    rw [hlive', hat]
    simp
  refine ⟨_, hcut.holds, fun b hb => ?_, fun x hx => ?_, List.pairwise_cons.mpr ⟨fun b hb heq => ?_, h.apart⟩⟩
  · obtain rfl | hb := List.mem_cons.mp hb
    · have hpad := le_padded size.toNat
      have henough := hcut.enough
      refine ⟨s', ?_, by dsimp only; omega, hmem, by rw [length_bytes]⟩
      rw [length_bytes]
      omega
    · refine (h.owned b hb).mono (fun s'' hs => ?_) hcut.kept
      rw [hlive, List.mem_append] at hs
      rw [hlive', List.mem_append, List.mem_cons]
      exact hs.imp_right .inr
  · rw [hlive', List.mem_append, List.mem_cons] at hx
    have hold (hx : x ∈ extents true 0 pre ∨ x ∈ extents true (total pre + s) post) :
        ∃ a ∈ w.owned, a.ptr.toNat = x.1 + 12 := h.used x (by rwa [hlive, List.mem_append])
    obtain hpre | rfl | hpost := hx
    · obtain ⟨b, hb, hbat⟩ := hold (.inl hpre)
      exact ⟨b, List.mem_cons_of_mem _ hb, hbat⟩
    · exact ⟨_, List.mem_cons_self, hat⟩
    · obtain ⟨b, hb, hbat⟩ := hold (.inr hpost)
      exact ⟨b, List.mem_cons_of_mem _ hb, hbat⟩
  · obtain ⟨s'', -, -, hs, -⟩ := h.owned b hb
    rw [hlive, List.mem_append, ← heq] at hs
    have hne := extents_ne (fun c hc => h.holds.tiled.pos c (List.mem_append_left _ hc))
      (h.holds.tiled.pos ⟨s, false⟩ (by simp)) hs
    dsimp only at hne
    omega

theorem holds_store {h : Heap} (hh : Holds h (pre ++ ⟨s, true⟩ :: post)) {i : ℕ} (hlow : 12 ≤ i) (hi : i < s)
    (v : UInt8) :
    Holds { h with ram := store8 h.ram (total pre + i) v } (pre ++ ⟨s, true⟩ :: post) := by
  have hwhole := hh.tiled.whole
  rw [total_append, total_cons] at hwhole
  dsimp only at hwhole
  obtain ⟨hspre, hs, hspost⟩ := (sized_append.mp hh.tiled.sized).imp_right sized_cons.mp
  obtain ⟨hpre, hnext, hprev, hused, hpost⟩ := (linked_split pre _).mp hh.tiled.linked
  refine ⟨⟨⟨(linked_split pre _).mpr ⟨?_, ?_, ?_, ?_, ?_⟩, hh.tiled.sized, hh.tiled.whole, ?_⟩, hh.tiled.lfree⟩,
    hh.coalesced⟩
  · exact hpre.frame hspre fun a _ ha => store8_of_ne _ (by omega)
  · rw [load32_congr fun j hj => store8_of_ne _ (by omega), hnext]
  · rw [load32_congr fun j hj => store8_of_ne _ (by omega), hprev]
  · dsimp only
    rw [store8_of_ne _ (by omega), hused]
  · exact hpost.frame hspost fun a ha _ => store8_of_ne _ (by dsimp only at ha; omega)
  · exact (store8_of_ne _ (by omega)).trans_ne hh.tiled.ending

theorem Accounted.store (h : Accounted w l) {ptr : UInt32} {i : ℕ}
    (hptr : ∃ a ∈ w.owned, a.ptr = ptr ∧ i < a.data.length) (v : UInt8) :
    Accounted (heapStep w (.store ptr i v)) l := by
  obtain ⟨a, ha, rfl, hi⟩ := hptr
  obtain ⟨pre, s, post, rfl, hat, hlen⟩ := (h.owned a ha).split
  have hholds := holds_store h.holds (Nat.le_add_right 12 i) (by omega : 12 + i < s) v
  rw [← Nat.add_assoc, ← hat] at hholds
  refine ⟨hholds, fun b hb => ?_, fun x hx => ?_, ?_⟩
  · obtain ⟨c, hc, rfl⟩ := List.mem_map.mp hb
    obtain ⟨sc, hlenc, hlow, hmem, hdata⟩ := h.owned c hc
    split_ifs with hsame
    · refine ⟨sc, by rwa [List.length_set], hlow, hmem, ?_⟩
      dsimp only
      rw [List.length_set, ← hsame, heapStep]
      dsimp only
      rw [bytes_store8, hdata]
    · refine ⟨sc, hlenc, hlow, hmem, Eq.trans (bytes_congr fun j hj => store8_of_ne _ fun heq => hsame ?_) hdata⟩
      obtain ⟨sa, hlena, hlowa, hmema, -⟩ := h.owned a ha
      by_contra hne
      have hoff : (c.ptr.toNat - 12, sc) ≠ (a.ptr.toNat - 12, sa) := fun heq' => by
        have := (Prod.mk.inj heq').1
        exact hne (UInt32.toNat_inj.mp (by omega))
      have := extents_disjoint hmem hmema hoff
      dsimp only at this
      omega
  · obtain ⟨b, hb, hbat⟩ := h.used x hx
    refine ⟨_, List.mem_map.mpr ⟨b, hb, rfl⟩, ?_⟩
    rw [← hbat]
    split_ifs
    · rfl
    · rfl
  · refine List.pairwise_map.mpr (h.apart.imp fun {b c} hne => ?_)
    split_ifs
    · exact hne
    · exact hne
    · exact hne
    · exact hne

theorem heapStep_accounted (w : HeapUse) (e : HeapEvent) (he : heapMachine.enabled w e) (h : ∃ l, Accounted w l) :
    ∃ l, Accounted (heapStep w e) l := by
  obtain ⟨l, h⟩ := h
  cases e with
  | malloc size => exact h.malloc he
  | free ptr => exact h.free he
  | trim ptr newsize => exact h.trim he.1 he.2
  | store ptr i v => exact ⟨l, h.store he v⟩

theorem run_accounted (ram : Memory) {es : List HeapEvent} (hes : heapMachine.Legal ⟨memInit ram, []⟩ es) :
    ∃ l, Accounted (heapMachine.run ⟨memInit ram, []⟩ es) l := by
  refine heapMachine.invariant (I := fun w => ∃ l, Accounted w l) heapStep_accounted ?_ hes
  refine ⟨_, memInit_holds ram, fun a ha => absurd ha List.not_mem_nil, fun x hx => ?_, List.Pairwise.nil⟩
  rw [extents, if_neg Bool.false_ne_true] at hx
  exact absurd hx List.not_mem_nil

theorem next_of_live {h : Heap} (hh : Holds h l) {x : ℕ × ℕ} (hx : x ∈ extents true 0 l) {ptr : UInt32}
    (hptr : ptr.toNat = x.1 + 12) : (h.next (ptr - sizeofStructMem)).toNat = x.1 + x.2 := by
  obtain ⟨pre, post, rfl, hk⟩ := exists_split_of_mem hx
  rw [Nat.zero_add] at hk
  rw [hk] at hptr ⊢
  exact Heap.next_eq hh.tiled.linked (toNat_sub_header hptr)

/-- Whatever is allocated, freed, trimmed and stored: memory that is owned is aligned and inside the heap, no two pieces
overlap, not even with a header, and each still holds what its owner stored there. -/
theorem allocations_intact (ram : Memory) (es : List HeapEvent) (hes : heapMachine.Legal ⟨memInit ram, []⟩ es) :
    let w := heapMachine.run ⟨memInit ram, []⟩ es
    (∀ a ∈ w.owned, 4 ∣ a.ptr.toNat ∧ a.ptr.toNat + a.data.length ≤ memSizeAligned.toNat ∧
      bytes w.heap.ram a.ptr.toNat a.data.length = a.data) ∧
      w.owned.Pairwise fun a b => a.ptr.toNat + a.data.length + sizeofStructMem.toNat ≤ b.ptr.toNat ∨
        b.ptr.toNat + b.data.length + sizeofStructMem.toNat ≤ a.ptr.toNat := by
  intro w
  obtain ⟨l, h⟩ := run_accounted ram hes
  have hwhole := h.holds.tiled.whole
  refine ⟨fun a ha => ?_, ?_⟩
  · obtain ⟨s, hlen, hlow, hmem, hdata⟩ := h.owned a ha
    obtain ⟨pre, post, rfl, hk⟩ := exists_split_of_mem hmem
    have hdvd := dvd_total (sized_append.mp h.holds.tiled.sized).1
    rw [total_append, total_cons] at hwhole
    dsimp only at hwhole
    rw [toNat_memSizeAligned]
    exact ⟨by omega, by omega, hdata⟩
  · refine h.apart.imp_of_mem fun {a b} ha hb hne => ?_
    obtain ⟨sa, hlena, hlowa, hmema, -⟩ := h.owned a ha
    obtain ⟨sb, hlenb, hlowb, hmemb, -⟩ := h.owned b hb
    have hoff : (a.ptr.toNat - 12, sa) ≠ (b.ptr.toNat - 12, sb) := fun heq => by
      have := (Prod.mk.inj heq).1
      exact hne (UInt32.toNat_inj.mp (by omega))
    have := extents_disjoint hmema hmemb hoff
    rw [toNat_sizeofStructMem]
    dsimp only at this
    omega

def freeFirst : List HeapEvent := [.malloc 10, .malloc 20, .store 36 0 7, .free 12]

theorem freeFirst_legal : heapMachine.Legal ⟨memInit fun _ => 0, []⟩ freeFirst := by decide

theorem freeFirst_intact :
    (heapMachine.run ⟨memInit fun _ => 0, []⟩ freeFirst).owned.map Owned.ptr = [36] ∧
      ∀ a ∈ (heapMachine.run ⟨memInit fun _ => 0, []⟩ freeFirst).owned,
        bytes (heapMachine.run ⟨memInit fun _ => 0, []⟩ freeFirst).heap.ram a.ptr.toNat a.data.length = a.data :=
  ⟨by decide, fun a ha => ((allocations_intact (fun _ => 0) freeFirst freeFirst_legal).1 a ha).2.2⟩

/-- `mem_malloc` ends in every reachable heap, and it returns `NULL` only if each stretch of memory that is long enough
overlaps a block in use. -/
theorem malloc_null_iff (ram : Memory) (es : List HeapEvent) (hes : heapMachine.Legal ⟨memInit ram, []⟩ es)
    (size : UInt32) (hzero : size ≠ 0) (hsize : size.toNat + 3 < 2 ^ 32) :
    let w := heapMachine.run ⟨memInit ram, []⟩ es
    ∃ r, w.heap.memMalloc size = some r ∧
      (r.rmem = none ↔ ∀ p, p + (padded size.toNat + 12) ≤ memSizeAligned.toNat →
        ∃ a ∈ w.owned, a.ptr.toNat < p + (padded size.toNat + 12) + 12 ∧
          p < (w.heap.next (a.ptr - sizeofStructMem)).toNat) := by
  intro w
  obtain ⟨l, h⟩ := run_accounted ram hes
  have hwhole := h.holds.tiled.whole
  rw [toNat_memSizeAligned]
  obtain ⟨hfail, hsmall⟩ | ⟨pre, s, post, heap, rmem, rest, s', rfl, hdone, hat, hcut⟩ :=
    memMalloc_cases h.holds hsize hzero
  · refine ⟨_, hfail, fun _ p hp => ?_, fun _ => rfl⟩
    by_contra hnone
    have hgap : ∀ x ∈ extents true 0 l, p + (padded size.toNat + 12) ≤ x.1 ∨ x.1 + x.2 ≤ p := by
      intro x hx
      obtain ⟨a, ha, hat⟩ := h.used x hx
      have hnext : (w.heap.next (a.ptr - sizeofStructMem)).toNat = x.1 + x.2 := next_of_live h.holds hx hat
      by_contra hover
      exact hnone ⟨a, ha, by omega, by omega⟩
    obtain ⟨x, hx, hbefore, hafter⟩ := exists_free_of_gap h.holds.coalesced (by omega) (Nat.zero_le p) (by omega) hgap
      h.holds.tiled.pos
    have := hsmall x hx
    omega
  · refine ⟨_, hdone, fun hnone => absurd hnone (by simp), fun hall => ?_⟩
    have henough := hcut.enough
    have hwithin := hcut.within
    rw [total_append, total_cons] at hwhole
    dsimp only at hwhole
    obtain ⟨a, ha, hbefore, hafter⟩ := hall (total pre) (by omega)
    obtain ⟨sa, -, hlow, hmem, -⟩ := h.owned a ha
    rw [next_of_live h.holds hmem (by dsimp only; omega)] at hafter
    rw [live_split_free, List.mem_append] at hmem
    dsimp only at hafter
    obtain hpre | hpost := hmem
    · have := (extents_bounds hpre).2
      omega
    · have := (extents_bounds hpost).1
      omega

theorem malloc_behind_one :
    ∃ r, (heapMachine.run ⟨memInit fun _ => 0, []⟩ [.malloc 10]).heap.memMalloc 100 = some r ∧ r.rmem ≠ none := by
  obtain ⟨r, hr, hnull⟩ := malloc_null_iff (fun _ => 0) [.malloc 10] (by decide) 100 (by decide) (by decide)
  exact ⟨r, hr, fun hnone => absurd (hnull.mp hnone 24 (by decide)) (by decide)⟩

/-- Once everything is freed, the heap is one free block again, and every request that fits it is met. -/
theorem freed_heap_whole (ram : Memory) (es : List HeapEvent) (hes : heapMachine.Legal ⟨memInit ram, []⟩ es)
    (hfreed : (heapMachine.run ⟨memInit ram, []⟩ es).owned = []) :
    let h := (heapMachine.run ⟨memInit ram, []⟩ es).heap
    h.lfree = 0 ∧ h.next 0 = memSizeAligned ∧ h.used 0 = false ∧
      ∀ size, size ≠ 0 → size ≤ memSizeAligned - sizeofStructMem → ∃ heap, h.memMalloc size = some ⟨heap, some 12⟩ := by
  intro h
  obtain ⟨l, hl⟩ := run_accounted ram hes
  have hlive : extents true 0 l = [] := by
    refine List.eq_nil_iff_forall_not_mem.mpr fun x hx => ?_
    obtain ⟨a, ha, -⟩ := hl.used x hx
    rw [hfreed] at ha
    exact absurd ha List.not_mem_nil
  have hone : l = [⟨65536, false⟩] := by
    have hwhole := hl.holds.tiled.whole
    have := eq_singleton_of_free hl.holds.coalesced hlive (by omega)
    rwa [hwhole] at this
  have hholds : Holds h ([] ++ [⟨65536, false⟩]) := hone ▸ hl.holds
  refine ⟨UInt32.toNat_inj.mp hholds.tiled.lfree, UInt32.toNat_inj.mp ?_, used_eq hholds.tiled.linked rfl,
    fun size hzero hsize => ?_⟩
  · rw [Heap.next_eq hholds.tiled.linked rfl]
    rfl
  · have hsize' : size.toNat ≤ 65524 := hsize
    obtain ⟨-, hsmall⟩ | ⟨pre, s, post, heap, rmem, rest, s', hsplit, hdone, hat, -⟩ :=
      memMalloc_cases hholds (by omega) hzero
    · have hpad : padded size.toNat ≤ 65524 := by
        rw [padded]
        omega
      have := hsmall (0, 65536) (by decide)
      dsimp only at this
      omega
    · have hpre : pre = [] := by
        cases pre with
        | nil => rfl
        | cons c cs => simp at hsplit
      have hrmem : rmem = 12 := UInt32.toNat_inj.mp (by rw [hat, hpre]; rfl)
      exact ⟨heap, hrmem ▸ hdone⟩

theorem freed_heap_after_one :
    (heapMachine.run ⟨memInit fun _ => 0, []⟩ [.malloc 10, .free 12]).heap.next 0 = memSizeAligned ∧
      ∃ heap, (heapMachine.run ⟨memInit fun _ => 0, []⟩ [.malloc 10, .free 12]).heap.memMalloc 65524 =
        some ⟨heap, some 12⟩ :=
  have h := freed_heap_whole (fun _ => 0) [.malloc 10, .free 12] (by decide) (by decide)
  ⟨h.2.1, h.2.2.2 65524 (by decide) (by decide)⟩

end LogoCore.Lwip
