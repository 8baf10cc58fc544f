import LogoCore.EmacTransmit
import LogoCore.FramedStream
import LogoCore.RingWindow

namespace LogoCore.Emac

open FramedStream

/-- The descriptors that the loop of `tivaif_transmit` writes for the pbufs of a chain. -/
def entriesFrom (p : UInt32) : Bool → List TxBuf → List TxDescriptor
  | _, [] => []
  | bFirst, b :: rest =>
    ⟨true, bFirst, rest.isEmpty, b.data, if rest.isEmpty then p else p + 1⟩ :: entriesFrom p false rest

def TxPacket.entries (p : TxPacket) : List TxDescriptor := entriesFrom p.ptr.val true p.bufs

def TxDescriptor.freedTag (desc : TxDescriptor) : Option UInt32 :=
  if desc.pBuf &&& 1 = 0 then some desc.pBuf else none

def TxDescriptor.piece (desc : TxDescriptor) : Piece := ⟨desc.data, desc.first, desc.last⟩

theorem TxPacket.bufs_ne_nil (p : TxPacket) : p.bufs ≠ [] := fun h => p.nonempty (by rw [h]; rfl)

section Marks

variable {p : UInt32} (hp : p ≠ 0 ∧ p &&& 1 = 0)

theorem toNat_and_one (v : UInt32) : (v &&& 1).toNat = v.toNat % 2 := by
  rw [UInt32.toNat_and, show (1 : UInt32).toNat = 1 from rfl, Nat.and_one_is_mod]

include hp

theorem succ_odd : (p + 1) &&& 1 ≠ 0 := by
  intro hodd
  have heven := congrArg UInt32.toNat hp.2
  have hodd := congrArg UInt32.toNat hodd
  rw [toNat_and_one, UInt32.toNat_zero] at heven hodd
  rw [UInt32.toNat_add, show (1 : UInt32).toNat = 1 from rfl] at hodd
  omega

theorem mark_ne_zero (b : Bool) : (if b = true then p else p + 1) ≠ 0 := by
  split_ifs
  · exact hp.1
  · intro h
    exact succ_odd hp (by rw [h]; rfl)

theorem filterMap_entriesFrom (bFirst : Bool) {bufs : List TxBuf} (hne : bufs ≠ []) :
    (entriesFrom p bFirst bufs).filterMap TxDescriptor.freedTag = [p] := by
  induction bufs generalizing bFirst with
  | nil => exact absurd rfl hne
  | cons b rest ih =>
    cases rest with
    | nil => simp [entriesFrom, TxDescriptor.freedTag, hp.2]
    | cons c rest =>
      rw [entriesFrom, List.filterMap_cons_none, ih false (List.cons_ne_nil _ _)]
      exact if_neg (succ_odd hp)

theorem filterMap_part (bFirst : Bool) {bufs : List TxBuf} {l : List TxDescriptor}
    (hl : l <+: entriesFrom p bFirst bufs) (hne : l ≠ entriesFrom p bFirst bufs) :
    l.filterMap TxDescriptor.freedTag = [] := by
  induction bufs generalizing bFirst l with
  | nil =>
    rw [entriesFrom, List.prefix_nil] at hl
    rw [hl]
    rfl
  | cons b rest ih =>
    cases l with
    | nil => rfl
    | cons x l =>
      rw [entriesFrom, List.cons_prefix_cons] at hl
      obtain ⟨rfl, hl⟩ := hl
      have hne' : l ≠ entriesFrom p false rest := fun heq => hne (by rw [heq, entriesFrom])
      cases rest with
      | nil =>
        rw [entriesFrom, List.prefix_nil] at hl
        exact absurd hl hne'
      | cons c rest =>
        rw [List.filterMap_cons_none, ih false hl hne']
        exact if_neg (succ_odd hp)

end Marks

theorem framing : Framing TxPacket.entries TxDescriptor.freedTag fun p => p.ptr.val :=
  ⟨fun p => filterMap_entriesFrom p.ptr.property true p.bufs_ne_nil,
    fun p _ hl hne => filterMap_part p.ptr.property true hl hne⟩

theorem length_entriesFrom (p : UInt32) (bFirst : Bool) (bufs : List TxBuf) :
    (entriesFrom p bFirst bufs).length = bufs.length := by
  induction bufs generalizing bFirst with
  | nil => rfl
  | cons b rest ih => rw [entriesFrom, List.length_cons, ih, List.length_cons]

theorem mem_entriesFrom {p : UInt32} (hp : p ≠ 0 ∧ p &&& 1 = 0) {bFirst : Bool} {bufs : List TxBuf} {x : TxDescriptor}
    (hx : x ∈ entriesFrom p bFirst bufs) : x.own = true ∧ x.pBuf ≠ 0 := by
  induction bufs generalizing bFirst with
  | nil => exact absurd hx List.not_mem_nil
  | cons b rest ih =>
    rw [entriesFrom] at hx
    obtain rfl | hx := List.mem_cons.mp hx
    · exact ⟨rfl, mark_ne_zero hp _⟩
    · exact ih hx

theorem isSome_freedTag {p : UInt32} (hp : p ≠ 0 ∧ p &&& 1 = 0) {bFirst : Bool} {bufs : List TxBuf} {x : TxDescriptor}
    (hx : x ∈ entriesFrom p bFirst bufs) : x.freedTag.isSome = x.last := by
  induction bufs generalizing bFirst with
  | nil => exact absurd hx List.not_mem_nil
  | cons b rest ih =>
    rw [entriesFrom] at hx
    obtain rfl | hx := List.mem_cons.mp hx
    · cases rest with
      | nil => simp [TxDescriptor.freedTag, hp.2]
      | cons c rest => simp [TxDescriptor.freedTag, succ_odd hp]
    · exact ih hx

def TxState.rest (s : TxState) : List TxDescriptor :=
  match s.filling with
  | none => []
  | some f => entriesFrom f.p f.bFirst f.pBuf

/-- A descriptor of the log as it stands in the ring when the DMA is done with the first `d` of them. -/
def slot (log : List TxDescriptor) (d k : ℕ) : TxDescriptor :=
  match log[k]? with
  | none => ⟨false, false, false, [], 0⟩
  | some desc => { desc with own := decide (d ≤ k) }

def Vacant (desc : TxDescriptor) : Prop := desc.own = false ∧ desc.pBuf = 0

structure TxRing (s : TxState) (log : List TxDescriptor) (r d : ℕ) : Prop where
  stream : log ++ s.rest = s.accepted.flatMap TxPacket.entries
  reclaimed : r ≤ d
  done : d ≤ log.length
  read : s.read = r % numTxDescriptors
  dma : s.dma = d % numTxDescriptors
  write : s.write = log.length % numTxDescriptors
  window : RingWindow numTxDescriptors s.descs (slot log d) Vacant r log.length
  fits : log.length + s.rest.length ≤ r + numTxDescriptors
  wire : s.wire = (log.take d).map TxDescriptor.piece
  freed : s.freed = (log.take r).filterMap TxDescriptor.freedTag
  refs : ∀ q, s.refs q = ((log.drop r ++ s.rest).filterMap TxDescriptor.freedTag).count q + s.uncopied.count q
  bytes : s.accepted.map TxPacket.bytes = s.given.map TxPacket.bytes

section Steps

variable {s : TxState} {log : List TxDescriptor} {r d : ℕ}

theorem slot_eq {k : ℕ} (hk : k < log.length) : slot log d k = { log[k] with own := decide (d ≤ k) } := by
  rw [slot, List.getElem?_eq_getElem hk]

theorem TxRing.entry (h : TxRing s log r d) {x : TxDescriptor} (hx : x ∈ log) : x.own = true ∧ x.pBuf ≠ 0 := by
  have hmem : x ∈ s.accepted.flatMap TxPacket.entries := h.stream ▸ List.mem_append_left _ hx
  obtain ⟨p, -, hp⟩ := List.mem_flatMap.mp hmem
  exact mem_entriesFrom p.ptr.property hp

theorem TxRing.desc (h : TxRing s log r d) {k : ℕ} (hr : r ≤ k) (hk : k < log.length) :
    s.descs (k % numTxDescriptors) = { log[k] with own := decide (d ≤ k) } :=
  (h.window.live k hr hk).trans (slot_eq hk)

theorem TxRing.write_free (h : TxRing s log r d) :
    (s.descs s.write).pBuf = 0 ↔ log.length < r + numTxDescriptors := by
  rw [h.write]
  constructor
  · intro hfree
    by_contra hfull
    have hroom := h.window.room
    have hsame : log.length % numTxDescriptors = r % numTxDescriptors := by
      rw [show log.length = r + numTxDescriptors by omega, Nat.add_mod_right]
    have hlt : r < log.length := by
      rw [numTxDescriptors] at hfull
      omega
    rw [hsame, h.desc le_rfl hlt] at hfree
    exact (h.entry (List.getElem_mem hlt)).2 hfree
  · intro hroom
    exact (h.window.blank _ le_rfl hroom).2

theorem TxRing.numDescs_eq (h : TxRing s log r d) (hroom : log.length < r + numTxDescriptors) :
    s.numDescs = r + numTxDescriptors - log.length := by
  have hle := h.window.le
  have hread := h.read
  have hwrite := h.write
  rw [TxState.numDescs]
  split_ifs with hlt
  · simp only [numTxDescriptors] at *
    omega
  · simp only [numTxDescriptors] at *
    omega

theorem TxRing.setRefs (h : TxRing s log r d) {refs : UInt32 → ℤ} {uncopied : List UInt32}
    (hrefs : ∀ q, refs q - uncopied.count q = s.refs q - s.uncopied.count q) :
    TxRing { s with refs := refs, uncopied := uncopied } log r d :=
  { h with
    refs := fun q => by
      have hq := hrefs q
      have hold := h.refs q
      have hrest : TxState.rest { s with refs := refs, uncopied := uncopied } = s.rest := rfl
      rw [hrest]
      dsimp only
      omega }

theorem pbufRef_eq (refs : UInt32 → ℤ) (p q : UInt32) : pbufRef refs p q = refs q + [p].count q := by
  rw [pbufRef]
  by_cases h : q = p
  · simp [h]
  · simp [h, Ne.symm h]

theorem pbufFree_eq (refs : UInt32 → ℤ) (p q : UInt32) : pbufFree refs p q = refs q - [p].count q := by
  rw [pbufFree]
  by_cases h : q = p
  · simp [h]
  · simp [h, Ne.symm h]

theorem TxRing.enqueue (h : TxRing s log r d) (hfilling : s.filling = none) {given p : TxPacket}
    (hbytes : p.bytes = given.bytes) {refs : UInt32 → ℤ} (hrefs : ∀ q, refs q = s.refs q + [p.ptr.val].count q) :
    TxRing ({ s with refs := refs }.enqueue given p) log r d := by
  have hrejected : TxRing { s with refs := pbufFree refs p.ptr.val } log r d := by
    refine h.setRefs fun q => ?_
    rw [pbufFree_eq, hrefs]
    omega
  have hrest : s.rest = [] := by rw [TxState.rest, hfilling]
  have hchain : p.bufs.length % 256 = p.bufs.length := Nat.mod_eq_of_lt p.chain
  rw [TxState.enqueue]
  by_cases hused : (s.descs s.write).pBuf ≠ 0
  · rw [if_pos hused]
    exact hrejected
  rw [if_neg hused]
  by_cases hmore : TxState.numDescs { s with refs := refs } < p.bufs.length % 256
  · rw [if_pos hmore]
    exact hrejected
  rw [if_neg hmore, hchain, List.take_length]
  have hroom : log.length < r + numTxDescriptors := h.write_free.mp (not_not.mp hused)
  have hcount : s.numDescs = r + numTxDescriptors - log.length := h.numDescs_eq hroom
  have hcount' : ¬ s.numDescs < p.bufs.length := by rwa [hchain] at hmore
  have hstream := h.stream
  rw [hrest, List.append_nil] at hstream
  have hvacant : Vacant { s.descs s.write with own := false, first := true, last := false } := ⟨rfl, not_not.mp hused⟩
  refine ⟨?_, h.reclaimed, h.done, h.read, h.dma, h.write, ?_, ?_, h.wire, h.freed, fun q => ?_, ?_⟩
  · change log ++ p.entries = (s.accepted ++ [p]).flatMap TxPacket.entries
    rw [List.flatMap_append, ← hstream, List.flatMap_singleton]
  · have := h.window.clear le_rfl hroom hvacant
    rwa [← h.write] at this
  · change log.length + (entriesFrom p.ptr.val true p.bufs).length ≤ r + numTxDescriptors
    rw [length_entriesFrom]
    omega
  · change refs q = ((log.drop r ++ p.entries).filterMap TxDescriptor.freedTag).count q + s.uncopied.count q
    have hold := h.refs q
    rw [hrest, List.append_nil] at hold
    rw [List.filterMap_append, framing.whole, List.count_append, hrefs]
    omega
  · change (s.accepted ++ [p]).map TxPacket.bytes = (s.given ++ [given]).map TxPacket.bytes
    rw [List.map_append, List.map_append, h.bytes, List.map_singleton, List.map_singleton, hbytes]

theorem TxRing.transmit (h : TxRing s log r d) (hfilling : s.filling = none) (p : TxPacket) (alloc : Option PbufPtr) :
    TxRing (s.tivaifTransmit p alloc) log r d := by
  rw [TxState.tivaifTransmit]
  by_cases hsafe : (p.bufs.all fun b => ptrSafeForEmacDma b.payload) = true
  · have hcheck : { s with refs := pbufRef s.refs p.ptr.val }.tivaifCheckPbuf p alloc =
        ⟨{ s with refs := pbufRef s.refs p.ptr.val }, some p⟩ := if_pos hsafe
    rw [hcheck]
    exact h.enqueue hfilling rfl (pbufRef_eq s.refs p.ptr.val)
  · cases alloc with
    | none =>
      have hcheck : { s with refs := pbufRef s.refs p.ptr.val }.tivaifCheckPbuf p none =
          ⟨{ s with refs := pbufRef s.refs p.ptr.val, uncopied := p.ptr.val :: s.uncopied }, none⟩ := if_neg hsafe
      rw [hcheck]
      refine h.setRefs fun q => ?_
      have hcount : (p.ptr.val :: s.uncopied).count q = [p.ptr.val].count q + s.uncopied.count q := by
        rw [← List.count_append]
        rfl
      rw [pbufRef_eq, hcount]
      omega
    | some q =>
      have hcheck : { s with refs := pbufRef s.refs p.ptr.val }.tivaifCheckPbuf p (some q) =
          ⟨{ s with refs := pbufFree (pbufRef (pbufRef s.refs p.ptr.val) q.val) p.ptr.val }, some (p.copyTo q)⟩ :=
        if_neg hsafe
      rw [hcheck]
      have hbytes : (p.copyTo q).bytes = p.bytes := flatMap_poolBufs p.bytes
      refine h.enqueue hfilling hbytes fun q' => ?_
      rw [pbufFree_eq, pbufRef_eq, pbufRef_eq]
      change s.refs q' + _ + _ - _ = s.refs q' + [q.val].count q'
      omega

theorem TxRing.entry_rest (h : TxRing s log r d) {x : TxDescriptor} (hx : x ∈ s.rest) : x.own = true := by
  have hmem : x ∈ s.accepted.flatMap TxPacket.entries := h.stream ▸ List.mem_append_right _ hx
  obtain ⟨p, -, hp⟩ := List.mem_flatMap.mp hmem
  exact (mem_entriesFrom p.ptr.property hp).1

theorem TxRing.push (h : TxRing s log r d) {e : TxDescriptor} {more : List TxDescriptor} (hrest : s.rest = e :: more)
    {filling : Option Filling} (hmore : TxState.rest { s with filling := filling } = more) :
    TxRing { s with
      descs := Function.update s.descs s.write e,
      write := RingBuffer.wrap numTxDescriptors (s.write + 1),
      filling := filling } (log ++ [e]) r d := by
  have hstream := h.stream
  have hfits := h.fits
  have hrefs := h.refs
  have hdone := h.done
  have hreclaimed := h.reclaimed
  have hown := h.entry_rest (hrest ▸ List.mem_cons_self)
  rw [hrest] at hstream hfits
  rw [List.length_cons] at hfits
  have hroom : log.length < r + numTxDescriptors := by omega
  have hnew : slot (log ++ [e]) d log.length = e := by
    rw [slot, List.getElem?_concat_length]
    dsimp only
    rw [decide_eq_true hdone, ← hown]
  have hold : ∀ k, r ≤ k → k < log.length → slot (log ++ [e]) d k = slot log d k := by
    intro k _ hk
    rw [slot, slot, List.getElem?_append_left hk]
  have hwindow := (h.window.congr hold).put hroom
  rw [hnew, ← h.write] at hwindow
  change TxRing { s with filling := filling, descs := _, write := _ } _ r d
  refine ⟨?_, hreclaimed, ?_, h.read, h.dma, ?_, ?_, ?_, ?_, ?_, fun q => ?_, h.bytes⟩
  · change log ++ [e] ++ TxState.rest { s with filling := filling } = _
    rw [hmore, List.append_assoc, List.singleton_append, hstream]
  · rw [List.length_append]
    omega
  · dsimp only
    rw [h.write, RingWindow.wrap_mod (by decide), List.length_append, List.length_singleton]
  · rw [List.length_append, List.length_singleton]
    exact hwindow
  · change (log ++ [e]).length + (TxState.rest { s with filling := filling }).length ≤ _
    rw [hmore, List.length_append, List.length_singleton]
    omega
  · dsimp only
    rw [List.take_append_of_le_length hdone, h.wire]
  · dsimp only
    rw [List.take_append_of_le_length (by omega), h.freed]
  · change s.refs q = (((log ++ [e]).drop r ++ TxState.rest { s with filling := filling }).filterMap
      TxDescriptor.freedTag).count q + _
    rw [hmore, hrefs, hrest, List.drop_append_of_le_length (by omega), List.append_assoc, List.singleton_append]

theorem TxRing.fill (h : TxRing s log r d) : ∃ log', TxRing s.fill log' r d := by
  rw [TxState.fill]
  cases hfilling : s.filling with
  | none => exact ⟨log, h⟩
  | some f =>
    obtain ⟨p, bufs, bFirst⟩ := f
    have hrest : s.rest = entriesFrom p bFirst bufs := by rw [TxState.rest, hfilling]
    cases bufs with
    | nil =>
      have hnil : s.rest = [] := hrest
      have hstream := h.stream
      have hfits := h.fits
      have hrefs := h.refs
      rw [hnil] at hstream hfits hrefs
      exact ⟨log, hstream, h.reclaimed, h.done, h.read, h.dma, h.write, h.window, hfits, h.wire, h.freed, hrefs,
        h.bytes⟩
    | cons b rest =>
      refine ⟨_, h.push hrest ?_⟩
      cases rest with
      | nil => rfl
      | cons c rest => rfl

theorem TxRing.idle (h : TxRing s log r d) (hd : d = log.length) : (s.descs s.dma).own = false := by
  rw [h.dma]
  by_cases hroom : d < r + numTxDescriptors
  · exact (h.window.blank d (by omega) hroom).1
  · have hfull := h.window.room
    have hsame : d % numTxDescriptors = r % numTxDescriptors := by
      rw [show d = r + numTxDescriptors by omega, Nat.add_mod_right]
    have hlt : r < log.length := by
      rw [numTxDescriptors] at hroom
      omega
    rw [hsame, h.desc le_rfl hlt]
    exact decide_eq_false (by omega)

theorem TxRing.dmaSend (h : TxRing s log r d) : ∃ d', TxRing s.dmaSend log r d' := by
  rw [TxState.dmaSend]
  by_cases hd : d < log.length
  · have hdesc : s.descs s.dma = { log[d] with own := true } := by
      rw [h.dma, h.desc h.reclaimed hd, decide_eq_true le_rfl]
    have hreclaimed := h.reclaimed
    rw [hdesc, if_pos rfl]
    have hlive : ∀ k, r ≤ k → k < log.length →
        slot log (d + 1) k = Function.update (slot log d) d { log[d] with own := false } k := by
      intro k _ hk
      by_cases heq : k = d
      · rw [heq, Function.update_self, slot_eq hd, decide_eq_false (by omega)]
      · rw [Function.update_of_ne heq, slot_eq hk, slot_eq hk,
          decide_eq_decide.mpr (show d + 1 ≤ k ↔ d ≤ k by omega)]
    have hwindow := (h.window.change hreclaimed hd { log[d] with own := false }).congr hlive
    rw [← h.dma] at hwindow
    refine ⟨d + 1, h.stream, by omega, hd, h.read, ?_, h.write, hwindow, h.fits, ?_, h.freed, h.refs, h.bytes⟩
    · dsimp only
      rw [h.dma, RingWindow.wrap_mod (by decide)]
    · dsimp only
      rw [← List.take_append_getElem hd, List.map_append, h.wire]
      rfl
  · have hdone := h.done
    rw [h.idle (by omega), if_neg Bool.false_ne_true]
    exact ⟨d, h⟩

theorem TxRing.takeBack (h : TxRing s log r d) (hlt : r < d) :
    ∃ s', s.reclaim = some s' ∧ TxRing s' log (r + 1) d := by
  have hr : r < log.length := Nat.lt_of_lt_of_le hlt h.done
  have hdesc : s.descs s.read = { log[r] with own := false } := by
    rw [h.read, h.desc le_rfl hr, decide_eq_false (by omega)]
  have hentry := h.entry (List.getElem_mem hr)
  have hwindow := h.window.drop hr (a := { log[r] with own := false, pBuf := 0 }) ⟨rfl, rfl⟩
  rw [← h.read] at hwindow
  have hwrap : RingBuffer.wrap numTxDescriptors (s.read + 1) = (r + 1) % numTxDescriptors := by
    rw [h.read, RingWindow.wrap_mod (by decide)]
  have htag : (log[r] : TxDescriptor).freedTag =
      if (log[r] : TxDescriptor).pBuf &&& 1 = 0 then some log[r].pBuf else none := rfl
  have hfits : log.length + s.rest.length ≤ r + 1 + numTxDescriptors := h.fits.trans (by omega)
  have hfreed := h.freed
  have hrefs := h.refs
  rw [TxState.reclaim, hdesc, if_neg Bool.false_ne_true, if_pos hentry.2]
  refine ⟨_, rfl, ?_⟩
  split_ifs at htag ⊢ with heven
  · refine ⟨h.stream, hlt, h.done, hwrap, h.dma, h.write, hwindow, hfits, h.wire, ?_, fun q => ?_, h.bytes⟩
    · dsimp only
      rw [← List.take_append_getElem hr, List.filterMap_append, hfreed, List.filterMap_cons_some htag]
      rfl
    · change pbufFree s.refs log[r].pBuf q = ((log.drop (r + 1) ++ s.rest).filterMap TxDescriptor.freedTag).count q + _
      have hq := hrefs q
      rw [List.drop_eq_getElem_cons hr, List.cons_append, List.filterMap_cons_some htag, ← List.singleton_append,
        List.count_append] at hq
      rw [pbufFree_eq, hq]
      dsimp only
      omega
  · refine ⟨h.stream, hlt, h.done, hwrap, h.dma, h.write, hwindow, hfits, h.wire, ?_, fun q => ?_, h.bytes⟩
    · dsimp only
      rw [← List.take_append_getElem hr, List.filterMap_append, hfreed, List.filterMap_cons_none htag]
      simp
    · change s.refs q = ((log.drop (r + 1) ++ s.rest).filterMap TxDescriptor.freedTag).count q + _
      have hq := hrefs q
      rwa [List.drop_eq_getElem_cons hr, List.cons_append, List.filterMap_cons_none htag] at hq

theorem TxRing.nothing_back (h : TxRing s log r d) (heq : r = d) : s.reclaim = none := by
  rw [TxState.reclaim]
  by_cases hr : r < log.length
  · rw [h.read, h.desc le_rfl hr, decide_eq_true (by omega), if_pos rfl]
  · have hblank : Vacant (s.descs s.read) := by
      rw [h.read]
      exact h.window.blank r (by omega) (by rw [numTxDescriptors]; omega)
    rw [hblank.1, hblank.2, if_neg Bool.false_ne_true, if_neg (not_not.mpr rfl)]

theorem TxRing.processTransmit (h : TxRing s log r d) (n : ℕ) :
    TxRing (s.tivaifProcessTransmit n) log (min d (r + n)) d := by
  induction n generalizing s r with
  | zero => rwa [TxState.tivaifProcessTransmit, Nat.add_zero, Nat.min_eq_right h.reclaimed]
  | succ n ih =>
    rw [TxState.tivaifProcessTransmit]
    obtain heq | hlt := Nat.eq_or_lt_of_le h.reclaimed
    · subst heq
      rw [h.nothing_back rfl, Nat.min_eq_left (Nat.le_add_right _ _)]
      exact h
    · obtain ⟨s', hsome, hring⟩ := h.takeBack hlt
      rw [hsome]
      have := ih hring
      rwa [Nat.add_right_comm] at this

theorem txStep_ring (e : TxEvent) (he : txMachine.enabled s e) (h : TxRing s log r d) :
    ∃ log' r' d', TxRing (txStep s e) log' r' d' := by
  cases e with
  | transmit p alloc => exact ⟨log, r, d, h.transmit he p alloc⟩
  | fill =>
    obtain ⟨log', h'⟩ := h.fill
    exact ⟨log', r, d, h'⟩
  | dma =>
    obtain ⟨d', h'⟩ := h.dmaSend
    exact ⟨log, r, d', h'⟩
  | interrupt => exact ⟨log, _, d, h.processTransmit _⟩

end Steps

theorem run_ring {es : List TxEvent} (hes : txMachine.Legal initTx es) :
    ∃ log r d, TxRing (txMachine.run initTx es) log r d := by
  refine txMachine.invariant (I := fun s => ∃ log r d, TxRing s log r d) ?_ ?_ hes
  · rintro s e he ⟨log, r, d, h⟩
    exact txStep_ring e he h
  · refine ⟨[], 0, 0, rfl, le_rfl, le_rfl, rfl, rfl, rfl, ?_, Nat.zero_le _, rfl, rfl, fun q => rfl, rfl⟩
    exact ⟨le_rfl, Nat.zero_le _, fun k _ hk => absurd hk (Nat.not_lt_zero k), fun k _ _ => ⟨rfl, rfl⟩⟩

def TxPacket.pieces (p : TxPacket) : List Piece := p.entries.map TxDescriptor.piece

/-- However calls, DMA and interrupts interleave: the DMA sends the accepted packets in order, each whole and once, with
the bytes that were given; a pbuf is freed after its packet was sent, once; and the driver holds a reference exactly to
the pbufs of the packets that are not yet freed, and to those that could not be copied. -/
theorem transmits_in_order (es : List TxEvent) (hes : txMachine.Legal initTx es) :
    let s := txMachine.run initTx es
    s.wire <+: s.accepted.flatMap TxPacket.pieces ∧
      s.accepted.map TxPacket.bytes = s.given.map TxPacket.bytes ∧
      s.freed = (s.accepted.take s.freed.length).map (fun p => p.ptr.val) ∧
      (s.accepted.take s.freed.length).flatMap TxPacket.pieces <+: s.wire ∧
      ∀ q, s.refs q = ((s.accepted.drop s.freed.length).map fun p => p.ptr.val).count q + s.uncopied.count q := by
  intro s
  obtain ⟨log, r, d, h⟩ : ∃ log r d, TxRing s log r d := run_ring hes
  have hlog : log <+: s.accepted.flatMap TxPacket.entries := h.stream ▸ List.prefix_append _ _
  have hpieces (bs : List TxPacket) :
      bs.flatMap TxPacket.pieces = (bs.flatMap TxPacket.entries).map TxDescriptor.piece := by
    rw [List.map_flatMap]
    rfl
  obtain ⟨k, hk, hfreed, hcomplete⟩ := exists_complete framing ((List.take_prefix r log).trans hlog)
  rw [← h.freed] at hfreed
  have hlen : s.freed.length = k := by rw [hfreed, List.length_map, List.length_take, Nat.min_eq_left hk]
  rw [hlen]
  refine ⟨?_, h.bytes, hfreed, ?_, fun q => ?_⟩
  · rw [h.wire, hpieces]
    exact ((List.take_prefix d log).trans hlog).map _
  · rw [h.wire, hpieces]
    refine (hcomplete.trans ?_).map _
    exact List.take_prefix_take_left h.reclaimed
  · have hall : (log.take r ++ (log.drop r ++ s.rest)).filterMap TxDescriptor.freedTag =
        s.accepted.map fun p => p.ptr.val := by
      rw [← List.append_assoc, List.take_append_drop, h.stream, filterMap_flatMap framing]
    rw [List.filterMap_append, ← h.freed, hfreed] at hall
    have hsplit : s.accepted.map (fun p => p.ptr.val) =
        (s.accepted.take k).map (fun p => p.ptr.val) ++ (s.accepted.drop k).map fun p => p.ptr.val := by
      rw [← List.map_append, List.take_append_drop]
    rw [h.refs q, List.append_cancel_left (hall.trans hsplit)]

def samplePbuf : PbufPtr := ⟨0x20001000, by decide⟩

def samplePacket : TxPacket where
  ptr := samplePbuf
  bufs := [⟨0x20001010, [1, 2]⟩, ⟨0x20002000, [3]⟩]
  nonempty := by decide
  short := by decide
  chain := by decide

def sendTwice : List TxEvent :=
  [.transmit samplePacket none, .dma, .fill, .dma, .fill, .dma, .interrupt, .transmit samplePacket none, .fill, .dma,
    .fill]

theorem sendTwice_legal : txMachine.Legal initTx sendTwice := by decide

theorem sendTwice_in_order :
    (txMachine.run initTx sendTwice).wire = [⟨[1, 2], true, false⟩, ⟨[3], false, true⟩, ⟨[1, 2], true, false⟩] ∧
      (txMachine.run initTx sendTwice).wire <+:
        (txMachine.run initTx sendTwice).accepted.flatMap TxPacket.pieces :=
  ⟨by decide, (transmits_in_order sendTwice sendTwice_legal).1⟩

/-- The interrupt leaves a pbuf only in the descriptors that the DMA still owns, and by then every packet that was sent
to its end has been freed. -/
theorem interrupt_takes_back (es : List TxEvent) (hes : txMachine.Legal initTx es) :
    let s := (txMachine.run initTx es).tivaifProcessTransmit numTxDescriptors
    (∀ i < numTxDescriptors, (s.descs i).pBuf ≠ 0 → (s.descs i).own = true) ∧
      s.freed.length = s.wire.countP Piece.last := by
  intro s
  obtain ⟨log, r, d, h⟩ := run_ring hes
  have hroom := h.window.room
  have hdone := h.done
  have h' : TxRing s log d d := by
    have := h.processTransmit numTxDescriptors
    rwa [Nat.min_eq_left (by omega)] at this
  constructor
  · intro i hi
    obtain ⟨k, hk, hk', rfl⟩ : ∃ k, d ≤ k ∧ k < d + numTxDescriptors ∧ k % numTxDescriptors = i := by
      refine ⟨d + (i + numTxDescriptors - d % numTxDescriptors) % numTxDescriptors, ?_, ?_, ?_⟩
      all_goals
        simp only [numTxDescriptors] at hi ⊢
        omega
    by_cases hused : k < log.length
    · rw [h'.desc hk hused]
      exact fun _ => decide_eq_true hk
    · exact fun hne => absurd (h'.window.blank k (by omega) hk').2 hne
  · rw [h'.freed, h'.wire, List.length_filterMap_eq_countP, List.countP_map]
    refine List.countP_congr fun x hx => ?_
    have hmem : x ∈ s.accepted.flatMap TxPacket.entries :=
      h'.stream ▸ List.mem_append_left _ (List.mem_of_mem_take hx)
    obtain ⟨p, -, hp⟩ := List.mem_flatMap.mp hmem
    rw [isSome_freedTag p.ptr.property hp]
    rfl

theorem sendTwice_takes_back :
    (txMachine.run initTx sendTwice).freed = [0x20001000] ∧
      ((txMachine.run initTx sendTwice).tivaifProcessTransmit numTxDescriptors).freed.length = 1 :=
  ⟨by decide, (interrupt_takes_back sendTwice sendTwice_legal).2⟩

/-- A packet that the DMA can read is accepted exactly if it has no more pbufs than there are free descriptors. -/
theorem transmit_accepts_iff (es : List TxEvent) (hes : txMachine.Legal initTx es)
    (p : TxPacket) (hsafe : ∀ b ∈ p.bufs, ptrSafeForEmacDma b.payload = true) (alloc : Option PbufPtr) :
    let s := txMachine.run initTx es
    (s.tivaifTransmit p alloc).accepted = s.accepted ++ [p] ↔
      p.bufs.length ≤ Nat.count (fun i => (s.descs i).pBuf = 0) numTxDescriptors := by
  intro s
  obtain ⟨log, r, d, h⟩ : ∃ log r d, TxRing s log r d := run_ring hes
  have hcount : Nat.count (fun i => (s.descs i).pBuf = 0) numTxDescriptors = r + numTxDescriptors - log.length := by
    refine h.window.count_blank (P := fun desc => desc.pBuf = 0) (fun desc hdesc => hdesc.2) fun k _ hk => ?_
    rw [slot_eq hk]
    exact (h.entry (List.getElem_mem hk)).2
  have hcheck : { s with refs := pbufRef s.refs p.ptr.val }.tivaifCheckPbuf p alloc =
      ⟨{ s with refs := pbufRef s.refs p.ptr.val }, some p⟩ := if_pos (List.all_eq_true.mpr hsafe)
  have hnonempty : 0 < p.bufs.length := List.length_pos_iff.mpr p.bufs_ne_nil
  have hreject : s.accepted ≠ s.accepted ++ [p] := fun heq => by simpa using congrArg List.length heq
  have henqueue : s.tivaifTransmit p alloc = { s with refs := pbufRef s.refs p.ptr.val }.enqueue p p := by
    rw [TxState.tivaifTransmit, hcheck]
  rw [henqueue, TxState.enqueue, hcount]
  by_cases hroom : log.length < r + numTxDescriptors
  · have hfree := h.write_free.mpr hroom
    have hnum : TxState.numDescs { s with refs := pbufRef s.refs p.ptr.val } = r + numTxDescriptors - log.length :=
      h.numDescs_eq hroom
    rw [if_neg (not_not.mpr hfree), hnum, Nat.mod_eq_of_lt p.chain]
    by_cases hmore : r + numTxDescriptors - log.length < p.bufs.length
    · rw [if_pos hmore]
      exact ⟨fun heq => absurd heq hreject, fun hle => by omega⟩
    · rw [if_neg hmore]
      exact ⟨fun _ => by omega, fun _ => rfl⟩
  · have hfull : (s.descs s.write).pBuf ≠ 0 := mt h.write_free.mp hroom
    rw [if_pos hfull]
    exact ⟨fun heq => absurd heq hreject, fun hle => by omega⟩

theorem sendTwice_accepts :
    Nat.count (fun i => ((txMachine.run initTx sendTwice).descs i).pBuf = 0) numTxDescriptors = 22 ∧
      ((txMachine.run initTx sendTwice).tivaifTransmit samplePacket none).accepted =
        (txMachine.run initTx sendTwice).accepted ++ [samplePacket] :=
  ⟨by decide, (transmit_accepts_iff sendTwice sendTwice_legal samplePacket (by decide) none).mpr (by decide)⟩

end LogoCore.Emac
