import LogoCore.EmacReceive
import LogoCore.FrameSplitting
import LogoCore.RingWindow
import Mathlib.Data.List.Forall2

namespace LogoCore.Emac

open Ethernet FrameSplitting

/-- The length that the driver gives to the pbuf of a chunk. -/
def RxChunk.len (x : RxChunk) : ℕ := if x.last then x.frameLength else pbufPoolBufsize

def chainLen : List RxChunk → ℕ
  | [] => 0
  | x :: g => x.len + chainLen g

theorem chainLen_append (g g' : List RxChunk) : chainLen (g ++ g') = chainLen g + chainLen g' := by
  induction g with
  | nil => rw [List.nil_append, chainLen, Nat.zero_add]
  | cons x g ih => rw [List.cons_append, chainLen, chainLen, ih, Nat.add_assoc]

def RxChunk.good (x : RxChunk) : Bool := !x.err

def goodFrame (g : List RxChunk) : Bool := g.getLast?.all RxChunk.good

structure Filled (p : Pbuf) (x : RxChunk) : Prop where
  size : p.payload.length = pbufPoolBufsize
  data : x.data <+: p.payload
  len : p.len = x.len

structure ChainHolds (c : Chain) (g : List RxChunk) : Prop where
  filled : List.Forall₂ Filled c g
  totLen : Chain.totLen c = chainLen g % 65536

theorem chainHolds_nil : ChainHolds [] [] := ⟨.nil, rfl⟩

theorem pbufCat_single (c : Chain) (hne : c ≠ []) (p : Pbuf) :
    ∃ c', pbufCat c [p] = c' ++ [p] ∧ Chain.totLen (c' ++ [p]) = (Chain.totLen c + p.totLen) % 65536 ∧
      ∀ g : List RxChunk, List.Forall₂ Filled c g → List.Forall₂ Filled c' g := by
  induction c with
  | nil => exact absurd rfl hne
  | cons q c ih =>
    have hgrow : ∀ x, Filled q x → Filled (q.grow p.totLen) x := fun x h => ⟨h.size, h.data, h.len⟩
    cases c with
    | nil =>
      refine ⟨[q.grow p.totLen], rfl, rfl, fun g hg => ?_⟩
      cases hg with
      | cons hq hrest => exact .cons (hgrow _ hq) hrest
    | cons r c =>
      obtain ⟨c', hcat, -, hfilled⟩ := ih (List.cons_ne_nil _ _)
      refine ⟨q.grow p.totLen :: c', by rw [pbufCat, hcat]; rfl, rfl, fun g hg => ?_⟩
      cases hg with
      | cons hq hrest => exact .cons (hgrow _ hq) (hfilled _ hrest)

theorem ChainHolds.snoc {c : Chain} {g : List RxChunk} (h : ChainHolds c g) {p : Pbuf} {x : RxChunk} (hp : Filled p x)
    (htot : p.totLen = x.len) : ChainHolds (if c.isEmpty then [p] else pbufCat c [p]) (g ++ [x]) := by
  have hlen : x.len < 65536 := by
    have hshort := x.short
    rw [RxChunk.len, pbufPoolBufsize]
    split_ifs
    · omega
    · omega
  cases c with
  | nil =>
    have hnil : g = [] := List.forall₂_nil_left_iff.mp h.filled
    refine ⟨?_, ?_⟩
    · rw [hnil]
      exact .cons hp .nil
    · rw [hnil]
      change p.totLen = (x.len + 0) % 65536
      rw [htot, Nat.add_zero, Nat.mod_eq_of_lt hlen]
  | cons q c =>
    obtain ⟨c', hcat, htotal, hfilled⟩ := pbufCat_single (q :: c) (List.cons_ne_nil _ _) p
    rw [if_neg (by simp), hcat]
    refine ⟨List.rel_append (hfilled g h.filled) (.cons hp .nil), ?_⟩
    rw [htotal, h.totLen, chainLen_append, htot, Nat.mod_add_mod]
    rfl

def Waiting (desc : RxDescriptor) : Prop := desc.own = true ∧ ∃ b, desc.pBuf = some (rxPbuf b)

structure Shows (desc : RxDescriptor) (x : RxChunk) : Prop where
  own : desc.own = false
  last : desc.last = x.last
  err : desc.err = x.err
  frameLength : desc.frameLength = x.frameLength
  pBuf : ∃ p, desc.pBuf = some p ∧ p.payload.length = pbufPoolBufsize ∧ x.data <+: p.payload ∧
    p.len = pbufPoolBufsize ∧ p.totLen = pbufPoolBufsize

structure RxRing (s : RxState) (live : ℕ → RxDescriptor) (r c : ℕ) : Prop where
  read : s.read = r % numRxDescriptors
  dma : s.dma = s.stream.length % numRxDescriptors
  count : s.rxBufReadCount = c
  window : RingWindow numRxDescriptors s.descs live Waiting r s.stream.length
  shown : ∀ k (hk : k < s.stream.length), c ≤ k → Shows (live k) s.stream[k]
  place : c = r ∨ c = r + 1 ∧ r < s.stream.length ∧ (live r).own = false

def Settled (live : ℕ → RxDescriptor) (r c : ℕ) : Prop := c = r + 1 → (live r).pBuf = none

section Steps

variable {s : RxState} {live : ℕ → RxDescriptor} {r c : ℕ}

theorem RxRing.count_le (h : RxRing s live r c) : c ≤ s.stream.length := by
  have hle := h.window.le
  obtain rfl | ⟨rfl, hlt, -⟩ := h.place
  · exact hle
  · exact hlt

theorem RxRing.at_read (h : RxRing s live r c) (hlt : r < s.stream.length) : s.descs s.read = live r := by
  rw [h.read]
  exact h.window.live r le_rfl hlt

theorem RxRing.not_own (h : RxRing s live r c) (hlt : r < s.stream.length) : (live r).own = false := by
  obtain rfl | ⟨-, -, hmissing⟩ := h.place
  · exact (h.shown c hlt le_rfl).own
  · exact hmissing

theorem RxRing.dmaStore (h : RxRing s live r c) (hset : Settled live r c) (x : RxChunk) :
    ∃ live', RxRing (s.dmaStore x) live' r c ∧ Settled live' r c := by
  rw [RxState.dmaStore]
  have hroom := h.window.room
  have hle := h.window.le
  have hcount := h.count_le
  by_cases hfull : s.stream.length < r + numRxDescriptors
  · obtain ⟨hown, b, hb⟩ : Waiting (s.descs s.dma) := by
      rw [h.dma]
      exact h.window.blank _ le_rfl hfull
    rw [if_pos hown]
    let live' := Function.update live s.stream.length ((s.descs s.dma).store x)
    have hold : RingWindow numRxDescriptors s.descs live' Waiting r s.stream.length :=
      h.window.congr fun k _ hk => Function.update_of_ne (Nat.ne_of_lt hk) _ _
    have hnew : live' s.stream.length = (s.descs s.dma).store x := Function.update_self _ _ _
    have hwindow := hold.put hfull
    rw [hnew, ← h.dma] at hwindow
    refine ⟨live', ⟨h.read, ?_, h.count, ?_, fun k hk hck => ?_, ?_⟩, fun hc => ?_⟩
    · dsimp only
      rw [h.dma, RingWindow.wrap_mod (by decide), List.length_append, List.length_singleton]
    · dsimp only
      rw [List.length_append, List.length_singleton]
      exact hwindow
    · dsimp only at hk ⊢
      rw [List.length_append, List.length_singleton] at hk
      by_cases heq : k = s.stream.length
      · subst heq
        rw [hnew, List.getElem_concat_length rfl]
        refine ⟨rfl, rfl, rfl, rfl, _, by rw [RxDescriptor.store, hb]; rfl, ?_, List.prefix_append _ _, rfl, rfl⟩
        have hsize : (rxPbuf b).payload.length = pbufPoolBufsize := b.size
        have hfits := x.fits
        dsimp only
        rw [List.length_append, List.length_drop, hsize]
        omega
      · have hsame : live' k = live k := Function.update_of_ne heq _ _
        rw [hsame, List.getElem_append_left (by omega)]
        exact h.shown k (by omega) hck
    · obtain heq | ⟨heq, hlt, hmissing⟩ := h.place
      · exact .inl heq
      · refine .inr ⟨heq, ?_, ?_⟩
        · dsimp only
          rw [List.length_append]
          omega
        · have hsame : live' r = live r := Function.update_of_ne (Nat.ne_of_lt hlt) _ _
          rwa [hsame]
    · have hsame : live' r = live r := Function.update_of_ne (by omega) _ _
      rw [hsame]
      exact hset hc
  · have hsame : s.stream.length % numRxDescriptors = r % numRxDescriptors := by
      rw [show s.stream.length = r + numRxDescriptors by omega, Nat.add_mod_right]
    have hlt : r < s.stream.length := by
      rw [numRxDescriptors] at hfull
      omega
    have hown : (s.descs s.dma).own = false := by
      rw [h.dma, hsame, ← h.read, h.at_read hlt]
      exact h.not_own hlt
    rw [hown, if_neg Bool.false_ne_true]
    exact ⟨live, h, hset⟩

theorem RxRing.refill (h : RxRing s live r c) (hlt : r < s.stream.length) (hread : c = r + 1) (b : PoolBlock) :
    RxRing (s.refill b) live (r + 1) c := by
  have hwindow := h.window.drop hlt (a := ⟨true, false, false, 0, some (rxPbuf b)⟩) ⟨rfl, b, rfl⟩
  rw [← h.read] at hwindow
  refine ⟨?_, h.dma, h.count, hwindow, h.shown, .inl hread⟩
  rw [RxState.refill, h.read, RingWindow.wrap_mod (by decide)]

theorem RxRing.leaveEmpty (h : RxRing s live r c) (hlt : r < s.stream.length) (hread : c = r + 1) :
    ∃ live', RxRing s.leaveEmpty live' r c ∧ Settled live' r c := by
  have hwindow := h.window.change le_rfl hlt { s.descs s.read with pBuf := none }
  rw [← h.read] at hwindow
  refine ⟨_, ⟨h.read, h.dma, h.count, hwindow, fun k hk hck => ?_, .inr ⟨hread, hlt, ?_⟩⟩, fun _ => ?_⟩
  · rw [Function.update_of_ne (by omega)]
    exact h.shown k hk hck
  · rw [Function.update_self, h.at_read hlt]
    exact h.not_own hlt
  · rw [Function.update_self]

structure Walked (s : RxState) (g t : List RxChunk) (w : RxState.Walk) : Prop where
  stream : w.state.stream = s.stream
  passed : ∃ up, w.state.passed = s.passed ++ up ∧
    List.Forall₂ ChainHolds up ((frames RxChunk.last g t).filter goodFrame)
  pBuf : ChainHolds w.pBuf (unfinished RxChunk.last g t)

variable {cur : Chain} {g t t' : List RxChunk} {w w' : RxState.Walk}

theorem Walked.refl (hcur : ChainHolds cur g) : Walked s g [] ⟨s, cur⟩ :=
  ⟨rfl, ⟨[], (List.append_nil _).symm, .nil⟩, hcur⟩

theorem Walked.trans (h : Walked s g t w) (h' : Walked w.state (unfinished RxChunk.last g t) t' w') :
    Walked s g (t ++ t') w' := by
  obtain ⟨up, hup, hframes⟩ := h.passed
  obtain ⟨up', hup', hframes'⟩ := h'.passed
  refine ⟨h'.stream.trans h.stream, ⟨up ++ up', ?_, ?_⟩, ?_⟩
  · rw [hup', hup, List.append_assoc]
  · rw [frames_append, List.filter_append]
    exact List.rel_append hframes hframes'
  · rw [unfinished_append]
    exact h'.pBuf

theorem takeBuffer_walked {x : RxChunk} (hx : Shows (s.descs s.read) x) (hcur : ChainHolds cur g) :
    Walked s g [x] (s.takeBuffer cur) ∧ ∃ passed freed, (s.takeBuffer cur).state =
      { s with rxBufReadCount := s.rxBufReadCount + 1, passed := passed, freed := freed } := by
  obtain ⟨p, hp, hsize, hdata, hlen, htot⟩ := hx.pBuf
  rw [RxState.takeBuffer, hp, hx.last, hx.err, hx.frameLength]
  cases hlast : x.last with
  | false =>
    have hxlen : x.len = pbufPoolBufsize := by rw [RxChunk.len, hlast, if_neg Bool.false_ne_true]
    have hchain := hcur.snoc (p := p) (x := x) ⟨hsize, hdata, by rw [hlen, hxlen]⟩ (by rw [htot, hxlen])
    refine ⟨⟨rfl, ⟨[], (List.append_nil _).symm, ?_⟩, ?_⟩, s.passed, s.freed, rfl⟩
    · rw [frames, hlast, if_neg Bool.false_ne_true]
      exact .nil
    · rw [unfinished, hlast, if_neg Bool.false_ne_true]
      exact hchain
  | true =>
    have hxlen : x.len = x.frameLength := by rw [RxChunk.len, hlast, if_pos rfl]
    have hchain := hcur.snoc (p := { p with len := x.frameLength, totLen := x.frameLength }) (x := x)
      ⟨hsize, hdata, hxlen.symm⟩ hxlen.symm
    have hframes : frames RxChunk.last g [x] = [g ++ [x]] := by rw [frames, hlast, if_pos rfl, frames]
    have hunfinished : unfinished RxChunk.last g [x] = [] := by rw [unfinished, hlast, if_pos rfl, unfinished]
    have hgood : goodFrame (g ++ [x]) = !x.err := by rw [goodFrame, List.getLast?_concat]; rfl
    cases herr : x.err with
    | true =>
      refine ⟨⟨rfl, ⟨[], (List.append_nil _).symm, ?_⟩, ?_⟩, _, _, rfl⟩
      · rw [hframes, List.filter_cons_of_neg (by rw [hgood, herr]; exact Bool.false_ne_true)]
        exact .nil
      · rw [hunfinished]
        exact chainHolds_nil
    | false =>
      refine ⟨⟨rfl, ⟨[_], rfl, ?_⟩, ?_⟩, _, _, rfl⟩
      · rw [hframes, List.filter_cons_of_pos (by rw [hgood, herr]; rfl)]
        exact .cons hchain .nil
      · rw [hunfinished]
        exact chainHolds_nil

theorem takeBuffer_bufferless (hnone : (s.descs s.read).pBuf = none) : s.takeBuffer cur = ⟨s, cur⟩ := by
  rw [RxState.takeBuffer, hnone]

theorem RxRing.counted (h : RxRing s live r r) (hlt : r < s.stream.length) (passed freed : List Chain) :
    RxRing { s with rxBufReadCount := s.rxBufReadCount + 1, passed := passed, freed := freed } live r (r + 1) :=
  ⟨h.read, h.dma, congrArg (· + 1) h.count, h.window, fun k hk hck => h.shown k hk (by omega),
    .inr ⟨rfl, hlt, h.not_own hlt⟩⟩

theorem RxRing.takeBuffer (h : RxRing s live r c) (hset : Settled live r c) (hlt : r < s.stream.length)
    (hcur : ChainHolds cur g) :
    ∃ t, RxRing (s.takeBuffer cur).state live r (r + 1) ∧ Walked s g t (s.takeBuffer cur) ∧
      s.stream.drop c = t ++ s.stream.drop (r + 1) := by
  obtain rfl | ⟨rfl, -, -⟩ := h.place
  · obtain ⟨hwalked, passed, freed, hstate⟩ := takeBuffer_walked (h.at_read hlt ▸ h.shown c hlt le_rfl) hcur
    refine ⟨_, ?_, hwalked, List.drop_eq_getElem_cons hlt⟩
    rw [hstate]
    exact h.counted hlt passed freed
  · have hnone : (s.descs s.read).pBuf = none := by rw [h.at_read hlt, hset rfl]
    rw [takeBuffer_bufferless hnone]
    exact ⟨[], h, .refl hcur, rfl⟩

theorem RxRing.busy_iff (h : RxRing s live r c) : s.busy = true ↔ r = s.stream.length := by
  have hle := h.window.le
  rw [RxState.busy, Bool.and_eq_true]
  constructor
  · rintro ⟨-, hown⟩
    by_contra hne
    have hlt : r < s.stream.length := by omega
    rw [h.at_read hlt, h.not_own hlt] at hown
    exact Bool.false_ne_true hown
  · intro heq
    obtain ⟨hown, b, hb⟩ : Waiting (s.descs s.read) := by
      rw [h.read]
      exact h.window.blank r (by omega) (by rw [numRxDescriptors]; omega)
    exact ⟨by rw [hb]; rfl, hown⟩

theorem RxRing.receiveLoop (h : RxRing s live r c) (hset : Settled live r c) (hcur : ChainHolds cur g) (descEnd : ℕ)
    (alloc : ℕ → Option PoolBlock) (n : ℕ) :
    ∃ live' r' c' t, RxRing (RxState.receiveLoop descEnd alloc n ⟨s, cur⟩).state live' r' c' ∧ Settled live' r' c' ∧
      Walked s g t (RxState.receiveLoop descEnd alloc n ⟨s, cur⟩) ∧ s.stream.drop c = t ++ s.stream.drop c' := by
  induction n generalizing s live r c cur g with
  | zero => exact ⟨live, r, c, [], h, hset, .refl hcur, rfl⟩
  | succ n ih =>
    rw [RxState.receiveLoop]
    have hstop : ∃ live' r' c' t, RxRing s live' r' c' ∧ Settled live' r' c' ∧ Walked s g t ⟨s, cur⟩ ∧
        s.stream.drop c = t ++ s.stream.drop c' := ⟨live, r, c, [], h, hset, .refl hcur, rfl⟩
    by_cases hend : s.read = descEnd
    · rw [if_pos hend]
      exact hstop
    by_cases hbusy : s.busy = true
    · rw [if_neg hend, if_pos hbusy]
      exact hstop
    have hle := h.window.le
    have hlt : r < s.stream.length := by
      have := mt h.busy_iff.mpr hbusy
      omega
    obtain ⟨t, hring, hwalked, hdrop⟩ := h.takeBuffer hset hlt hcur
    have hlt' : r < (s.takeBuffer cur).state.stream.length := by rw [hwalked.stream]; exact hlt
    rw [if_neg hend, if_neg hbusy]
    dsimp only
    cases alloc n with
    | none =>
      obtain ⟨live', hring', hset'⟩ := hring.leaveEmpty hlt' rfl
      exact ⟨live', r, r + 1, t, hring', hset', ⟨hwalked.stream, hwalked.passed, hwalked.pBuf⟩, hdrop⟩
    | some b =>
      have hring' := hring.refill hlt' rfl b
      have hset' : Settled live (r + 1) (r + 1) := fun heq => absurd heq (by omega)
      have hfilled : Walked s g t ⟨(s.takeBuffer cur).state.refill b, (s.takeBuffer cur).pBuf⟩ :=
        ⟨hwalked.stream, hwalked.passed, hwalked.pBuf⟩
      obtain ⟨live', r', c', t', hlast, hsetLast, hwalkedLast, hdropLast⟩ := ih hring' hset' hwalked.pBuf
      refine ⟨live', r', c', t ++ t', hlast, hsetLast, hfilled.trans hwalkedLast, ?_⟩
      have hstream : ((s.takeBuffer cur).state.refill b).stream = s.stream := hwalked.stream
      rw [hstream] at hdropLast
      rw [hdrop, hdropLast, List.append_assoc]

theorem descEnd_eq (r : ℕ) :
    (if r % numRxDescriptors ≠ 0 then r % numRxDescriptors - 1 else numRxDescriptors - 1) =
      (r + 7) % numRxDescriptors := by
  rw [numRxDescriptors]
  split_ifs
  · omega
  · omega

theorem RxRing.of_freed (h : RxRing s live r c) (freed : List Chain) :
    RxRing { s with freed := freed } live r c :=
  ⟨h.read, h.dma, h.count, h.window, h.shown, h.place⟩

theorem tivaifReceive_state (hread : s.read = r % numRxDescriptors) (alloc : ℕ → Option PoolBlock) :
    ∃ freed, s.tivaifReceive alloc =
      { (RxState.receiveLoop ((r + 7) % numRxDescriptors) alloc numRxDescriptors ⟨s, []⟩).state with
        freed := freed } := by
  rw [RxState.tivaifReceive, hread, descEnd_eq]
  dsimp only
  split_ifs
  · exact ⟨_, rfl⟩
  · exact ⟨_, rfl⟩

theorem RxRing.tivaifReceive (h : RxRing s live r c) (hset : Settled live r c) (alloc : ℕ → Option PoolBlock) :
    ∃ live' r' c' t up, RxRing (s.tivaifReceive alloc) live' r' c' ∧ Settled live' r' c' ∧
      (s.tivaifReceive alloc).stream = s.stream ∧ (s.tivaifReceive alloc).passed = s.passed ++ up ∧
      List.Forall₂ ChainHolds up ((frames RxChunk.last [] t).filter goodFrame) ∧
      s.stream.drop c = t ++ s.stream.drop c' := by
  obtain ⟨freed, hstate⟩ := tivaifReceive_state h.read alloc
  obtain ⟨live', r', c', t, hring, hset', hwalked, hdrop⟩ := h.receiveLoop hset chainHolds_nil _ alloc numRxDescriptors
  obtain ⟨up, hup, hframes⟩ := hwalked.passed
  rw [hstate]
  exact ⟨live', r', c', t, up, hring.of_freed freed, hset', hwalked.stream, hup, hframes, hdrop⟩

theorem dmaStore_grows (s : RxState) (x : RxChunk) :
    (s.dmaStore x).passed = s.passed ∧ ∃ more, (s.dmaStore x).stream = s.stream ++ more := by
  rw [RxState.dmaStore]
  split_ifs
  · exact ⟨rfl, [x], rfl⟩
  · exact ⟨rfl, [], (List.append_nil _).symm⟩

theorem drop_grown {c c' : ℕ} {l t : List RxChunk} (h : l.drop c = t ++ l.drop c') (hc : c ≤ l.length)
    (hc' : c' ≤ l.length) (more : List RxChunk) : (l ++ more).drop c = t ++ (l ++ more).drop c' := by
  rw [List.drop_append_of_le_length hc, List.drop_append_of_le_length hc', h, List.append_assoc]

end Steps

/-- The stretches of chunks that the interrupts of a run read. -/
def walks (s : RxState) : List RxEvent → List (List RxChunk)
  | [] => []
  | .dma x :: es => walks (s.dmaStore x) es
  | .interrupt alloc :: es =>
    (s.stream.drop s.rxBufReadCount).take ((s.tivaifReceive alloc).rxBufReadCount - s.rxBufReadCount) ::
      walks (s.tivaifReceive alloc) es

def goodFrames (t : List RxChunk) : List (List RxChunk) := (frames RxChunk.last [] t).filter goodFrame

/-- The frames that end in the stretch `t` behind the chunks `before`, each with those of its chunks that are in `t`:
the first one has lost its head if `before` ends inside a frame. -/
def endedIn (before t : List RxChunk) : List (List RxChunk) :=
  (frames RxChunk.last (unfinished RxChunk.last [] before) t).modifyHead
    (List.drop (unfinished RxChunk.last [] before).length)

/-- What walks over one stretch after another pass up. -/
def passedUp (before : List RxChunk) : List (List RxChunk) → List (List RxChunk)
  | [] => []
  | t :: walks => (endedIn before t).filter goodFrame ++ passedUp (before ++ t) walks

theorem endedIn_eq (before t : List RxChunk) : endedIn before t = frames RxChunk.last [] t := by
  have h := @frames_modifyHead _ RxChunk.last (unfinished RxChunk.last [] before) [] t
  rwa [List.append_nil] at h

theorem passedUp_eq (before : List RxChunk) (walks : List (List RxChunk)) :
    passedUp before walks = walks.flatMap goodFrames := by
  induction walks generalizing before with
  | nil => rfl
  | cons t walks ih => rw [passedUp, endedIn_eq, ih, List.flatMap_cons, goodFrames]

theorem stretch_eq {c c' : ℕ} {l t : List RxChunk} (h : l.drop c = t ++ l.drop c') (hc : c ≤ l.length)
    (hc' : c' ≤ l.length) : (l.drop c).take (c' - c) = t := by
  have hlen := congrArg List.length h
  rw [List.length_append, List.length_drop, List.length_drop] at hlen
  rw [h, List.take_left' (by omega)]

theorem RxRing.run {s : RxState} {live : ℕ → RxDescriptor} {r c : ℕ} (h : RxRing s live r c) (hset : Settled live r c)
    (es : List RxEvent) :
    ∃ live' r' c' up more, RxRing (rxMachine.run s es) live' r' c' ∧ Settled live' r' c' ∧
      (rxMachine.run s es).stream = s.stream ++ more ∧
      (rxMachine.run s es).stream.drop c = (walks s es).flatten ++ (rxMachine.run s es).stream.drop c' ∧
      (rxMachine.run s es).passed = s.passed ++ up ∧ List.Forall₂ ChainHolds up ((walks s es).flatMap goodFrames) := by
  induction es generalizing s live r c with
  | nil => exact ⟨live, r, c, [], [], h, hset, (List.append_nil _).symm, rfl, (List.append_nil _).symm, .nil⟩
  | cons e es ih =>
    rw [Machine.run_cons]
    cases e with
    | dma x =>
      obtain ⟨live₁, hring, hset₁⟩ := h.dmaStore hset x
      obtain ⟨hpassed, more₁, hmore⟩ := dmaStore_grows s x
      obtain ⟨live', r', c', up, more, hlast, hsettled, hstream, hdrop, hup, hframes⟩ := ih hring hset₁
      rw [hmore, List.append_assoc] at hstream
      rw [hpassed] at hup
      exact ⟨live', r', c', up, more₁ ++ more, hlast, hsettled, hstream, hdrop, hup, hframes⟩
    | interrupt alloc =>
      obtain ⟨live₁, r₁, c₁, t, up₁, hring, hset₁, hsame, hpassed, hframes₁, hdrop₁⟩ := h.tivaifReceive hset alloc
      obtain ⟨live', r', c', up, more, hlast, hsettled, hstream, hdrop, hup, hframes⟩ := ih hring hset₁
      have hc₁ := hring.count_le
      rw [hsame] at hc₁ hstream
      rw [hpassed, List.append_assoc] at hup
      have hwalk : walks s (.interrupt alloc :: es) = t :: walks (s.tivaifReceive alloc) es := by
        rw [walks, h.count, hring.count, stretch_eq hdrop₁ h.count_le hc₁]
      refine ⟨live', r', c', up₁ ++ up, more, hlast, hsettled, hstream, ?_, hup, ?_⟩
      · have hgrown := drop_grown hdrop₁ h.count_le hc₁ more
        rw [← hstream, hdrop, ← List.append_assoc] at hgrown
        rw [hwalk]
        exact hgrown
      · rw [hwalk, List.flatMap_cons]
        exact List.rel_append hframes₁ hframes

theorem initRx_ring (mem : ℕ → PoolBlock) : RxRing (initRx mem) (initRx mem).descs 0 0 := by
  refine ⟨rfl, rfl, rfl, ⟨le_rfl, Nat.zero_le _, ?_, ?_⟩, ?_, .inl rfl⟩
  · exact fun k _ hk => absurd hk (Nat.not_lt_zero k)
  · exact fun k _ _ => ⟨rfl, mem _, rfl⟩
  · exact fun k hk _ => absurd hk (Nat.not_lt_zero k)

theorem run_ring_settled (mem : ℕ → PoolBlock) (es : List RxEvent) :
    ∃ live r c, RxRing (rxMachine.run (initRx mem) es) live r c ∧ Settled live r c := by
  obtain ⟨live, r, c, -, -, hring, hset, -⟩ := (initRx_ring mem).run (fun h => absurd h (by decide)) es
  exact ⟨live, r, c, hring, hset⟩

/-- The position of the descriptor that the driver is at: the chunk there is read already if its buffer is gone. -/
def RxState.place (s : RxState) : ℕ := s.rxBufReadCount - if (s.descs s.read).pBuf.isSome then 0 else 1

/-- The buffers that `pbuf_alloc` finds in the first of `n` calls, until one fails. -/
def granted (alloc : ℕ → Option PoolBlock) : ℕ → ℕ
  | 0 => 0
  | n + 1 => if (alloc n).isSome then granted alloc n + 1 else 0

section Progress

variable {s : RxState} {live : ℕ → RxDescriptor} {r c : ℕ}

theorem RxRing.place_eq (h : RxRing s live r c) (hset : Settled live r c) : s.place = r := by
  rw [RxState.place, h.count]
  obtain rfl | ⟨rfl, hlt, -⟩ := h.place
  · have hsome : (s.descs s.read).pBuf.isSome := by
      by_cases hlt : c < s.stream.length
      · obtain ⟨p, hp, -⟩ := (h.shown c hlt le_rfl).pBuf
        rw [h.at_read hlt, hp]
        rfl
      · have hle := h.window.le
        have hbusy := h.busy_iff.mpr (by omega)
        rw [RxState.busy, Bool.and_eq_true] at hbusy
        exact hbusy.1
    rw [if_pos hsome, Nat.sub_zero]
  · rw [h.at_read hlt, hset rfl]
    rfl

theorem RxRing.receiveLoop_count (h : RxRing s live r c) (hset : Settled live r c) {cur : Chain} {g : List RxChunk}
    (hcur : ChainHolds cur g) {e : ℕ} (hre : r ≤ e) (he : e < r + numRxDescriptors) (alloc : ℕ → Option PoolBlock)
    (n : ℕ) :
    (RxState.receiveLoop (e % numRxDescriptors) alloc n ⟨s, cur⟩).state.rxBufReadCount =
      max c (min s.stream.length (min e (r + min n (granted alloc n + 1)))) := by
  have hrc : r ≤ c ∧ c ≤ r + 1 := by
    obtain heq | ⟨heq, -, -⟩ := h.place
    · omega
    · omega
  induction n generalizing s live r c cur g with
  | zero =>
    change s.rxBufReadCount = _
    rw [h.count]
    omega
  | succ n ih =>
    rw [RxState.receiveLoop]
    by_cases hend : s.read = e % numRxDescriptors
    · rw [h.read] at hend
      have heq : r = e := @RingWindow.eq_of_mod numRxDescriptors r _ _ le_rfl (by omega) hre he hend
      rw [h.read, if_pos hend]
      change s.rxBufReadCount = _
      rw [h.count]
      omega
    by_cases hbusy : s.busy = true
    · have heq := h.busy_iff.mp hbusy
      rw [if_neg hend, if_pos hbusy]
      change s.rxBufReadCount = _
      rw [h.count]
      omega
    have hle := h.window.le
    have hlt : r < s.stream.length := by
      have := mt h.busy_iff.mpr hbusy
      omega
    have hbefore : r < e := by
      refine lt_of_le_of_ne hre fun heq => hend ?_
      rw [h.read, heq]
    obtain ⟨t, hring, hwalked, -⟩ := h.takeBuffer hset hlt hcur
    have hstream : (s.takeBuffer cur).state.stream = s.stream := hwalked.stream
    rw [if_neg hend, if_neg hbusy, granted]
    dsimp only
    cases alloc n with
    | none =>
      change (s.takeBuffer cur).state.rxBufReadCount = _
      rw [hring.count, Option.isSome_none, if_neg Bool.false_ne_true]
      omega
    | some b =>
      have hring' := hring.refill (by rw [hstream]; exact hlt) rfl b
      have hrest := ih hring' (fun heq => absurd heq (by omega)) hwalked.pBuf (by omega) (by omega) (by omega)
      have hsame : ((s.takeBuffer cur).state.refill b).stream = s.stream := hstream
      rw [hsame] at hrest
      rw [hrest, Option.isSome_some, if_pos rfl]
      omega

end Progress

/-- However the DMA, the interrupts and failing allocations interleave: the chunks that the DMA stored are read in
order, none twice and none left out, and each interrupt reads a stretch of them. It passes up the frames without error
that end in its stretch, in order, in chains of the buffers that are in the stretch. An interrupt reads all that the DMA
has stored, seven descriptors or what there are new buffers for. -/
theorem receives_in_order (mem : ℕ → PoolBlock) (es : List RxEvent) :
    let s := rxMachine.run (initRx mem) es
    s.stream.length ≤ s.rxBufReadCount + numRxDescriptors ∧
      (walks (initRx mem) es).flatten = s.stream.take s.rxBufReadCount ∧
      List.Forall₂ ChainHolds s.passed (passedUp [] (walks (initRx mem) es)) ∧
      ∀ alloc, (s.tivaifReceive alloc).rxBufReadCount =
        max s.rxBufReadCount (min s.stream.length (s.place + min 7 (granted alloc numRxDescriptors + 1))) := by
  intro s
  obtain ⟨live, r, c, up, more, hring, hset, -, hdrop, hup, hframes⟩ :=
    (initRx_ring mem).run (fun h => absurd h (by decide)) es
  have hc : s.rxBufReadCount = c := hring.count
  have hroom := hring.window.room
  have hrc : r ≤ c := by
    obtain heq | ⟨heq, -, -⟩ := hring.place
    · omega
    · omega
  refine ⟨?_, ?_, ?_, fun alloc => ?_⟩
  · change (rxMachine.run (initRx mem) es).stream.length ≤ _
    omega
  · rw [hc]
    have hsplit : (walks (initRx mem) es).flatten ++ s.stream.drop c = s.stream.take c ++ s.stream.drop c := by
      rw [List.take_append_drop, ← hdrop]
      rfl
    exact List.append_cancel_right hsplit
  · rw [hup, passedUp_eq]
    exact hframes
  · obtain ⟨freed, hstate⟩ := tivaifReceive_state hring.read alloc
    have hloop := hring.receiveLoop_count hset chainHolds_nil (show r ≤ r + 7 by omega)
      (show r + 7 < r + numRxDescriptors by rw [numRxDescriptors]; omega) alloc numRxDescriptors
    rw [hstate]
    dsimp only
    rw [hloop, hc, hring.place_eq hset, numRxDescriptors]
    change max c (min s.stream.length _) = _
    omega

end LogoCore.Emac
