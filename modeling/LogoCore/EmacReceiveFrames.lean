import LogoCore.EmacReceiveRing

namespace LogoCore.Emac

open Ethernet FrameSplitting

theorem receiveLoop_busy {s : RxState} {live : ℕ → RxDescriptor} {r c : ℕ} (h : RxRing s live r c)
    (heq : r = s.stream.length) (descEnd : ℕ) (alloc : ℕ → Option PoolBlock) (n : ℕ) (cur : Chain) :
    RxState.receiveLoop descEnd alloc (n + 1) ⟨s, cur⟩ = ⟨s, cur⟩ := by
  rw [RxState.receiveLoop, if_pos (h.busy_iff.mpr heq), ite_self]

section Allocated

variable {s : RxState} {live : ℕ → RxDescriptor} {r c : ℕ} {cur : Chain} {g : List RxChunk} {descEnd : ℕ}
  {alloc : ℕ → Option PoolBlock} (halloc : ∀ n, (alloc n).isSome)

include halloc

theorem receiveLoop_round (h : RxRing s live r c) (hset : Settled live r c) (hcur : ChainHolds cur g)
    (hlt : r < s.stream.length) (hend : s.read ≠ descEnd) (n : ℕ) :
    ∃ s' cur' g', RxState.receiveLoop descEnd alloc (n + 1) ⟨s, cur⟩ = RxState.receiveLoop descEnd alloc n ⟨s', cur'⟩ ∧
      RxRing s' live (r + 1) (r + 1) ∧ ChainHolds cur' g' ∧ s'.stream = s.stream := by
  obtain ⟨t, hring, hwalked, -⟩ := h.takeBuffer hset hlt hcur
  obtain ⟨b, hb⟩ := Option.isSome_iff_exists.mp (halloc n)
  have hbusy : ¬ s.busy = true := mt h.busy_iff.mp (by omega)
  have hlt' : r < (s.takeBuffer cur).state.stream.length := by rw [hwalked.stream]; exact hlt
  refine ⟨_, _, _, ?_, hring.refill hlt' rfl b, hwalked.pBuf, hwalked.stream⟩
  rw [RxState.receiveLoop, if_neg hend, if_neg hbusy]
  dsimp only
  rw [hb]

theorem receiveLoop_all (h : RxRing s live r r) (hcur : ChainHolds cur g) {e : ℕ}
    (hend : descEnd = e % numRxDescriptors) (he : e < r + numRxDescriptors) (hlen : s.stream.length ≤ e) {n : ℕ}
    (hn : s.stream.length - r ≤ n) :
    ∃ live', RxRing (RxState.receiveLoop descEnd alloc n ⟨s, cur⟩).state live' s.stream.length s.stream.length := by
  have hle := h.window.le
  induction n generalizing s r cur g with
  | zero =>
    have heq : r = s.stream.length := by omega
    exact ⟨live, heq ▸ h⟩
  | succ n ih =>
    by_cases hlt : r < s.stream.length
    · have hmod : s.read ≠ descEnd := by
        rw [h.read, hend]
        intro hmod
        have := @RingWindow.eq_of_mod numRxDescriptors r _ _ le_rfl (by omega) (by omega) he hmod
        omega
      obtain ⟨s', cur', g', hloop, hring, hcur', hstream⟩ :=
        receiveLoop_round halloc h (fun heq => absurd heq (by omega)) hcur hlt hmod n
      rw [hloop, ← hstream]
      rw [← hstream] at hlen hn hlt
      exact ih hring hcur' (by omega) hlen (by omega) hlt
    · have heq : r = s.stream.length := by omega
      rw [receiveLoop_busy h heq]
      exact ⟨live, heq ▸ h⟩

theorem receiveLoop_frees (h : RxRing s live r c) (hset : Settled live r c) (hcur : ChainHolds cur g) {n : ℕ}
    (hroom : s.stream.length < r + numRxDescriptors ∨ s.read ≠ descEnd ∧ n ≠ 0) :
    ∃ live' r' c', RxRing (RxState.receiveLoop descEnd alloc n ⟨s, cur⟩).state live' r' c' ∧
      (RxState.receiveLoop descEnd alloc n ⟨s, cur⟩).state.stream.length < r' + numRxDescriptors := by
  have hwithin := h.window.room
  have hle := h.window.le
  induction n generalizing s r c cur g with
  | zero => exact ⟨live, r, c, h, hroom.resolve_right fun hn => hn.2 rfl⟩
  | succ n ih =>
    by_cases hend : s.read = descEnd
    · rw [RxState.receiveLoop, if_pos hend]
      exact ⟨live, r, c, h, hroom.resolve_right fun hn => hn.1 hend⟩
    by_cases hlt : r < s.stream.length
    · obtain ⟨s', cur', g', hloop, hring, hcur', hstream⟩ := receiveLoop_round halloc h hset hcur hlt hend n
      rw [hloop]
      rw [← hstream] at hwithin
      exact ih hring (fun heq => absurd heq (by omega)) hcur' (.inl (by omega)) hring.window.room hring.window.le
    · rw [receiveLoop_busy h (by omega)]
      exact ⟨live, r, c, h, show s.stream.length < r + 8 by omega⟩

end Allocated

/-- Whatever happened before, an interrupt that finds buffers leaves the DMA a descriptor to go on with. -/
theorem interrupt_revives (mem : ℕ → PoolBlock) (es : List RxEvent) (alloc : ℕ → Option PoolBlock)
    (halloc : ∀ n, (alloc n).isSome) :
    let s := (rxMachine.run (initRx mem) es).tivaifReceive alloc
    (s.descs s.dma).own = true := by
  obtain ⟨live, r, c, hring, hset⟩ := run_ring_settled mem es
  obtain ⟨freed, hstate⟩ := tivaifReceive_state hring.read alloc
  have hend : (rxMachine.run (initRx mem) es).read ≠ (r + 7) % numRxDescriptors := by
    rw [hring.read, numRxDescriptors]
    omega
  obtain ⟨live', r', c', hring', hroom⟩ :=
    receiveLoop_frees halloc hring hset chainHolds_nil (.inr ⟨hend, show numRxDescriptors ≠ 0 by decide⟩)
  rw [hstate]
  dsimp only
  rw [hring'.dma]
  exact (hring'.window.blank _ le_rfl hroom).1

def sampleBlock (i : ℕ) : PoolBlock := ⟨i, List.replicate pbufPoolBufsize 0, List.length_replicate⟩

def sampleChunk : RxChunk := ⟨[1, 2, 3], true, false, 3, by decide, by decide⟩

def starved : List RxEvent := List.replicate 8 (.dma sampleChunk) ++ [.interrupt fun _ => none]

theorem starved_revives :
    ((rxMachine.run (initRx sampleBlock) starved).descs (rxMachine.run (initRx sampleBlock) starved).dma).own = false ∧
      (((rxMachine.run (initRx sampleBlock) starved).tivaifReceive fun n => some (sampleBlock n)).descs
        ((rxMachine.run (initRx sampleBlock) starved).tivaifReceive fun n => some (sampleBlock n)).dma).own = true :=
  ⟨by decide, interrupt_revives sampleBlock starved (fun n => some (sampleBlock n)) fun _ => rfl⟩

/-- Between two frames, with buffers to be had and less than the whole ring to read. -/
structure Calm (s : RxState) (alloc : ℕ → Option PoolBlock) : Prop where
  alloc : ∀ n, (alloc n).isSome
  unread : s.stream.length < s.rxBufReadCount + numRxDescriptors
  between : ∀ x ∈ s.stream.getLast?, x.last = true

def calmMachine : Machine RxState RxEvent where
  enabled s e :=
    match e with
    | .dma _ => True
    | .interrupt alloc => Calm s alloc
  step := rxStep

/-- All chunks that were read belong to complete frames, and the good ones were passed up. -/
structure Complete (s : RxState) (live : ℕ → RxDescriptor) (c : ℕ) : Prop where
  ring : RxRing s live c c
  unfinished : unfinished RxChunk.last [] (s.stream.take c) = []
  passed : List.Forall₂ ChainHolds s.passed (goodFrames (s.stream.take c))

section CalmSteps

variable {s : RxState} {live : ℕ → RxDescriptor} {c : ℕ}

theorem Complete.dmaStore (h : Complete s live c) (x : RxChunk) : ∃ live', Complete (s.dmaStore x) live' c := by
  obtain ⟨live', hring, -⟩ := h.ring.dmaStore (fun heq => absurd heq (by omega)) x
  obtain ⟨hpassed, more, hmore⟩ := dmaStore_grows s x
  have htake : (s.dmaStore x).stream.take c = s.stream.take c := by
    rw [hmore, List.take_append_of_le_length h.ring.count_le]
  refine ⟨live', hring, ?_, ?_⟩
  · rw [htake]
    exact h.unfinished
  · rw [htake, hpassed]
    exact h.passed

theorem Complete.receives_all (h : Complete s live c) {alloc : ℕ → Option PoolBlock} (hcalm : Calm s alloc) :
    ∃ live', RxRing (s.tivaifReceive alloc) live' s.stream.length s.stream.length := by
  have hle := h.ring.count_le
  have hunread := hcalm.unread
  rw [h.ring.count] at hunread
  obtain ⟨freed, hstate⟩ := tivaifReceive_state h.ring.read alloc
  rw [numRxDescriptors] at hunread
  obtain ⟨live', hring⟩ := receiveLoop_all hcalm.alloc h.ring chainHolds_nil rfl
    (show c + 7 < c + numRxDescriptors by rw [numRxDescriptors]; omega) (by omega)
    (show s.stream.length - c ≤ numRxDescriptors by rw [numRxDescriptors]; omega)
  rw [hstate]
  exact ⟨live', hring.of_freed freed⟩

theorem Complete.tivaifReceive (h : Complete s live c) {alloc : ℕ → Option PoolBlock} (hcalm : Calm s alloc) :
    (s.tivaifReceive alloc).stream = s.stream ∧ ∃ live', Complete (s.tivaifReceive alloc) live' s.stream.length := by
  obtain ⟨live', hall⟩ := h.receives_all hcalm
  obtain ⟨live₁, r₁, c₁, t, up, hring, -, hsame, hpassed, hframes, hdrop⟩ :=
    h.ring.tivaifReceive (fun heq => absurd heq (by omega)) alloc
  have hc : c₁ = s.stream.length := hring.count.symm.trans hall.count
  rw [hc, List.drop_length, List.append_nil] at hdrop
  have hsplit : s.stream.take c ++ t = s.stream := by rw [← hdrop, List.take_append_drop]
  have htake : (s.tivaifReceive alloc).stream.take s.stream.length = s.stream := by rw [hsame, List.take_length]
  refine ⟨hsame, live', hall, ?_, ?_⟩
  · rw [htake]
    cases hnil : s.stream with
    | nil => rfl
    | cons x l => exact unfinished_of_last (List.cons_ne_nil _ _) (hnil ▸ hcalm.between)
  · rw [htake, hpassed, goodFrames, ← hsplit, frames_append, h.unfinished, List.filter_append]
    exact List.rel_append h.passed hframes

end CalmSteps

theorem run_complete {mem : ℕ → PoolBlock} {es : List RxEvent} (hes : calmMachine.Legal (initRx mem) es) :
    ∃ live c, Complete (calmMachine.run (initRx mem) es) live c := by
  refine calmMachine.invariant (I := fun s => ∃ live c, Complete s live c) ?_ ?_ hes
  · rintro s e he ⟨live, c, h⟩
    cases e with
    | dma x =>
      obtain ⟨live', h'⟩ := h.dmaStore x
      exact ⟨live', c, h'⟩
    | interrupt alloc =>
      obtain ⟨-, live', h'⟩ := h.tivaifReceive he
      exact ⟨live', _, h'⟩
  · exact ⟨_, 0, initRx_ring mem, rfl, .nil⟩

/-- A frame on the wire with the error bit of the MAC. -/
structure WireFrame where
  bytes : List UInt8
  err : Bool
  short : bytes.length < 16384

def chunksFrom (err : Bool) (total : ℕ) (htotal : total < 16384) : ℕ → List UInt8 → List RxChunk
  | 0, _ => []
  | n + 1, bytes =>
    if h : bytes.length ≤ pbufPoolBufsize then [⟨bytes, true, err, total, h, htotal⟩]
    else
      ⟨bytes.take pbufPoolBufsize, false, false, 0, List.length_take_le _ _, by decide⟩ ::
        chunksFrom err total htotal n (bytes.drop pbufPoolBufsize)

def WireFrame.chunks (f : WireFrame) : List RxChunk :=
  chunksFrom f.err f.bytes.length f.short (f.bytes.length + 1) f.bytes

section Chunks

variable {err : Bool} {total : ℕ} {htotal : total < 16384} {n : ℕ} {bytes : List UInt8}

theorem chunksFrom_group (hn : bytes.length < n) :
    ∃ front x, chunksFrom err total htotal n bytes = front ++ [x] ∧ (∀ y ∈ front, y.last = false) ∧ x.last = true ∧
      x.err = err := by
  induction n generalizing bytes with
  | zero => exact absurd hn (Nat.not_lt_zero _)
  | succ n ih =>
    rw [chunksFrom]
    split_ifs with hshort
    · exact ⟨[], _, rfl, fun y hy => absurd hy List.not_mem_nil, rfl, rfl⟩
    · have hdrop : (bytes.drop pbufPoolBufsize).length < n := by
        have hsize : pbufPoolBufsize = 512 := rfl
        rw [List.length_drop]
        omega
      obtain ⟨front, x, heq, hfront, hx⟩ := ih hdrop
      refine ⟨_ :: front, x, by rw [heq]; rfl, fun y hy => ?_, hx⟩
      obtain rfl | hy := List.mem_cons.mp hy
      · rfl
      · exact hfront y hy

theorem chainLen_chunksFrom (hn : bytes.length < n) :
    total ≤ chainLen (chunksFrom err total htotal n bytes) ∧
      chainLen (chunksFrom err total htotal n bytes) ≤ bytes.length + total ∧
      (pbufPoolBufsize < bytes.length → total < chainLen (chunksFrom err total htotal n bytes)) := by
  induction n generalizing bytes with
  | zero => exact absurd hn (Nat.not_lt_zero _)
  | succ n ih =>
    rw [chunksFrom]
    split_ifs with hshort
    · have hlen : chainLen [⟨bytes, true, err, total, hshort, htotal⟩] = total := Nat.add_zero total
      rw [hlen]
      exact ⟨le_rfl, by omega, fun hlong => by omega⟩
    · have hlength : (bytes.drop pbufPoolBufsize).length = bytes.length - pbufPoolBufsize := List.length_drop
      have hsize : pbufPoolBufsize = 512 := rfl
      obtain ⟨hlow, hhigh, -⟩ := ih (show (bytes.drop pbufPoolBufsize).length < n by omega)
      rw [chainLen]
      change total ≤ pbufPoolBufsize + _ ∧ pbufPoolBufsize + _ ≤ _ ∧ (_ → total < pbufPoolBufsize + _)
      exact ⟨by omega, by omega, fun _ => by omega⟩

theorem bytes_shrink_chunks (hn : bytes.length < n) (hbytes : bytes.length ≤ total) {cut left : ℕ}
    (hleft : left ≤ bytes.length) {c : Chain} (hc : List.Forall₂ Filled c (chunksFrom err total htotal n bytes)) :
    Chain.bytes (shrink cut left c) = bytes.take left := by
  induction n generalizing bytes left c with
  | zero => exact absurd hn (Nat.not_lt_zero _)
  | succ n ih =>
    rw [chunksFrom] at hc
    split_ifs at hc with hshort
    · obtain ⟨p, c', hp, hc', rfl⟩ := List.forall₂_cons_right_iff.mp hc
      obtain rfl := List.forall₂_nil_right_iff.mp hc'
      have hlen : p.len = total := hp.len
      obtain ⟨rest, hpayload⟩ := hp.data
      dsimp only at hpayload
      rw [shrink, if_neg (by omega), Chain.bytes, List.flatMap_singleton, Pbuf.bytes, ← hpayload,
        List.take_append_of_le_length hleft]
    · obtain ⟨p, c', hp, hc', rfl⟩ := List.forall₂_cons_right_iff.mp hc
      have hlen : p.len = pbufPoolBufsize := hp.len
      have hfull : (bytes.take pbufPoolBufsize).length = pbufPoolBufsize := List.length_take_of_le (by omega)
      have hpayload : p.payload = bytes.take pbufPoolBufsize :=
        (hp.data.eq_of_length (by rw [hp.size]; exact hfull)).symm
      have hdrop : (bytes.drop pbufPoolBufsize).length = bytes.length - pbufPoolBufsize := List.length_drop
      have hsize : pbufPoolBufsize = 512 := rfl
      rw [shrink]
      by_cases hmore : left > p.len
      · have hp' : Pbuf.bytes { p with totLen := (p.totLen + 65536 - cut) % 65536 } = bytes.take p.len := by
          rw [Pbuf.bytes, hpayload, hlen, List.take_take, Nat.min_self]
        rw [if_pos hmore, Chain.bytes_cons, hp', hlen, ih (by omega) (by omega) (by omega) hc', ← List.take_add,
          Nat.add_sub_cancel' (by omega)]
      · rw [if_neg hmore, Chain.bytes, List.flatMap_singleton, Pbuf.bytes]
        dsimp only
        rw [hpayload, List.take_take, Nat.min_eq_left (by omega)]

end Chunks

theorem bytes_realloc_chunks {c : Chain} {f : WireFrame} (h : ChainHolds c f.chunks) {n : ℕ}
    (hn : n ≤ f.bytes.length) :
    Chain.bytes (pbufRealloc c n) = f.bytes.take n := by
  have hfuel : f.bytes.length < f.bytes.length + 1 := Nat.lt_succ_self _
  obtain ⟨hlow, hhigh, hlong⟩ := @chainLen_chunksFrom f.err _ f.short _ _ hfuel
  have hshort := f.short
  have htot : Chain.totLen c = chainLen f.chunks := by
    rw [h.totLen, Nat.mod_eq_of_lt]
    change chainLen (chunksFrom _ _ _ _ _) < 65536
    omega
  rw [pbufRealloc, htot]
  by_cases hge : n ≥ chainLen f.chunks
  · rw [if_pos hge]
    have hone : f.bytes.length ≤ pbufPoolBufsize := by
      by_contra hmore
      have := hlong (by omega)
      change n ≥ chainLen (chunksFrom _ _ _ _ _) at hge
      omega
    have hchunks : f.chunks = [⟨f.bytes, true, f.err, f.bytes.length, hone, f.short⟩] := by
      rw [WireFrame.chunks, chunksFrom, dif_pos hone]
    obtain ⟨p, c', hp, hc', rfl⟩ := List.forall₂_cons_right_iff.mp (hchunks ▸ h.filled)
    obtain rfl := List.forall₂_nil_right_iff.mp hc'
    obtain ⟨rest, hpayload⟩ := hp.data
    have hlen : p.len = f.bytes.length := hp.len
    have heq : n = f.bytes.length := by
      change n ≥ chainLen (chunksFrom _ _ _ _ _) at hge
      omega
    rw [Chain.bytes, List.flatMap_singleton, Pbuf.bytes, hlen, heq, ← hpayload, List.take_left, List.take_length]
  · rw [if_neg hge]
    exact bytes_shrink_chunks hfuel le_rfl hn h.filled

theorem WireFrame.chunks_group (f : WireFrame) :
    ∃ front x, f.chunks = front ++ [x] ∧ (∀ y ∈ front, y.last = false) ∧ x.last = true ∧ x.err = f.err :=
  chunksFrom_group (Nat.lt_succ_self f.bytes.length)

theorem frames_chunks (fs : List WireFrame) :
    frames RxChunk.last [] (fs.flatMap WireFrame.chunks) = fs.map WireFrame.chunks := by
  induction fs with
  | nil => rfl
  | cons f fs ih =>
    obtain ⟨front, x, hchunks, hfront, hx, -⟩ := f.chunks_group
    rw [List.flatMap_cons, List.map_cons, hchunks, List.append_assoc, List.singleton_append,
      frames_group hfront hx, ih, List.nil_append]

theorem goodFrame_chunks (f : WireFrame) : goodFrame f.chunks = !f.err := by
  obtain ⟨front, x, hchunks, -, -, herr⟩ := f.chunks_group
  rw [hchunks, goodFrame, List.getLast?_concat, ← herr]
  rfl

/-- If the interrupts come between frames, with buffers to be had and less than the whole ring to read, then after one
of them all frames without error have been passed up, in order; and cut to any length within the frame, the chain of a
frame has the bytes of the frame, whatever its number of buffers. -/
theorem calm_receives_frames (mem : ℕ → PoolBlock) (es : List RxEvent) (hes : calmMachine.Legal (initRx mem) es)
    (alloc : ℕ → Option PoolBlock) (hcalm : Calm (calmMachine.run (initRx mem) es) alloc) (fs : List WireFrame)
    (hfs : (calmMachine.run (initRx mem) es).stream = fs.flatMap WireFrame.chunks) :
    List.Forall₂ (fun c f => ∀ n ≤ f.bytes.length, Chain.bytes (pbufRealloc c n) = f.bytes.take n)
      ((calmMachine.run (initRx mem) es).tivaifReceive alloc).passed (fs.filter fun f => !f.err) := by
  obtain ⟨live, c, h⟩ := run_complete hes
  obtain ⟨hsame, live', hcomplete⟩ := h.tivaifReceive hcalm
  have hpassed := hcomplete.passed
  have hfilter : (fs.map WireFrame.chunks).filter goodFrame = (fs.filter fun f => !f.err).map WireFrame.chunks := by
    rw [List.filter_map]
    refine congrArg _ (List.filter_congr fun f _ => goodFrame_chunks f)
  rw [hsame, List.take_length, hfs, goodFrames, frames_chunks, hfilter, List.forall₂_map_right_iff] at hpassed
  exact hpassed.imp fun c f hc n hn => bytes_realloc_chunks hc hn

def sampleFrame : WireFrame := ⟨List.replicate 513 7, false, by rw [List.length_replicate]; decide⟩

def sampleHead : RxChunk where
  data := List.replicate 512 7
  last := false
  err := false
  frameLength := 0
  fits := by rw [List.length_replicate]
  short := by decide

def sampleTail : RxChunk := ⟨[7], true, false, 513, by decide, by decide⟩

theorem sampleFrame_chunks : sampleFrame.chunks = [sampleHead, sampleTail] := by
  have hlength : sampleFrame.bytes.length = 513 := List.length_replicate
  have htake : sampleFrame.bytes.take pbufPoolBufsize = List.replicate 512 7 := List.take_replicate ..
  have hdrop : sampleFrame.bytes.drop pbufPoolBufsize = [7] := List.drop_replicate ..
  have hlong : ¬ sampleFrame.bytes.length ≤ pbufPoolBufsize := by rw [hlength]; decide
  have hshort : (sampleFrame.bytes.drop pbufPoolBufsize).length ≤ pbufPoolBufsize := by rw [hdrop]; decide
  have htwo : ∀ total fuel (htotal : total < 16384), total = 513 → fuel = 514 →
      chunksFrom false total htotal fuel sampleFrame.bytes = [sampleHead, sampleTail] := by
    rintro _ _ _ rfl rfl
    rw [chunksFrom, dif_neg hlong, chunksFrom, dif_pos hshort]
    simp only [htake, hdrop]
    rfl
  exact htwo _ _ sampleFrame.short hlength (by rw [hlength])

def sampleArrival : List RxEvent := [.dma sampleHead, .dma sampleTail]

theorem sampleArrival_calm :
    Calm (calmMachine.run (initRx sampleBlock) sampleArrival) fun n => some (sampleBlock n) := by
  refine ⟨fun _ => rfl, by decide, fun x hx => ?_⟩
  obtain rfl := Option.some.inj hx
  rfl

theorem sampleFrame_received :
    List.Forall₂ (fun c f => ∀ n ≤ f.bytes.length, Chain.bytes (pbufRealloc c n) = f.bytes.take n)
      ((calmMachine.run (initRx sampleBlock) sampleArrival).tivaifReceive fun n => some (sampleBlock n)).passed
      [sampleFrame] :=
  calm_receives_frames sampleBlock sampleArrival ⟨trivial, trivial, trivial⟩ (fun n => some (sampleBlock n))
    sampleArrival_calm [sampleFrame] (by rw [List.flatMap_singleton, sampleFrame_chunks]; rfl)

end LogoCore.Emac
