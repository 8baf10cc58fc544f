import LogoCore.PbufBuffers

namespace LogoCore.Ethernet

abbrev udpTxPacketMaxSize : ℕ := 2048

/-- The send side of `EthernetUDP` between `beginPacket` and `endPacket`; `written` is `_write`. -/
structure UdpSender where
  sendTop : Chain
  written : ℕ

namespace UdpSender

/-- `none` is the failure of `pbuf_alloc`, for which `beginPacket` returns false. -/
def beginPacket (pool : List PoolBlock) : Option UdpSender :=
  (pbufAlloc transportOffset udpTxPacketMaxSize pool).map fun c => ⟨c, 0⟩

def avail (s : UdpSender) : ℕ := (Chain.totLen s.sendTop + 65536 - s.written) % 65536

/-- The variable `size` of `write`, cut down to the space available. -/
def size (s : UdpSender) (buffer : List UInt8) : ℕ :=
  if buffer.length > s.avail then s.avail else buffer.length

def write (s : UdpSender) (buffer : List UInt8) : ℕ × UdpSender :=
  if s.avail = 0 then (0, s)
  else (s.size buffer, ⟨pbufTake s.sendTop (buffer.take (s.size buffer)), (s.written + s.size buffer) % 65536⟩)

/-- The payload that `endPacket` passes to `udp_sendto`. -/
def endPacket (s : UdpSender) : List UInt8 := Chain.bytes (pbufRealloc s.sendTop s.written)

/-- The results of successive calls of `write`, where `write(b)` is the call with the one byte. -/
def writes : UdpSender → List (List UInt8) → List ℕ × UdpSender
  | s, [] => ([], s)
  | s, w :: ws => ((s.write w).1 :: ((s.write w).2.writes ws).1, ((s.write w).2.writes ws).2)

def accepted (ws : List (List UInt8)) (counts : List ℕ) : List UInt8 :=
  (List.zipWith (fun w n => w.take n) ws counts).flatten

structure Open (s : UdpSender) : Prop where
  holds : s.sendTop.Holds udpTxPacketMaxSize
  written : s.written ≤ udpTxPacketMaxSize

def clip : ℕ → List (List UInt8) → List ℕ
  | _, [] => []
  | room, w :: ws => min w.length room :: clip (room - min w.length room) ws

variable {s : UdpSender} {w : List UInt8} {ws : List (List UInt8)}

theorem open_beginPacket {pool : List PoolBlock} (h : beginPacket pool = some s) : s.Open ∧ s.written = 0 := by
  obtain ⟨c, hc, rfl⟩ := Option.map_eq_some_iff.mp h
  exact ⟨⟨Chain.holds_pbufAlloc hc, Nat.zero_le _⟩, rfl⟩

theorem Open.avail (h : s.Open) : s.avail = udpTxPacketMaxSize - s.written := by
  have hle := h.written
  rw [UdpSender.avail, h.holds.totLen]
  simp only [udpTxPacketMaxSize] at hle ⊢
  omega

theorem Open.size (h : s.Open) (w : List UInt8) : s.size w = min w.length (udpTxPacketMaxSize - s.written) := by
  rw [UdpSender.size, ← h.avail]
  split_ifs <;> omega

theorem Open.write_fst (h : s.Open) (w : List UInt8) :
    (s.write w).1 = min w.length (udpTxPacketMaxSize - s.written) := by
  rw [write]
  split_ifs with hz
  · rw [← h.avail, hz, Nat.min_zero]
  · exact h.size w

theorem Open.length_take (h : s.Open) (w : List UInt8) : (w.take (s.write w).1).length = (s.write w).1 := by
  rw [List.length_take, h.write_fst w]
  omega

theorem Open.write_snd (h : s.Open) (w : List UInt8) :
    (s.write w).2.Open ∧ (s.write w).2.written = s.written + (s.write w).1 ∧
      Chain.bytes (s.write w).2.sendTop = w.take (s.write w).1 ++ (Chain.bytes s.sendTop).drop (s.write w).1 := by
  have hfst := h.write_fst w
  have hle := h.written
  have htake := h.holds.take (show (w.take (s.write w).1).length ≤ udpTxPacketMaxSize by
    rw [h.length_take, hfst]
    omega)
  rw [h.length_take] at htake
  by_cases hz : s.avail = 0
  · have hw : s.write w = (0, s) := by rw [write, if_pos hz]
    rw [hw]
    exact ⟨h, rfl, rfl⟩
  · have hw : s.write w = (s.size w, ⟨pbufTake s.sendTop (w.take (s.size w)), (s.written + s.size w) % 65536⟩) := by
      rw [write, if_neg hz]
    have hsize : s.size w = (s.write w).1 := by rw [hw]
    have hmod : (s.written + (s.write w).1) % 65536 = s.written + (s.write w).1 := by
      rw [hfst]
      simp only [udpTxPacketMaxSize] at hle ⊢
      omega
    rw [hsize, hmod] at hw
    have hsnd := congrArg Prod.snd hw
    dsimp only at hsnd
    refine ⟨⟨?_, ?_⟩, ?_, ?_⟩
    · rw [hsnd]
      exact htake.1
    · rw [hsnd]
      dsimp only
      omega
    · rw [hsnd]
    · rw [hsnd]
      exact htake.2

theorem Open.writes (h : s.Open) (ws : List (List UInt8)) :
    (s.writes ws).1 = clip (udpTxPacketMaxSize - s.written) ws ∧ (s.writes ws).2.Open ∧
      (s.writes ws).2.written = s.written + (s.writes ws).1.sum := by
  induction ws generalizing s with
  | nil => exact ⟨rfl, h, rfl⟩
  | cons w ws ih =>
    obtain ⟨hopen, hwritten, -⟩ := h.write_snd w
    obtain ⟨hcounts, hopen', hsum⟩ := ih hopen
    have hfst := h.write_fst w
    refine ⟨?_, hopen', ?_⟩
    · rw [UdpSender.writes, clip, hcounts, hwritten, hfst, Nat.sub_sub]
    · rw [UdpSender.writes, hsum, hwritten, List.sum_cons, Nat.add_assoc]

theorem writes_nil (s : UdpSender) : (s.writes []).2 = s := rfl

theorem writes_snd (s : UdpSender) (w : List UInt8) (ws : List (List UInt8)) :
    (s.writes (w :: ws)).2 = ((s.write w).2.writes ws).2 := by
  rw [writes]

theorem Open.endPacket (h : s.Open) :
    s.endPacket = (Chain.bytes s.sendTop).take s.written ∧ s.endPacket.length = s.written := by
  have hbytes : s.endPacket = (Chain.bytes s.sendTop).take s.written := h.holds.realloc s.written
  have hle := h.written
  refine ⟨hbytes, ?_⟩
  rw [hbytes, List.length_take, h.holds.length]
  omega

/-- At most one call writes anything, or the first that does fills the datagram. -/
def SingleWrite (ws : List (List UInt8)) : Prop :=
  ∀ w rest, ws.filter (fun w => !w.isEmpty) = w :: rest → rest = [] ∨ udpTxPacketMaxSize ≤ w.length

theorem filter_cons_nonempty (hw : w ≠ []) (ws : List (List UInt8)) :
    (w :: ws).filter (fun w => !w.isEmpty) = w :: ws.filter fun w => !w.isEmpty := by
  simp [hw]

theorem Open.idle (h : s.Open) (hidle : s.written = udpTxPacketMaxSize ∨ ws.filter (fun w => !w.isEmpty) = []) :
    Chain.bytes (s.writes ws).2.sendTop = Chain.bytes s.sendTop ∧ (s.writes ws).1.sum = 0 ∧
      accepted ws (s.writes ws).1 = [] := by
  induction ws generalizing s with
  | nil => exact ⟨rfl, rfl, rfl⟩
  | cons w ws ih =>
    obtain ⟨hopen, hwritten, hbytes⟩ := h.write_snd w
    have hzero : (s.write w).1 = 0 := by
      rw [h.write_fst w]
      obtain hfull | hnone := hidle
      · omega
      · cases w with
        | nil => exact Nat.zero_min _
        | cons a w => simp at hnone
    rw [hzero] at hwritten hbytes
    have hrest : (s.write w).2.written = udpTxPacketMaxSize ∨ ws.filter (fun w => !w.isEmpty) = [] := by
      obtain hfull | hnone := hidle
      · exact .inl (hwritten.trans hfull)
      · cases w with
        | nil => exact .inr hnone
        | cons a w => simp at hnone
    obtain ⟨hb, hs, ha⟩ := ih hopen hrest
    unfold accepted at ha
    refine ⟨hb.trans hbytes, ?_, ?_⟩
    · rw [UdpSender.writes, List.sum_cons, hs, hzero]
    · rw [UdpSender.writes, accepted, List.zipWith_cons_cons, List.flatten_cons, ha, hzero]
      rfl

theorem Open.payload_of_single (h : s.Open) (hz : s.written = 0) (hw : SingleWrite ws) :
    (s.writes ws).2.endPacket = accepted ws (s.writes ws).1 := by
  induction ws generalizing s with
  | nil =>
    rw [UdpSender.writes, h.endPacket.1, hz]
    rfl
  | cons w ws ih =>
    obtain ⟨hopen, hwritten, hbytes⟩ := h.write_snd w
    have hfst := h.write_fst w
    rw [hz, Nat.zero_add] at hwritten
    by_cases hnil : w = []
    · subst hnil
      have hzero : (s.write []).1 = 0 := by rw [hfst]; exact Nat.zero_min _
      have hrest := ih hopen (hwritten.trans hzero) hw
      unfold accepted at hrest
      rw [UdpSender.writes, hrest, accepted, List.zipWith_cons_cons, List.flatten_cons, hzero]
      rfl
    · have hidle : (s.write w).2.written = udpTxPacketMaxSize ∨ ws.filter (fun w => !w.isEmpty) = [] := by
        obtain hrest | hfull := hw w _ (filter_cons_nonempty hnil ws)
        · exact .inr hrest
        · left
          rw [hwritten, hfst, hz]
          omega
      obtain ⟨hb, hsum, hacc⟩ := hopen.idle hidle
      obtain ⟨-, hopen', hwritten'⟩ := hopen.writes ws
      unfold accepted at hacc
      rw [UdpSender.writes, hopen'.endPacket.1, hwritten', hsum, Nat.add_zero, hb, hbytes, hwritten, accepted,
        List.zipWith_cons_cons, List.flatten_cons, hacc, List.append_nil]
      exact List.take_left' (h.length_take w)

def top (counts : List ℕ) : ℕ := counts.foldr max 0

theorem Open.untouched (h : s.Open) (ws : List (List UInt8)) {m : ℕ} (hm : top (s.writes ws).1 ≤ m) :
    (Chain.bytes (s.writes ws).2.sendTop).drop m = (Chain.bytes s.sendTop).drop m := by
  induction ws generalizing s with
  | nil => rfl
  | cons w ws ih =>
    obtain ⟨hopen, -, hbytes⟩ := h.write_snd w
    rw [UdpSender.writes, top, List.foldr_cons] at hm
    have hlen := h.length_take w
    rw [UdpSender.writes, ih hopen ((le_max_right _ _).trans hm), hbytes, List.drop_append, List.drop_drop, hlen,
      List.drop_eq_nil_of_le (by rw [hlen]; exact (le_max_left _ _).trans hm), List.nil_append,
      Nat.add_sub_cancel' ((le_max_left _ _).trans hm)]

theorem top_le_sum (counts : List ℕ) : top counts ≤ counts.sum := by
  induction counts with
  | nil => exact Nat.le_refl _
  | cons n counts ih =>
    unfold top at ih ⊢
    rw [List.foldr_cons, List.sum_cons]
    omega

theorem idle_of_clip {room : ℕ} (h : (clip room ws).sum = 0) :
    room = 0 ∨ ws.filter (fun w => !w.isEmpty) = [] := by
  induction ws generalizing room with
  | nil => exact .inr rfl
  | cons w ws ih =>
    rw [clip, List.sum_cons] at h
    have hmin : min w.length room = 0 := by omega
    cases w with
    | nil => exact ih (by rw [hmin, Nat.sub_zero] at h; omega)
    | cons a w =>
      left
      rw [List.length_cons] at hmin
      omega

theorem singleWrite_of_clip (h : (clip udpTxPacketMaxSize ws).sum ≤ top (clip udpTxPacketMaxSize ws)) :
    SingleWrite ws := by
  induction ws with
  | nil =>
    intro w rest hw
    simp at hw
  | cons w ws ih =>
    by_cases hnil : w = []
    · subst hnil
      apply ih
      simpa [clip, top] using h
    · have hpos := List.length_pos_iff.mpr hnil
      have hle := top_le_sum (clip (udpTxPacketMaxSize - min w.length udpTxPacketMaxSize) ws)
      unfold top at hle
      rw [clip, List.sum_cons, top, List.foldr_cons] at h
      have hrest : (clip (udpTxPacketMaxSize - min w.length udpTxPacketMaxSize) ws).sum = 0 := by
        simp only [udpTxPacketMaxSize] at h hle ⊢
        omega
      intro v rest hv
      rw [filter_cons_nonempty hnil, List.cons.injEq] at hv
      obtain ⟨rfl, rfl⟩ := hv
      obtain hroom | hempty := idle_of_clip hrest
      · right
        omega
      · exact .inl hempty

def uniformPool (b : UInt8) : List PoolBlock :=
  List.replicate 5 ⟨0, List.replicate pbufPoolBufsize b, List.length_replicate⟩

theorem bytes_allocTail {b : UInt8} {pool : List PoolBlock} (hpool : ∀ q ∈ pool, ∀ x ∈ q.mem, x = b) {left : ℕ}
    {c : Chain} (h : allocTail left pool = some c) : ∀ x ∈ Chain.bytes c, x = b := by
  induction pool generalizing left c with
  | nil =>
    cases left with
    | zero =>
      obtain rfl := Option.some.inj h
      simp [Chain.bytes]
    | succ left => simp [allocTail] at h
  | cons q pool ih =>
    cases left with
    | zero =>
      obtain rfl := Option.some.inj h
      simp [Chain.bytes]
    | succ left =>
      rw [allocTail, Option.map_eq_some_iff] at h
      obtain ⟨t, ht, rfl⟩ := h
      intro x hx
      rw [Chain.bytes_cons, List.mem_append] at hx
      obtain hx | hx := hx
      · exact hpool q (by simp) x (List.mem_of_mem_take hx)
      · exact ih (fun r hr => hpool r (by simp [hr])) ht x hx

theorem bytes_beginPacket {b : UInt8} {pool : List PoolBlock} (hpool : ∀ q ∈ pool, ∀ x ∈ q.mem, x = b)
    (h : beginPacket pool = some s) : ∀ x ∈ Chain.bytes s.sendTop, x = b := by
  obtain ⟨c, hc, rfl⟩ := Option.map_eq_some_iff.mp h
  cases pool with
  | nil => simp [pbufAlloc] at hc
  | cons q pool =>
    obtain ⟨t, ht, rfl⟩ := Option.map_eq_some_iff.mp hc
    intro x hx
    rw [Chain.bytes_cons, List.mem_append] at hx
    obtain hx | hx := hx
    · exact hpool q (by simp) x (List.mem_of_mem_drop (List.mem_of_mem_take hx))
    · exact bytes_allocTail (fun r hr => hpool r (by simp [hr])) ht x hx

theorem exists_allocTail (left : ℕ) (pool : List PoolBlock) (h : left ≤ pbufPoolBufsize * pool.length) :
    ∃ c, allocTail left pool = some c := by
  induction pool generalizing left with
  | nil =>
    obtain rfl := Nat.le_zero.mp h
    exact ⟨[], rfl⟩
  | cons q pool ih =>
    cases left with
    | zero => exact ⟨[], rfl⟩
    | succ left =>
      rw [List.length_cons, Nat.mul_succ] at h
      obtain ⟨t, ht⟩ := ih (left + 1 - min (left + 1) pbufPoolBufsize) (by omega)
      exact ⟨_, by rw [allocTail, ht]; rfl⟩

theorem exists_uniform (b : UInt8) :
    ∃ s, beginPacket (uniformPool b) = some s ∧ ∀ x ∈ Chain.bytes s.sendTop, x = b := by
  have hlen : (uniformPool b).tail.length = 4 := by simp [uniformPool]
  obtain ⟨t, ht⟩ := exists_allocTail (udpTxPacketMaxSize - min udpTxPacketMaxSize (pbufPoolBufsize - transportOffset))
    (uniformPool b).tail (by rw [hlen]; decide)
  obtain ⟨s, hs⟩ : ∃ s, beginPacket (uniformPool b) = some s :=
    ⟨_, congrArg (Option.map fun c => UdpSender.mk c 0) (congrArg (Option.map _) ht)⟩
  refine ⟨s, hs, bytes_beginPacket (fun q hq x hx => ?_) hs⟩
  rw [uniformPool, List.mem_replicate] at hq
  rw [hq.2] at hx
  exact (List.mem_replicate.mp hx).2

theorem Open.getElem?_endPacket (h : s.Open) (hz : s.written = 0) (ws : List (List UInt8))
    (hlt : top (s.writes ws).1 < (s.writes ws).1.sum) :
    (s.writes ws).2.endPacket[top (s.writes ws).1]? = (Chain.bytes s.sendTop)[top (s.writes ws).1]? := by
  obtain ⟨-, hopen, hwritten⟩ := h.writes ws
  have hsame := congrArg (fun l => l[0]?) (h.untouched ws (Nat.le_refl _))
  simp only [List.getElem?_drop, Nat.add_zero] at hsame
  rw [hopen.endPacket.1, hwritten, hz, Nat.zero_add, List.getElem?_take_of_lt hlt, hsame]

theorem singleWrite_of_payload (h : ∀ pool s, beginPacket pool = some s →
    (s.writes ws).2.endPacket = accepted ws (s.writes ws).1) : SingleWrite ws := by
  by_contra hmany
  have hlt : top (clip udpTxPacketMaxSize ws) < (clip udpTxPacketMaxSize ws).sum := by
    by_contra hle
    exact hmany (singleWrite_of_clip (Nat.le_of_not_lt hle))
  have hbyte (b : UInt8) : (accepted ws (clip udpTxPacketMaxSize ws))[top (clip udpTxPacketMaxSize ws)]? = some b := by
    obtain ⟨s, hs, hall⟩ := exists_uniform b
    obtain ⟨hopen, hz⟩ := open_beginPacket hs
    obtain ⟨hcounts, hopen', hwritten⟩ := hopen.writes ws
    rw [hz, Nat.sub_zero] at hcounts
    have hget := hopen.getElem?_endPacket hz ws (by rw [hcounts]; exact hlt)
    rw [h _ s hs, hcounts] at hget
    have hin : top (clip udpTxPacketMaxSize ws) < (Chain.bytes s.sendTop).length := by
      have hle := hopen'.written
      rw [hwritten, hz, hcounts] at hle
      rw [hopen.holds.length]
      omega
    rw [hget, List.getElem?_eq_getElem hin, hall _ (List.getElem_mem hin)]
  have hsame := (hbyte 0).symm.trans (hbyte 1)
  exact absurd (Option.some.inj hsame) (by decide)

/-- The length of a datagram is the sum of the results of its writes. Its payload is what they accepted,
whatever the pool holds, exactly when no write follows another that left room. -/
theorem udp_datagram_concat_iff (ws : List (List UInt8)) :
    (∀ pool s, beginPacket pool = some s →
      (s.writes ws).2.endPacket.length = (s.writes ws).1.sum ∧ (s.writes ws).1.sum ≤ udpTxPacketMaxSize) ∧
    ((∀ pool s, beginPacket pool = some s → (s.writes ws).2.endPacket = accepted ws (s.writes ws).1) ↔
      SingleWrite ws) := by
  refine ⟨fun pool s hs => ?_, singleWrite_of_payload, fun hw pool s hs => ?_⟩
  · obtain ⟨hopen, hz⟩ := open_beginPacket hs
    obtain ⟨-, hopen', hwritten⟩ := hopen.writes ws
    rw [hz, Nat.zero_add] at hwritten
    rw [← hwritten]
    exact ⟨hopen'.endPacket.2, hopen'.written⟩
  · obtain ⟨hopen, hz⟩ := open_beginPacket hs
    exact hopen.payload_of_single hz hw

theorem udp_datagram_one_write :
    ∃ s, beginPacket (uniformPool 0) = some s ∧
      (s.writes [[1, 2], []]).2.endPacket = accepted [[1, 2], []] (s.writes [[1, 2], []]).1 := by
  obtain ⟨s, hs, -⟩ := exists_uniform 0
  refine ⟨s, hs, (udp_datagram_concat_iff [[1, 2], []]).2.mpr ?_ _ s hs⟩
  intro w rest hw
  exact .inl (List.cons.inj hw).2.symm

/-- Two bytes written one by one: the second lands on the first, and the rest is old memory. -/
theorem udp_second_write_overwrites :
    ∃ s, beginPacket (uniformPool 0) = some s ∧ (s.writes [[1], [2]]).1 = [1, 1] ∧
      accepted [[1], [2]] (s.writes [[1], [2]]).1 = [1, 2] ∧ (s.writes [[1], [2]]).2.endPacket = [2, 0] := by
  obtain ⟨s, hs, hall⟩ := exists_uniform 0
  obtain ⟨hopen, hz⟩ := open_beginPacket hs
  obtain ⟨hcounts, hopen', hwritten⟩ := hopen.writes [[1], [2]]
  obtain ⟨rest, hold⟩ : ∃ rest, Chain.bytes s.sendTop = 0 :: 0 :: rest :=
    ⟨List.replicate 2046 0, List.eq_replicate_iff.mpr ⟨hopen.holds.length, hall⟩⟩
  obtain ⟨hopen1, hwritten1, hbytes1⟩ := hopen.write_snd [1]
  obtain ⟨-, -, hbytes2⟩ := hopen1.write_snd [2]
  have hn1 : (s.write [1]).1 = 1 := by rw [hopen.write_fst, hz]; decide
  have hn2 : ((s.write [1]).2.write [2]).1 = 1 := by rw [hopen1.write_fst, hwritten1, hn1, hz]; decide
  rw [hz] at hcounts hwritten
  have hclip : clip (udpTxPacketMaxSize - 0) [[1], [2]] = [1, 1] := by decide
  rw [hclip] at hcounts
  refine ⟨s, hs, hcounts, ?_, ?_⟩
  · rw [hcounts]
    decide
  · have hlast : (s.writes [[1], [2]]).2 = ((s.write [1]).2.write [2]).2 := by
      rw [writes_snd, writes_snd, writes_nil]
    rw [hopen'.endPacket.1, hwritten, hcounts, hlast, hbytes2, hbytes1, hn1, hn2, hold]
    rfl

end UdpSender

end LogoCore.Ethernet
