import LogoCore.ByteStream

namespace LogoCore.Ethernet

def Call.OnNull : Call → Prop
  | .tcpRecved none _ => True
  | _ => False

namespace Conn

/-- A connection of a handle that is not stale: open, dropped by `do_poll` with data left, or stopped, with
any cursor, such as an earlier `flush` or `stop` leaves behind. -/
structure Coherent (c : Conn) : Prop where
  current : c.stale = false
  shape : Chain.WellFormed c.cs.p
  bound : Chain.totLen c.cs.p < 65536

structure FlushExact (c : Conn) : Prop where
  called : ∀ k ∈ c.flush.net.log.drop c.net.log.length, ¬ k.OnNull
  available : c.flush.available = 0
  later : ∀ pcb es, (readMachine pcb).Legal (.start c.flush) es →
    ((readMachine pcb).run (.start c.flush) es).Exact

variable {pcb : PcbPtr} {c : Conn}

theorem Represents.coherent {q : List (UInt8 × Option ℕ)} (h : Represents pcb c q) : Coherent c :=
  ⟨h.current, h.holds.shape, h.holds.bound⟩

theorem Coherent.available_eq (h : Coherent c) (hp : c.cs.p ≠ []) :
    c.available = Chain.totLen c.cs.p - c.cs.read := by
  simp [available, h.current, hp]

theorem Coherent.represents_nil (h : Coherent c) (hp : c.cs.p = []) (hr : c.cs.read = 0)
    (hc : c.cs.cpcb = some pcb) : Represents pcb c [] := by
  refine ⟨h.current, hc, h.shape, h.bound, ?_, fun _ => hr, ?_⟩ <;> simp [hp]

theorem flush_eq (ha : c.available = 0) : c.flush = c := by simp [flush, ha]

theorem Coherent.flush_spec (h : Coherent c) (hp : c.cs.p ≠ []) :
    c.flush.cs = { c.cs with read := Chain.totLen c.cs.p } ∧ c.flush.stale = c.stale := by
  have ha := h.available_eq hp
  have hs := stale_setCs c { c.cs with read := Chain.totLen c.cs.p } rfl
  unfold flush
  split_ifs with hz
  · dsimp only
    split <;> exact ⟨cs_setCs c _, hs⟩
  · have hread : Chain.totLen c.cs.p = c.cs.read := by omega
    rw [hread]
    exact ⟨rfl, rfl⟩

theorem Coherent.flush_available (h : Coherent c) : c.flush.available = 0 := by
  by_cases hp : c.cs.p = []
  · have ha : c.available = 0 := by simp [available, hp]
    rwa [flush_eq ha]
  · obtain ⟨hcs, hstale⟩ := h.flush_spec hp
    simp [available, hstale, h.current, hcs, hp]

theorem flush_on_null (ha : c.available ≠ 0) (hc : c.cs.cpcb = none) :
    Call.tcpRecved none 0 ∈ c.flush.net.log.drop c.net.log.length := by
  simp [flush, ha, hc, Net.record]

theorem closed_step {s : Session} {e : ConnEvent} (hc : s.conn.cs.cpcb ≠ some pcb) (ha : s.conn.available = 0)
    (he : (readMachine pcb).enabled s e) : s.step pcb e = s := by
  cases e with
  | recv q => exact absurd he.1.1 hc
  | fin err => exact absurd he.1 hc
  | call op =>
    cases op with
    | read => simp [Session.step, step, perform, read, readLocked, ha, ConnEvent.chain, ConnEvent.returned]
    | readBuf size => simp [Session.step, step, perform, readBuf, ha, ConnEvent.chain, ConnEvent.returned]
    | peek => simp [Session.step, step, perform, ConnEvent.chain, ConnEvent.returned]
    | available => simp [Session.step, step, perform, ConnEvent.chain, ConnEvent.returned]
    | _ => exact absurd he.2 (by simp [ConnEvent.isReading])

theorem closed_run {s : Session} (hc : s.conn.cs.cpcb ≠ some pcb) (ha : s.conn.available = 0) {es : List ConnEvent}
    (hl : (readMachine pcb).Legal s es) : (readMachine pcb).run s es = s := by
  induction es with
  | nil => rfl
  | cons e es ih =>
    have hstep : (readMachine pcb).step s e = s := closed_step hc ha hl.1
    rw [Machine.run_cons, hstep]
    exact ih (hstep ▸ hl.2)

theorem Coherent.unread_nil (h : Coherent c) (ha : c.available = 0) : c.unread = [] := by
  by_cases hp : c.cs.p = []
  · simp [unread, hp, Chain.bytes]
  · have hread : Chain.totLen c.cs.p = c.cs.read := by
      rw [h.available_eq hp] at ha
      omega
    have hlen : (Chain.bytes c.cs.p).length = c.cs.read := by
      rw [← Chain.map_fst_items, List.length_map, Chain.length_items h.shape, hread]
    exact List.drop_eq_nil_of_le hlen.le

theorem Coherent.exact_start (h : Coherent c) (ha : c.available = 0) : (Session.start c).Exact := by
  have hu := h.unread_nil ha
  refine ⟨?_, ?_, fun hne => absurd ha hne, ?_, ?_, fun size => ?_⟩
  · simp [Session.start, hu, Chain.bytes]
  · simp [Session.start, hu, ha]
  · simp [Session.start, hu, peek, ha]
  · simp [Session.start, read, readLocked, peek, ha]
  · simp [Session.start, hu, readBuf, ha]

theorem Coherent.flush_exact (h : Coherent c) (ha : c.available = 0)
    (hopen : c.cs.cpcb ≠ none → c.cs.p = [] ∧ c.cs.read = 0) : FlushExact c := by
  refine ⟨?_, h.flush_available, fun pcb es hl => ?_⟩
  · simp [flush_eq ha]
  · rw [flush_eq ha] at hl ⊢
    by_cases hc : c.cs.cpcb = some pcb
    · obtain ⟨hp, hr⟩ := hopen (by simp [hc])
      exact (Session.follows_run (Session.follows_start (h.represents_nil hp hr hc)) hl).exact
    · rw [closed_run hc ha hl]
      exact h.exact_start ha

theorem FlushExact.after_byte (hf : FlushExact c) (hopen : c.flush.cs.cpcb = some pcb) :
    ((readMachine pcb).run (.start c.flush) [.recv [⟨0, [1], 1, 1, 1⟩]]).Exact := by
  refine hf.later pcb _ ⟨⟨⟨hopen, by simp, by simp [Chain.WellFormed, Chain.totLen], ?_⟩, rfl⟩, trivial⟩
  have hqueued : c.flush.queued = 0 := by simp [queued, hf.available]
  simp [Session.start, hqueued, Chain.totLen]

theorem FlushExact.p_nil (hf : FlushExact c) (h : Coherent c) (hc : c.cs.cpcb = some pcb) : c.cs.p = [] := by
  by_contra hp
  obtain ⟨hcs, hcur⟩ := h.flush_spec hp
  have hopen : c.flush.cs.cpcb = some pcb := by rw [hcs]; exact hc
  have hinside := (hf.after_byte hopen).inside
  let d : Chain := [⟨0, [1], 1, 1, 1⟩]
  obtain ⟨hcs', hstale, -⟩ := recv_spec (d := d) hopen (by simp [d])
  obtain ⟨p, next, hpn⟩ := List.exists_cons_of_ne_nil hp
  obtain ⟨-, -, -, htot, -⟩ := hpn ▸ h.shape
  have hb := h.bound
  rw [hpn, Chain.totLen_cons] at hb
  -- The cursor equals the old total, which is at least the length of the head.
  have hnew : (c.flush.step pcb (.recv d)).2.cs.p = p.grow 1 :: (next.map (Pbuf.grow 1) ++ d) ∧
      (c.flush.step pcb (.recv d)).2.cs.read = p.totLen := by
    rw [hcs', hcs]
    simp [hpn, pbufCat_eq, Chain.totLen, d]
  have hcur' : (c.flush.step pcb (.recv d)).2.stale = false := by rw [hstale, hcur, h.current]
  have ha : (c.flush.step pcb (.recv d)).2.available ≠ 0 := by
    simp only [Conn.available, hcur', hnew, Chain.totLen_cons, Pbuf.totLen_grow]
    simp
    omega
  have hlt := hinside ha (p.grow 1) (by
    change _ ∈ (c.flush.step pcb (.recv d)).2.cs.p.head?
    simp [hnew])
  change (c.flush.step pcb (.recv d)).2.cs.read < p.len at hlt
  rw [hnew.2] at hlt
  omega

theorem FlushExact.read_zero (hf : FlushExact c) (hp : c.cs.p = []) (hc : c.cs.cpcb = some pcb) :
    c.cs.read = 0 := by
  have hsame : c.flush = c := flush_eq (by simp [Conn.available, hp])
  have hopen : c.flush.cs.cpcb = some pcb := by rw [hsame]; exact hc
  have hstream := (hf.after_byte hopen).stream
  let d : Chain := [⟨0, [1], 1, 1, 1⟩]
  have hcs := (recv_spec (d := d) hc (by simp [d])).1
  rw [hsame] at hstream
  change [] ++ [] ++ (Chain.bytes (c.step pcb (.recv d)).2.cs.p).drop (c.step pcb (.recv d)).2.cs.read = _ at hstream
  rw [hcs] at hstream
  -- A cursor that is not 0 skips the byte.
  by_contra hread
  obtain ⟨k, hk⟩ := Nat.exists_eq_succ_of_ne_zero hread
  simp [hp, hk, d, Chain.bytes, Pbuf.bytes, Session.step, Session.start, readMachine, Machine.run,
    ConnEvent.chain] at hstream

theorem FlushExact.available_zero (hf : FlushExact c) (h : Coherent c) : c.available = 0 := by
  by_contra ha
  cases hc : c.cs.cpcb with
  | none => exact hf.called _ (flush_on_null ha hc) trivial
  | some pcb => exact ha (by simp [Conn.available, hf.p_nil h hc])

end Conn

/-- `flush()` is harmless exactly when it finds nothing to discard and no chain to keep. -/
theorem flush_exact_iff (c : Conn) (h : c.Coherent) :
    c.FlushExact ↔ c.available = 0 ∧ (c.cs.cpcb ≠ none → c.cs.p = [] ∧ c.cs.read = 0) := by
  constructor
  · intro hf
    refine ⟨hf.available_zero h, fun hopen => ?_⟩
    obtain ⟨pcb, hc⟩ := Option.ne_none_iff_exists'.mp hopen
    exact ⟨hf.p_nil h hc, hf.read_zero (hf.p_nil h hc) hc⟩
  · rintro ⟨ha, hopen⟩
    exact h.flush_exact ha hopen

/-- A connection that was read to the end, and one that was stopped with a half-read pbuf. -/
theorem flush_exact_all_read :
    let c := ((readMachine 7).run (.start .accepted) [.recv [⟨20, [1], 1, 1, 1⟩], .call .read]).conn
    let d := ((readMachine 7).run (.start .accepted) [.recv [⟨20, [1, 2], 2, 2, 1⟩], .call .read]).conn.stop .ok
    c.FlushExact ∧ d.cs.read = 1 ∧ d.FlushExact := by
  intro c d
  refine ⟨(flush_exact_iff c ⟨by decide, by decide, by decide⟩).mpr ⟨by decide, fun _ => ⟨by decide, by decide⟩⟩,
    by decide, (flush_exact_iff d ⟨by decide, by decide, by decide⟩).mpr ⟨by decide, fun h => ?_⟩⟩
  exact absurd (by decide) h

/-- `[1, 2]` is flushed and `3` arrives: the next read returns the byte after the old pbuf's data. An
outbound connection that `do_poll` gave up with `5` unread hands a null control block to `tcp_recved`. -/
theorem flush_then_stray_byte :
    let c := ((readMachine 7).run (.start .accepted) [.recv [⟨20, [1, 2, 9], 2, 2, 1⟩]]).conn
    let s := (readMachine 7).run (.start c.flush) [.recv [⟨21, [3], 1, 1, 1⟩]]
    let d := ((Conn.opened.step 7 (.recv [⟨20, [5], 1, 1, 1⟩])).2.step 7 (.fin .ok)).2.doPoll 7 false .ok
    ((readMachine 7).Legal (.start .accepted) [.recv [⟨20, [1, 2, 9], 2, 2, 1⟩]] ∧
      (readMachine 7).Legal (.start c.flush) [.recv [⟨21, [3], 1, 1, 1⟩]] ∧ c.flush.available = 0 ∧
      s.conn.read.1 = 9 ∧ ¬ c.FlushExact) ∧
      d.cs.cpcb = none ∧ d.available = 1 ∧ .tcpRecved none 0 ∈ d.flush.net.log ∧ ¬ d.FlushExact := by
  intro c s d
  refine ⟨⟨by decide, by decide, by decide, by decide, fun h => ?_⟩, by decide, by decide, by decide, fun h => ?_⟩
  · have hs := (h.later 7 [.recv [⟨21, [3], 1, 1, 1⟩]] (by decide)).inside (by decide)
    exact absurd (hs ⟨20, [1, 2, 9], 2, 3, 1⟩ (by decide)) (by decide)
  · exact h.called _ (Conn.flush_on_null (by decide) (by decide)) trivial

end LogoCore.Ethernet
