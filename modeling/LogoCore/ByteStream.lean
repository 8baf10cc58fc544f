import LogoCore.ReadOperations

namespace LogoCore.Ethernet

def ConnEvent.onQueue (f : Fifo (UInt8 × Option ℕ)) : ConnEvent → Fifo (UInt8 × Option ℕ)
  | .recv q => f.push q.items
  | .call .read => f.advance 1
  | .call (.readBuf size) => f.advance size
  | _ => f

namespace Session

structure Follows (pcb : PcbPtr) (before : List ℕ) (s : Session) (f : Fifo (UInt8 × Option ℕ)) : Prop where
  queue : s.conn.Represents pcb f.queue
  items : f.items = Chain.items s.delivered
  sized : Chain.Sized s.delivered
  returned : s.returned = f.popped.map Prod.fst
  freed : s.conn.net.freed = before ++ f.popped.filterMap Prod.snd

variable {pcb : PcbPtr} {before : List ℕ} {s : Session} {f : Fifo (UInt8 × Option ℕ)}

theorem follows_start {c : Conn} (h : c.Represents pcb []) :
    Follows pcb c.net.freed (start c) ⟨[], []⟩ :=
  ⟨h, rfl, by simp [start, Chain.Sized], rfl, by simp [start]⟩

theorem follows_read (h : Follows pcb before s f) : Follows pcb before (s.step pcb (.call .read)) (f.advance 1) := by
  have hq := h.queue
  cases hf : f.queue with
  | nil =>
    rw [hf] at hq
    have hsame : f.advance 1 = f := by cases f; simp_all [Fifo.advance]
    have hstep : s.step pcb (.call .read) = s := by
      simp [step, Conn.step, Conn.perform, hq.read_nil, ConnEvent.chain, ConnEvent.returned]
    rw [hsame, hstep]
    exact h
  | cons x q =>
    rw [hf] at hq
    obtain ⟨hbyte, hrep, hfreed, -⟩ := hq.read_cons
    have hne : ¬ ((x.1.toNat : ℤ) = -1) := by omega
    refine ⟨?_, ?_, ?_, ?_, ?_⟩
    · simpa [step, Conn.step, Conn.perform, Fifo.advance, hf] using hrep
    · simp [step, ConnEvent.chain, h.items]
    · simpa [step, ConnEvent.chain] using h.sized
    · simp [step, Conn.step, Conn.perform, ConnEvent.returned, hbyte, hne, Fifo.advance, hf, h.returned]
    · simp only [step, Conn.step, Conn.perform, Fifo.advance, hf, hfreed, h.freed, List.filterMap_append]
      obtain ⟨b, tag⟩ := x
      cases tag <;> simp

theorem follows_readBuf (h : Follows pcb before s f) (size : ℕ) :
    Follows pcb before (s.step pcb (.call (.readBuf size))) (f.advance size) := by
  obtain ⟨hval, hrep, hfreed⟩ := h.queue.readBuf_eq size
  refine ⟨hrep, ?_, ?_, ?_, ?_⟩
  · simp [step, ConnEvent.chain, h.items]
  · simpa [step, ConnEvent.chain] using h.sized
  · simp [step, Conn.step, Conn.perform, ConnEvent.returned, hval, Fifo.advance, h.returned]
  · simp [step, Conn.step, Conn.perform, Fifo.advance, hfreed, h.freed]

theorem follows_recv (h : Follows pcb before s f) {q : Chain} (he : s.conn.Enabled pcb (.recv q)) :
    Follows pcb before (s.step pcb (.recv q)) (f.push q.items) := by
  obtain ⟨-, hne, hw, hb⟩ := he
  obtain ⟨hrep, hfreed, -⟩ := h.queue.recv hne hw hb
  refine ⟨hrep, ?_, ?_, ?_, ?_⟩
  · simp [step, ConnEvent.chain, h.items]
  · exact List.forall_mem_append.mpr ⟨h.sized, hw.sized⟩
  · simp [step, Conn.step, ConnEvent.returned, Fifo.push, h.returned]
  · exact hfreed.trans h.freed

theorem follows_step {e : ConnEvent} (he : (readMachine pcb).enabled s e) (h : Follows pcb before s f) :
    Follows pcb before (s.step pcb e) (e.onQueue f) := by
  cases e with
  | recv q => exact follows_recv h he.1
  | fin err => exact absurd he.2 (by simp [ConnEvent.isReading])
  | call op =>
    have same (hstep : s.step pcb (.call op) = s) : Follows pcb before (s.step pcb (.call op)) f := by rwa [hstep]
    cases op with
    | read => exact follows_read h
    | readBuf size => exact follows_readBuf h size
    | peek => exact same (by simp [step, Conn.step, Conn.perform, ConnEvent.chain, ConnEvent.returned])
    | available => exact same (by simp [step, Conn.step, Conn.perform, ConnEvent.chain, ConnEvent.returned])
    | _ => exact absurd he.2 (by simp [ConnEvent.isReading])

theorem follows_run (h : Follows pcb before s f) {es : List ConnEvent} (hl : (readMachine pcb).Legal s es) :
    Follows pcb before ((readMachine pcb).run s es) (es.foldl ConnEvent.onQueue f) := by
  induction es generalizing s f with
  | nil => exact h
  | cons e es ih => exact ih (follows_step hl.1 h) hl.2

structure Exact (s : Session) : Prop where
  stream : s.returned ++ s.conn.unread = Chain.bytes s.delivered
  available : s.conn.available = s.conn.unread.length
  inside : s.conn.available ≠ 0 → ∀ p ∈ s.conn.cs.p.head?, s.conn.cs.read < p.len
  peek : s.conn.peek = (s.conn.unread.head?.map fun b => (b.toNat : ℤ)).getD (-1)
  read : s.conn.read.1 = s.conn.peek
  readBuf : ∀ size, (s.conn.readBuf size).1 =
    (if s.conn.unread = [] then -1 else ((min size s.conn.unread.length : ℕ) : ℤ), s.conn.unread.take size)

theorem Follows.exact (h : Follows pcb before s f) : s.Exact := by
  have hq := h.queue
  have hu := hq.unread_eq
  refine ⟨?_, ?_, fun _ => hq.holds.inside, ?_, ?_, fun size => ?_⟩
  · rw [h.returned, hu, ← List.map_append, ← Fifo.items, h.items, Chain.map_fst_items]
  · rw [hq.available_eq, hu, List.length_map]
  · rw [hq.peek_eq, hu, List.head?_map, Option.map_map]
    rfl
  · rw [hq.peek_eq]
    cases hf : f.queue with
    | nil =>
      rw [hf] at hq
      rw [hq.read_nil]
      rfl
    | cons x q =>
      rw [hf] at hq
      exact hq.read_cons.1
  · simp [(hq.readBuf_eq size).1, hu, List.map_take]

theorem Follows.released (h : Follows pcb before s f) :
    s.conn.net.freed = before ++ Chain.released s.returned.length s.delivered := by
  rw [Chain.released_eq h.sized, ← h.items, h.returned, List.length_map, ← Fifo.popped_eq_take]
  exact h.freed

theorem Follows.addrs (h : Follows pcb before s f) :
    s.conn.net.freed ++ s.conn.cs.p.map Pbuf.addr = before ++ s.delivered.map Pbuf.addr := by
  rw [h.freed, List.append_assoc, ← h.queue.holds.filterMap_snd, ← List.filterMap_append, ← Fifo.items,
    h.items, Chain.filterMap_snd_items h.sized]

end Session

theorem received_stream_exact (pcb : PcbPtr) (c : Conn) (hc : c.Fresh pcb) (es : List ConnEvent)
    (hl : (readMachine pcb).Legal (.start c) es) :
    let s := (readMachine pcb).run (.start c) es
    s.Exact ∧ s.conn.net.freed = c.net.freed ++ Chain.released s.returned.length s.delivered ∧
      s.conn.net.freed ++ s.conn.cs.p.map Pbuf.addr = c.net.freed ++ s.delivered.map Pbuf.addr := by
  intro s
  have h := Session.follows_run (Session.follows_start hc.represents) hl
  exact ⟨h.exact, h.released, h.addrs⟩

theorem received_stream_exact_two_reads :
    let es : List ConnEvent :=
      [.recv [⟨20, [1, 2], 2, 2, 1⟩], .call .read, .recv [⟨21, [3], 1, 1, 1⟩], .call .read]
    let s := (readMachine 7).run (.start .accepted) es
    s.returned = [1, 2] ∧ s.returned ++ s.conn.unread = Chain.bytes s.delivered ∧
      s.conn.net.freed = Conn.accepted.net.freed ++ Chain.released s.returned.length s.delivered := by
  intro es s
  have h := received_stream_exact 7 .accepted Conn.accepted_fresh es (by decide)
  exact ⟨by decide, h.1.stream, h.2.1⟩

end LogoCore.Ethernet
