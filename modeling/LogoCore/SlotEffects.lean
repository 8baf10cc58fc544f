import LogoCore.ServerRuns

namespace LogoCore.Ethernet

structure Binding where
  remotePort : UInt16
  callbackArg : CallbackArg
  recv : Option Callback
  errf : Option Callback

def Pcb.binding (b : Pcb) : Binding := ⟨b.remotePort, b.callbackArg, b.recv, b.errf⟩

namespace Net

def Quiet (n m : Net) : Prop :=
  ∀ p, (m.pcbs p).map (fun b => (b.binding, b.rxClosed, b.poll)) =
    (n.pcbs p).map fun b => (b.binding, b.rxClosed, b.poll)

theorem Quiet.refl (n : Net) : Quiet n n := fun _ => rfl

theorem Quiet.trans {n m k : Net} (h : Quiet n m) (h' : Quiet m k) : Quiet n k :=
  fun p => (h' p).trans (h p)

theorem Quiet.some {n m : Net} (h : Quiet n m) {p : PcbPtr} {b : Pcb} (hb : m.pcbs p = some b) :
    ∃ a, n.pcbs p = some a ∧ a.binding = b.binding ∧ a.rxClosed = b.rxClosed ∧ a.poll = b.poll := by
  have := h p
  rw [hb] at this
  cases ha : n.pcbs p with
  | none => simp [ha] at this
  | some a => exact ⟨a, rfl, by simp_all⟩

theorem quiet_record (n : Net) (c : Call) : Quiet n (n.record c) := fun _ => rfl

theorem quiet_modify (n : Net) (p : PcbPtr) (f : Pcb → Pcb)
    (hf : ∀ b, (f b).binding = b.binding ∧ (f b).rxClosed = b.rxClosed ∧ (f b).poll = b.poll) :
    Quiet n (n.modify p f) := by
  intro q
  by_cases hq : q = p
  · subst q
    cases h : n.pcbs p <;> simp [modify, h, hf]
  · simp [modify, hq]

theorem quiet_tcpRecved (n : Net) (p : PcbPtr) (len : ℕ) : Quiet n (n.tcpRecved p len) := by
  refine Quiet.trans (quiet_modify n p _ ?_) (quiet_record _ _)
  exact fun _ => ⟨rfl, rfl, rfl⟩

theorem quiet_tcpWrite (n : Net) (p : PcbPtr) (chunk : List UInt8) (err : Err) :
    Quiet n (n.tcpWrite p chunk err) := by
  refine (quiet_modify n p _ fun b => ?_).trans (quiet_record _ _)
  split_ifs <;> exact ⟨rfl, rfl, rfl⟩

def Local (p : PcbPtr) (n m : Net) : Prop :=
  (∀ q, q ≠ p → m.pcbs q = n.pcbs q) ∧
    ∀ b, m.pcbs p = some b → ∃ a, n.pcbs p = some a ∧ a.binding = b.binding

theorem Local.refl (p : PcbPtr) (n : Net) : Local p n n := ⟨fun _ _ => rfl, fun b h => ⟨b, h, rfl⟩⟩

theorem Local.trans {p : PcbPtr} {n m k : Net} (h : Local p n m) (h' : Local p m k) : Local p n k := by
  refine ⟨fun q hq => (h'.1 q hq).trans (h.1 q hq), fun c hc => ?_⟩
  obtain ⟨b, hb, hbc⟩ := h'.2 c hc
  obtain ⟨a, ha, hab⟩ := h.2 b hb
  exact ⟨a, ha, hab.trans hbc⟩

theorem local_record (p : PcbPtr) (n : Net) (c : Call) : Local p n (n.record c) := .refl p n

theorem local_modify (p : PcbPtr) (n : Net) (f : Pcb → Pcb) (hf : ∀ b, (f b).binding = b.binding) :
    Local p n (n.modify p f) := by
  refine ⟨fun q hq => by simp [modify, hq], fun b hb => ?_⟩
  simp only [modify, Function.update_self, Option.map_eq_some_iff] at hb
  obtain ⟨a, ha, rfl⟩ := hb
  exact ⟨a, ha, (hf a).symm⟩

theorem local_free (p : PcbPtr) (n : Net) : Local p n (n.free p) :=
  ⟨fun q hq => by simp [free, hq], fun b hb => by simp [free] at hb⟩

theorem local_tcpRecved (p : PcbPtr) (n : Net) (len : ℕ) : Local p n (n.tcpRecved p len) := by
  refine Local.trans (local_modify p n _ ?_) (local_record p _ _)
  exact fun _ => rfl

theorem local_tcpPoll (p : PcbPtr) (n : Net) (f : Option Callback) : Local p n (n.tcpPoll p f) := by
  refine Local.trans (local_modify p n _ ?_) (local_record p _ _)
  exact fun _ => rfl

theorem local_tcpClose (p : PcbPtr) (n : Net) (fin : Err) : Local p n (n.tcpClose p fin).2 := by
  have hrx : Local p n ((n.modify p fun b =>
      if b.state = .listen then b else { b with rxClosed := true }).record (.tcpClose p)) :=
    (local_modify p n _ fun b => by split_ifs <;> rfl).trans (local_record p _ _)
  obtain h | h | ⟨s, h⟩ := tcpClose_cases n p fin <;> rw [h]
  · exact hrx
  · exact hrx.trans (local_free p _)
  · exact hrx.trans (local_modify p _ _ fun _ => rfl)

def Detached (p : PcbPtr) (n m : Net) : Prop :=
  (∀ q, q ≠ p → m.pcbs q = n.pcbs q) ∧
    ∀ b, m.pcbs p = some b → b.callbackArg = .null ∧ b.recv = none ∧ b.errf = none

theorem Detached.local {p : PcbPtr} {n m k : Net} (h : Detached p n m) (h' : Local p m k) :
    Detached p n k := by
  refine ⟨fun q hq => (h'.1 q hq).trans (h.1 q hq), fun c hc => ?_⟩
  obtain ⟨b, hb, hbc⟩ := h'.2 c hc
  obtain ⟨ha, hr, he⟩ := h.2 b hb
  simp only [Pcb.binding, Binding.mk.injEq] at hbc
  exact ⟨hbc.2.1 ▸ ha, hbc.2.2.1 ▸ hr, hbc.2.2.2 ▸ he⟩

theorem Local.detached {p : PcbPtr} {n m k : Net} (h : Local p n m) (h' : Detached p m k) :
    Detached p n k := ⟨fun q hq => (h'.1 q hq).trans (h.1 q hq), h'.2⟩

theorem detached_free (p : PcbPtr) (n : Net) : Detached p n (n.free p) :=
  ⟨fun q hq => by simp [free, hq], fun b hb => by simp [free] at hb⟩

theorem local_closing (p : PcbPtr) (n : Net) (q : Chain) (fin : Err) (retry : Option Callback) :
    Local p n
      (let n := if q = [] then n else (n.tcpRecved p (Chain.totLen q)).pbufFree q
       let (err, n) := n.tcpClose p fin
       if err = .ok then n else n.tcpPoll p retry) := by
  have hdata : Local p n (if q = [] then n else (n.tcpRecved p (Chain.totLen q)).pbufFree q) := by
    split_ifs
    · exact .refl p n
    · exact (local_tcpRecved _ _ _).trans (local_record _ _ _)
  generalize (if q = [] then n else (n.tcpRecved p (Chain.totLen q)).pbufFree q) = m at hdata ⊢
  have hclose := hdata.trans (local_tcpClose p m fin)
  dsimp only
  split_ifs
  · exact hclose
  · exact hclose.trans (local_tcpPoll _ _ _)

theorem detached_stop (p : PcbPtr) (n : Net) :
    Detached p n ((((n.tcpArg p .null).tcpRecv p none).tcpSent p none).tcpErr p none) := by
  refine ⟨fun q hq => by simp [tcpArg, tcpRecv, tcpSent, tcpErr, record, modify, hq], fun b hb => ?_⟩
  simp only [tcpArg, tcpRecv, tcpSent, tcpErr, record, modify, Function.update_self,
    Option.map_eq_some_iff] at hb
  obtain ⟨_, ⟨_, ⟨_, ⟨a, _, rfl⟩, rfl⟩, rfl⟩, rfl⟩ := hb
  exact ⟨rfl, rfl, rfl⟩

theorem detached_doClose (p : PcbPtr) (n : Net) :
    Detached p n (((((n.tcpArg p .null).tcpRecv p none).tcpErr p none).tcpPoll p none).tcpSent p none) := by
  refine ⟨fun q hq => by simp [tcpArg, tcpRecv, tcpSent, tcpErr, tcpPoll, record, modify, hq],
    fun b hb => ?_⟩
  simp only [tcpArg, tcpRecv, tcpSent, tcpErr, tcpPoll, record, modify, Function.update_self,
    Option.map_eq_some_iff] at hb
  obtain ⟨_, ⟨_, ⟨_, ⟨_, ⟨a, _, rfl⟩, rfl⟩, rfl⟩, rfl⟩, rfl⟩ := hb
  exact ⟨rfl, rfl, rfl⟩

end Net

structure Steady (c c' : Slots) : Prop where
  cpcb : ∀ i, (c' i).cpcb = (c i).cpcb
  port : ∀ i, (c' i).port = (c i).port
  generation : ∀ i, (c' i).generation = (c i).generation
  queue : ∀ i, (c i).cpcb = none → (c i).p = [] → (c' i).p = []

theorem Steady.refl (c : Slots) : Steady c c := ⟨fun _ => rfl, fun _ => rfl, fun _ => rfl, fun _ _ h => h⟩

theorem Steady.trans {c d e : Slots} (h : Steady c d) (h' : Steady d e) : Steady c e where
  cpcb i := (h'.cpcb i).trans (h.cpcb i)
  port i := (h'.port i).trans (h.port i)
  generation i := (h'.generation i).trans (h.generation i)
  queue i hc hp := h'.queue i ((h.cpcb i).trans hc) (h.queue i hc hp)

theorem steady_update (c : Slots) (i : Slot) (s : Client) (hc : s.cpcb = (c i).cpcb)
    (hp : s.port = (c i).port) (hg : s.generation = (c i).generation)
    (hq : (c i).cpcb = none → (c i).p = [] → s.p = []) : Steady c (Function.update c i s) := by
  constructor <;> intro j <;> by_cases hj : j = i
  all_goals first
    | subst j; simpa using by assumption
    | simp [hj]

structure Released (i : Slot) (p : PcbPtr) (c c' : Slots) (n n' : Net) : Prop where
  was : (c i).cpcb = some p
  others : ∀ j, j ≠ i → c' j = c j
  cpcb : (c' i).cpcb = none
  port : (c' i).port = 0
  queue : (c' i).p = []
  generation : (c' i).generation = (c i).generation
  net : Net.Detached p n n'

theorem takeByte_keeps (cs : Client) (n : Net) :
    ∃ r q, (takeByte cs n).2.1 = { cs with read := r, p := q } ∧ (cs.p = [] → q = []) ∧
      Net.Quiet n (takeByte cs n).2.2 := by
  cases hp : cs.p with
  | nil =>
    have ht : takeByte cs n = (0, cs, n) := by rw [takeByte, hp]
    rw [ht]
    exact ⟨cs.read, cs.p, rfl, fun _ => hp, .refl n⟩
  | cons p next =>
    have hn : Net.Quiet n (cs.cpcb.elim n fun pcb => n.tcpRecved pcb ((cs.read + 1) % 65536)) := by
      cases cs.cpcb with
      | none => exact .refl n
      | some pcb => exact Net.quiet_tcpRecved n pcb _
    rw [takeByte, hp]
    dsimp only
    split
    · exact ⟨_, _, rfl, nofun, (hn.trans (Net.quiet_record _ _)).trans (Net.quiet_record _ _)⟩
    · split
      · exact ⟨_, _, rfl, nofun, hn.trans (Net.quiet_record _ _)⟩
      · exact ⟨_, p :: next, rfl, nofun, hn⟩

namespace Conn

structure Keeps (c d : Conn) : Prop where
  slots : Steady c.clients d.clients
  net : Net.Quiet c.net d.net
  ptr : d.self.cs = c.self.cs
  stamp : d.self.generation = c.self.generation
  own : c.self.clientState.cpcb = none → c.self.clientState.p = [] →
    d.self.clientState.cpcb = none ∧ d.self.clientState.p = []

theorem Keeps.refl (c : Conn) : Keeps c c := ⟨.refl _, .refl _, rfl, rfl, fun h h' => ⟨h, h'⟩⟩

theorem Keeps.trans {c d e : Conn} (h : Keeps c d) (h' : Keeps d e) : Keeps c e where
  slots := h.slots.trans h'.slots
  net := h.net.trans h'.net
  ptr := h'.ptr.trans h.ptr
  stamp := h'.stamp.trans h.stamp
  own hc hp := h'.own (h.own hc hp).1 (h.own hc hp).2

theorem keeps_net (c : Conn) (n : Net) (hn : Net.Quiet c.net n) : Keeps c { c with net := n } :=
  ⟨.refl _, hn, rfl, rfl, fun h h' => ⟨h, h'⟩⟩

theorem keeps_setCs (c : Conn) (s : Client) (hc : s.cpcb = c.cs.cpcb) (hp : s.port = c.cs.port)
    (hg : s.generation = c.cs.generation) (hq : c.cs.p = [] → s.p = []) : Keeps c (c.setCs s) := by
  refine ⟨?_, by simpa using Net.Quiet.refl _, setCs_ptr c s, setCs_generation c s, ?_⟩
  all_goals
    cases h : c.self.cs with
    | own => simp_all [cs, setCs, Steady.refl]
    | slot i =>
      simp only [cs, h] at hc hp hg hq
      simp only [setCs, h]
      first
        | exact steady_update _ _ _ hc hp hg fun _ => hq
        | exact fun h h' => ⟨h, h'⟩

theorem keeps_setConnected (c : Conn) (b : Bool) : Keeps c (c.setConnected b) :=
  ⟨.refl _, .refl _, rfl, rfl, fun h h' => ⟨h, h'⟩⟩

theorem keeps_read (c : Conn) : Keeps c c.read.2 := by
  unfold read readLocked
  split_ifs
  · exact .refl c
  · obtain ⟨r, q, hs, hq, hn⟩ := takeByte_keeps c.cs c.net
    dsimp only
    rw [hs]
    exact (keeps_setCs c { c.cs with read := r, p := q } rfl rfl rfl hq).trans (keeps_net _ _ (by simpa using hn))

theorem keeps_readLoop (left : ℕ) (c : Conn) : Keeps c (c.readLoop left).2 := by
  induction left generalizing c with
  | zero => exact .refl c
  | succ left ih =>
    unfold readLoop
    dsimp only
    split_ifs
    · exact keeps_read c
    · exact (keeps_read c).trans (ih _)

theorem keeps_readBuf (c : Conn) (size : ℕ) : Keeps c (c.readBuf size).2 := by
  unfold readBuf
  split_ifs
  · exact .refl c
  · exact keeps_readLoop size c

theorem keeps_flush (c : Conn) : Keeps c c.flush := by
  unfold flush
  split_ifs
  · have h := keeps_setCs c { c.cs with read := Chain.totLen c.cs.p } rfl rfl rfl id
    dsimp only
    split
    · exact h.trans (keeps_net _ _ (Net.quiet_record _ _))
    · exact h.trans (keeps_net _ _ (Net.quiet_tcpRecved _ _ _))
  · exact .refl c

theorem quiet_writeLoop (pcb : PcbPtr) (buf : List UInt8) (outcomes : List Err) (i : ℕ) (stuffed : Bool)
    (n : Net) : Net.Quiet n (writeLoop pcb buf outcomes i stuffed n).2 := by
  induction outcomes generalizing i stuffed n with
  | nil => unfold writeLoop; split_ifs <;> exact .refl n
  | cons err outcomes ih =>
    unfold writeLoop
    have hw (chunk : List UInt8) := Net.quiet_tcpWrite n pcb chunk err
    dsimp only
    generalize (if buf.length - i < 1024 then buf.length - i else 1024) = inc
    split_ifs
    · exact (hw _).trans (ih _ _ _)
    · exact ((hw _).trans (Net.quiet_record _ _)).trans (ih _ _ _)
    · exact (hw _).trans (ih _ _ _)
    · exact .refl n

theorem keeps_write (c : Conn) (buf : List UInt8) (outcomes : List Err) :
    Keeps c (c.write buf outcomes).2 := by
  unfold write
  split_ifs
  · exact .refl c
  · split
    · exact .refl c
    · rename_i pcb _
      have h := quiet_writeLoop pcb buf outcomes 0 false c.net
      split <;> rename_i hw <;> rw [hw] at h
      · exact keeps_net c _ h
      · apply keeps_net c
        split_ifs
        · exact h
        · exact h.trans (Net.quiet_record _ _)

theorem stop_net (n : Net) (p : PcbPtr) (q : Chain) (fin : Err) :
    Net.Detached p n
      (let n := (((n.tcpArg p .null).tcpRecv p none).tcpSent p none).tcpErr p none
       let n := if q = [] then n else (n.tcpRecved p (Chain.totLen q)).pbufFree q
       let (err, n) := n.tcpClose p fin
       if err = .ok then n else n.tcpPoll p (some .closeRetryPoll)) := by
  exact (Net.detached_stop p n).local (Net.local_closing p _ q fin (some .closeRetryPoll))

theorem keeps_stop (c : Conn) (fin : Err)
    (h : c.stale = true ∨ c.cs.cpcb = none ∧ c.cs.port = 0) : Keeps c (c.stop fin) := by
  unfold stop
  rcases h with h | ⟨hc, hp⟩
  · rw [if_pos h]
    exact keeps_setConnected c false
  · split_ifs
    · exact keeps_setConnected c false
    · simp only [hc]
      refine Keeps.trans (keeps_setCs c _ ?_ ?_ ?_ ?_) (keeps_setConnected _ _)
      all_goals simp [hc, hp]

theorem stop_released (c : Conn) (fin : Err) (i : Slot) (p : PcbPtr) (hs : c.stale = false)
    (hi : c.self.cs = .slot i) (hc : (c.clients i).cpcb = some p) :
    Released i p c.clients (c.stop fin).clients c.net (c.stop fin).net ∧
      (c.stop fin).self = { c.self with connected := false } := by
  have hn := stop_net c.net p (c.clients i).p fin
  unfold stop
  rw [if_neg (by simp [hs])]
  simp only [cs, hi, hc, setCs, setConnected]
  refine ⟨⟨hc, fun j hj => by simp [hj], by simp, by simp, by simp, by simp, ?_⟩, trivial⟩
  exact hn

end Conn

end LogoCore.Ethernet
