import LogoCore.OutboundPcbs

namespace LogoCore.Ethernet

namespace Task

/-- The client whose `connect` is between the end of its wait loop and its return. -/
def settling : Task → Option ObjId
  | .checking k | .polling k | .returning k => some k
  | _ => none

def connecting : Task → Option ObjId
  | .waiting k | .timingOut k | .checking k | .failing k | .polling k | .returning k => some k
  | _ => none

end Task

namespace Outbound

/-- `connect` is called only when the control block that the client named is gone, it gets one that no other
client names, and `tcp_connect` accepts it. A `connect` that gives up can queue its FIN. Between its wait
loop and its return no callback clears `_connected` while the client keeps its control block. -/
def Clean (x : Outbound) : OutEvent → Prop
  | .connect k pcb _ res =>
    (∀ p, x.held k = some p → x.net.pcbs p = none) ∧
      ∀ p ∈ pcb, (∀ j, j ≠ k → x.held j ≠ some p) ∧ res = .ok
  | .advance _ _ err => (∃ k, x.task = .timingOut k ∨ x.task = .failing k) → err = .ok
  | .fin p => ∀ k b, x.task.settling = some k → x.net.pcbs p = some b → b.callbackArg = .client k →
    x.task = .checking k ∧ x.held k = some p
  | .error p => ∀ k b, x.task.settling = some k → x.net.pcbs p = some b → b.callbackArg ≠ .client k
  | .poll p expired _ => ∀ k b, x.task.settling = some k → x.net.pcbs p = some b →
    b.callbackArg = .client k → expired = true → x.held k = some p
  | _ => True

/-- The client `k` has `_connected` set, or holds nothing any more, or `connect` will find that its
connection is not established. -/
def SettledAt (x : Outbound) (k : ObjId) : Prop :=
  x.isConnected k = true ∨ x.held k = none ∨
    x.task = .checking k ∧ ∃ b, (x.held k).bind x.net.pcbs = some b ∧ b.state ≠ .established

def Settled (x : Outbound) : Prop := ∀ k, x.task.settling = some k → x.SettledAt k

theorem isConnected_deliver {x : Outbound} {a : CallbackArg} {f : Conn → Conn} {k : ObjId}
    (hf : ∀ o, x.objs k = some o → a = .client k → (f (o.conn x.net)).self.connected = o.connected) :
    (x.deliver a f).isConnected k = x.isConnected k := by
  cases a with
  | client j =>
    simp only [deliver, apply]
    split
    · rfl
    · rename_i o ho
      by_cases hj : k = j
      · subst j
        simp [isConnected, ho, SelfOwned.ofConn, hf o ho rfl]
      · simp [isConnected, hj]
  | _ => rfl

theorem isConnected_apply {x : Outbound} {f : Conn → Conn} {k : ObjId} {o : SelfOwned} (ho : x.objs k = some o) :
    (x.apply k f).isConnected k = (f (o.conn x.net)).self.connected := by
  simp [apply, isConnected, ho, SelfOwned.ofConn]

theorem held_eq_none_iff {x : Outbound} {k : ObjId} : x.held k = none ↔ ∀ p, ¬ x.ledger.Holds k p := by
  simp only [ledger_holds]
  exact Option.eq_none_iff_forall_ne_some

theorem held_none_tidy {x y : Outbound} {k : ObjId} (ht : Ledger.Tidy x.ledger y.ledger) (h : x.held k = none) :
    y.held k = none := by
  rw [held_eq_none_iff] at h ⊢
  generalize x.ledger = l, y.ledger = l' at h ht
  cases ht with
  | quiet => exact h
  | release j r e hj he => exact fun p hp => h p (Ledger.holds_drop hp).2
  | shut r e he hr => exact h

theorem held_apply_closes (x : Outbound) (k : ObjId) {f : Conn → Conn} (hf : Conn.Closes f) :
    (x.apply k f).held k = none := by
  cases hk : x.objs k with
  | none => simp [apply, hk, held]
  | some o => simp [apply, hk, held, SelfOwned.ofConn, (hf o x.net).1]

theorem held_none_interrupt {x : Outbound} (hr : x.Retrying) {e : OutEvent} (he : x.Enabled e)
    (hi : e.interrupt = true) {k : ObjId} (h : x.held k = none) : (x.step e).held k = none := by
  have hm := moves he hr
  cases e with
  | error p =>
    have hm : (x.step (.error p)).ledger = x.ledger.book p none := hm
    have hheld : (x.step (.error p)).ledger.held = x.ledger.held := by rw [hm]; rfl
    rw [held_eq_of_ledger hheld, h]
  | connected p => exact held_none_tidy hm h
  | data p c => exact held_none_tidy hm h
  | fin p => exact held_none_tidy hm h
  | poll p expired err => exact held_none_tidy hm h
  | progress p state refused rcvWnd sndBuf => exact held_none_tidy hm h
  | reap p => exact held_none_tidy hm h
  | _ => cases hi

theorem settled_advance {x : Outbound} (h : x.Settled) (late : Bool) (freed : TcpState) (err : Err) :
    (x.advance late freed err).Settled := by
  have hout {y : Outbound} (hy : y.task.settling = none) : y.Settled := by
    intro k hk
    rw [hy] at hk
    cases hk
  unfold advance
  split <;> rename_i ht
  · exact h
  · rename_i k
    split_ifs with hc
    · rintro _ ⟨⟩
      exact .inl hc
    · exact hout rfl
    · exact h
  · exact hout rfl
  · rename_i k
    dsimp only
    split_ifs with hstate
    · exact hout rfl
    · rintro _ ⟨⟩
      obtain hc | hn | ⟨-, b, hb, hne⟩ := h k (by rw [ht]; rfl)
      · exact .inl hc
      · exact .inr (.inl hn)
      · simp [hb, hne] at hstate
  · exact hout rfl
  · rename_i k
    rintro _ ⟨⟩
    obtain hc | hn | ⟨hc, -⟩ := h k (by rw [ht]; rfl)
    · refine .inl ?_
      cases hk : x.objs k with
      | none => simp [isConnected, hk] at hc
      | some o =>
        have hset : o.connected = true := by simpa [isConnected, hk] using hc
        exact (isConnected_apply (f := Conn.startPolling) hk).trans hset
    · exact .inr (.inl ((held_eq_of_ledger
        (congrArg Ledger.held (ledger_apply_leaves x k Conn.leaves_startPolling)) k).trans hn))
    · rw [ht] at hc; cases hc
  · exact hout rfl
  · exact hout rfl
  · exact hout rfl
  · dsimp only
    split
    · split
      · exact hout rfl
      · split
        · exact hout rfl
        · exact hout (by rw [ht]; rfl)
    · exact hout rfl

theorem held_open {x : Outbound} (h : x.OneOwner) {k : ObjId} {q : PcbPtr} {b : Pcb} (hk : x.held k = some q)
    (hb : x.net.pcbs q = some b) : b.rxClosed = false ∧ b.callbackArg = .client k := by
  obtain ⟨o, ho, hq⟩ := held_eq_some.mp hk
  have hopen := h.closed k o q b ho hq hb
  obtain ⟨j, o', harg, ho', hq'⟩ := h.opened q b hb hopen
  obtain rfl := h.unique k j o o' q ho ho' hq hq'
  exact ⟨hopen, harg⟩

theorem SettledAt.keep {x y : Outbound} {k : ObjId} (h : x.SettledAt k) (ht : y.task = x.task)
    (hh : y.held k = x.held k) (hc : x.isConnected k = true → y.isConnected k = true)
    (hs : ∀ q b, x.held k = some q → x.net.pcbs q = some b → b.state ≠ .established →
      ∃ b', y.net.pcbs q = some b' ∧ b'.state ≠ .established) : y.SettledAt k := by
  obtain hconn | hn | ⟨htask, b, hb, hne⟩ := h
  · exact .inl (hc hconn)
  · exact .inr (.inl (hh.trans hn))
  · obtain ⟨q, hq, hb⟩ := Option.bind_eq_some_iff.mp hb
    obtain ⟨b', hb', hne'⟩ := hs q b hq hb hne
    exact .inr (.inr ⟨ht.trans htask, b', by rw [hh, hq]; exact hb', hne'⟩)

theorem deliver_pcbs (x : Outbound) (a : CallbackArg) {f : Conn → Conn}
    (hf : ∀ (o : SelfOwned) (n : Net), (f (o.conn n)).net.pcbs = n.pcbs) :
    (x.deliver a f).net.pcbs = x.net.pcbs := by
  cases a with
  | client k =>
    simp only [deliver, apply]
    split
    · rfl
    · exact hf _ _
  | _ => rfl

theorem settledAt_fin {x : Outbound} {k : ObjId} (h : x.SettledAt k) (hk : x.task.settling = some k)
    {p : PcbPtr} (he : x.Enabled (.fin p)) (hc : x.Clean (.fin p)) : (x.step (.fin p)).SettledAt k := by
  obtain ⟨b, hb⟩ := Option.isSome_iff_exists.mp he
  have ht := interrupt_task x (e := .fin p) rfl
  have hheld : (x.step (.fin p)).held k = x.held k :=
    held_eq_of_ledger (congrArg Ledger.held (ledger_quiet he rfl)) k
  have hrecv (o : SelfOwned) (n : Net) : ((o.conn n).doRecv []).net.pcbs = n.pcbs := rfl
  have hpcbs : (x.step (.fin p)).net.pcbs = (x.net.receiveFin p).pcbs := by
    simp only [step, hb, Option.elim_some]
    split_ifs
    · exact deliver_pcbs _ _ hrecv
    · rfl
  have hstate (q : PcbPtr) (c : Pcb) (hq : x.net.pcbs q = some c) (hne : c.state ≠ .established ∨ q = p) :
      ∃ c', (x.step (.fin p)).net.pcbs q = some c' ∧ c'.state ≠ .established := by
    rw [hpcbs]
    by_cases hqp : q = p
    · subst q
      refine ⟨if c.state = .established ∨ c.state = .synRcvd then { c with state := .closeWait } else c, ?_, ?_⟩
      · simp only [Net.receiveFin, Net.modify, Function.update_self, hq, Option.map_some]
      split_ifs with hs
      · simp
      · exact fun hest => hs (.inl hest)
    · exact ⟨c, by simpa [Net.receiveFin, Net.modify, hqp] using hq, hne.resolve_right hqp⟩
  by_cases harg : b.callbackArg = .client k
  · obtain ⟨hcheck, hown⟩ := hc k b hk hb harg
    obtain ⟨c', hc', hne⟩ := hstate p b hb (.inr rfl)
    exact .inr (.inr ⟨ht.trans hcheck, c', by rw [hheld, hown]; exact hc', hne⟩)
  · refine h.keep ht hheld (fun hconn => ?_) fun q c _ hq hne => hstate q c hq (.inl hne)
    rw [← hconn]
    simp only [step, hb, Option.elim_some]
    split_ifs
    · exact isConnected_deliver fun o _ ha => absurd ha harg
    · rfl

theorem settledAt_connected {x : Outbound} (ho : x.OneOwner) {k : ObjId} (h : x.SettledAt k) {p : PcbPtr}
    (he : x.Enabled (.connected p)) : (x.step (.connected p)).SettledAt k := by
  have ht := interrupt_task x (e := .connected p) rfl
  have hheld : (x.step (.connected p)).held k = x.held k :=
    held_eq_of_ledger (congrArg Ledger.held (ledger_quiet he rfl)) k
  obtain ⟨b, hb, -⟩ := he
  have hb : x.net.pcbs p = some b := hb
  by_cases harg : b.callbackArg = .client k
  · cases hk : x.objs k with
    | none => exact .inr (.inl (hheld.trans (by simp [held, hk])))
    | some o =>
      refine .inl ?_
      simp only [step, hb, Option.elim_some, harg]
      exact isConnected_apply (x := x.setNet _) hk
  · refine h.keep ht hheld (fun hconn => ?_) fun q c hq hc hne => ⟨c, ?_, hne⟩
    · rw [← hconn]
      simp only [step, hb, Option.elim_some]
      exact isConnected_deliver fun o _ ha => absurd ha harg
    · have hqp : q ≠ p := by
        rintro rfl
        exact harg (held_open ho hq hb).2
      simp only [step, hb, Option.elim_some]
      rw [deliver_pcbs _ _ fun _ _ => rfl]
      simpa [setNet, Net.modify, hqp] using hc

theorem settledAt_data {x : Outbound} {k : ObjId} (h : x.SettledAt k) {p : PcbPtr} {c : Chain}
    (he : x.Enabled (.data p c)) : (x.step (.data p c)).SettledAt k := by
  have ht := interrupt_task x (e := .data p c) rfl
  have hheld : (x.step (.data p c)).held k = x.held k :=
    held_eq_of_ledger (congrArg Ledger.held (ledger_quiet he rfl)) k
  obtain ⟨b, hb⟩ := Option.isSome_iff_exists.mp he.1
  have hrecv (o : SelfOwned) (n : Net) : ((o.conn n).doRecv c).net.pcbs = n.pcbs ∧
      ((o.conn n).doRecv c).self.connected = o.connected := by
    simp only [Conn.doRecv, he.2, if_false]
    split_ifs <;> exact ⟨rfl, rfl⟩
  refine h.keep ht hheld (fun hconn => ?_) fun q d _ hq hne => ?_
  · rw [← hconn]
    simp only [step, hb, Option.elim_some]
    split_ifs
    · exact isConnected_deliver fun o _ _ => (hrecv o _).2
    · rfl
  · have hpcbs : (x.step (.data p c)).net.pcbs = (x.net.receive p (Chain.totLen c)).pcbs := by
      simp only [step, hb, Option.elim_some]
      split_ifs
      · exact deliver_pcbs _ _ fun o n => (hrecv o n).1
      · rfl
    rw [hpcbs]
    by_cases hqp : q = p
    · subst q
      exact ⟨{ d with rcvWnd := d.rcvWnd - Chain.totLen c }, by simp [Net.receive, Net.modify, hq], hne⟩
    · exact ⟨d, by simpa [Net.receive, Net.modify, hqp] using hq, hne⟩

theorem settledAt_error {x : Outbound} (ho : x.OneOwner) (hr : x.Retrying) {k : ObjId} (h : x.SettledAt k)
    (hk : x.task.settling = some k) {p : PcbPtr} (he : x.Enabled (.error p)) (hc : x.Clean (.error p)) :
    (x.step (.error p)).SettledAt k := by
  have hm : (x.step (.error p)).ledger = x.ledger.book p none := moves he hr
  have hheld : (x.step (.error p)).held k = x.held k := held_eq_of_ledger (by rw [hm]; rfl) k
  obtain ⟨b, hb⟩ := Option.isSome_iff_exists.mp he
  have harg := hc k b hk hb
  refine h.keep (interrupt_task x rfl) hheld (fun hconn => ?_) fun q c hq hqc hne => ⟨c, ?_, hne⟩
  · rw [← hconn]
    simp only [step, hb, Option.elim_some]
    split_ifs
    · exact isConnected_deliver (x := x) fun o _ ha => absurd ha harg
    · rfl
  · have hqp : q ≠ p := by
      rintro rfl
      exact harg (held_open ho hq hb).2
    have herr (o : SelfOwned) (n : Net) : ((o.conn n).doErr).net.pcbs = n.pcbs := by
      unfold Conn.doErr
      split_ifs <;> rfl
    simp only [step, hb, Option.elim_some, setNet, Net.free, Function.update_of_ne hqp]
    split_ifs
    · rw [deliver_pcbs _ _ herr, hqc]
    · exact hqc

theorem doPoll_others (o : SelfOwned) (n : Net) {p q : PcbPtr} (hq : q ≠ p) (expired : Bool) (fin : Err) :
    ((o.conn n).doPoll p expired fin).net.pcbs q = n.pcbs q := by
  have hforget (c : Conn) : (c.forget p).net = c.net := by
    unfold Conn.forget
    split_ifs
    · exact Conn.setCs_net _ _
    · rfl
  have herr (c : Conn) : c.doErr.net = c.net := by
    unfold Conn.doErr
    split_ifs <;> rfl
  have hclose := (Net.local_tcpClose p (o.conn n).net fin).1 q hq
  unfold Conn.doPoll
  split
  · split
    · rw [hforget, herr]
      simp [Net.tcpAbort, Net.free, Net.tcpPoll, Net.record, Net.modify, hq]
    · rfl
  · dsimp only
    rw [hforget]
    dsimp only
    split
    · exact hclose
    · exact ((Net.local_tcpPoll p _ _).1 q hq).trans hclose

theorem deliver_doPoll_others (x : Outbound) (a : CallbackArg) {p q : PcbPtr} (hq : q ≠ p) (expired : Bool)
    (fin : Err) : (x.deliver a fun c => c.doPoll p expired fin).net.pcbs q = x.net.pcbs q := by
  cases a with
  | client k =>
    simp only [deliver, apply]
    split
    · rfl
    · exact doPoll_others _ _ hq expired fin
  | _ => rfl

theorem settledAt_doPoll {x : Outbound} (hr : x.Retrying) {k : ObjId} (h : x.SettledAt k) {p : PcbPtr} {b : Pcb}
    (hb : x.net.pcbs p = some b) (hpoll : b.poll = some .clientDoPoll) (harg : b.callbackArg = .client k)
    {expired : Bool} {err : Err} (hc : expired = true → x.held k = some p) :
    (x.step (.poll p expired err)).SettledAt k := by
  have ht := interrupt_task x (e := .poll p expired err) rfl
  have hstep : x.step (.poll p expired err) = x.apply k fun c => c.doPoll p expired err := by
    simp [step, hb, poll, hpoll, harg, deliver]
  cases hq : x.held k with
  | none => exact .inr (.inl (held_none_interrupt hr (by simp [Enabled, hb]) rfl hq))
  | some q =>
    obtain ⟨o, ho, hcpcb⟩ := held_eq_some.mp hq
    have hsame (hid : (o.conn x.net).doPoll p expired err = o.conn x.net) :
        (x.step (.poll p expired err)).SettledAt k := by
      have hobj : Function.update x.objs k (some (.ofConn (o.conn x.net))) = x.objs := by
        rw [show SelfOwned.ofConn (o.conn x.net) = o from rfl, ← ho, Function.update_eq_self]
      have hx : x.step (.poll p expired err) = x := by
        rw [hstep]
        simp only [apply, ho, hid, hobj]
        rfl
      rw [hx]
      exact h
    by_cases hqp : q = p
    · subst q
      obtain hid | ⟨e, -, -, hcp⟩ := Conn.doPoll_cases o x.net p expired err
      · exact hsame hid
      · refine .inr (.inl ?_)
        rw [if_pos hcpcb] at hcp
        rw [hstep]
        simp [apply, ho, held, SelfOwned.ofConn, hcp]
    · by_cases hconn : (o.conn x.net).self.connected = true
      · have hexp : expired = false := by
          rw [← Bool.not_eq_true]
          exact fun hexp => hqp (Option.some.inj (hq.symm.trans (hc hexp)))
        subst hexp
        exact hsame (by rw [Conn.doPoll, if_pos hconn]; rfl)
      · refine h.keep ht (held_poll hq fun heq => absurd heq hqp) (fun hset => ?_) fun s c hs hsc hne => ⟨c, ?_, hne⟩
        · exact absurd (by simpa [isConnected, ho] using hset) hconn
        · obtain rfl : q = s := Option.some.inj (hq.symm.trans hs)
          rw [hstep]
          exact (deliver_doPoll_others x (.client k) hqp expired err).trans hsc

theorem settledAt_poll {x : Outbound} (ho : x.OneOwner) (hr : x.Retrying) {k : ObjId} (h : x.SettledAt k)
    (hk : x.task.settling = some k) {p : PcbPtr} {expired : Bool} {err : Err}
    (he : x.Enabled (.poll p expired err)) (hc : x.Clean (.poll p expired err)) :
    (x.step (.poll p expired err)).SettledAt k := by
  have ht := interrupt_task x (e := .poll p expired err) rfl
  obtain ⟨b, hb⟩ := Option.isSome_iff_exists.mp he
  by_cases hpoll : b.poll = some .clientDoPoll
  · by_cases harg : b.callbackArg = .client k
    · exact settledAt_doPoll hr h hb hpoll harg (hc k b hk hb harg)
    · have hstep : x.step (.poll p expired err) = x.deliver b.callbackArg fun c => c.doPoll p expired err := by
        simp [step, hb, poll, hpoll]
      rw [hstep] at ht ⊢
      refine h.keep ht (held_deliver fun _ _ ha => absurd ha harg) (fun hconn => ?_) fun q c hq hqc hne => ⟨c, ?_, hne⟩
      · rw [← hconn]
        exact isConnected_deliver fun _ _ ha => absurd ha harg
      · have hqp : q ≠ p := by
          rintro rfl
          exact harg (held_open ho hq hb).2
        exact (deliver_doPoll_others x _ hqp expired err).trans hqc
  · by_cases hretry : b.poll = some .closeRetryPoll
    · have hstep : x.step (.poll p expired err) = x.setNet (if (x.net.tcpClose p err).1 = .ok
          then (x.net.tcpClose p err).2 else (x.net.tcpClose p err).2.tcpPoll p (some .closeRetryPoll)) := by
        simp [step, hb, poll, hretry]
      rw [hstep]
      refine h.keep rfl rfl id fun q c hq hqc hne => ⟨c, ?_, hne⟩
      have hqp : q ≠ p := by
        rintro rfl
        have := (held_open ho hq hb).1
        rw [hr q b hb hretry] at this
        cases this
      have hclose := (Net.local_tcpClose p x.net err).1 q hqp
      simp only [setNet]
      split_ifs
      · rw [hclose, hqc]
      · rw [(Net.local_tcpPoll p _ _).1 q hqp, hclose, hqc]
    · have hstep : x.step (.poll p expired err) = x := by simp [step, hb, poll, hpoll, hretry]
      rw [hstep]
      exact h

theorem settled_step {x : Outbound} (h : x.Settled) (ho : x.OneOwner) (hr : x.Retrying) {e : OutEvent}
    (he : x.Enabled e) (hc : x.Clean e) : (x.step e).Settled := by
  have hidle {y : Outbound} (hy : y.task.settling = none) : y.Settled := by
    intro k hk
    rw [hy] at hk
    cases hk
  have hat (hi : e.interrupt = true) {k : ObjId} (hk : (x.step e).task.settling = some k) :
      x.task.settling = some k := interrupt_task x hi ▸ hk
  have hload (k : ObjId) (task : PcbPtr → Task) (htask : ∀ p, (task p).settling = none) :
      (x.load k task).Settled := by
    apply hidle
    unfold load
    cases x.held k with
    | none => rfl
    | some p => exact htask p
  cases e with
  | construct k mem => exact hidle (by rw [step, he.1]; rfl)
  | copy k k' => exact hidle (by rw [step, he.1]; rfl)
  | destroy k => exact hidle (by rw [step, he.1]; rfl)
  | connect k pcb port res =>
    apply hidle
    simp only [step]
    split_ifs <;> rfl
  | call k op => exact hidle (by rw [step, apply_task, he.1]; rfl)
  | status k => exact hload k _ fun _ => rfl
  | availableForWrite k => exact hload k _ fun _ => rfl
  | write k buf => exact hload k _ fun _ => rfl
  | advance late freed err => exact settled_advance h late freed err
  | connected p => exact fun k hk => settledAt_connected ho (h k (hat rfl hk)) he
  | data p c => exact fun k hk => settledAt_data (h k (hat rfl hk)) he
  | fin p => exact fun k hk => settledAt_fin (h k (hat rfl hk)) (hat rfl hk) he hc
  | error p => exact fun k hk => settledAt_error ho hr (h k (hat rfl hk)) (hat rfl hk) he hc
  | poll p expired err => exact fun k hk => settledAt_poll ho hr (h k (hat rfl hk)) (hat rfl hk) he hc
  | progress p state refused rcvWnd sndBuf =>
    intro k hk
    obtain ⟨b, hb, hs⟩ := he
    have hb : x.net.pcbs p = some b := hb
    refine (h k hk).keep rfl rfl id fun q c _ hqc hne => ?_
    by_cases hqp : q = p
    · subst q
      obtain rfl : b = c := Option.some.inj (hb.symm.trans hqc)
      refine ⟨{ b with state := state, refusedData := refused, rcvWnd := rcvWnd, sndBuf := sndBuf }, ?_, ?_⟩
      · simp [step, setNet, Net.modify, hqc]
      · obtain rfl | ⟨-, hs⟩ := hs
        · exact hne
        · rintro rfl
          cases hs
    · exact ⟨c, by simpa [step, setNet, Net.modify, hqp] using hqc, hne⟩
  | reap p =>
    intro k hk
    obtain ⟨b, hb, hrx⟩ := he
    have hb : x.net.pcbs p = some b := hb
    refine (h k hk).keep rfl rfl id fun q c hq hqc hne => ⟨c, ?_, hne⟩
    have hqp : q ≠ p := by
      rintro rfl
      have := (held_open ho hq hb).1
      rw [hrx] at this
      cases this
    simpa [step, setNet, Net.free, hqp] using hqc

end Outbound

end LogoCore.Ethernet
