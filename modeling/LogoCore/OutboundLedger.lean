import LogoCore.PcbEntries

namespace LogoCore.Ethernet

def OutEvent.quiet : OutEvent → Bool
  | .status _ | .availableForWrite _ | .write _ _ | .connected _ | .data _ _ | .fin _
  | .progress _ _ _ _ _ => true
  | _ => false

namespace Outbound

def ledger (x : Outbound) : Ledger ObjId PcbPtr :=
  ⟨fun k => (x.objs k).map fun o => o.state.cpcb, x.net.entries⟩

theorem ledger_apply {x : Outbound} {k : ObjId} {o : SelfOwned} (hk : x.objs k = some o) (f : Conn → Conn) :
    (x.apply k f).ledger = ⟨Function.update x.ledger.held k (some (f (o.conn x.net)).self.clientState.cpcb),
      (f (o.conn x.net)).net.entries⟩ := by
  simp only [apply, hk, ledger, SelfOwned.ofConn, Ledger.mk.injEq, and_true]
  funext j
  by_cases hj : j = k
  · subst j; simp
  · simp [hj]

theorem ledger_apply_leaves (x : Outbound) (k : ObjId) {f : Conn → Conn} (hf : Conn.Leaves f) :
    (x.apply k f).ledger = x.ledger := by
  cases hk : x.objs k with
  | none => simp [apply, hk]
  | some o =>
    obtain ⟨hc, hn⟩ := hf o x.net
    rw [ledger_apply hk, hc, hn]
    have hheld : x.ledger.held k = some o.state.cpcb := by simp [ledger, hk]
    rw [← hheld, Function.update_eq_self]
    rfl

theorem ledger_deliver_leaves (x : Outbound) (a : CallbackArg) {f : Conn → Conn} (hf : Conn.Leaves f) :
    (x.deliver a f).ledger = x.ledger := by
  cases a with
  | client k => exact ledger_apply_leaves x k hf
  | _ => rfl

theorem ledger_held {x : Outbound} {k : ObjId} {o : SelfOwned} (hk : x.objs k = some o) :
    x.ledger.held k = some o.state.cpcb := by simp [ledger, hk]

theorem ledger_holds {x : Outbound} {k : ObjId} {p : PcbPtr} : x.ledger.Holds k p ↔ x.held k = some p := by
  cases hk : x.objs k <;> simp [Ledger.Holds, ledger, held, hk]

theorem ledger_entry {x : Outbound} {p : PcbPtr} {b : Pcb} (hb : x.net.pcbs p = some b) :
    x.ledger.entry p = some b.entry := by simp [ledger, Net.entries, hb]

theorem ledger_entry_eq_none {x : Outbound} {p : PcbPtr} : x.ledger.entry p = none ↔ x.net.pcbs p = none :=
  Net.entries_eq_none

theorem ledger_congr {x y : Outbound} (ho : y.objs = x.objs) (hn : y.net.entries = x.net.entries) :
    y.ledger = x.ledger := by simp only [ledger, ho, hn]

theorem ledger_setNet {x : Outbound} {n : Net} (h : n.entries = x.net.entries) :
    (x.setNet n).ledger = x.ledger := ledger_congr rfl h

open Ledger

theorem tidy_of_eq {l l' : Ledger ObjId PcbPtr} (h : l' = l) : Tidy l l' := h ▸ .quiet l

theorem tidy_apply_closes (x : Outbound) (k : ObjId) {f : Conn → Conn} (hf : Conn.Closes f) :
    Tidy x.ledger (x.apply k f).ledger := by
  cases hk : x.objs k with
  | none => simpa [apply, hk] using Tidy.quiet x.ledger
  | some o =>
    obtain ⟨hc, hn⟩ := hf o x.net
    have hheld := ledger_held hk
    rw [ledger_apply hk, hc]
    cases hp : o.state.cpcb with
    | none =>
      rw [hp] at hn hheld
      dsimp only at hn
      rw [hn, ← hheld, Function.update_eq_self]
      exact .quiet _
    | some p =>
      rw [hp] at hn hheld
      obtain ⟨e, he, hs⟩ := hn
      rw [he]
      exact .release x.ledger k p e hheld hs

theorem tidy_doPoll (x : Outbound) {p : PcbPtr} {b : Pcb} (hb : x.net.pcbs p = some b) (expired : Bool) (err : Err) :
    Tidy x.ledger (x.deliver b.callbackArg fun c => c.doPoll p expired err).ledger := by
  cases ha : b.callbackArg with
  | client k =>
    simp only [deliver]
    cases hk : x.objs k with
    | none => simpa [apply, hk] using Tidy.quiet x.ledger
    | some o =>
      have hheld := ledger_held hk
      rw [ledger_apply hk]
      obtain h | ⟨e, he, hs, hc⟩ := Conn.doPoll_cases o x.net p expired err
      · rw [h]
        change Tidy _ ⟨Function.update x.ledger.held k (some o.state.cpcb), x.net.entries⟩
        rw [← hheld, Function.update_eq_self]
        exact .quiet _
      · rw [he, hc]
        by_cases hp : o.state.cpcb = some p
        · rw [if_pos hp]
          exact .release x.ledger k p e (hheld.trans (congrArg some hp)) hs
        · rw [if_neg hp, ← hheld, Function.update_eq_self]
          refine .shut x.ledger p e hs fun a hpa => .inr ⟨k, ?_, fun hk' => hp ?_⟩
          · obtain rfl : b.entry = a := Option.some.inj ((ledger_entry hb).symm.trans hpa)
            simp [Pcb.entry, ha, CallbackArg.owner]
          · exact Option.some.inj (hheld.symm.trans hk')
  | _ => exact .quiet _

def Retrying (x : Outbound) : Prop :=
  ∀ p b, x.net.pcbs p = some b → b.poll = some .closeRetryPoll → b.rxClosed = true

def Moves (x y : Outbound) : OutEvent → Prop
  | .construct k _ => y.ledger = x.ledger.name k (some none)
  | .copy k k' => y.ledger = x.ledger.name k' (x.ledger.held k)
  | .destroy k => y.ledger = x.ledger.name k none
  | .connect k none _ _ => y.ledger = x.ledger.name k (some none)
  | .connect k (some p) _ _ => y.ledger = (x.ledger.book p (some ⟨some k, false⟩)).name k (some (some p))
  | .error p => y.ledger = x.ledger.book p none
  | _ => Tidy x.ledger y.ledger

theorem ledger_objs (x : Outbound) (k : ObjId) (o : Option SelfOwned) :
    ({ x with objs := Function.update x.objs k o } : Outbound).ledger =
      x.ledger.name k (o.map fun o => o.state.cpcb) := by
  simp only [ledger, name, Ledger.mk.injEq, and_true]
  funext j
  by_cases hj : j = k
  · subst j; simp
  · simp [hj]

theorem ledger_connect {x : Outbound} {k : ObjId} {o : SelfOwned} (hk : x.objs k = some o) (pcb : Option PcbPtr)
    (port : UInt16) (res : Err) :
    (x.apply k fun c => c.connectBegin k pcb port res).ledger =
      pcb.elim (x.ledger.name k (some none)) fun p =>
        (x.ledger.book p (some ⟨some k, false⟩)).name k (some (some p)) := by
  rw [ledger_apply hk]
  cases pcb with
  | none => rfl
  | some p =>
    have hentries : (((((x.net.tcpNew p).tcpArg p (.client k)).tcpRecv p (some .clientDoRecv)).tcpErr p
        (some .clientDoErr)).tcpConnect p port res).entries =
        Function.update x.net.entries p (some ⟨some k, false⟩) := by
      funext q
      by_cases hq : q = p
      · subst q
        simp [Net.entries, Net.tcpConnect, Net.tcpErr, Net.tcpRecv, Net.tcpArg, Net.tcpNew, Net.modify,
          Net.record, Pcb.entry, CallbackArg.owner]
      · simp [Net.entries, Net.tcpConnect, Net.tcpErr, Net.tcpRecv, Net.tcpArg, Net.tcpNew, Net.modify,
          Net.record, hq]
    change (⟨_, _⟩ : Ledger ObjId PcbPtr) = ⟨_, _⟩
    congr 1

theorem apply_frame (x : Outbound) (k : ObjId) (f : Conn → Conn) :
    ∃ o n, x.apply k f = { x with objs := o, net := n } := by
  unfold apply
  split
  · exact ⟨_, _, rfl⟩
  · exact ⟨_, _, rfl⟩

theorem deliver_frame (x : Outbound) (a : CallbackArg) (f : Conn → Conn) :
    ∃ o n, x.deliver a f = { x with objs := o, net := n } := by
  cases a with
  | client k => exact apply_frame x k f
  | _ => exact ⟨_, _, rfl⟩

theorem apply_task (x : Outbound) (k : ObjId) (f : Conn → Conn) : (x.apply k f).task = x.task := by
  obtain ⟨o, n, h⟩ := apply_frame x k f
  rw [h]

theorem tidy_advance (x : Outbound) (late : Bool) (freed : TcpState) (err : Err) :
    Tidy x.ledger (x.advance late freed err).ledger := by
  unfold advance
  split
  · exact .quiet _
  · split_ifs <;> exact .quiet _
  · exact tidy_apply_closes x _ (Conn.closes_abandon err)
  · dsimp only
    split_ifs <;> exact .quiet _
  · exact tidy_apply_closes x _ (Conn.closes_fail err)
  · exact tidy_of_eq (ledger_apply_leaves x _ Conn.leaves_startPolling)
  · exact .quiet _
  · exact .quiet _
  · exact .quiet _
  · rename_i k cpcb buf i stuffed _
    have hwrite (chunk : List UInt8) : (x.net.tcpWrite cpcb chunk err).entries = x.net.entries :=
      Net.entries_quiet (Net.quiet_tcpWrite x.net cpcb chunk err)
    dsimp only
    generalize (if buf.length - i < 1024 then buf.length - i else 1024) = inc
    split_ifs
    · exact tidy_of_eq (ledger_congr rfl (hwrite _))
    · exact tidy_of_eq (ledger_congr rfl (hwrite _))
    · exact tidy_of_eq (ledger_congr rfl (hwrite _))
    · exact .quiet _
    · exact .quiet _

theorem tidy_call (x : Outbound) (k : ObjId) {op : ClientOp} (hop : op.guarded = true) :
    Tidy x.ledger (x.apply k fun c => (c.perform op).2).ledger := by
  have hid : Conn.Leaves fun c => c := fun _ _ => ⟨rfl, rfl⟩
  cases op with
  | read => exact tidy_of_eq (ledger_apply_leaves x k Conn.leaves_read)
  | flush => exact tidy_of_eq (ledger_apply_leaves x k Conn.leaves_flush)
  | stop fin => exact tidy_apply_closes x k (Conn.closes_stop fin)
  | available => exact tidy_of_eq (ledger_apply_leaves x k hid)
  | port => exact tidy_of_eq (ledger_apply_leaves x k hid)
  | peek => exact tidy_of_eq (ledger_apply_leaves x k hid)
  | _ => cases hop

theorem tidy_poll {x : Outbound} (hr : x.Retrying) {p : PcbPtr} {b : Pcb} (hb : x.net.pcbs p = some b)
    (expired : Bool) (err : Err) : Tidy x.ledger (x.poll p b expired err).ledger := by
  unfold poll
  split_ifs with hdo hretry
  · exact tidy_doPoll x hb expired err
  · obtain ⟨e, he, hs⟩ := Net.entries_tcpClose x.net p err
    have hclosed : ∀ a ∈ x.ledger.entry p, a.closed = true ∨ ∃ k, a.owner = some k ∧ ¬ x.ledger.Holds k p := by
      intro a ha
      obtain rfl : b.entry = a := Option.some.inj ((ledger_entry hb).symm.trans ha)
      exact .inl (hr p b hb hretry)
    have hnet {m : Net} (hm : m.entries = Function.update x.net.entries p e) :
        (x.setNet m).ledger = x.ledger.book p e := by
      simp only [ledger, setNet, hm]; rfl
    dsimp only
    split_ifs
    · rw [hnet he]
      exact .shut _ p e hs hclosed
    · rw [hnet ((Net.entries_tcpPoll _ p _).trans he)]
      exact .shut _ p e hs hclosed
  · exact .quiet _

theorem ledger_quiet {x : Outbound} {e : OutEvent} (he : x.Enabled e) (hq : e.quiet = true) :
    (x.step e).ledger = x.ledger := by
  cases e with
  | status k => rfl
  | availableForWrite k => rfl
  | write k buf => rfl
  | connected p =>
    obtain ⟨b, hb, -⟩ := he
    have hb : x.net.pcbs p = some b := hb
    simp only [step, hb, Option.elim_some]
    refine (ledger_deliver_leaves _ _ Conn.leaves_doConnected).trans (ledger_setNet ?_)
    exact Net.entries_modify _ _ _ fun _ => rfl
  | data p c =>
    obtain ⟨b, hb⟩ := Option.isSome_iff_exists.mp he.1
    have hn : (x.setNet (x.net.receive p (Chain.totLen c))).ledger = x.ledger :=
      ledger_setNet (Net.entries_modify _ _ _ fun _ => rfl)
    simp only [step, hb, Option.elim_some]
    split_ifs
    · exact (ledger_deliver_leaves _ _ (Conn.leaves_doRecv c)).trans hn
    · exact hn
  | fin p =>
    obtain ⟨b, hb⟩ := Option.isSome_iff_exists.mp he
    have hn : (x.setNet (x.net.receiveFin p)).ledger = x.ledger :=
      ledger_setNet (Net.entries_modify _ _ _ fun b => by split_ifs <;> rfl)
    simp only [step, hb, Option.elim_some]
    split_ifs
    · exact (ledger_deliver_leaves _ _ (Conn.leaves_doRecv [])).trans hn
    · exact hn
  | progress p state refused rcvWnd sndBuf => exact ledger_setNet (Net.entries_modify _ _ _ fun _ => rfl)
  | _ => cases hq

theorem moves {x : Outbound} {e : OutEvent} (he : x.Enabled e) (hr : x.Retrying) : x.Moves (x.step e) e := by
  cases e with
  | construct k mem => exact ledger_objs x k _
  | copy k k' => exact ledger_objs x k' _
  | destroy k => exact ledger_objs x k none
  | connect k pcb port res =>
    obtain ⟨o, ho⟩ := Option.isSome_iff_exists.mp he.2.1
    have hl := ledger_connect ho pcb port res
    have hstep : (x.step (.connect k pcb port res)).ledger =
        (x.apply k fun c => c.connectBegin k pcb port res).ledger := by
      simp only [step]
      split_ifs <;> rfl
    cases pcb <;> exact hstep.trans hl
  | call k op => exact tidy_call x k he.2.2
  | status k => exact .quiet _
  | availableForWrite k => exact .quiet _
  | write k buf => exact .quiet _
  | advance late freed err => exact tidy_advance x late freed err
  | connected p => exact tidy_of_eq (ledger_quiet he rfl)
  | data p c => exact tidy_of_eq (ledger_quiet he rfl)
  | fin p => exact tidy_of_eq (ledger_quiet he rfl)
  | error p =>
    obtain ⟨b, hb⟩ := Option.isSome_iff_exists.mp he
    simp only [Moves, step, hb, Option.elim_some]
    have hfree (y : Outbound) (hy : y.ledger = x.ledger) : (y.setNet (y.net.free p)).ledger = x.ledger.book p none := by
      rw [← hy]
      simp only [ledger, setNet, Net.entries_free]
      rfl
    apply hfree
    split_ifs
    · exact ledger_deliver_leaves _ _ Conn.leaves_doErr
    · rfl
  | poll p expired err =>
    obtain ⟨b, hb⟩ := Option.isSome_iff_exists.mp he
    simp only [Moves, step, hb, Option.elim_some]
    exact tidy_poll hr hb expired err
  | progress p state refused rcvWnd sndBuf => exact tidy_of_eq (ledger_quiet he rfl)
  | reap p =>
    obtain ⟨b, hb, hrx⟩ := he
    have hb : x.net.pcbs p = some b := hb
    have hnet : (x.step (.reap p)).ledger = x.ledger.book p none := by
      simp only [ledger, step, setNet, Net.entries_free]
      rfl
    simp only [Moves, hnet]
    refine .shut _ p none (by simp [Shut]) fun a ha => .inl ?_
    obtain rfl : b.entry = a := Option.some.inj ((ledger_entry hb).symm.trans ha)
    exact hrx

end Outbound

end LogoCore.Ethernet
