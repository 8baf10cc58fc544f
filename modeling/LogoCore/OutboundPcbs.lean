import LogoCore.ClientCopies

namespace LogoCore.Ethernet

/-- The copy of `cs->cpcb` that a running call works on, with the client it comes from. -/
def Task.copy : Task → Option (ObjId × PcbPtr)
  | .status k p | .availableForWrite k p | .write k p _ _ _ => some (k, p)
  | _ => none

def OutEvent.solo : OutEvent → Bool
  | .copy _ _ | .destroy _ => false
  | _ => true

def OutEvent.interrupt : OutEvent → Bool
  | .connected _ | .data _ _ | .fin _ | .error _ | .poll _ _ _ | .progress _ _ _ _ _ | .reap _ => true
  | _ => false

def soloMachine : Machine Outbound OutEvent := ⟨fun x e => x.Enabled e ∧ e.solo = true, Outbound.step⟩

namespace Outbound

/-- `cs->cpcb` of every client is null or in use. -/
def Live (x : Outbound) : Prop := ∀ k o p, x.objs k = some o → o.state.cpcb = some p → x.net.pcbs p ≠ none

/-- The control block that an event makes the client pass to lwIP or look into. -/
def uses (x : Outbound) : OutEvent → Option PcbPtr
  | .call k .read | .call k .flush | .call k (.stop _) => x.held k
  | .advance _ _ _ =>
    match x.task with
    | .timingOut k | .checking k | .failing k | .polling k => x.held k
    | .status _ p | .availableForWrite _ p | .write _ p _ _ _ => some p
    | _ => none
  | _ => none

/-- lwIP reports no error for a control block that a client names. -/
def NoError (x : Outbound) : OutEvent → Prop
  | .error p => ∀ k, x.held k ≠ some p
  | _ => True

/-- `do_poll` neither closes nor aborts the control block that a running call works on. -/
def NoClose (x : Outbound) : OutEvent → Prop
  | .poll p expired _ => ∀ k, x.task.copy = some (k, p) → x.isConnected k = true ∧ expired = false
  | _ => True

theorem live_iff {x : Outbound} : x.Live ↔ ∀ k p, x.held k = some p → x.net.pcbs p ≠ none := by
  constructor
  · intro h k p hk
    obtain ⟨o, ho, hp⟩ := held_eq_some.mp hk
    exact h k o p ho hp
  · exact fun h k o p ho hp => h k p (held_eq_some.mpr ⟨o, ho, hp⟩)

theorem live_of_anchored {x : Outbound} (h : x.ledger.Anchored) : x.Live := by
  rw [live_iff]
  intro k p hk
  obtain ⟨e, he, -⟩ := h k p (ledger_holds.mpr hk)
  rw [ne_eq, ← ledger_entry_eq_none, he]
  simp

theorem anchored_step {x : Outbound} (h : x.ledger.Anchored) (hr : x.Retrying) {e : OutEvent}
    (he : x.Enabled e) (hs : e.solo = true) (hn : x.NoError e) : (x.step e).ledger.Anchored := by
  have hm := moves he hr
  cases e with
  | construct k mem =>
    rw [show (x.step (.construct k mem)).ledger = _ from hm]
    exact h.drop
  | copy k k' => cases hs
  | destroy k => cases hs
  | connect k pcb port res =>
    cases pcb with
    | none =>
      rw [show (x.step (.connect k none port res)).ledger = _ from hm]
      exact h.drop
    | some p =>
      rw [show (x.step (.connect k (some p) port res)).ledger = _ from hm]
      exact h.acquire (ledger_entry_eq_none.mpr (he.2.2 p rfl))
  | error p =>
    rw [show (x.step (.error p)).ledger = _ from hm]
    exact h.book fun k hk => hn k (ledger_holds.mp hk)
  | _ => exact h.tidy hm

theorem noError_of_live {x : Outbound} (hr : x.Retrying) {e : OutEvent} (he : x.Enabled e)
    (h : (x.step e).Live) : x.NoError e := by
  cases e with
  | error p =>
    intro k hk
    have hm : (x.step (.error p)).ledger = x.ledger.book p none := moves he hr
    have hholds : (x.step (.error p)).ledger.Holds k p := by
      rw [hm]
      exact ledger_holds.mpr hk
    refine live_iff.mp h k p (ledger_holds.mp hholds) (ledger_entry_eq_none.mp ?_)
    rw [hm, Ledger.entry_book, if_pos rfl]
  | _ => trivial

theorem anchored_initial : initial.ledger.Anchored := by
  intro k p hk
  cases hk

theorem interrupt_frame (x : Outbound) {e : OutEvent} (h : e.interrupt = true) :
    ∃ o n, x.step e = { x with objs := o, net := n } := by
  have hnone : ∃ o n, x = { x with objs := o, net := n } := ⟨_, _, rfl⟩
  have hdeliver (m : Net) (a : CallbackArg) (f : Conn → Conn) :
      ∃ o n, (x.setNet m).deliver a f = { x with objs := o, net := n } := deliver_frame (x.setNet m) a f
  cases e with
  | connected p =>
    cases hb : x.net.pcbs p with
    | none => simpa only [step, hb, Option.elim_none] using hnone
    | some b => simpa only [step, hb, Option.elim_some] using hdeliver _ _ _
  | data p c =>
    cases hb : x.net.pcbs p with
    | none => simpa only [step, hb, Option.elim_none] using hnone
    | some b =>
      simp only [step, hb, Option.elim_some]
      split_ifs
      · exact hdeliver _ _ _
      · exact ⟨_, _, rfl⟩
  | fin p =>
    cases hb : x.net.pcbs p with
    | none => simpa only [step, hb, Option.elim_none] using hnone
    | some b =>
      simp only [step, hb, Option.elim_some]
      split_ifs
      · exact hdeliver _ _ _
      · exact ⟨_, _, rfl⟩
  | error p =>
    cases hb : x.net.pcbs p with
    | none => simpa only [step, hb, Option.elim_none] using hnone
    | some b =>
      simp only [step, hb, Option.elim_some, setNet]
      split_ifs
      · obtain ⟨o, n, hd⟩ := deliver_frame x b.callbackArg Conn.doErr
        rw [hd]
        exact ⟨_, _, rfl⟩
      · exact ⟨_, _, rfl⟩
  | poll p expired err =>
    cases hb : x.net.pcbs p with
    | none => simpa only [step, hb, Option.elim_none] using hnone
    | some b =>
      simp only [step, hb, Option.elim_some, poll]
      split
      · exact deliver_frame x _ _
      · split
        · exact ⟨_, _, rfl⟩
        · exact hnone
  | progress p state refused rcvWnd sndBuf => exact ⟨_, _, rfl⟩
  | reap p => exact ⟨_, _, rfl⟩
  | _ => cases h

theorem interrupt_task (x : Outbound) {e : OutEvent} (h : e.interrupt = true) : (x.step e).task = x.task := by
  obtain ⟨o, n, hs⟩ := interrupt_frame x h
  rw [hs]

def CopyHeld (x : Outbound) : Prop := ∀ k p, x.task.copy = some (k, p) → x.held k = some p

theorem held_eq_of_ledger {x y : Outbound} (h : y.ledger.held = x.ledger.held) (k : ObjId) : y.held k = x.held k := by
  have hk := congrArg Option.join (congrFun h k)
  have hjoin (z : Outbound) : (z.ledger.held k).join = z.held k := by
    cases hz : z.objs k <;> simp [ledger, held, hz]
  rwa [hjoin, hjoin] at hk

theorem held_deliver {x : Outbound} {a : CallbackArg} {f : Conn → Conn} {k : ObjId}
    (hf : ∀ o, x.objs k = some o → a = .client k → (f (o.conn x.net)).self.clientState.cpcb = o.state.cpcb) :
    (x.deliver a f).held k = x.held k := by
  cases a with
  | client j =>
    simp only [deliver, apply]
    split
    · rfl
    · rename_i o ho
      by_cases hj : k = j
      · subst j
        simp [held, ho, SelfOwned.ofConn, hf o ho rfl]
      · simp [held, hj]
  | _ => rfl

theorem held_poll {x : Outbound} {k : ObjId} {p q : PcbPtr} {expired : Bool} {err : Err} (hk : x.held k = some q)
    (hq : q = p → x.isConnected k = true ∧ expired = false) : (x.step (.poll p expired err)).held k = x.held k := by
  cases hb : x.net.pcbs p with
  | none => simp [step, hb]
  | some b =>
    simp only [step, hb, Option.elim_some, poll]
    split
    · refine held_deliver fun o ho _ => ?_
      have hcpcb : o.state.cpcb = some q := by simpa [held, ho] using hk
      by_cases hqp : q = p
      · obtain ⟨hc, rfl⟩ := hq hqp
        have hc : o.connected = true := by simpa [isConnected, ho] using hc
        rw [Conn.doPoll, if_pos (show (o.conn x.net).self.connected = true from hc)]
        rfl
      · obtain h | ⟨e, -, -, h⟩ := Conn.doPoll_cases o x.net p expired err
        · rw [h]; rfl
        · rw [h, if_neg (by simpa [hcpcb] using hqp)]
    · split <;> rfl

theorem copyHeld_load {x : Outbound} {k : ObjId} {task : PcbPtr → Task}
    (ht : ∀ p, (task p).copy = some (k, p)) : (x.load k task).CopyHeld := by
  intro j p hj
  cases hk : x.held k with
  | none => simp [load, hk, Task.copy] at hj
  | some q =>
    simp only [load, hk, Option.elim_some, ht, Option.some.injEq, Prod.mk.injEq] at hj
    obtain ⟨rfl, rfl⟩ := hj
    exact hk

theorem copyHeld_of_none {x : Outbound} (h : x.task.copy = none) : x.CopyHeld := by
  intro k p hk
  rw [h] at hk
  cases hk

theorem copyHeld_advance {x : Outbound} (h : x.CopyHeld) (late : Bool) (freed : TcpState) (err : Err) :
    (x.advance late freed err).CopyHeld := by
  unfold advance
  split
  · exact h
  · split_ifs
    · exact copyHeld_of_none rfl
    · exact copyHeld_of_none rfl
    · exact h
  · exact copyHeld_of_none rfl
  · dsimp only
    split_ifs <;> exact copyHeld_of_none rfl
  · exact copyHeld_of_none rfl
  · exact copyHeld_of_none rfl
  · exact copyHeld_of_none rfl
  · exact copyHeld_of_none rfl
  · exact copyHeld_of_none rfl
  · rename_i k cpcb buf i stuffed ht
    have hk : x.held k = some cpcb := h k cpcb (by rw [ht]; rfl)
    dsimp only
    split
    · split
      · rintro _ _ ⟨⟩; exact hk
      · split
        · rintro _ _ ⟨⟩; exact hk
        · exact h
    · exact copyHeld_of_none rfl

theorem copyHeld_step {x : Outbound} (h : x.CopyHeld) (hr : x.Retrying) {e : OutEvent} (he : x.Enabled e)
    (hn : x.NoClose e) : (x.step e).CopyHeld := by
  have hkeep {y : Outbound} (ht : y.task = x.task) (hy : y.ledger.held = x.ledger.held) : y.CopyHeld := by
    intro k p hk
    rw [ht] at hk
    rw [held_eq_of_ledger hy]
    exact h k p hk
  have hidle {y : Outbound} (hx : x.task = .idle) (hy : y.task = x.task) : y.CopyHeld :=
    copyHeld_of_none (by rw [hy, hx]; rfl)
  cases e with
  | construct k mem => exact hidle he.1 rfl
  | copy k k' => exact hidle he.1 rfl
  | destroy k => exact hidle he.1 rfl
  | connect k pcb port res =>
    apply copyHeld_of_none
    simp only [step]
    split_ifs <;> rfl
  | call k op => exact hidle he.1 (apply_task x k _)
  | status k => exact copyHeld_load fun _ => rfl
  | availableForWrite k => exact copyHeld_load fun _ => rfl
  | write k buf => exact copyHeld_load fun _ => rfl
  | advance late freed err => exact copyHeld_advance h late freed err
  | connected p => exact hkeep (interrupt_task x rfl) (congrArg Ledger.held (ledger_quiet he rfl))
  | data p c => exact hkeep (interrupt_task x rfl) (congrArg Ledger.held (ledger_quiet he rfl))
  | fin p => exact hkeep (interrupt_task x rfl) (congrArg Ledger.held (ledger_quiet he rfl))
  | error p =>
    have hm : (x.step (.error p)).ledger = x.ledger.book p none := moves he hr
    exact hkeep (interrupt_task x rfl) (by rw [hm]; rfl)
  | poll p expired err =>
    intro k q hk
    rw [interrupt_task x rfl] at hk
    rw [held_poll (h k q hk) fun hq : q = p => hn k (hq ▸ hk)]
    exact h k q hk
  | progress p state refused rcvWnd sndBuf => exact hkeep rfl rfl
  | reap p => exact hkeep rfl rfl

theorem uses_live {x : Outbound} (h : x.Live) (hc : x.CopyHeld) {e : OutEvent} {p : PcbPtr}
    (hu : x.uses e = some p) : x.net.pcbs p ≠ none := by
  have hlive := live_iff.mp h
  cases e with
  | call k op =>
    cases op with
    | read => exact hlive k p hu
    | flush => exact hlive k p hu
    | stop fin => exact hlive k p hu
    | _ => cases hu
  | advance late freed err =>
    have hcopy (k : ObjId) (q : PcbPtr) (ht : x.task.copy = some (k, q)) (hq : some q = some p) :
        x.net.pcbs p ≠ none := by
      cases hq
      exact hlive k p (hc k p ht)
    cases ht : x.task with
    | timingOut k => exact hlive k p (by simpa only [uses, ht] using hu)
    | checking k => exact hlive k p (by simpa only [uses, ht] using hu)
    | failing k => exact hlive k p (by simpa only [uses, ht] using hu)
    | polling k => exact hlive k p (by simpa only [uses, ht] using hu)
    | status k q => exact hcopy k q (by rw [ht]; rfl) (by simpa only [uses, ht] using hu)
    | availableForWrite k q => exact hcopy k q (by rw [ht]; rfl) (by simpa only [uses, ht] using hu)
    | write k q buf i stuffed => exact hcopy k q (by rw [ht]; rfl) (by simpa only [uses, ht] using hu)
    | idle => simp [uses, ht] at hu
    | waiting k => simp [uses, ht] at hu
    | returning k => simp [uses, ht] at hu
  | _ => cases hu

end Outbound

theorem outbound_pcbs_live_iff (es : List OutEvent) (hl : soloMachine.Legal .initial es) :
    ((∀ fs gs, es = fs ++ gs → (soloMachine.run .initial fs).Live) ↔
      (Machine.mk Outbound.NoError Outbound.step).Legal .initial es) ∧
    ((Machine.mk Outbound.NoError Outbound.step).Legal .initial es →
      (Machine.mk Outbound.NoClose Outbound.step).Legal .initial es →
      ∀ fs e gs p, es = fs ++ e :: gs → (soloMachine.run .initial fs).uses e = some p →
        (soloMachine.run .initial fs).net.pcbs p ≠ none) := by
  have hlive : (∀ fs gs, es = fs ++ gs → (soloMachine.run .initial fs).Live) ↔
      (Machine.mk Outbound.NoError Outbound.step).Legal .initial es := by
    refine Machine.always_iff (M := soloMachine) (I := fun x => x.ledger.Anchored ∧ x.Retrying) ?_ ?_ ?_
      ⟨Outbound.anchored_initial, Outbound.retrying_initial⟩ hl
    · exact fun x h => Outbound.live_of_anchored h.1
    · exact fun x e h he hp => Outbound.noError_of_live h.2 he.1 hp
    · exact fun x e h he hn => ⟨Outbound.anchored_step h.1 h.2 he.1 he.2 hn, Outbound.retrying_step h.2 he.1⟩
  refine ⟨hlive, fun hn hc fs e gs p hs hu => ?_⟩
  have hcopy : (soloMachine.run .initial fs).CopyHeld := by
    subst hs
    rw [Machine.legal_append] at hl hc
    have hrun : (soloMachine.run .initial fs).CopyHeld ∧ (soloMachine.run .initial fs).Retrying := by
      refine Machine.invariant_under (M := soloMachine) (I := fun x => x.CopyHeld ∧ x.Retrying) ?_
        ⟨Outbound.copyHeld_of_none rfl, Outbound.retrying_initial⟩ hl.1 hc.1
      exact fun x e he hn h => ⟨Outbound.copyHeld_step h.1 h.2 he.1 hn, Outbound.retrying_step h.2 he.1⟩
    exact hrun.1
  exact Outbound.uses_live (hlive.mpr hn fs (e :: gs) hs) hcopy hu

def writeTrace : List OutEvent :=
  connectTrace ++ [.write 0 [1], .advance false .closed .ok, .advance false .closed .ok, .fin 7,
    .poll 7 true .ok, .call 0 (.stop .ok)]

theorem connectTrace_solo : soloMachine.Legal .initial connectTrace :=
  ⟨⟨⟨rfl, rfl⟩, rfl⟩, ⟨⟨rfl, rfl, fun _ _ => rfl⟩, rfl⟩, ⟨⟨_, rfl, rfl⟩, rfl⟩, ⟨trivial, rfl⟩, ⟨trivial, rfl⟩,
    ⟨trivial, rfl⟩, ⟨trivial, rfl⟩, trivial⟩

theorem writeTrace_legal : soloMachine.Legal .initial writeTrace :=
  (Machine.legal_append _ _ _ _).mpr ⟨connectTrace_solo, ⟨⟨rfl, rfl⟩, rfl⟩, ⟨trivial, rfl⟩, ⟨trivial, rfl⟩,
    ⟨rfl, rfl⟩, ⟨rfl, rfl⟩, ⟨⟨rfl, rfl, rfl⟩, rfl⟩, trivial⟩

theorem outbound_pcbs_live_write :
    soloMachine.Legal .initial writeTrace ∧ (soloMachine.run .initial writeTrace).Live ∧
      (soloMachine.run .initial (connectTrace ++ [.write 0 [1]])).net.pcbs 7 ≠ none := by
  have hn : (Machine.mk Outbound.NoError Outbound.step).Legal .initial writeTrace := by
    refine ⟨?_, ?_, ?_, ?_, ?_, ?_, ?_, ?_, ?_, ?_, ?_, ?_, ?_, trivial⟩ <;> trivial
  have hc : (Machine.mk Outbound.NoClose Outbound.step).Legal .initial writeTrace :=
    ⟨trivial, trivial, trivial, trivial, trivial, trivial, trivial, trivial, trivial, trivial, trivial,
      fun _ hk => (nomatch (show (none : Option (ObjId × PcbPtr)) = some _ from hk)), trivial, trivial⟩
  obtain ⟨hlive, huses⟩ := outbound_pcbs_live_iff writeTrace writeTrace_legal
  exact ⟨writeTrace_legal, hlive.mpr hn writeTrace [] (List.append_nil _).symm,
    huses hn hc (connectTrace ++ [.write 0 [1]]) (.advance false .closed .ok) _ 7 rfl rfl⟩

/-- The peer resets the connection, and `status` or the end of the wait loop looks into the freed control
block. -/
theorem reset_pcb_used :
    (soloMachine.Legal .initial (connectTrace ++ [.error 7, .status 0]) ∧
      (soloMachine.run .initial (connectTrace ++ [.error 7, .status 0])).uses (.advance false .closed .ok) = some 7 ∧
      (soloMachine.run .initial (connectTrace ++ [.error 7, .status 0])).net.pcbs 7 = none) ∧
    soloMachine.Legal .initial
      [.construct 0 .zero, .connect 0 (some 7) 80 .ok, .error 7, .advance false .closed .ok] ∧
    (soloMachine.run .initial [.construct 0 .zero, .connect 0 (some 7) 80 .ok, .error 7,
      .advance false .closed .ok]).uses (.advance false .closed .ok) = some 7 ∧
    (soloMachine.run .initial [.construct 0 .zero, .connect 0 (some 7) 80 .ok, .error 7,
      .advance false .closed .ok]).net.pcbs 7 = none := by
  refine ⟨⟨?_, rfl, rfl⟩, ?_, rfl, rfl⟩
  · exact (Machine.legal_append _ _ _ _).mpr ⟨connectTrace_solo, ⟨rfl, rfl⟩, ⟨⟨rfl, rfl⟩, rfl⟩, trivial⟩
  · exact ⟨⟨⟨rfl, rfl⟩, rfl⟩, ⟨⟨rfl, rfl, fun _ _ => rfl⟩, rfl⟩, ⟨rfl, rfl⟩, ⟨trivial, rfl⟩, trivial⟩

end LogoCore.Ethernet
