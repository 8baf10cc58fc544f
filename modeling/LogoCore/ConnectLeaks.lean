import LogoCore.ConnectSettling

namespace LogoCore.Ethernet

/-- `tcp_close` has succeeded on the control block, or a poll callback will call it again. -/
def Pcb.released (b : Pcb) : Bool := b.rxClosed && (b.state.isClosing || b.poll.isSome)

namespace Outbound

/-- Every control block is held by exactly one client or released, and a `connect` that failed left none. -/
structure NoLeak (x : Outbound) : Prop where
  kept : ∀ p b, x.net.pcbs p = some b → b.released = true ∨ ∃ k, x.held k = some p ∧ ∀ j, x.held j = some p → j = k
  failed : ∀ k, x.result = some (k, false) → x.held k = none

theorem copySafe_of_clean {x : Outbound} {e : OutEvent} (hs : e.solo = true) (hc : x.Clean e) : x.CopySafe e := by
  cases e with
  | copy k k' => cases hs
  | destroy k => cases hs
  | connect k pcb port res => exact ⟨hc.1, fun p hp => (hc.2 p hp).1⟩
  | _ => trivial

theorem queued_of_clean {x : Outbound} {e : OutEvent} (hc : x.Clean e) : x.Queued e := by
  cases e with
  | advance late freed err => exact hc
  | _ => trivial

theorem robust_released : Robust fun b => b.rxClosed = true → b.released = true where
  alike b b' hp hrx hs h hb := by
    rw [hrx] at hb
    have := h hb
    simp only [Pcb.released, hp, hrx, hb, Bool.true_and, Bool.or_eq_true] at this ⊢
    exact this.imp_left hs
  closed b s hs _ := by simp [Pcb.released, hs]
  retry b s f _ := by simp [Pcb.released]
  polling b _ hb := by
    simp only at hb
    simp [Pcb.released, hb]
  fresh b hrx _ hb := by rw [hrx] at hb; cases hb

/-- The last `connect` that failed left no control block with its client. -/
def Failed (x : Outbound) : Prop :=
  ∀ k, x.result = some (k, false) → x.held k = none ∨ x.task.connecting = some k

theorem failed_advance {x : Outbound} (h : x.Failed) (hs : x.Settled) (late : Bool) (freed : TcpState) (err : Err) :
    (x.advance late freed err).Failed := by
  have hleave {y : Outbound} {k : ObjId} {b : Bool} (hb : b = false → y.held k = none) : (y.leave k b).Failed := by
    intro j hj
    simp only [leave, Option.some.injEq, Prod.mk.injEq] at hj
    obtain ⟨rfl, rfl⟩ := hj
    exact .inl (hb rfl)
  have hmove {y : Outbound} (hr : y.result = x.result) (hh : ∀ j, y.held j = x.held j)
      (ht : x.task.connecting = y.task.connecting) : y.Failed := by
    intro j hj
    rw [hr] at hj
    rw [hh, ← ht]
    exact h j hj
  unfold advance
  split <;> rename_i ht
  · exact h
  · split_ifs
    · exact hmove rfl (fun _ => rfl) (by rw [ht]; rfl)
    · exact hmove rfl (fun _ => rfl) (by rw [ht]; rfl)
    · exact h
  · exact hleave fun _ => held_apply_closes x _ (Conn.closes_abandon err)
  · dsimp only
    split_ifs
    · exact hmove rfl (fun _ => rfl) (by rw [ht]; rfl)
    · exact hmove rfl (fun _ => rfl) (by rw [ht]; rfl)
  · exact hleave fun _ => held_apply_closes x _ (Conn.closes_fail err)
  · rename_i k
    refine hmove ?_ (fun j => ?_) (by rw [ht]; rfl)
    · obtain ⟨o, n, ha⟩ := apply_frame x k Conn.startPolling
      rw [ha]
    · exact held_eq_of_ledger (congrArg Ledger.held (ledger_apply_leaves x k Conn.leaves_startPolling)) j
  · rename_i k
    refine hleave fun hb => ?_
    obtain hc | hn | ⟨hc, -⟩ := hs k (by rw [ht]; rfl)
    · rw [hb] at hc; cases hc
    · exact hn
    · rw [ht] at hc; cases hc
  · exact hmove rfl (fun _ => rfl) (by rw [ht]; rfl)
  · exact hmove rfl (fun _ => rfl) (by rw [ht]; rfl)
  · dsimp only
    split
    · split
      · exact hmove rfl (fun _ => rfl) (by rw [ht]; rfl)
      · split
        · exact hmove rfl (fun _ => rfl) (by rw [ht]; rfl)
        · exact hmove rfl (fun _ => rfl) rfl
    · exact hmove rfl (fun _ => rfl) (by rw [ht]; rfl)

theorem failed_connect {x : Outbound} (h : x.Failed) (hr : x.Retrying) {k : ObjId} {pcb : Option PcbPtr}
    {port : UInt16} {res : Err} (he : x.Enabled (.connect k pcb port res)) (hc : x.Clean (.connect k pcb port res)) :
    (x.step (.connect k pcb port res)).Failed := by
  have hm := moves he hr
  intro j hj
  obtain ⟨o, n, ha⟩ := apply_frame x k fun c => c.connectBegin k pcb port res
  cases pcb with
  | none =>
    have hm : (x.step (.connect k none port res)).ledger = x.ledger.name k (some none) := hm
    simp only [step, true_or, if_true, leave, Option.some.injEq, Prod.mk.injEq, and_true] at hj
    subst j
    refine .inl (held_eq_none_iff.mpr fun p hp => ?_)
    rw [hm] at hp
    exact (Ledger.holds_drop hp).1 rfl
  | some p =>
    have hm : (x.step (.connect k (some p) port res)).ledger =
      (x.ledger.book p (some ⟨some k, false⟩)).name k (some (some p)) := hm
    obtain rfl : res = .ok := (hc.2 p rfl).2
    have hstep : x.step (.connect k (some p) port .ok) =
        { x.apply k fun c => c.connectBegin k (some p) port .ok with task := .waiting k } := by
      simp [step]
    by_cases hjk : j = k
    · refine .inr ?_
      rw [hstep, hjk]
      rfl
    · refine .inl (held_eq_none_iff.mpr fun q hq => ?_)
      rw [hm, Ledger.holds_name, if_neg hjk] at hq
      have hnone : x.held j = none := by
        refine (h j ?_).resolve_right (by rw [he.1]; exact (Option.some_ne_none j).symm)
        rw [← hj, hstep, ha]
      exact held_eq_none_iff.mp hnone q hq

theorem failed_step {x : Outbound} (h : x.Failed) (hs : x.Settled) (hr : x.Retrying) {e : OutEvent}
    (he : x.Enabled e) (hsolo : e.solo = true) (hc : x.Clean e) : (x.step e).Failed := by
  by_cases hi : e.interrupt = true
  · intro j hj
    obtain ⟨o, n, hx⟩ := interrupt_frame x hi
    have hj' : x.result = some (j, false) := by rw [← hj, hx]
    refine (h j hj').imp (held_none_interrupt hr he hi) fun ht => ?_
    rw [interrupt_task x hi]
    exact ht
  have hm := moves he hr
  have hidle (hx : x.task = .idle) {j : ObjId} (hj : x.result = some (j, false)) : x.held j = none :=
    (h j hj).resolve_right (by rw [hx]; exact nofun)
  cases e with
  | construct k mem =>
    intro j hj
    have hm : (x.step (.construct k mem)).ledger = x.ledger.name k (some none) := hm
    refine .inl (held_eq_none_iff.mpr fun p hp => ?_)
    rw [hm] at hp
    exact held_eq_none_iff.mp (hidle he.1 hj) p (Ledger.holds_drop hp).2
  | copy k k' => cases hsolo
  | destroy k => cases hsolo
  | connect k pcb port res => exact failed_connect h hr he hc
  | call k op =>
    intro j hj
    refine .inl (held_none_tidy hm (hidle he.1 ?_))
    obtain ⟨o, n, ha⟩ := apply_frame x k fun c => (c.perform op).2
    rw [← hj, step, ha]
  | status k => exact fun j hj => .inl (hidle he.1 hj)
  | availableForWrite k => exact fun j hj => .inl (hidle he.1 hj)
  | write k buf => exact fun j hj => .inl (hidle he.1 hj)
  | advance late freed err => exact failed_advance h hs late freed err
  | _ => exact absurd rfl hi

end Outbound

theorem connect_leaks_nothing (es : List OutEvent) (hl : soloMachine.Legal .initial es)
    (hc : (Machine.mk Outbound.Clean Outbound.step).Legal .initial es)
    (hi : (soloMachine.run .initial es).task = .idle) : (soloMachine.run .initial es).NoLeak := by
  have hinv : (soloMachine.run .initial es).OneOwner ∧ (soloMachine.run .initial es).Retrying ∧
      (soloMachine.run .initial es).net.All (fun b => b.rxClosed = true → b.released = true) ∧
      (soloMachine.run .initial es).Settled ∧ (soloMachine.run .initial es).Failed := by
    refine Machine.invariant_under (M := soloMachine) (P := Outbound.Clean)
      (I := fun x => x.OneOwner ∧ x.Retrying ∧ x.net.All (fun b => b.rxClosed = true → b.released = true) ∧
        x.Settled ∧ x.Failed) ?_ ?_ hl hc
    · rintro x e ⟨he, hs⟩ hclean ⟨ho, hr, ha, hset, hf⟩
      exact ⟨(Outbound.oneOwner_step_iff ho hr he).mpr (Outbound.copySafe_of_clean hs hclean),
        Outbound.retrying_step hr he,
        Outbound.all_step Outbound.robust_released ha he (.inl (Outbound.queued_of_clean hclean)),
        Outbound.settled_step hset ho hr he hclean, Outbound.failed_step hf hset hr he hs hclean⟩
    · exact ⟨Outbound.oneOwner_initial, Outbound.retrying_initial, fun _ _ hb => (nomatch hb),
        fun _ hk => (nomatch hk), fun _ hk => (nomatch hk)⟩
  obtain ⟨ho, -, ha, -, hf⟩ := hinv
  constructor
  · intro p b hb
    cases hrx : b.rxClosed with
    | true => exact .inl (ha p b hb hrx)
    | false =>
      obtain ⟨k, o, -, hk, hp⟩ := ho.opened p b hb hrx
      refine .inr ⟨k, Outbound.held_eq_some.mpr ⟨o, hk, hp⟩, fun j hj => ?_⟩
      obtain ⟨o', hj, hp'⟩ := Outbound.held_eq_some.mp hj
      exact ho.unique j k o' o p hj hk hp' hp
  · intro k hk
    refine (hf k hk).resolve_right ?_
    rw [hi]
    exact nofun

theorem connect_leaks_nothing_stopped :
    soloMachine.Legal .initial writeTrace ∧ (soloMachine.run .initial writeTrace).NoLeak := by
  have hnone {α : Type} {a : α} (h : (none : Option α) = some a) (q : Prop) : q := by cases h
  refine ⟨writeTrace_legal, connect_leaks_nothing writeTrace writeTrace_legal ?_ rfl⟩
  refine ⟨trivial, ⟨fun p hp => hnone hp _, fun p _ => ⟨fun j hj => ?_, rfl⟩⟩, trivial, fun _ => rfl, fun _ => rfl,
    fun _ => rfl, fun _ => rfl, trivial, fun _ => rfl, fun _ => rfl, fun _ _ hk => hnone hk _,
    fun _ _ hk => hnone hk _, trivial, trivial⟩
  simp [Outbound.held, Outbound.step, Outbound.initial, hj]

/-- `tcp_connect` fails twice: `connect` returns false and keeps the first control block, which the second
call drops. -/
theorem connect_leaks_pcb :
    soloMachine.Legal .initial [.construct 0 .zero, .connect 0 (some 7) 80 .rte] ∧
    (soloMachine.run .initial [.construct 0 .zero, .connect 0 (some 7) 80 .rte]).result = some (0, false) ∧
    (soloMachine.run .initial [.construct 0 .zero, .connect 0 (some 7) 80 .rte]).held 0 = some 7 ∧
    soloMachine.Legal .initial
      [.construct 0 .zero, .connect 0 (some 7) 80 .rte, .connect 0 (some 8) 80 .rte] ∧
    ¬ (soloMachine.run .initial
      [.construct 0 .zero, .connect 0 (some 7) 80 .rte, .connect 0 (some 8) 80 .rte]).NoLeak := by
  refine ⟨?_, rfl, rfl, ?_, fun h => ?_⟩
  · exact ⟨⟨⟨rfl, rfl⟩, rfl⟩, ⟨⟨rfl, rfl, fun _ _ => rfl⟩, rfl⟩, trivial⟩
  · exact ⟨⟨⟨rfl, rfl⟩, rfl⟩, ⟨⟨rfl, rfl, fun _ _ => rfl⟩, rfl⟩, ⟨⟨rfl, rfl, fun _ hp => by cases hp; rfl⟩, rfl⟩,
      trivial⟩
  · obtain hr | ⟨k, hk, -⟩ := h.kept 7 _ rfl
    · cases hr
    · by_cases h0 : k = 0
      · subst k; cases hk
      · simp [soloMachine, Machine.run, Outbound.held, Outbound.step, Outbound.leave, Outbound.apply,
          Outbound.initial, h0] at hk

end LogoCore.Ethernet
