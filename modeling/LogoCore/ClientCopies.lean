import LogoCore.OutboundStates

namespace LogoCore.Ethernet

namespace CallbackArg

theorem owner_eq_some {a : CallbackArg} {k : ObjId} : a.owner = some k ↔ a = .client k := by
  cases a <;> simp [owner]

end CallbackArg

namespace Outbound

/-- Every open control block reports to the one object that names it, every other one reports to an object
that exists or to none, and no object names a closed one. -/
structure OneOwner (x : Outbound) : Prop where
  opened : ∀ p b, x.net.pcbs p = some b → b.rxClosed = false →
    ∃ k o, b.callbackArg = .client k ∧ x.objs k = some o ∧ o.state.cpcb = some p
  attached : ∀ p b k, x.net.pcbs p = some b → b.callbackArg = .client k → x.objs k ≠ none
  unique : ∀ k k' o o' p, x.objs k = some o → x.objs k' = some o' → o.state.cpcb = some p →
    o'.state.cpcb = some p → k = k'
  closed : ∀ k o p b, x.objs k = some o → o.state.cpcb = some p → x.net.pcbs p = some b → b.rxClosed = false

theorem held_eq_some {x : Outbound} {k : ObjId} {p : PcbPtr} :
    x.held k = some p ↔ ∃ o, x.objs k = some o ∧ o.state.cpcb = some p := by
  simp [held, Option.bind_eq_some_iff]

theorem oneOwner_iff {x : Outbound} : x.OneOwner ↔ x.ledger.Consistent ∧ x.ledger.Attached := by
  have hentry {p : PcbPtr} {a : Entry ObjId} : x.ledger.entry p = some a ↔ ∃ b, x.net.pcbs p = some b ∧ b.entry = a :=
    Option.map_eq_some_iff
  have hheld {k : ObjId} : x.ledger.held k = none ↔ x.objs k = none := Option.map_eq_none_iff
  constructor
  · intro h
    refine ⟨⟨?_, ?_, ?_⟩, ?_⟩
    · intro p a ha hc
      obtain ⟨b, hb, rfl⟩ := hentry.mp ha
      obtain ⟨k, o, harg, hk, hp⟩ := h.opened p b hb hc
      exact ⟨k, CallbackArg.owner_eq_some.mpr harg, ledger_holds.mpr (held_eq_some.mpr ⟨o, hk, hp⟩)⟩
    · intro k k' p hk hk'
      obtain ⟨o, ho, hp⟩ := held_eq_some.mp (ledger_holds.mp hk)
      obtain ⟨o', ho', hp'⟩ := held_eq_some.mp (ledger_holds.mp hk')
      exact h.unique k k' o o' p ho ho' hp hp'
    · intro k p a hk ha
      obtain ⟨b, hb, rfl⟩ := hentry.mp ha
      obtain ⟨o, ho, hp⟩ := held_eq_some.mp (ledger_holds.mp hk)
      exact h.closed k o p b ho hp hb
    · intro p a k ha ho
      obtain ⟨b, hb, rfl⟩ := hentry.mp ha
      rw [ne_eq, hheld]
      exact h.attached p b k hb (CallbackArg.owner_eq_some.mp ho)
  · rintro ⟨h, ha⟩
    constructor
    · intro p b hb hc
      obtain ⟨k, ho, hk⟩ := h.opened p b.entry (ledger_entry hb) hc
      obtain ⟨o, hko, hp⟩ := held_eq_some.mp (ledger_holds.mp hk)
      exact ⟨k, o, CallbackArg.owner_eq_some.mp ho, hko, hp⟩
    · intro p b k hb harg
      rw [ne_eq, ← hheld]
      exact ha p b.entry k (ledger_entry hb) (CallbackArg.owner_eq_some.mpr harg)
    · intro k k' o o' p hk hk' hp hp'
      exact h.unique k k' p (ledger_holds.mpr (held_eq_some.mpr ⟨o, hk, hp⟩))
        (ledger_holds.mpr (held_eq_some.mpr ⟨o', hk', hp'⟩))
    · intro k o p b hk hp hb
      exact h.closed k p b.entry (ledger_holds.mpr (held_eq_some.mpr ⟨o, hk, hp⟩)) (ledger_entry hb)

/-- A client is copied only while its `cs->cpcb` is null, and never onto one that holds a control block. It
is destroyed only when no control block reports to it. It connects only when the control block it named
before is gone, into one that no other client names. -/
def CopySafe (x : Outbound) : OutEvent → Prop
  | .copy k k' => k = k' ∨ x.held k = none ∧ ∀ p, x.held k' = some p → x.net.pcbs p = none
  | .destroy k => ∀ p b, x.net.pcbs p = some b → b.callbackArg ≠ .client k
  | .connect k pcb _ _ =>
    (∀ p, x.held k = some p → x.net.pcbs p = none) ∧ ∀ p ∈ pcb, ∀ j, j ≠ k → x.held j ≠ some p
  | _ => True

theorem oneOwner_step_iff {x : Outbound} (h : x.OneOwner) (hr : x.Retrying) {e : OutEvent} (he : x.Enabled e) :
    (x.step e).OneOwner ↔ x.CopySafe e := by
  obtain ⟨hc, ha⟩ := oneOwner_iff.mp h
  have hm := moves he hr
  have htidy (ht : Ledger.Tidy x.ledger (x.step e).ledger) : (x.step e).OneOwner :=
    oneOwner_iff.mpr ⟨hc.tidy ht, ha.tidy ht⟩
  have hdrop (k : ObjId) : (∀ p, x.ledger.Holds k p → x.ledger.entry p = none) ↔
      ∀ p, x.held k = some p → x.net.pcbs p = none := by
    simp only [ledger_holds, ledger_entry_eq_none]
  cases e with
  | construct k mem =>
    refine iff_of_true (oneOwner_iff.mpr ?_) trivial
    have hk : x.ledger.held k = none := by simp [ledger, he.2]
    rw [show (x.step (.construct k mem)).ledger = _ from hm]
    refine ⟨hc.drop_iff.mpr fun p hp => ?_, ha.name none⟩
    rw [Ledger.Holds, hk] at hp
    cases hp
  | copy k k' =>
    obtain ⟨o, ho⟩ := Option.isSome_iff_exists.mp he.2
    have hk := ledger_held ho
    have hm : (x.step (.copy k k')).ledger = x.ledger.name k' (x.ledger.held k) := hm
    rw [oneOwner_iff, hm]
    by_cases hkk : k = k'
    · subst k'
      refine iff_of_true ?_ (.inl rfl)
      rw [Ledger.name, Function.update_eq_self]
      exact ⟨hc, ha⟩
    · have hheld : x.held k = o.state.cpcb := by simp [held, ho]
      rw [hk, and_iff_left (ha.name _), hc.share_iff (Ne.symm hkk) hk, hdrop, CopySafe, hheld,
        or_iff_right hkk]
  | destroy k =>
    have hm : (x.step (.destroy k)).ledger = x.ledger.name k none := hm
    rw [oneOwner_iff, hm, hc.remove_iff ha]
    constructor
    · intro hn p b hb harg
      exact hn p b.entry (ledger_entry hb) (CallbackArg.owner_eq_some.mpr harg)
    · intro hn p a hp ho
      obtain ⟨b, hb, rfl⟩ := Option.map_eq_some_iff.mp hp
      exact hn p b hb (CallbackArg.owner_eq_some.mp ho)
  | connect k pcb port res =>
    cases pcb with
    | none =>
      have hm : (x.step (.connect k none port res)).ledger = x.ledger.name k (some none) := hm
      rw [oneOwner_iff, hm, and_iff_left (ha.name _), hc.drop_iff, hdrop, CopySafe]
      simp
    | some p =>
      have hm : (x.step (.connect k (some p) port res)).ledger =
        (x.ledger.book p (some ⟨some k, false⟩)).name k (some (some p)) := hm
      have hfree : x.ledger.entry p = none := ledger_entry_eq_none.mpr (he.2.2 p rfl)
      have hattached : ((x.ledger.book p (some ⟨some k, false⟩)).name k (some (some p))).Attached := by
        refine Ledger.Attached.name (ha.book fun b j hb hj => ?_) _
        cases hb
        cases hj
        obtain ⟨o, ho⟩ := Option.isSome_iff_exists.mp he.2.1
        simp [ledger_held ho]
      rw [oneOwner_iff, hm, and_iff_left hattached, hc.acquire_iff hfree, hdrop, CopySafe]
      simp [ledger_holds]
  | error p =>
    refine iff_of_true (oneOwner_iff.mpr ?_) trivial
    rw [show (x.step (.error p)).ledger = _ from hm]
    exact ⟨hc.book (by simp) fun _ _ => rfl, ha.book (by simp)⟩
  | _ => exact iff_of_true (htidy hm) trivial

theorem oneOwner_initial : initial.OneOwner := by
  constructor <;> simp [initial]

end Outbound

theorem clients_own_once_iff (es : List OutEvent) (hl : outboundMachine.Legal .initial es) :
    (∀ fs gs, es = fs ++ gs → (outboundMachine.run .initial fs).OneOwner) ↔
      (Machine.mk Outbound.CopySafe Outbound.step).Legal .initial es := by
  refine Machine.always_iff (M := outboundMachine) (I := fun x => x.OneOwner ∧ x.Retrying) ?_ ?_ ?_
    ⟨Outbound.oneOwner_initial, Outbound.retrying_initial⟩ hl
  · exact fun x h => h.1
  · exact fun x e h he hp => (Outbound.oneOwner_step_iff h.1 h.2 he).mp hp
  · exact fun x e h he hq => ⟨(Outbound.oneOwner_step_iff h.1 h.2 he).mpr hq, Outbound.retrying_step h.2 he⟩

theorem clients_own_once_after_stop :
    outboundMachine.Legal .initial (connectTrace ++ [.call 0 (.stop .ok), .copy 0 1]) ∧
      (outboundMachine.run .initial (connectTrace ++ [.call 0 (.stop .ok), .copy 0 1])).OneOwner := by
  have hl : outboundMachine.Legal .initial (connectTrace ++ [.call 0 (.stop .ok), .copy 0 1]) :=
    (Machine.legal_append _ _ _ _).mpr ⟨connectTrace_legal, ⟨rfl, rfl, rfl⟩, ⟨rfl, rfl⟩, trivial⟩
  refine ⟨hl, (clients_own_once_iff _ hl).mpr ?_ _ [] (List.append_nil _).symm⟩
  have hnone {p : PcbPtr} (hp : (none : Option PcbPtr) = some p) (q : Prop) : q := by cases hp
  refine ⟨trivial, ⟨fun p hp => hnone hp _, fun p _ j hj => ?_⟩, trivial, trivial, trivial, trivial, trivial, trivial,
    .inr ⟨rfl, fun p hp => hnone hp _⟩, trivial⟩
  simp [Outbound.held, Outbound.step, Outbound.initial, hj]

/-- The copy of a connected client names its control block, which still reports to the original. -/
theorem copy_owns_twice :
    outboundMachine.Legal .initial (connectTrace ++ [.copy 0 1]) ∧
      ¬ (outboundMachine.run .initial (connectTrace ++ [.copy 0 1])).OneOwner := by
  refine ⟨(Machine.legal_append _ _ _ _).mpr ⟨connectTrace_legal, ⟨rfl, rfl⟩, trivial⟩, fun h => ?_⟩
  exact absurd (h.unique 0 1 _ _ 7 rfl rfl rfl rfl) (by decide)

end LogoCore.Ethernet
