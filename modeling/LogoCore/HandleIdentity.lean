import LogoCore.GenerationCounter

namespace LogoCore.Ethernet

namespace EthernetServer

theorem scan_ready {clients : Slots} {net : Net} {left : ℕ} {last i : Slot}
    (h : (scan clients net left last).2 = some i) : ready clients net i = true := by
  induction left generalizing last with
  | zero => simp [scan] at h
  | succ left ih =>
    unfold scan at h
    split_ifs at h with hr
    · cases h
      exact hr
    · exact ih h

theorem available_slot {s : EthernetServer} {net : Net} {mem : Client} {i : Slot}
    (h : (s.available net mem).1.cs = .slot i) :
    (s.available net mem).1.generation = (s.clients i).generation ∧ (s.clients i).port ≠ 0 := by
  unfold available at h ⊢
  dsimp only at h ⊢
  cases hf : (scan s.clients net maxClients s.lastClient).2 with
  | none => simp [hf, handle] at h
  | some j =>
    have hr := scan_ready hf
    obtain rfl : j = i := by simpa [hf, handle] using h
    refine ⟨by simp [handle], ?_⟩
    simp only [ready, Bool.and_eq_true, decide_eq_true_eq] at hr
    exact hr.1.1.1

theorem accept_slot {s : EthernetServer} {net : Net} {mem : Client} {i : Slot}
    (h : (s.accept net mem).1.cs = .slot i) :
    (s.accept net mem).1.generation = (s.clients i).generation ∧ (s.clients i).port ≠ 0 := by
  unfold accept at h ⊢
  split at h
  · simp [handle] at h
  · rename_i j hj
    obtain rfl : j = i := by simpa [handle] using h
    have hu := List.find?_some hj
    refine ⟨by simp [handle], ?_⟩
    simp only [Bool.and_eq_true, Bool.not_eq_true', decide_eq_false_iff_not] at hu
    exact hu.1.1

end EthernetServer

namespace Conn

theorem stop_identity (c : Conn) (err : Err) :
    (c.stop err).self.cs = c.self.cs ∧ (c.stop err).self.generation = c.self.generation := by
  have h (s : Client) : ((c.setCs s).setConnected false).self.cs = c.self.cs ∧
      ((c.setCs s).setConnected false).self.generation = c.self.generation :=
    ⟨setCs_ptr c s, setCs_generation c s⟩
  unfold stop
  split_ifs
  · exact ⟨rfl, rfl⟩
  · dsimp only
    split
    · exact h _
    · exact h _

theorem perform_identity (c : Conn) (op : ClientOp) :
    (c.perform op).2.self.cs = c.self.cs ∧ (c.perform op).2.self.generation = c.self.generation := by
  have keeps {d : Conn} (h : Keeps c d) : d.self.cs = c.self.cs ∧ d.self.generation = c.self.generation :=
    ⟨h.ptr, h.stamp⟩
  cases op with
  | read => exact keeps (keeps_read c)
  | readBuf size => exact keeps (keeps_readBuf c size)
  | write b outcomes => exact keeps (keeps_write c [b] outcomes)
  | writeBuf buf outcomes => exact keeps (keeps_write c buf outcomes)
  | flush => exact keeps (keeps_flush c)
  | stop err => exact stop_identity c err
  | _ => exact ⟨rfl, rfl⟩

end Conn

def Event.holders (H : ObjId → Bool) : Event → ObjId → Bool
  | .serverAccept h _ | .serverAvailable h _ | .destroy h => Function.update H h false
  | .copy h h' => Function.update H h' (H h)
  | _ => H

/-- The objects that hold the handle stored in `k` after the events. -/
def copies (k : ObjId) (es : List Event) : ObjId → Bool := es.foldl Event.holders fun j => j = k

namespace World

def acceptedSlots (w : World) : List Event → List Slot
  | [] => []
  | e :: es => (w.accepted e).toList ++ (w.step e).acceptedSlots es

theorem acceptedSlots_append (w : World) (es fs : List Event) :
    w.acceptedSlots (es ++ fs) = w.acceptedSlots es ++ (serverMachine.run w es).acceptedSlots fs := by
  induction es generalizing w with
  | nil => rfl
  | cons e es ih =>
    simp only [List.cons_append, acceptedSlots, ih, List.append_assoc, Machine.run_cons, serverMachine_step]

theorem run_not_accepted {w : World} {es : List Event} {i : Slot} (h : i ∉ w.acceptedSlots es) :
    ((serverMachine.run w es).server.clients i).generation = (w.server.clients i).generation ∧
      ((w.server.clients i).port = 0 → ((serverMachine.run w es).server.clients i).port = 0) := by
  induction es generalizing w with
  | nil => exact ⟨rfl, id⟩
  | cons e es ih =>
    simp only [acceptedSlots, List.mem_append, Option.mem_toList, not_or] at h
    obtain ⟨hg, hp⟩ := ih h.2
    rw [Machine.run_cons, serverMachine_step]
    cases he : w.accepted e with
    | none =>
      obtain ⟨hg', hp'⟩ := (step_unstamped he).1 i
      exact ⟨hg.trans hg', fun h0 => hp (hp' h0)⟩
    | some j =>
      have hj := (step_stamped he).2.2 i (by rintro rfl; exact h.1 he)
      rw [hj] at hg hp
      exact ⟨hg, hp⟩

theorem run_last_accepted {w : World} {es : List Event} {i : Slot} {as bs : List Slot}
    (h : w.acceptedSlots es = as ++ i :: bs) (hi : i ∉ bs) :
    ((serverMachine.run w es).server.clients i).generation =
      EthernetServer.nextGeneration^[as.length + 1] w.server.generation := by
  induction es generalizing w as with
  | nil => simp [acceptedSlots] at h
  | cons e es ih =>
    rw [Machine.run_cons, serverMachine_step]
    cases he : w.accepted e with
    | none =>
      rw [← (step_unstamped he).2]
      exact ih (by simpa [acceptedSlots, he] using h)
    | some j =>
      obtain ⟨hg, hj, -⟩ := step_stamped he
      simp only [acceptedSlots, he, Option.toList_some, List.singleton_append] at h
      cases as with
      | nil =>
        simp only [List.nil_append, List.cons.injEq] at h
        obtain ⟨rfl, rfl⟩ := h
        exact (run_not_accepted hi).1.trans hj
      | cons a as =>
        simp only [List.cons_append, List.cons.injEq] at h
        rw [ih h.2, hg]
        rfl

def Holds (w : World) (H : ObjId → Bool) (i : Slot) (γ : UInt16) : Prop :=
  ∀ k, H k = true → ∃ e, w.objs k = some e ∧ e.cs = .slot i ∧ e.generation = γ

theorem holds_step {w : World} {H : ObjId → Bool} {i : Slot} {γ : UInt16} (h : w.Holds H i γ)
    (e : Event) : (w.step e).Holds (e.holders H) i γ := by
  have forget (k : ObjId) (o : Option EthernetClient) (w' : World)
      (hw : w'.objs = Function.update w.objs k o) : w'.Holds (Function.update H k false) i γ := by
    intro j hj
    by_cases hk : j = k
    · simp [hk] at hj
    · rw [Function.update_of_ne hk] at hj
      rw [hw, Function.update_of_ne hk]
      exact h j hj
  have same (w' : World) (hw : w'.objs = w.objs) : w'.Holds H i γ := fun k hk => by rw [hw]; exact h k hk
  cases e with
  | accept p port =>
    refine same _ ?_
    unfold step accept
    dsimp only
    split <;> rfl
  | data p c =>
    refine same _ ?_
    cases hb : w.net.pcbs p with
    | none => simp [step, hb]
    | some b =>
      simp only [step, hb, Option.elim_some, data]
      split <;> rfl
  | fin p err => exact same _ (by cases hb : w.net.pcbs p <;> simp [step, hb, fin, setClients])
  | error p => exact same _ (by cases hb : w.net.pcbs p <;> simp [step, hb, error, setClients])
  | poll p err =>
    refine same _ ?_
    cases hb : w.net.pcbs p with
    | none => simp [step, hb]
    | some b =>
      simp only [step, hb, Option.elim_some, poll]
      split_ifs <;> rfl
  | progress p state refused rcvWnd sndBuf => exact same _ rfl
  | reap p => exact same _ rfl
  | serverAccept k mem => exact forget k _ _ rfl
  | serverAvailable k mem => exact forget k _ _ rfl
  | serverWrite buf outcomes => exact same _ rfl
  | call k op =>
    cases hk : w.objs k with
    | none => simpa [step, hk, Event.holders] using h
    | some e =>
      intro j hj
      obtain ⟨e', he', hcs, hg⟩ := h j hj
      simp only [step, hk, Option.elim_some, put]
      by_cases hjk : j = k
      · subst j
        obtain rfl : e = e' := Option.some.inj (hk.symm.trans he')
        obtain ⟨hptr, hstamp⟩ := (w.conn e).perform_identity op
        exact ⟨_, by simp, hptr.trans hcs, hstamp.trans hg⟩
      · exact ⟨e', by simpa [hjk, setClients] using he', hcs, hg⟩
  | copy k k' =>
    intro j hj
    by_cases hjk : j = k'
    · subst j
      have hk : H k = true := by simpa [Event.holders] using hj
      obtain ⟨e', he', hid⟩ := h k hk
      exact ⟨e', by simp [step, he'], hid⟩
    · have hH : H j = true := by simpa [Event.holders, hjk] using hj
      obtain ⟨e', he', hid⟩ := h j hH
      refine ⟨e', ?_, hid⟩
      cases hk : w.objs k <;> simpa [step, hk, hjk] using he'
  | destroy k => exact forget k _ _ rfl

theorem holds_run {w : World} {H : ObjId → Bool} {i : Slot} {γ : UInt16} (h : w.Holds H i γ)
    (es : List Event) : (serverMachine.run w es).Holds (es.foldl Event.holders H) i γ := by
  induction es generalizing w H with
  | nil => exact h
  | cons e es ih => exact ih (holds_step h e)

def Issues (w : World) (e : Event) (k : ObjId) (i : Slot) : Prop :=
  ∃ mem, e = .serverAccept k mem ∧ (w.server.accept w.net mem).1.cs = .slot i ∨
    e = .serverAvailable k mem ∧ (w.server.available w.net mem).1.cs = .slot i

theorem Issues.holds {w : World} {e : Event} {k : ObjId} {i : Slot} (h : w.Issues e k i) :
    (w.step e).Holds (fun j => j = k) i (w.server.clients i).generation ∧
      (w.server.clients i).port ≠ 0 ∧ w.accepted e = none := by
  obtain ⟨mem, ⟨rfl, hi⟩ | ⟨rfl, hi⟩⟩ := h
  · obtain ⟨hg, hp⟩ := EthernetServer.accept_slot hi
    refine ⟨fun j hj => ?_, hp, rfl⟩
    obtain rfl : j = k := by simpa using hj
    exact ⟨_, by simp [step], hi, hg⟩
  · obtain ⟨hg, hp⟩ := EthernetServer.available_slot hi
    refine ⟨fun j hj => ?_, hp, rfl⟩
    obtain rfl : j = k := by simpa using hj
    exact ⟨_, by simp [step], hi, hg⟩

end World

theorem exists_last_mem {α : Type*} {a : α} {l : List α} (h : a ∈ l) :
    ∃ as bs, l = as ++ a :: bs ∧ a ∉ bs := by
  obtain ⟨as, bs, hl, ha⟩ := List.eq_append_cons_of_mem (List.mem_reverse.mpr h)
  refine ⟨bs.reverse, as.reverse, ?_, by simpa using ha⟩
  rw [← List.reverse_reverse l, hl]
  simp

end LogoCore.Ethernet
