import LogoCore.ClaimedSlots
import LogoCore.PreemptedAccept

namespace LogoCore.Ethernet

namespace AcceptPoint

/-- The slot that `accept()` found in use and has not passed over yet. -/
def visited : AcceptPoint → Option Slot
  | .claimed i _ | .cpcb i _ | .state i _ _ | .claim i | .mode i | .generation i => some i
  | _ => none

/-- The slot that `accept()` found unclaimed. -/
def tested : AcceptPoint → Option Slot
  | .cpcb i _ | .state i _ _ | .claim i | .mode i | .generation i => some i
  | _ => none

/-- The slot that `accept()` marked and whose handle is not complete. -/
def marked : AcceptPoint → Option Slot
  | .mode i | .generation i => some i
  | _ => none

end AcceptPoint

namespace Acceptor

/-- No connection is accepted into the slot that `accept()` marked before its handle is complete. -/
def Undisturbed (x : Acceptor) : AcceptEvent → Prop
  | .event e => ∀ i, x.world.accepted e = some i → x.point.marked ≠ some i
  | _ => True

structure Once (x : Acceptor) : Prop where
  lt_count : ∀ i s, x.conn i = some s → s < x.count
  handed_lt : ∀ s ∈ x.handed, s < x.count
  injective : ∀ i j s, x.conn i = some s → x.conn j = some s → i = j
  fresh : ∀ i s, x.point.tested = some i → x.conn i = some s → s ∉ x.handed
  occupied : ∀ i, (x.clients i).port ≠ 0 ∨ x.point.visited = some i → x.conn i ≠ none
  accounted : ∀ i, (x.clients i).claimed = true ↔
    x.point.marked = some i ∨ ∃ s ∈ x.handed, x.conn i = some s
  nodup : x.handed.Nodup

theorem once_initial (g : UInt16) : Once (initial g) := by
  constructor <;> simp [initial, handed, clients, World.initial, EthernetServer.fresh, Client.zero,
    AcceptPoint.visited, AcceptPoint.tested, AcceptPoint.marked]

namespace Once

variable {x : Acceptor}

theorem claimed (h : Once x) {i : Slot} {s : ℕ} (hi : x.conn i = some s) (hs : s ∈ x.handed) :
    (x.clients i).claimed = true := (h.accounted i).mpr (.inr ⟨s, hs, hi⟩)

theorem move (h : Once x) {p : AcceptPoint} {k : ObjId} {m : Client} (hx : x.point.marked = none)
    (hm : p.marked = none)
    (hv : ∀ i, p.visited = some i → (x.clients i).port ≠ 0 ∨ x.point.visited = some i)
    (ht : ∀ i, p.tested = some i → (x.clients i).claimed = false ∨ x.point.tested = some i) :
    Once { x with point := p, object := k, mem := m } where
  lt_count := h.lt_count
  handed_lt := h.handed_lt
  injective := h.injective
  fresh i s hp hs hmem := by
    obtain hc | hp := ht i hp
    · simp [h.claimed hs hmem] at hc
    · exact h.fresh i s hp hs hmem
  occupied i hp := h.occupied i (hp.elim .inl (hv i))
  accounted i := by
    have hi := h.accounted i
    rw [hx, ← hm] at hi
    exact hi
  nodup := h.nodup

theorem port (h : Once x) {left : List Slot} {k : ObjId} {m : Client} (hx : x.point.marked = none) :
    Once { x with point := .port left, object := k, mem := m } :=
  h.move hx rfl nofun nofun

theorem stay (h : Once x) {p : AcceptPoint} {k : ObjId} {m : Client} (hx : x.point.marked = none)
    (hm : p.marked = none) (hv : p.visited = x.point.visited) (ht : p.tested = x.point.tested) :
    Once { x with point := p, object := k, mem := m } :=
  h.move hx hm (fun _ hi => .inr (hv.symm.trans hi)) fun _ hi => .inr (ht.symm.trans hi)

theorem setSlot (h : Once x) {i : Slot} {s : Client} {p : AcceptPoint} (hport : s.port = (x.clients i).port)
    (hv : p.visited = x.point.visited) (ht : p.tested = x.point.tested)
    (ha : ∀ j, (Function.update x.clients i s j).claimed = true ↔
      p.marked = some j ∨ ∃ t ∈ x.handed, x.conn j = some t) :
    Once { x.setSlot i s with point := p } where
  lt_count := h.lt_count
  handed_lt := h.handed_lt
  injective := h.injective
  fresh j t hp := h.fresh j t (ht ▸ hp)
  occupied j hp := by
    refine h.occupied j ?_
    rw [← hv]
    refine hp.imp_left fun hj => ?_
    by_cases hji : j = i
    · subst j
      rw [← hport]
      simpa [clients, Acceptor.setSlot, World.setClients] using hj
    · simpa [clients, Acceptor.setSlot, World.setClients, hji] using hj
  accounted := ha
  nodup := h.nodup

theorem finish (h : Once x) {e : EthernetClient} {c : Option ℕ}
    (hc : ∀ s ∈ c, s < x.count ∧ s ∉ x.handed)
    (ha : ∀ j, x.point.marked = some j ↔ ∃ s ∈ c, x.conn j = some s) : Once (x.finish e c) := by
  have hhanded : (x.finish e c).handed = x.handed ++ c.toList := by
    cases c <;> simp [Acceptor.finish, handed]
  constructor
  · exact h.lt_count
  · intro s hs
    rw [hhanded, List.mem_append, Option.mem_toList] at hs
    exact hs.elim (h.handed_lt s) fun hs => (hc s hs).1
  · exact h.injective
  · exact fun i s hp => by simp [Acceptor.finish, AcceptPoint.tested] at hp
  · exact fun i hp => h.occupied i (.inl (hp.resolve_right (by simp [Acceptor.finish, AcceptPoint.visited])))
  · intro j
    refine (h.accounted j).trans ?_
    rw [ha, hhanded]
    simp only [Acceptor.finish, AcceptPoint.marked, List.mem_append, Option.mem_toList]
    constructor
    · rintro (⟨s, hs, hj⟩ | ⟨s, hs, hj⟩)
      · exact .inr ⟨s, .inr hs, hj⟩
      · exact .inr ⟨s, .inl hs, hj⟩
    · rintro (hn | ⟨s, hs | hs, hj⟩)
      · cases hn
      · exact .inr ⟨s, hs, hj⟩
      · exact .inl ⟨s, hs, hj⟩
  · rw [hhanded]
    refine List.nodup_append.mpr ⟨h.nodup, by cases c <;> simp, ?_⟩
    rintro s hs t ht rfl
    exact (hc s (Option.mem_toList.mp ht)).2 hs

theorem advance (h : Once x) (freed : TcpState) : Once (x.advance freed) := by
  unfold Acceptor.advance
  split <;> rename_i hx
  · exact h
  · exact h.finish nofun fun j => by simp [hx, AcceptPoint.marked]
  · split_ifs with hp
    · exact h.port (by rw [hx]; rfl)
    · refine h.move (by rw [hx]; rfl) rfl ?_ nofun
      rintro _ ⟨⟩
      exact .inl hp
  · split_ifs with hc
    · exact h.port (by rw [hx]; rfl)
    · refine h.move (by rw [hx]; rfl) rfl ?_ ?_
      · rintro _ ⟨⟩
        exact .inr (by rw [hx]; rfl)
      · rintro _ ⟨⟩
        exact .inl (by simpa using hc)
  · split
    · exact h.port (by rw [hx]; rfl)
    · exact h.stay (by rw [hx]; rfl) rfl (by rw [hx]; rfl) (by rw [hx]; rfl)
  · split_ifs
    · exact h.stay (by rw [hx]; rfl) rfl (by rw [hx]; rfl) (by rw [hx]; rfl)
    · exact h.port (by rw [hx]; rfl)
  · rename_i i
    refine h.setSlot rfl (by rw [hx]; rfl) (by rw [hx]; rfl) fun j => ?_
    by_cases hj : j = i
    · subst j; simp [AcceptPoint.marked]
    · have := h.accounted j
      simpa [hj, hx, AcceptPoint.marked, Ne.symm hj] using this
  · rename_i i
    refine h.setSlot rfl (by rw [hx]; rfl) (by rw [hx]; rfl) fun j => ?_
    have := h.accounted j
    by_cases hj : j = i
    · subst j; simpa [hx, AcceptPoint.marked] using this
    · simpa [hj, hx, AcceptPoint.marked] using this
  · rename_i i
    obtain ⟨s, hs⟩ := Option.ne_none_iff_exists'.mp (h.occupied i (.inr (by rw [hx]; rfl)))
    refine h.finish ?_ fun j => ?_
    · rintro t ht
      exact ⟨h.lt_count i t ht, h.fresh i t (by rw [hx]; rfl) ht⟩
    · simp only [hx, AcceptPoint.marked, hs, Option.some.injEq, Option.mem_def, exists_eq_left']
      constructor
      · rintro rfl; exact hs
      · exact fun hj => h.injective i j s hs hj

theorem accepted (h : Once x) {i : Slot} {w : World} {c : Client}
    (hw : w.server.clients = Function.update x.clients i c) (hc : c.claimed = false)
    (hm : x.point.marked ≠ some i) :
    Once { x with world := w, conn := Function.update x.conn i (some x.count), count := x.count + 1 } := by
  have hconn {j : Slot} {s : ℕ} (hs : Function.update x.conn i (some x.count) j = some s) :
      j = i ∧ s = x.count ∨ x.conn j = some s ∧ s < x.count := by
    by_cases hj : j = i
    · subst j
      simp only [Function.update_self, Option.some.injEq] at hs
      exact .inl ⟨rfl, hs.symm⟩
    · rw [Function.update_of_ne hj] at hs
      exact .inr ⟨hs, h.lt_count j s hs⟩
  have hnew {s : ℕ} (hs : s ∈ x.handed) : s ≠ x.count := (h.handed_lt s hs).ne
  constructor
  · intro j s hs
    obtain ⟨-, rfl⟩ | ⟨-, hs⟩ := hconn hs
    · exact Nat.lt_succ_self _
    · exact hs.trans (Nat.lt_succ_self _)
  · exact fun s hs => (h.handed_lt s hs).trans (Nat.lt_succ_self _)
  · intro j k s hj hk
    obtain ⟨rfl, rfl⟩ | ⟨hj, hlt⟩ := hconn hj <;> obtain ⟨rfl, hs⟩ | ⟨hk, hlt'⟩ := hconn hk
    · rfl
    · exact absurd hlt' (lt_irrefl _)
    · exact absurd hs hlt.ne
    · exact h.injective j k s hj hk
  · intro j s ht hs hmem
    obtain ⟨-, rfl⟩ | ⟨hs, -⟩ := hconn hs
    · exact hnew hmem rfl
    · exact h.fresh j s ht hs hmem
  · intro j hp
    dsimp only [clients] at hp ⊢
    by_cases hj : j = i
    · subst j; simp
    · rw [hw, Function.update_of_ne hj] at hp
      rw [Function.update_of_ne hj]
      exact h.occupied j hp
  · intro j
    dsimp only [clients]
    rw [hw]
    by_cases hj : j = i
    · subst j
      simp only [Function.update_self, hc, hm, false_or, Option.some.injEq, Bool.false_eq_true, false_iff]
      rintro ⟨s, hs, rfl⟩
      exact hnew hs rfl
    · simp only [Function.update_of_ne hj]
      exact h.accounted j
  · exact h.nodup

theorem event (h : Once x) {e : Event} (hne : ∀ k mem, e ≠ .serverAccept k mem)
    (hu : x.Undisturbed (.event e)) : Once (x.step (.event e)) := by
  cases ha : x.world.accepted e with
  | none =>
    simp only [Acceptor.step, ha]
    have hclaim := World.step_claimsKept ha hne
    have hport := (World.step_unstamped ha).1
    exact {
      lt_count := h.lt_count
      handed_lt := h.handed_lt
      injective := h.injective
      fresh := h.fresh
      occupied := fun i hp => h.occupied i (hp.imp_left fun hi hz => hi ((hport i).2 hz))
      accounted := fun i => by rw [clients, hclaim i]; exact h.accounted i
      nodup := h.nodup }
  | some i =>
    simp only [Acceptor.step, ha]
    cases e with
    | accept p port => exact h.accepted (World.accept_free p port ha).1 rfl (hu i ha)
    | _ => simp [World.accepted] at ha

theorem step (h : Once x) {e : AcceptEvent} (he : x.Enabled e) (hu : x.Undisturbed e) : Once (x.step e) := by
  cases e with
  | event e =>
    refine h.event ?_ hu
    rintro k mem rfl
    obtain ⟨-, hi | ⟨-, hn⟩⟩ := he
    · cases hi
    · exact hn k mem rfl
  | call k mem =>
    have hp : x.point = .idle := he
    exact h.port (by rw [hp]; rfl)
  | advance freed => exact h.advance freed

end Once

end Acceptor

end LogoCore.Ethernet
