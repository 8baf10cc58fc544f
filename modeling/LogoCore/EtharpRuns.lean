import LogoCore.Etharp

namespace LogoCore.Arp

open ArpState

def lastClaim (claims : List (UInt32 × UInt64)) (ipaddr : UInt32) : Option UInt64 :=
  (claims.reverse.find? fun x => x.1 == ipaddr).map Prod.snd

theorem lastClaim_same (claims : List (UInt32 × UInt64)) (ipaddr : UInt32) (ethaddr : UInt64) :
    lastClaim (claims ++ [(ipaddr, ethaddr)]) ipaddr = some ethaddr := by
  rw [lastClaim, List.reverse_append, List.reverse_singleton, List.singleton_append, List.find?_cons_of_pos (by simp)]
  rfl

theorem lastClaim_other (claims : List (UInt32 × UInt64)) {ipaddr other : UInt32} (hne : other ≠ ipaddr)
    (ethaddr : UInt64) : lastClaim (claims ++ [(ipaddr, ethaddr)]) other = lastClaim claims other := by
  rw [lastClaim, List.reverse_append, List.reverse_singleton, List.singleton_append,
    List.find?_cons_of_neg (by simpa using hne.symm), lastClaim]

structure Candidates.Good (c : Candidates) (t : Table) : Prop where
  empty : ∀ k ∈ c.empty, k < arpTableSize ∧ (t k).state = .empty
  oldStable : ∀ k ∈ c.oldStable, k < arpTableSize
  oldPending : ∀ k ∈ c.oldPending, k < arpTableSize
  oldQueue : ∀ k ∈ c.oldQueue, k < arpTableSize

theorem Candidates.Good.note {c : Candidates} {t : Table} (h : c.Good t) {i : ℕ} (hi : i < arpTableSize) :
    (c.note i (t i)).Good t := by
  have hnew : ∀ k ∈ some i, k < arpTableSize := fun k hk => Option.mem_some_iff.mp hk ▸ hi
  rw [Candidates.note]
  cases hstate : (t i).state with
  | empty =>
    dsimp only
    split_ifs
    · refine ⟨fun k hk => ?_, h.oldStable, h.oldPending, h.oldQueue⟩
      obtain rfl := Option.mem_some_iff.mp hk
      exact ⟨hi, hstate⟩
    · exact h
  | pending =>
    dsimp only
    split_ifs
    · exact ⟨h.empty, h.oldStable, h.oldPending, hnew⟩
    · exact h
    · exact ⟨h.empty, h.oldStable, hnew, h.oldQueue⟩
    · exact h
  | stable =>
    dsimp only
    split_ifs
    · exact ⟨h.empty, hnew, h.oldPending, h.oldQueue⟩
    · exact h
  | stableRerequesting =>
    dsimp only
    split_ifs
    · exact ⟨h.empty, hnew, h.oldPending, h.oldQueue⟩
    · exact h

theorem search_cases (t : Table) (ipaddr : UInt32) {n i : ℕ} {c : Candidates} (hc : c.Good t)
    (hi : i + n ≤ arpTableSize) :
    (∃ k < arpTableSize, search t ipaddr n i c = .hit k ∧ (t k).state ≠ .empty ∧ (t k).ipaddr = ipaddr) ∨
      ∃ c', search t ipaddr n i c = .miss c' ∧ c'.Good t ∧
        ∀ j, i ≤ j → j < i + n → (t j).state ≠ .empty → (t j).ipaddr ≠ ipaddr := by
  induction n generalizing i c with
  | zero => exact .inr ⟨c, rfl, hc, fun j hj hj' => absurd hj (by omega)⟩
  | succ n ih =>
    rw [search]
    by_cases hhit : (t i).state ≠ .empty ∧ (t i).ipaddr = ipaddr
    · rw [if_pos hhit]
      exact .inl ⟨i, by omega, rfl, hhit⟩
    · rw [if_neg hhit]
      obtain hfound | ⟨c', heq, hgood, hnone⟩ :=
        ih (hc.note (show i < arpTableSize by omega)) (show i + 1 + n ≤ arpTableSize by omega)
      · exact .inl hfound
      · refine .inr ⟨c', heq, hgood, fun j hj hj' hstate => ?_⟩
        by_cases hji : j = i
        · rw [hji] at hstate ⊢
          exact fun hip => hhit ⟨hstate, hip⟩
        · exact hnone j (by omega) (by omega) hstate

theorem Candidates.Good.choose {c : Candidates} {t : Table} (h : c.Good t) {i : ℕ} (hi : c.choose = some i) :
    i < arpTableSize ∧ (c.empty.isSome → (t i).state = .empty) := by
  rw [Candidates.choose] at hi
  cases hempty : c.empty with
  | some k =>
    rw [hempty, Option.some_or] at hi
    obtain rfl := Option.some.inj hi
    have := h.empty k hempty
    exact ⟨this.1, fun _ => this.2⟩
  | none =>
    rw [hempty, Option.none_or] at hi
    refine ⟨?_, fun hsome => absurd hsome (by simp)⟩
    cases hstable : c.oldStable with
    | some k =>
      rw [hstable, Option.some_or] at hi
      exact Option.some.inj hi ▸ h.oldStable k hstable
    | none =>
      rw [hstable, Option.none_or] at hi
      cases hpending : c.oldPending with
      | some k =>
        rw [hpending, Option.some_or] at hi
        exact Option.some.inj hi ▸ h.oldPending k hpending
      | none =>
        rw [hpending, Option.none_or] at hi
        exact h.oldQueue i hi

structure Resolved (s : ArpState) : Prop where
  distinct : ∀ i < arpTableSize, ∀ j < arpTableSize, (s.table i).state ≠ .empty → (s.table j).state ≠ .empty →
    (s.table i).ipaddr = (s.table j).ipaddr → i = j
  learned : ∀ i < arpTableSize, (s.table i).state.isStable = true →
    lastClaim s.claims (s.table i).ipaddr = some (s.table i).ethaddr
  queued : ∀ i < arpTableSize, ∀ p ∈ (s.table i).q, (s.table i).state = .pending ∧ p.dst = (s.table i).ipaddr
  cached : s.cachedEntry < arpTableSize
  sent : ∀ x ∈ s.sent, x.after ≤ s.claims.length ∧
    lastClaim (s.claims.take x.after) x.packet.dst = some x.ethaddr

/-- The entry `i` of the table `t` is for the address, and no other entry is. -/
structure Slot (s : ArpState) (t : Table) (i : ℕ) (ipaddr : UInt32) : Prop where
  lt : i < arpTableSize
  addr : (t i).ipaddr = ipaddr
  same : ∀ j, j ≠ i → t j = s.table j
  others : ∀ j < arpTableSize, j ≠ i → (s.table j).state ≠ .empty → (s.table j).ipaddr ≠ ipaddr
  stable : (t i).state.isStable = true → t i = s.table i
  queued : ∀ p ∈ (t i).q, p.dst = ipaddr

section Steps

variable {s : ArpState} {t : Table} {i : ℕ} {ipaddr : UInt32}

theorem Resolved.findEntry (h : Resolved s) (ipaddr : UInt32) (tryHard : Bool) :
    (etharpFindEntry s.table ipaddr tryHard).i = none ∧ (etharpFindEntry s.table ipaddr tryHard).table = s.table ∧
        (∀ j < arpTableSize, (s.table j).state ≠ .empty → (s.table j).ipaddr ≠ ipaddr) ∨
      ∃ i, (etharpFindEntry s.table ipaddr tryHard).i = some i ∧
        Slot s (etharpFindEntry s.table ipaddr tryHard).table i ipaddr := by
  have hstart : Candidates.Good ⟨none, none, none, none, 0, 0, 0⟩ s.table :=
    ⟨fun _ hk => absurd hk (by simp), fun _ hk => absurd hk (by simp), fun _ hk => absurd hk (by simp),
      fun _ hk => absurd hk (by simp)⟩
  rw [etharpFindEntry]
  obtain ⟨k, hk, hhit, hstate, hip⟩ | ⟨c, hmiss, hgood, hnone⟩ :=
    search_cases s.table ipaddr hstart (show 0 + arpTableSize ≤ arpTableSize by omega)
  · rw [hhit]
    refine .inr ⟨k, rfl, hk, hip, fun _ _ => rfl, fun j hj hne hused hsame => ?_, fun _ => rfl, fun p hp => ?_⟩
    · exact hne (h.distinct j hj k hk hused hstate (hsame.trans hip.symm))
    · exact (h.queued k hk p hp).2.trans hip
  · have hfree : ∀ j < arpTableSize, (s.table j).state ≠ .empty → (s.table j).ipaddr ≠ ipaddr := fun j hj =>
      hnone j (Nat.zero_le j) (by omega)
    rw [hmiss]
    dsimp only
    by_cases hhard : (!tryHard) = true
    · rw [if_pos hhard]
      exact .inl ⟨rfl, rfl, hfree⟩
    rw [if_neg hhard]
    cases hchoose : c.choose with
    | none => exact .inl ⟨rfl, rfl, hfree⟩
    | some i =>
      obtain ⟨hi, hempty⟩ := hgood.choose hchoose
      dsimp only
      obtain ⟨e, he, hstate, hq⟩ : ∃ e, e = (if c.empty.isSome = true then s.table i else (s.table i).free) ∧
          e.state = .empty ∧ e.q = none := by
        by_cases hsome : c.empty.isSome = true
        · refine ⟨s.table i, (if_pos hsome).symm, hempty hsome, ?_⟩
          refine Option.eq_none_iff_forall_not_mem.mpr fun p hp => ?_
          have := (h.queued i hi p hp).1
          rw [hempty hsome] at this
          exact absurd this (by decide)
        · exact ⟨_, (if_neg hsome).symm, rfl, rfl⟩
      rw [← he]
      refine .inr ⟨i, rfl, hi, ?_, fun j hj => Function.update_of_ne hj _ _, fun j hj _ hused => ?_, ?_, ?_⟩
      · rw [Function.update_self]
      · exact hfree j hj hused
      · rw [Function.update_self]
        dsimp only
        rw [hstate]
        exact fun hstable => absurd hstable (by decide)
      · rw [Function.update_self]
        dsimp only
        rw [hq]
        exact fun p hp => absurd hp (by simp)

theorem ne_empty_of_isStable {state : EtharpState} (h : state.isStable = true) : state ≠ .empty := by
  rintro rfl
  exact absurd h (by decide)

def Extends (claims claims' : List (UInt32 × UInt64)) (ipaddr : UInt32) : Prop :=
  claims' = claims ∨ ∃ ethaddr, claims' = claims ++ [(ipaddr, ethaddr)]

theorem Extends.other {claims claims' : List (UInt32 × UInt64)} (h : Extends claims claims' ipaddr) {other : UInt32}
    (hne : other ≠ ipaddr) : lastClaim claims' other = lastClaim claims other := by
  obtain rfl | ⟨ethaddr, rfl⟩ := h
  · rfl
  · exact lastClaim_other claims hne ethaddr

theorem Resolved.sent_extends (h : Resolved s) {claims : List (UInt32 × UInt64)}
    (hclaims : Extends s.claims claims ipaddr) : ∀ x ∈ s.sent, x.after ≤ claims.length ∧
      lastClaim (claims.take x.after) x.packet.dst = some x.ethaddr := by
  intro x hx
  obtain ⟨hafter, hsent⟩ := h.sent x hx
  obtain rfl | ⟨ethaddr, rfl⟩ := hclaims
  · exact ⟨hafter, hsent⟩
  · rw [List.take_append_of_le_length hafter, List.length_append]
    exact ⟨by omega, hsent⟩

theorem Resolved.put (h : Resolved s) (hslot : Slot s t i ipaddr) {e : EtharpEntry} (hip : e.ipaddr = ipaddr)
    {claims : List (UInt32 × UInt64)} (hclaims : Extends s.claims claims ipaddr)
    (hstable : e.state.isStable = true → lastClaim claims ipaddr = some e.ethaddr)
    (hq : ∀ p ∈ e.q, e.state = .pending ∧ p.dst = ipaddr) {cachedEntry : ℕ} (hcached : cachedEntry < arpTableSize) :
    Resolved { s with table := Function.update t i e, claims := claims, cachedEntry := cachedEntry } := by
  have hentry : Function.update t i e i = e := Function.update_self _ _ _
  have hother : ∀ j, j ≠ i → Function.update t i e j = s.table j := fun j hj =>
    (Function.update_of_ne hj _ _).trans (hslot.same j hj)
  refine ⟨fun a ha b hb => ?_, fun a ha => ?_, fun a ha => ?_, hcached, fun x hx => ?_⟩
  · dsimp only
    by_cases hai : a = i
    · by_cases hbi : b = i
      · exact fun _ _ _ => hai.trans hbi.symm
      · rw [hai, hentry, hother b hbi, hip]
        exact fun _ hused hsame => absurd hsame.symm (hslot.others b hb hbi hused)
    · by_cases hbi : b = i
      · rw [hbi, hentry, hother a hai, hip]
        exact fun hused _ hsame => absurd hsame (hslot.others a ha hai hused)
      · rw [hother a hai, hother b hbi]
        exact h.distinct a ha b hb
  · dsimp only
    by_cases hai : a = i
    · rw [hai, hentry, hip]
      exact hstable
    · rw [hother a hai]
      intro hused
      rw [hclaims.other (hslot.others a ha hai (ne_empty_of_isStable hused))]
      exact h.learned a ha hused
  · dsimp only
    by_cases hai : a = i
    · rw [hai, hentry, hip]
      exact hq
    · rw [hother a hai]
      exact h.queued a ha
  · exact h.sent_extends hclaims x hx

theorem Resolved.send (h : Resolved s) {p : Packet} {ethaddr : UInt64}
    (hmac : lastClaim s.claims p.dst = some ethaddr) : Resolved (s.send p ethaddr) := by
  refine ⟨h.distinct, h.learned, h.queued, h.cached, fun x hx => ?_⟩
  obtain hold | hnew := List.mem_append.mp hx
  · exact h.sent x hold
  · obtain rfl := List.mem_singleton.mp hnew
    dsimp only [ArpState.send]
    rw [List.take_length]
    exact ⟨Nat.le_refl _, hmac⟩

theorem tick_cases (e : EtharpEntry) : e.tick.ipaddr = e.ipaddr ∧ e.tick.ethaddr = e.ethaddr ∧
    (e.tick.state ≠ .empty → e.state ≠ .empty) ∧ (e.tick.state.isStable = true → e.state.isStable = true) ∧
    ∀ p ∈ e.tick.q, p ∈ e.q ∧ (e.state = .pending → e.tick.state = .pending) := by
  rw [EtharpEntry.tick]
  by_cases hempty : e.state = .empty
  · rw [if_pos hempty]
    exact ⟨rfl, rfl, id, id, fun p hp => ⟨hp, id⟩⟩
  rw [if_neg hempty]
  dsimp only
  split_ifs with hold hagain
  · exact ⟨rfl, rfl, fun hne => absurd rfl hne, fun hst => absurd hst Bool.false_ne_true,
      fun p hp => absurd hp (by simp [EtharpEntry.free])⟩
  · refine ⟨rfl, rfl, fun _ => hempty, fun _ => ?_, fun p hp => ⟨hp, fun hpending => ?_⟩⟩
    · rw [hagain]
      rfl
    · rw [hpending] at hagain
      exact absurd hagain (by decide)
  · exact ⟨rfl, rfl, id, id, fun p hp => ⟨hp, id⟩⟩

theorem Resolved.tmr (h : Resolved s) : Resolved s.etharpTmr := by
  refine ⟨fun a ha b hb hused hused' hsame => ?_, fun a ha hst => ?_, fun a ha p hp => ?_, h.cached, h.sent⟩
  · obtain ⟨hip, -, hne, -⟩ := tick_cases (s.table a)
    obtain ⟨hip', -, hne', -⟩ := tick_cases (s.table b)
    exact h.distinct a ha b hb (hne hused) (hne' hused') (hip.symm.trans (hsame.trans hip'))
  · obtain ⟨hip, heth, -, hstable, -⟩ := tick_cases (s.table a)
    change lastClaim s.claims (s.table a).tick.ipaddr = some (s.table a).tick.ethaddr
    rw [hip, heth]
    exact h.learned a ha (hstable hst)
  · obtain ⟨hip, -, -, -, hqueue⟩ := tick_cases (s.table a)
    obtain ⟨hmem, hpending⟩ := hqueue p hp
    obtain ⟨hstate, hdst⟩ := h.queued a ha p hmem
    exact ⟨hpending hstate, hdst.trans hip.symm⟩

theorem Resolved.claim (h : Resolved s) (hnone : ∀ j < arpTableSize, (s.table j).state ≠ .empty →
    (s.table j).ipaddr ≠ ipaddr) (ethaddr : UInt64) :
    Resolved { s with claims := s.claims ++ [(ipaddr, ethaddr)] } := by
  refine ⟨h.distinct, fun a ha hst => ?_, h.queued, h.cached, h.sent_extends (.inr ⟨ethaddr, rfl⟩)⟩
  dsimp only
  rw [lastClaim_other s.claims (hnone a ha (ne_empty_of_isStable hst))]
  exact h.learned a ha hst

theorem Resolved.update (h : Resolved s) (ipaddr : UInt32) (ethaddr : UInt64) (tryHard : Bool) :
    Resolved (s.etharpUpdateArpEntry ipaddr ethaddr tryHard) := by
  rw [ArpState.etharpUpdateArpEntry]
  dsimp only
  obtain ⟨hi, htable, hnone⟩ | ⟨i, hi, hslot⟩ := h.findEntry ipaddr tryHard
  · rw [hi, htable]
    exact h.claim hnone ethaddr
  · rw [hi]
    dsimp only
    have hput := h.put hslot (e := { (etharpFindEntry s.table ipaddr tryHard).table i with
      state := .stable, ethaddr := ethaddr, ctime := 0, q := none }) hslot.addr (.inr ⟨ethaddr, rfl⟩)
      (fun _ => lastClaim_same s.claims ipaddr ethaddr) (fun p hp => absurd hp (by simp)) h.cached
    cases hq : ((etharpFindEntry s.table ipaddr tryHard).table i).q with
    | none => exact hput
    | some p =>
      refine hput.send ?_
      rw [hslot.queued p hq]
      exact lastClaim_same s.claims ipaddr ethaddr

theorem Resolved.setCached (h : Resolved s) {cachedEntry : ℕ} (hcached : cachedEntry < arpTableSize) :
    Resolved { s with cachedEntry := cachedEntry } :=
  ⟨h.distinct, h.learned, h.queued, hcached, h.sent⟩

theorem Resolved.slot (h : Resolved s) (hi : i < arpTableSize) (hused : (s.table i).state ≠ .empty) :
    Slot s s.table i (s.table i).ipaddr :=
  ⟨hi, rfl, fun _ _ => rfl, fun j hj hne hj' hsame => hne (h.distinct j hj i hi hj' hused hsame), fun _ => rfl,
    fun p hp => (h.queued i hi p hp).2⟩

theorem Resolved.toArpIndex (h : Resolved s) {p : Packet} (hi : i < arpTableSize)
    (hstable : (s.table i).state.isStable = true) (hdst : (s.table i).ipaddr = p.dst) (ok : Bool) :
    Resolved (s.etharpOutputToArpIndex p i ok) := by
  have hmac := h.learned i hi hstable
  rw [ArpState.etharpOutputToArpIndex]
  split_ifs with hold
  · have hput := h.put (h.slot hi (ne_empty_of_isStable hstable))
      (e := { s.table i with state := .stableRerequesting }) rfl (.inl rfl) (fun _ => hmac) (fun q hq => ?_) h.cached
    · exact hput.send (hdst ▸ hmac)
    · have hpending := (h.queued i hi q hq).1
      rw [hold.1] at hpending
      exact absurd hpending (by decide)
  · exact h.send (hdst ▸ hmac)

theorem Resolved.query (h : Resolved s) (p : Packet) (copy : Bool) : Resolved (s.etharpQuery p copy) := by
  rw [ArpState.etharpQuery]
  dsimp only
  obtain ⟨hi, htable, -⟩ | ⟨i, hi, hslot⟩ := h.findEntry p.dst true
  · rw [hi, htable]
    exact h
  rw [hi]
  dsimp only
  by_cases hstable : ((etharpFindEntry s.table p.dst true).table i).state.isStable = true
  · have hentry := hslot.stable hstable
    have htable : (etharpFindEntry s.table p.dst true).table = s.table := by
      funext j
      by_cases hj : j = i
      · rw [hj, hentry]
      · exact hslot.same j hj
    have haddr := hslot.addr
    rw [if_pos hstable]
    rw [htable] at hstable haddr ⊢
    refine (h.setCached hslot.lt).send ?_
    have hmac := h.learned i hslot.lt hstable
    rwa [haddr] at hmac
  · rw [if_neg hstable]
    refine h.put hslot ?_ (.inl rfl) ?_ ?_ h.cached
    · split_ifs
      · exact hslot.addr
      · exact hslot.addr
    · split_ifs
      · exact fun hst => absurd hst Bool.false_ne_true
      · exact fun hst => absurd hst Bool.false_ne_true
    · split_ifs
      · intro q hq
        obtain rfl := Option.mem_some_iff.mp hq
        exact ⟨rfl, rfl⟩
      · exact fun q hq => ⟨rfl, hslot.queued q hq⟩

theorem Resolved.output (h : Resolved s) (p : Packet) (ok copy : Bool) : Resolved (s.etharpOutput p ok copy) := by
  rw [ArpState.etharpOutput]
  by_cases hcached : (s.table s.cachedEntry).state.isStable ∧ (s.table s.cachedEntry).ipaddr = p.dst
  · rw [if_pos hcached]
    exact h.toArpIndex h.cached hcached.1 hcached.2 ok
  rw [if_neg hcached]
  cases hfind : s.findStable p.dst with
  | none => exact h.query p copy
  | some i =>
    have hi : i < arpTableSize := List.mem_range.mp (List.mem_of_find?_eq_some hfind)
    have hentry := List.find?_some hfind
    rw [Bool.and_eq_true, beq_iff_eq] at hentry
    exact (h.setCached hi).toArpIndex hi hentry.1 hentry.2 ok

end Steps

theorem legal_arp (s : ArpState) (es : List ArpEvent) : arpMachine.Legal s es := by
  induction es generalizing s with
  | nil => trivial
  | cons e es ih => exact ⟨trivial, ih _⟩

theorem run_resolved (es : List ArpEvent) : Resolved (arpMachine.run initArp es) := by
  refine arpMachine.invariant ?_ ?_ (legal_arp initArp es)
  · intro s e _ h
    cases e with
    | tmr => exact h.tmr
    | arp sipaddr shwaddr forUs => exact h.update sipaddr shwaddr forUs
    | output p ok copy => exact h.output p ok copy
  · refine ⟨fun i _ j _ hused => absurd rfl hused, fun i _ hst => absurd hst Bool.false_ne_true, fun i _ p hp => ?_,
      by decide, fun x hx => absurd hx List.not_mem_nil⟩
    exact absurd hp (by simp [initArp])

/-- Over every run of ARP messages, packets and timer ticks: no address has two entries, and every packet goes to the
hardware address that was claimed last for its next hop before it was sent, from the cached entry, from the table or
from the queue. -/
theorem sends_to_last_claim (es : List ArpEvent) :
    let s := arpMachine.run initArp es
    (∀ i < arpTableSize, ∀ j < arpTableSize, (s.table i).state ≠ .empty → (s.table j).state ≠ .empty →
        (s.table i).ipaddr = (s.table j).ipaddr → i = j) ∧
      ∀ x ∈ s.sent, lastClaim (s.claims.take x.after) x.packet.dst = some x.ethaddr :=
  ⟨(run_resolved es).distinct, fun x hx => ((run_resolved es).sent x hx).2⟩

end LogoCore.Arp
