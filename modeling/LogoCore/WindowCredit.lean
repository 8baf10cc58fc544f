import LogoCore.FinDelivery
import LogoCore.FlushQueue

namespace LogoCore.Ethernet

namespace Conn

variable {pcb : PcbPtr} {c : Conn} {q : List (UInt8 × Option ℕ)}

def Paced (c : Conn) (n : ℕ) : Prop :=
  n = 0 ∨ c.cs.p = [] ∨ c.cs.read = 0 ∧ ∀ p ∈ c.cs.p.take (n - 1), p.len = 1

theorem Represents.read_cs (h : Represents pcb c q) {p : Pbuf} {next : Chain} (hp : c.cs.p = p :: next) :
    c.read.2.cs = if c.cs.read + 1 = p.len then { c.cs with read := 0, p := next }
      else { c.cs with read := c.cs.read + 1 } := by
  have hne : q ≠ [] := by simp [h.holds.eq_nil_iff, hp]
  have ha : c.available ≠ 0 := fun h0 => hne (h.available_eq_zero_iff.mp h0)
  have hcs : c.read.2.cs = (takeByte c.cs c.net).2.1 := by
    simp only [read, readLocked, ha, ↓reduceIte]
    exact cs_setCs c _
  rw [hcs]
  split_ifs with hlast
  · exact (h.holds.takeByte_last hp hlast c.net).2.1
  · rw [h.holds.takeByte_middle hp hlast]

theorem Represents.paced_succ {x : UInt8 × Option ℕ} (h : Represents pcb c (x :: q)) (n : ℕ) :
    c.Paced (n + 1) ↔ c.cs.read = 0 ∧ c.read.2.Paced n := by
  obtain ⟨p, next, hp, -, -⟩ := h.holds.exists_head
  have hcs := h.read_cs hp
  cases n with
  | zero => simp [Paced, hp]
  | succ m =>
    by_cases hread : c.cs.read = 0
    · by_cases hlen : p.len = 1
      · have hnext : c.read.2.cs.p = next ∧ c.read.2.cs.read = 0 := by simp [hcs, hread, hlen]
        simp only [Paced, hnext, hp, hread, hlen, List.take_succ_cons, List.forall_mem_cons, Nat.add_sub_cancel]
        cases next <;> simp
      · have hstay : c.read.2.cs.p = c.cs.p ∧ c.read.2.cs.read = 1 := by
          simp [hcs, hread, show ¬ 1 = p.len from fun h => hlen h.symm]
        simp [Paced, hstay, hp, hread, hlen]
    · simp [Paced, hp, hread]

theorem Represents.credited_readLoop (h : Represents pcb c q) (n : ℕ) :
    c.net.credited pcb + min n q.length ≤ (c.readLoop n).2.net.credited pcb ∧
      ((c.readLoop n).2.net.credited pcb = c.net.credited pcb + min n q.length ↔ c.Paced n) := by
  induction n generalizing c q with
  | zero => simp [readLoop, Paced]
  | succ n ih =>
    cases q with
    | nil =>
      have hp := h.holds.eq_nil_iff.mp rfl
      have hr : c.readLoop (n + 1) = ([], c) := by simp [readLoop, h.read_nil]
      simp [hr, Paced, hp]
    | cons x q =>
      obtain ⟨hbyte, hrep, -, hcred⟩ := h.read_cons
      obtain ⟨hle, hiff⟩ := ih hrep
      have hne : ¬ ((x.1.toNat : ℤ) = -1) := by omega
      have hr : (c.readLoop (n + 1)).2 = (c.read.2.readLoop n).2 := by simp [readLoop, hbyte, hne]
      rw [hr, h.paced_succ n, ← hiff, List.length_cons]
      constructor
      · omega
      · constructor
        · intro heq
          constructor <;> omega
        · rintro ⟨hread, heq⟩
          omega

structure Closed (c : Conn) : Prop where
  cpcb : c.cs.cpcb = none
  p : c.cs.p = []

theorem Closed.available (h : Closed c) : c.available = 0 := by simp [Conn.available, h.p]

theorem Represents.stop_spec (h : Represents pcb c q) (err : Err) :
    Closed (c.stop err) ∧ (c.stop err).net.credited pcb = c.net.credited pcb + Chain.totLen c.cs.p := by
  have hcs := cs_setCs c { c.cs with cpcb := none, p := [], port := 0 }
  rw [stop, if_neg (by simp [h.current])]
  simp only [h.cpcb]
  refine ⟨⟨?_, ?_⟩, ?_⟩
  · exact congrArg Client.cpcb hcs
  · exact congrArg Client.p hcs
  · by_cases hp : c.cs.p = []
    · simp only [hp, ↓reduceIte]
      split_ifs <;> simp [setConnected, Chain.totLen]
    · simp only [hp, ↓reduceIte]
      split_ifs <;> simp [setConnected]

theorem Represents.fin_spec (h : Represents pcb c q) {i : Slot} (hi : c.self.cs = .slot i) (err : Err) :
    Closed (c.step pcb (.fin err)).2 ∧
      (c.step pcb (.fin err)).2.net.credited pcb = c.net.credited pcb + Chain.totLen c.cs.p := by
  have hc := h.cpcb
  simp only [cs, hi] at hc
  simp only [step, deliver, hi, EthernetServer.doRecv, ↓reduceIte, EthernetServer.doClose, hc, ne_eq,
    not_true_eq_false]
  refine ⟨⟨?_, ?_⟩, ?_⟩
  · simp [cs, hi]
  · simp [cs, hi]
  · by_cases hp : (c.clients i).p = []
    · simp only [cs, hi, hp, ↓reduceIte]
      split_ifs <;> simp [Chain.totLen, Net.receiveFin]
    · simp only [cs, hi, hp, ↓reduceIte]
      split_ifs <;> simp [Net.receiveFin]

def removed (pcb : PcbPtr) (c : Conn) : ConnEvent → ℤ
  | .recv _ => 0
  | e => c.available - (c.step pcb e).2.available

/-- The calls for which the credit is right. -/
def Creditable (c : Conn) : ConnEvent → Prop
  | .recv _ => True
  | .fin _ => c.self.cs = .own ∨ c.cs.p = [] ∨ c.cs.read = 0
  | .call .read => c.Paced 1
  | .call (.readBuf size) => c.Paced size
  | .call .flush => c.available = 0
  | .call (.stop _) => c.cs.p = [] ∨ c.cs.read = 0
  | .call _ => True

end Conn

def ConnEvent.isReceiving : ConnEvent → Bool
  | .call .flush | .call (.stop _) | .fin _ => true
  | e => e.isReading

def creditMachine (pcb : PcbPtr) : Machine Conn ConnEvent :=
  ⟨fun c e => c.Enabled pcb e ∧ e.isReceiving = true, fun c e => (c.step pcb e).2⟩

instance (pcb : PcbPtr) (c : Conn) (e : ConnEvent) : Decidable ((creditMachine pcb).enabled c e) :=
  inferInstanceAs (Decidable (_ ∧ _))

namespace Conn

variable {pcb : PcbPtr} {c : Conn} {q : List (UInt8 × Option ℕ)}

def Balanced (pcb : PcbPtr) (c : Conn) (e : ConnEvent) : Prop :=
  ((c.step pcb e).2.net.credited pcb : ℤ) = c.net.credited pcb + c.removed pcb e

theorem Represents.balanced_readLoop (h : Represents pcb c q) (n : ℕ) :
    ((c.readLoop n).2.net.credited pcb : ℤ) =
      c.net.credited pcb + (c.available - (c.readLoop n).2.available) ↔ c.Paced n := by
  obtain ⟨-, hrep, -⟩ := h.readLoop_eq n
  rw [← (h.credited_readLoop n).2, h.available_eq, hrep.available_eq, List.length_drop]
  omega

theorem Represents.readBuf_state (h : Represents pcb c q) (n : ℕ) : (c.readBuf n).2 = (c.readLoop n).2 := by
  unfold readBuf
  split_ifs with ha
  · have h0 : c.available = 0 := by
      rw [h.available_eq] at ha ⊢
      omega
    rw [readLoop_of_empty h0]
  · rfl

theorem readLoop_one (c : Conn) : (c.readLoop 1).2 = c.read.2 := by
  simp only [readLoop]
  split_ifs <;> rfl

theorem Represents.balanced_close (h : Represents pcb c q) {c' : Conn} (hc : Closed c')
    (hcred : c'.net.credited pcb = c.net.credited pcb + Chain.totLen c.cs.p) :
    (c'.net.credited pcb : ℤ) = c.net.credited pcb + (c.available - c'.available) ↔
      c.cs.p = [] ∨ c.cs.read = 0 := by
  have hl := h.holds.length_eq
  rw [hcred, hc.available, h.available_eq]
  constructor
  · intro heq
    right
    omega
  · rintro (hp | hr)
    · rw [h.holds.eq_nil_iff.mpr hp, hp]
      simp [Chain.totLen]
    · omega

theorem Represents.balanced_flush (h : Represents pcb c q) :
    Balanced pcb c (.call .flush) ↔ c.available = 0 := by
  have hcred : c.flush.net.credited pcb = c.net.credited pcb := by
    unfold flush
    split_ifs
    · simp [h.cpcb]
    · rfl
  have ha := h.coherent.flush_available
  change ((c.flush.net.credited pcb : ℕ) : ℤ) = c.net.credited pcb + (c.available - c.flush.available) ↔ _
  rw [hcred, ha]
  omega

theorem Represents.balanced_iff (h : Represents pcb c q) {e : ConnEvent} (he : (creditMachine pcb).enabled c e) :
    Balanced pcb c e ↔ c.Creditable e := by
  cases e with
  | recv d =>
    obtain ⟨-, hne, hw, hb⟩ := he.1
    simp [Balanced, removed, Creditable, (h.recv hne hw hb).2.2]
  | fin err =>
    cases hi : c.self.cs with
    | own =>
      have h' := h.fin_own hi err
      have hcred : (c.step pcb (.fin err)).2.net.credited pcb = c.net.credited pcb := by
        rw [Conn.fin_own hi]
        rfl
      simp [Balanced, removed, Creditable, hi, hcred, h'.available_eq, h.available_eq]
    | slot i =>
      obtain ⟨hc, hcred⟩ := h.fin_spec hi err
      have hb := h.balanced_close hc hcred
      simp only [Creditable, hi, reduceCtorEq, false_or]
      exact hb
  | call op =>
    cases op with
    | read =>
      have hb := h.balanced_readLoop 1
      rw [readLoop_one] at hb
      exact hb
    | readBuf size =>
      have hb := h.balanced_readLoop size
      rw [← h.readBuf_state] at hb
      exact hb
    | flush => exact h.balanced_flush
    | stop err =>
      obtain ⟨hc, hcred⟩ := h.stop_spec err
      exact h.balanced_close hc hcred
    | peek => simp [Balanced, removed, Creditable, step, perform]
    | available => simp [Balanced, removed, Creditable, step, perform]
    | _ => exact absurd he.2 (by simp [ConnEvent.isReceiving, ConnEvent.isReading])

def Settled (pcb : PcbPtr) (c : Conn) : Prop := (∃ q, Represents pcb c q) ∨ Closed c

theorem Represents.settled_step (h : Represents pcb c q) {e : ConnEvent}
    (he : (creditMachine pcb).enabled c e) (hc : c.Creditable e) : Settled pcb (c.step pcb e).2 := by
  cases e with
  | recv d =>
    obtain ⟨-, hne, hw, hb⟩ := he.1
    exact .inl ⟨_, (h.recv hne hw hb).1⟩
  | fin err =>
    cases hi : c.self.cs with
    | own => exact .inl ⟨_, h.fin_own hi err⟩
    | slot i => exact .inr (h.fin_spec hi err).1
  | call op =>
    cases op with
    | read =>
      have hrep := (h.readLoop_eq 1).2.1
      rw [readLoop_one] at hrep
      exact .inl ⟨_, hrep⟩
    | readBuf size => exact .inl ⟨_, (h.readBuf_eq size).2.1⟩
    | flush =>
      have hf : (c.step pcb (.call .flush)).2 = c := by simp [step, perform, flush, show c.available = 0 from hc]
      rw [hf]
      exact .inl ⟨q, h⟩
    | stop err => exact .inr (h.stop_spec err).1
    | peek => exact .inl ⟨q, h⟩
    | available => exact .inl ⟨q, h⟩
    | _ => exact absurd he.2 (by simp [ConnEvent.isReceiving, ConnEvent.isReading])

theorem Closed.stop (h : Closed c) (err : Err) : Closed (c.stop err) ∧ (c.stop err).net = c.net := by
  have hcs := cs_setCs c { c.cs with cpcb := none, p := [], port := 0 }
  unfold Conn.stop
  split_ifs
  · exact ⟨⟨h.cpcb, h.p⟩, rfl⟩
  · simp only [h.cpcb]
    exact ⟨⟨congrArg Client.cpcb hcs, congrArg Client.p hcs⟩, setCs_net c _⟩

theorem Closed.step (h : Closed c) {e : ConnEvent} (he : (creditMachine pcb).enabled c e) :
    Balanced pcb c e ∧ c.Creditable e ∧ Closed (c.step pcb e).2 := by
  have ha := h.available
  have same (op : ClientOp) (hop : (c.perform op).2 = c) :
      Balanced pcb c (.call op) ∧ Closed (c.step pcb (.call op)).2 := by
    have hstep : (c.step pcb (.call op)).2 = c := hop
    exact ⟨by simp [Balanced, removed, hstep], by rwa [hstep]⟩
  cases e with
  | recv d => exact absurd (h.cpcb.symm.trans he.1.1) (by simp)
  | fin err => exact absurd (h.cpcb.symm.trans he.1) (by simp)
  | call op =>
    cases op with
    | read =>
      obtain ⟨hb, hc⟩ := same .read (by simp [perform, Conn.read, readLocked, ha])
      exact ⟨hb, .inr (.inl h.p), hc⟩
    | readBuf size =>
      obtain ⟨hb, hc⟩ := same (.readBuf size) (by simp [perform, readBuf, ha])
      exact ⟨hb, .inr (.inl h.p), hc⟩
    | flush =>
      obtain ⟨hb, hc⟩ := same .flush (by simp [perform, flush, ha])
      exact ⟨hb, ha, hc⟩
    | stop err =>
      obtain ⟨hc, hn⟩ := h.stop err
      refine ⟨?_, .inl h.p, hc⟩
      change ((c.stop err).net.credited pcb : ℤ) = c.net.credited pcb + (c.available - (c.stop err).available)
      rw [hn, ha, hc.available]
      simp
    | peek => exact ⟨(same .peek rfl).1, trivial, (same .peek rfl).2⟩
    | available => exact ⟨(same .available rfl).1, trivial, (same .available rfl).2⟩
    | _ => exact absurd he.2 (by simp [ConnEvent.isReceiving, ConnEvent.isReading])

end Conn

theorem window_credit_balanced_iff (pcb : PcbPtr) (c : Conn) (hc : c.Fresh pcb) (es : List ConnEvent)
    (hl : (creditMachine pcb).Legal c es) :
    (∀ fs gs, es = fs ++ gs → (((creditMachine pcb).run c fs).net.credited pcb : ℤ) =
        c.net.credited pcb + (creditMachine pcb).total (Conn.removed pcb) c fs) ↔
      ∀ fs e gs, es = fs ++ e :: gs → ((creditMachine pcb).run c fs).Creditable e := by
  rw [Machine.total_eq_iff (M := creditMachine pcb) fun c => (c.net.credited pcb : ℤ)]
  have hiff : ∀ c e, Conn.Settled pcb c → (creditMachine pcb).enabled c e →
      (Conn.Balanced pcb c e ↔ c.Creditable e) := by
    rintro c e (⟨q, h⟩ | h) he
    · exact h.balanced_iff he
    · exact iff_of_true (h.step he).1 (h.step he).2.1
  have hstep : ∀ c e, Conn.Settled pcb c → (creditMachine pcb).enabled c e → c.Creditable e →
      Conn.Settled pcb ((creditMachine pcb).step c e) := by
    rintro c e (⟨q, h⟩ | h) he hcr
    · exact h.settled_step he hcr
    · exact .inr (h.step he).2.2
  refine Iff.trans (Machine.legal_congr (M := creditMachine pcb) hiff hstep (.inl ⟨[], hc.represents⟩) hl) ?_
  exact Machine.legal_iff_splits (M := Machine.mk Conn.Creditable (creditMachine pcb).step)

theorem window_credit_balanced_single_bytes :
    let es : List ConnEvent := [.recv [⟨20, [1], 1, 1, 1⟩], .call .read, .call (.stop .ok)]
    (((creditMachine 7).run .accepted es).net.credited 7 : ℤ) =
      Conn.accepted.net.credited 7 + (creditMachine 7).total (Conn.removed 7) .accepted es := by
  intro es
  refine (window_credit_balanced_iff 7 .accepted Conn.accepted_fresh es (by decide)).mpr ?_ es [] rfl
  exact (Machine.legal_iff_splits (M := Machine.mk Conn.Creditable (creditMachine 7).step)).mp
    ⟨trivial, .inr (.inr ⟨rfl, by decide⟩), .inl rfl, trivial⟩

/-- Two bytes of one pbuf are credited with 1 and 2. -/
theorem window_credit_counts_twice :
    let es : List ConnEvent := [.recv [⟨20, [1, 2], 2, 2, 1⟩], .call .read, .call .read]
    (creditMachine 7).Legal .accepted es ∧ (creditMachine 7).total (Conn.removed 7) .accepted es = 2 ∧
      ((creditMachine 7).run .accepted es).net.credited 7 = 3 := by
  intro es
  exact ⟨by decide, by decide, by decide⟩

end LogoCore.Ethernet
