import LogoCore.EventMachine
import LogoCore.TwoWire

namespace LogoCore.Wire

open TwoWire

inductive WriteOp (α : Type)
  | byte (b : α)
  | buffer (bs : List α)

structure Outcome (α : Type) where
  accepted : List α
  sent : List α
  errors : List UInt8
  counts : List (ℕ × ℕ)

section Transaction

variable {α : Type}

def WriteOp.bytes : WriteOp α → List α
  | .byte b => [b]
  | .buffer bs => bs

def WriteOp.map {β : Type} (f : α → β) : WriteOp α → WriteOp β
  | .byte b => .byte (f b)
  | .buffer bs => .buffer (bs.map f)

/-- The bytes accepted, the number returned, and the state after a call. -/
def WriteOp.run (w : TwoWire α) : WriteOp α → List α × ℕ × TwoWire α
  | .byte b => (if (w.write b).1 = 0 then [] else [b], w.write b)
  | .buffer bs => ((writeEach bs w).1, w.writeBuffer bs)

-- each call gives the number it returned and the number of bytes accepted
def runWrites : List (WriteOp α) → TwoWire α → List α × List (ℕ × ℕ) × TwoWire α
  | [], w => ([], [], w)
  | op :: ops, w =>
    let r := op.run w
    let rest := runWrites ops r.2.2
    (r.1 ++ rest.1, (r.2.1, r.1.length) :: rest.2.1, rest.2.2)

def transact (w : TwoWire α) (address : UInt8) (ops : List (WriteOp α)) (sendStop : Bool) (errors : ℕ → UInt8) :
    Option (Outcome α × TwoWire α) :=
  let r := runWrites ops (w.beginTransmission address)
  (r.2.2.endTransmission sendStop errors).map fun t =>
    (⟨r.1, t.2.1, (List.range t.2.1.length).map errors, r.2.1⟩, t.2.2)

structure Outcome.Faithful (o : Outcome α) : Prop where
  own : o.sent <+: o.accepted
  complete : (∀ e ∈ o.errors, e = 0) → o.sent = o.accepted
  counted : ∀ c ∈ o.counts, c.1 = c.2

/-- Every write(data, quantity) finds room, when `n` bytes are in the ring before. -/
def Fits : ℕ → List (WriteOp α) → Prop
  | _, [] => True
  | n, .byte _ :: ops => Fits (min (n + 1) (bufferLength - 1)) ops
  | n, .buffer bs :: ops => n + bs.length ≤ bufferLength - 1 ∧ Fits (n + bs.length) ops

structure Ready (w : TwoWire α) : Prop where
  transmitting : w.transmitting = true
  valid : w.tx.Valid
  size : w.tx.size = bufferLength

structure Accepts (w : TwoWire α) (acc : List α) (w' : TwoWire α) : Prop where
  ready : Ready w'
  contents : w'.tx.contents = w.tx.contents ++ acc
  cells : ∀ i, w'.tx.cells i = w.tx.cells i ∨ w'.tx.cells i ∈ acc

variable {w w' : TwoWire α}

theorem Accepts.refl (h : Ready w) : Accepts w [] w := ⟨h, (List.append_nil _).symm, fun _ => Or.inl rfl⟩

theorem Accepts.trans {w'' : TwoWire α} {acc acc' : List α} (h : Accepts w acc w') (h' : Accepts w' acc' w'') :
    Accepts w (acc ++ acc') w'' := by
  refine ⟨h'.ready, ?_, ?_⟩
  · rw [h'.contents, h.contents, List.append_assoc]
  · intro i
    rw [List.mem_append]
    rcases h'.cells i with heq | hmem
    · rw [heq]
      exact (h.cells i).imp_right Or.inl
    · exact Or.inr (Or.inr hmem)

theorem Accepts.fill {acc : List α} (h : Accepts w acc w') : w'.tx.fill = w.tx.fill + acc.length := by
  rw [← IndexRing.length_contents, h.contents, List.length_append, IndexRing.length_contents]

theorem Ready.fill_lt (h : Ready w) : w.tx.fill < bufferLength := h.size ▸ h.valid.fill_lt

theorem Ready.isFull_iff (h : Ready w) : w.tx.IsFull ↔ w.tx.fill + 1 = bufferLength := by
  rw [h.valid.isFull_iff, h.size]

theorem Ready.put (h : Ready w) (hfull : ¬ w.tx.IsFull) (b : α) : Accepts w [b] { w with tx := w.tx.put b } := by
  obtain ⟨hvalid, hcontents⟩ := h.valid.put hfull b
  refine ⟨⟨h.transmitting, hvalid, h.size⟩, hcontents, fun i => ?_⟩
  by_cases hi : i = w.tx.writeIndex
  · right
    simp [IndexRing.put, hi]
  · left
    exact Function.update_of_ne hi _ _

theorem writeEach_accepts (bs : List α) (h : Ready w) :
    Accepts w (writeEach bs w).1 (writeEach bs w).2 ∧
      (writeEach bs w).1 = bs.take (bufferLength - 1 - w.tx.fill) := by
  induction bs generalizing w with
  | nil => exact ⟨.refl h, by simp [writeEach]⟩
  | cons b bs ih =>
    have hfull := h.isFull_iff
    simp only [writeEach]
    obtain ⟨hyes, heq⟩ | ⟨hno, heq⟩ := write_transmitting h.transmitting b
    · have hroom : bufferLength - 1 - w.tx.fill = 0 := by
        have := hfull.mp hyes
        omega
      obtain ⟨haccepts, htake⟩ := ih (w := { w with writeError := true }) ⟨h.transmitting, h.valid, h.size⟩
      rw [heq, if_pos rfl, hroom, List.take_zero]
      simp only at htake ⊢
      rw [hroom, List.take_zero] at htake
      exact ⟨⟨haccepts.ready, haccepts.contents, haccepts.cells⟩, htake⟩
    · have hone := h.put hno b
      obtain ⟨haccepts, htake⟩ := ih hone.ready
      have hroom : bufferLength - 1 - w.tx.fill = bufferLength - 1 - (w.tx.fill + 1) + 1 := by
        have hlt := h.fill_lt
        have hne : w.tx.fill + 1 ≠ bufferLength := fun heq => hno (hfull.mpr heq)
        omega
      rw [heq, if_neg Nat.one_ne_zero]
      refine ⟨hone.trans haccepts, ?_⟩
      rw [hroom, List.take_succ_cons, htake, hone.fill]
      rfl

theorem WriteOp.run_accepts (op : WriteOp α) (h : Ready w) :
    Accepts w (op.run w).1 (op.run w).2.2 ∧ (op.run w).1 = op.bytes.take (bufferLength - 1 - w.tx.fill) := by
  cases op with
  | byte b => exact writeEach_accepts [b] h
  | buffer bs => exact writeEach_accepts bs h

theorem runWrites_accepts (ops : List (WriteOp α)) (h : Ready w) :
    Accepts w (runWrites ops w).1 (runWrites ops w).2.2 ∧
      ∀ a ∈ (runWrites ops w).1, ∃ op ∈ ops, a ∈ op.bytes := by
  induction ops generalizing w with
  | nil => exact ⟨.refl h, fun _ ha => nomatch ha⟩
  | cons op ops ih =>
    obtain ⟨hop, htake⟩ := op.run_accepts h
    obtain ⟨hrest, hown⟩ := ih hop.ready
    refine ⟨hop.trans hrest, ?_⟩
    intro a ha
    rcases List.mem_append.mp ha with ha | ha
    · rw [htake] at ha
      exact ⟨op, List.mem_cons_self, List.mem_of_mem_take ha⟩
    · obtain ⟨op', hop', ha'⟩ := hown a ha
      exact ⟨op', List.mem_cons_of_mem op hop', ha'⟩

theorem runWrites_counted_iff (ops : List (WriteOp α)) (h : Ready w) :
    (∀ c ∈ (runWrites ops w).2.1, c.1 = c.2) ↔ Fits w.tx.fill ops := by
  induction ops generalizing w with
  | nil => exact iff_of_true (fun _ hc => nomatch hc) trivial
  | cons op ops ih =>
    obtain ⟨hop, htake⟩ := op.run_accepts h
    have hlength := congrArg List.length htake
    rw [List.length_take] at hlength
    have hlt := h.fill_lt
    simp only [runWrites, List.forall_mem_cons]
    rw [ih hop.ready, hop.fill]
    cases op with
    | byte b =>
      have hone : (WriteOp.byte b).run w |>.2.1 = ((WriteOp.byte b).run w).1.length := by
        obtain ⟨-, heq⟩ | ⟨-, heq⟩ := write_transmitting h.transmitting b
        · simp [WriteOp.run, heq]
        · simp [WriteOp.run, heq]
      have hfill : w.tx.fill + ((WriteOp.byte b).run w).1.length = min (w.tx.fill + 1) (bufferLength - 1) := by
        rw [hlength, WriteOp.bytes, List.length_singleton]
        omega
      rw [hfill, Fits]
      exact and_iff_right hone
    | buffer bs =>
      rw [Fits, hlength, WriteOp.bytes]
      change bs.length = min (bufferLength - 1 - w.tx.fill) bs.length ∧ _ ↔ _
      constructor
      · rintro ⟨hcount, hfits⟩
        rw [← hcount] at hfits
        exact ⟨by omega, hfits⟩
      · rintro ⟨hroom, hfits⟩
        rw [Nat.min_eq_right (by omega)]
        exact ⟨rfl, hfits⟩

structure Transmits (w : TwoWire α) (ops : List (WriteOp α)) (o : Outcome α) (w' : TwoWire α) : Prop where
  valid : w'.tx.Valid
  size : w'.tx.size = bufferLength
  split : w.tx.contents ++ o.accepted = o.sent ++ w'.tx.contents
  complete : (∀ e ∈ o.errors, e = 0) → w'.tx.contents = []
  silent : o.sent = [] → w.tx.contents = []
  counted : (∀ c ∈ o.counts, c.1 = c.2) ↔ Fits w.tx.fill ops
  cells : ∀ i, w'.tx.cells i = w.tx.cells i ∨ w'.tx.cells i ∈ o.accepted
  own : ∀ a ∈ o.accepted, ∃ op ∈ ops, a ∈ op.bytes

theorem transact_transmits (address : UInt8) (ops : List (WriteOp α)) (sendStop : Bool) (errors : ℕ → UInt8)
    (hvalid : w.tx.Valid) (hsize : w.tx.size = bufferLength) :
    ∃ o w', transact w address ops sendStop errors = some (o, w') ∧ Transmits w ops o w' := by
  have hready : Ready (w.beginTransmission address) := ⟨rfl, hvalid, hsize⟩
  obtain ⟨haccepts, hown⟩ := runWrites_accepts ops hready
  obtain ⟨error, bs, w', hend, hsends, hnil⟩ :=
    endTransmission_sends sendStop errors haccepts.ready.valid haccepts.ready.size
  refine ⟨_, w', by rw [transact, hend, Option.map_some], hsends.valid, hsends.size.trans haccepts.ready.size, ?_,
    ?_, ?_, runWrites_counted_iff ops hready, ?_, hown⟩
  · exact haccepts.contents.symm.trans hsends.split
  · intro hno
    apply hsends.complete
    intro j hj
    exact hno (errors j) (List.mem_map_of_mem (List.mem_range.mpr hj))
  · intro hsent
    have hzero := haccepts.ready.valid.isEmpty_iff.mp (hnil hsent)
    rw [haccepts.fill] at hzero
    rw [← List.length_eq_zero_iff, IndexRing.length_contents]
    exact (Nat.add_eq_zero_iff.mp hzero).1
  · intro i
    rw [hsends.cells]
    exact haccepts.cells i

theorem Transmits.faithful_iff {ops : List (WriteOp α)} {o : Outcome α} (h : Transmits w ops o w')
    (hvalid : w.tx.Valid) (hold : ∀ a ∈ w.tx.contents, a ∉ o.accepted) :
    o.Faithful ↔ w.tx.IsEmpty ∧ Fits 0 ops := by
  have hlength : w.tx.contents.length = w.tx.fill := IndexRing.length_contents
  constructor
  · intro hf
    have hnil : w.tx.contents = [] := by
      cases hsent : o.sent with
      | nil => exact h.silent hsent
      | cons b bs =>
        cases hcontents : w.tx.contents with
        | nil => rfl
        | cons a as =>
          have hsplit := h.split
          rw [hcontents, hsent, List.cons_append, List.cons_append] at hsplit
          obtain ⟨rfl, -⟩ := List.cons.inj hsplit
          have hnew : a ∈ o.accepted := hf.own.subset (by rw [hsent]; exact List.mem_cons_self)
          exact absurd hnew (hold a (by rw [hcontents]; exact List.mem_cons_self))
    rw [hnil, List.length_nil] at hlength
    refine ⟨hvalid.isEmpty_iff.mpr hlength.symm, ?_⟩
    rw [hlength]
    exact h.counted.mp hf.counted
  · rintro ⟨hempty, hfits⟩
    have hzero := hvalid.isEmpty_iff.mp hempty
    have hsplit := h.split
    rw [List.length_eq_zero_iff.mp (hlength.trans hzero), List.nil_append] at hsplit
    refine ⟨⟨_, hsplit.symm⟩, ?_, h.counted.mpr (by rw [hzero]; exact hfits)⟩
    intro hno
    rw [hsplit, h.complete hno, List.append_nil]

end Transaction

structure Owned where
  owner : ℕ
  byte : UInt8
  deriving DecidableEq

inductive BusEvent
  | flush
  | transaction (address : UInt8) (ops : List (WriteOp UInt8)) (sendStop : Bool) (errors : ℕ → UInt8)

structure BusRun where
  wire : TwoWire Owned
  transactions : ℕ
  outcomes : List (Outcome Owned)

namespace BusRun

def init : BusRun := ⟨construct fun _ => ⟨0, 0⟩, 0, []⟩

def step (s : BusRun) : BusEvent → BusRun
  | .flush => { s with wire := s.wire.flush }
  | .transaction address ops sendStop errors =>
    match transact s.wire address (ops.map (WriteOp.map (Owned.mk (s.transactions + 1)))) sendStop errors with
    | none => { s with transactions := s.transactions + 1 }
    | some (o, w) => ⟨w, s.transactions + 1, s.outcomes ++ [o]⟩

def Faithful (s : BusRun) : Prop := s.outcomes.length = s.transactions ∧ ∀ o ∈ s.outcomes, o.Faithful

end BusRun

def busMachine : Machine BusRun BusEvent := ⟨fun _ _ => True, BusRun.step⟩

/-- A transaction starts with an empty ring, and its buffers fit. -/
def StartsEmpty (s : BusRun) : BusEvent → Prop
  | .flush => True
  | .transaction _ ops _ _ => s.wire.tx.IsEmpty ∧ Fits 0 ops

structure BusRun.Sound (s : BusRun) : Prop where
  valid : s.wire.tx.Valid
  size : s.wire.tx.size = bufferLength
  owners : ∀ i, (s.wire.tx.cells i).owner ≤ s.transactions
  faithful : s.Faithful

theorem fits_map {α β : Type} (f : α → β) (n : ℕ) (ops : List (WriteOp α)) :
    Fits n (ops.map (WriteOp.map f)) ↔ Fits n ops := by
  induction ops generalizing n with
  | nil => exact Iff.rfl
  | cons op ops ih =>
    cases op with
    | byte b => exact ih _
    | buffer bs => simp only [List.map_cons, WriteOp.map, Fits, List.length_map, ih]

theorem owner_of_mem {n : ℕ} {ops : List (WriteOp UInt8)} {a : Owned}
    (h : ∃ op ∈ ops.map (WriteOp.map (Owned.mk n)), a ∈ op.bytes) : a.owner = n := by
  obtain ⟨op, hop, ha⟩ := h
  obtain ⟨op, -, rfl⟩ := List.mem_map.mp hop
  cases op with
  | byte b =>
    rw [List.mem_singleton.mp ha]
  | buffer bs =>
    obtain ⟨b, -, rfl⟩ := List.mem_map.mp ha
    rfl

namespace BusRun.Sound

variable {s : BusRun} (h : s.Sound)

include h

theorem flush : (s.step .flush).Sound :=
  ⟨⟨h.valid.read, Nat.zero_lt_of_lt h.valid.read⟩, h.size, h.owners, h.faithful⟩

theorem transaction (address : UInt8) (ops : List (WriteOp UInt8)) (sendStop : Bool) (errors : ℕ → UInt8) :
    ((s.step (.transaction address ops sendStop errors)).Faithful →
      StartsEmpty s (.transaction address ops sendStop errors)) ∧
    (StartsEmpty s (.transaction address ops sendStop errors) →
      (s.step (.transaction address ops sendStop errors)).Sound) := by
  obtain ⟨o, w, htransact, htransmits⟩ := transact_transmits address
    (ops.map (WriteOp.map (Owned.mk (s.transactions + 1)))) sendStop errors h.valid h.size
  have hstep : s.step (.transaction address ops sendStop errors) = ⟨w, s.transactions + 1, s.outcomes ++ [o]⟩ := by
    rw [BusRun.step, htransact]
  have hnew : ∀ a ∈ o.accepted, a.owner = s.transactions + 1 := fun a ha => owner_of_mem (htransmits.own a ha)
  have hold : ∀ a ∈ s.wire.tx.contents, a ∉ o.accepted := by
    intro a ha hmem
    obtain ⟨i, rfl⟩ := IndexRing.mem_contents ha
    have hle := h.owners i
    rw [hnew _ hmem] at hle
    omega
  have hiff : o.Faithful ↔ s.wire.tx.IsEmpty ∧ Fits 0 ops := by
    rw [htransmits.faithful_iff h.valid hold, fits_map]
  rw [hstep]
  constructor
  · intro hf
    exact hiff.mp (hf.2 o (List.mem_append_right _ (List.mem_singleton_self o)))
  · intro hstart
    refine ⟨htransmits.valid, htransmits.size, ?_, ?_, ?_⟩
    · intro i
      rcases htransmits.cells i with heq | hmem
      · exact heq ▸ Nat.le_succ_of_le (h.owners i)
      · exact (hnew _ hmem).le
    · rw [List.length_append, h.faithful.1, List.length_singleton]
    · rw [List.forall_mem_append, List.forall_mem_singleton]
      exact ⟨h.faithful.2, hiff.mpr hstart⟩

end BusRun.Sound

theorem init_sound : BusRun.init.Sound := by
  refine ⟨⟨?_, ?_⟩, rfl, fun _ => le_refl 0, rfl, fun _ ho => nomatch ho⟩
  · decide
  · decide

/-- Along a run of transactions and flushes, every transaction carries only its own bytes exactly when each starts with
an empty ring and has room for its buffers. -/
theorem transmissions_own_bytes_iff (es : List BusEvent) :
    (∀ fs gs, es = fs ++ gs → (busMachine.run BusRun.init fs).Faithful) ↔
      (Machine.mk StartsEmpty busMachine.step).Legal BusRun.init es := by
  apply Machine.always_iff (I := BusRun.Sound) (fun _ h => h.faithful) ?_ ?_ init_sound
  · exact Machine.legal_iff_splits.mpr fun _ _ _ _ => trivial
  · intro s e h _ hfaithful
    cases e with
    | flush => trivial
    | transaction address ops sendStop errors => exact (h.transaction address ops sendStop errors).1 hfaithful
  · intro s e h _ hstart
    cases e with
    | flush => exact h.flush
    | transaction address ops sendStop errors => exact (h.transaction address ops sendStop errors).2 hstart

/-- The second byte of a transaction fails; the next one sends what is left of the first. A flush behind a good
transaction makes 61 old bytes appear. A buffer of 64 bytes is reported as written. -/
theorem transmissions_carry_residue :
    (((busMachine.run BusRun.init [.transaction 9 [.buffer [1, 2, 3]] true fun k => if k = 1 then 8 else 0,
        .transaction 9 [.byte 4] true fun _ => 0]).outcomes.map fun o => o.sent.map Owned.byte) = [[1, 2], [3, 4]]) ∧
    (((busMachine.run BusRun.init [.transaction 9 [.buffer [1, 2, 3]] true fun _ => 0, .flush,
        .transaction 9 [] true fun _ => 0]).outcomes.map fun o => o.sent.length) = [3, 61]) ∧
    ((busMachine.run BusRun.init [.transaction 9 [.buffer (List.replicate 64 7)] true fun _ => 0]).outcomes.map
        Outcome.counts) = [[(64, 63)]] := by
  refine ⟨?_, ?_, ?_⟩
  · decide +kernel
  · decide +kernel
  · decide +kernel

end LogoCore.Wire
