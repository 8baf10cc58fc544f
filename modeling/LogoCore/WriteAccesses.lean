import LogoCore.WriteReport

namespace LogoCore.Ethernet

/-- Where a call of `write` stands: before `stale()`, before the copy of `cs->cpcb`, at the head of the
loop, before the `tcp_output` or the `delay(1)` that follows ERR_MEM, or returned. -/
inductive WritePoint where
  | entry
  | load
  | loop (cpcb : PcbPtr) (i : ℕ) (stuffed : Bool)
  | output (cpcb : PcbPtr) (i : ℕ)
  | delay (cpcb : PcbPtr) (i : ℕ)
  | returned (n : ℕ)
deriving DecidableEq

def WritePoint.copy : WritePoint → Option PcbPtr
  | .loop cpcb _ _ | .output cpcb _ | .delay cpcb _ => some cpcb
  | _ => none

def WritePoint.early : WritePoint → Bool
  | .entry | .load => true
  | _ => false

theorem WritePoint.copy_of_early {pt : WritePoint} (h : pt.early = true) : pt.copy = none := by
  cases pt <;> simp_all [WritePoint.early, WritePoint.copy]

/-- A call of `write` between its steps. `uses` are the control blocks it passed to lwIP, each with
whether the block was in use. -/
structure WriteCall where
  conn : Conn
  buf : List UInt8
  point : WritePoint
  uses : List (PcbPtr × Bool)

/-- A step of the call, where `err` is what `tcp_write` returns, or the loss of the connection. -/
inductive WriteEvent where
  | advance (err : Err)
  | error (p : PcbPtr)
deriving DecidableEq

def Conn.lose (c : Conn) (p : PcbPtr) : Conn :=
  match c.self.cs with
  | .own => { c.doErr with net := c.net.free p }
  | .slot i =>
    let r := EthernetServer.doErr c.clients c.net (.slot i)
    { c with clients := r.1, net := r.2.free p }

namespace WriteCall

def start (c : Conn) (buf : List UInt8) : WriteCall := ⟨c, buf, .entry, []⟩

def live (x : WriteCall) (p : PcbPtr) : Bool := (x.conn.net.pcbs p).isSome

def call (x : WriteCall) (p : PcbPtr) (n : Net) (point : WritePoint) : WriteCall :=
  { x with conn := { x.conn with net := n }, point := point, uses := x.uses ++ [(p, x.live p)] }

def tcpWrite (x : WriteCall) (p : PcbPtr) (i : ℕ) (err : Err) (point : WritePoint) : WriteCall :=
  x.call p (x.conn.net.tcpWrite p (Conn.piece x.buf i) err) point

def tcpOutput (x : WriteCall) (p : PcbPtr) (point : WritePoint) : WriteCall :=
  x.call p (x.conn.net.tcpOutput p) point

def advance (x : WriteCall) (err : Err) : WriteCall :=
  match x.point with
  | .entry => { x with point := if x.conn.stale then .returned 0 else .load }
  | .load => { x with point := x.conn.cs.cpcb.elim (.returned 0) fun cpcb => .loop cpcb 0 false }
  | .loop cpcb i stuffed =>
    if i < x.buf.length then
      if err ≠ .mem then x.tcpWrite cpcb i err (.loop cpcb (i + Conn.inc x.buf i) false)
      else if !stuffed then x.tcpWrite cpcb i err (.output cpcb i)
      else x.tcpWrite cpcb i err (.delay cpcb i)
    else if !stuffed then x.tcpOutput cpcb (.returned x.buf.length)
    else { x with point := .returned x.buf.length }
  | .output cpcb i => x.tcpOutput cpcb (.loop cpcb i true)
  | .delay cpcb i => { x with point := .loop cpcb i true }
  | .returned _ => x

def step (x : WriteCall) : WriteEvent → WriteCall
  | .advance err => x.advance err
  | .error p => { x with conn := x.conn.lose p }

/-- lwIP reports an error for the connection, whose control block it has not freed yet. -/
def Enabled (x : WriteCall) : WriteEvent → Prop
  | .advance _ => True
  | .error p => x.conn.cs.cpcb = some p ∧ x.live p = true

instance (x : WriteCall) : (e : WriteEvent) → Decidable (x.Enabled e)
  | .advance _ => inferInstanceAs (Decidable True)
  | .error _ => inferInstanceAs (Decidable (_ ∧ _))

/-- Losing the connection now leaves the call with a freed control block: it has made its copy, or the
callback of a client that owns its state does not clear `cpcb`. -/
def Exposed (x : WriteCall) : Prop :=
  x.point.copy ≠ none ∨ x.point.early = true ∧ x.conn.self.cs = .own

instance (x : WriteCall) : Decidable x.Exposed := inferInstanceAs (Decidable (_ ∨ _))

end WriteCall

def writeMachine : Machine WriteCall WriteEvent := ⟨WriteCall.Enabled, WriteCall.step⟩

instance (x : WriteCall) (e : WriteEvent) : Decidable (writeMachine.enabled x e) :=
  inferInstanceAs (Decidable (x.Enabled e))

namespace Conn

variable {c : Conn} {p : PcbPtr}

theorem lose_pcbs (c : Conn) (p q : PcbPtr) :
    ((c.lose p).net.pcbs q).isSome = if q = p then false else (c.net.pcbs q).isSome := by
  have hfree : (c.lose p).net.pcbs = Function.update c.net.pcbs p none := by
    unfold lose
    split
    · rfl
    · simp only [EthernetServer.doErr]
      split_ifs <;> rfl
  rw [hfree, Function.update_apply]
  split_ifs <;> rfl

theorem lose_ptr (c : Conn) (p : PcbPtr) : (c.lose p).self.cs = c.self.cs := by
  cases h : c.self.cs with
  | own =>
    simp only [lose, h, doErr, setConnected]
    split_ifs <;> rfl
  | slot i => simp only [lose, h]

theorem lose_own (h : c.self.cs = .own) : (c.lose p).cs.cpcb = c.cs.cpcb := by
  have hptr := c.lose_ptr p
  rw [h] at hptr
  simp only [cs, hptr, h]
  simp only [lose, h, doErr, setConnected]
  split_ifs <;> rfl

theorem lose_slot (h : c.self.cs ≠ .own) : (c.lose p).cs.cpcb = none := by
  have hptr := c.lose_ptr p
  cases hs : c.self.cs with
  | own => exact absurd hs h
  | slot i =>
    rw [hs] at hptr
    simp only [cs, hptr]
    simp [lose, hs, EthernetServer.doErr]

end Conn

namespace WriteCall

variable {x : WriteCall} {p : PcbPtr}

theorem live_tcpWrite (n : Net) (q : PcbPtr) (chunk : List UInt8) (err : Err) (p : PcbPtr) :
    ((n.tcpWrite q chunk err).pcbs p).isSome = (n.pcbs p).isSome := by
  by_cases h : p = q
  · subst h
    simp [Net.tcpWrite, Net.record, Net.modify]
  · simp [Net.tcpWrite, Net.record, Net.modify, h]

theorem run_loop {pcb : PcbPtr} {buf : List UInt8} {s : Bool} {n : Net} (outcomes : List Err) (c : Conn) (i : ℕ)
    (stuffed : Bool) (uses : List (PcbPtr × Bool))
    (h : Conn.writeLoop pcb buf outcomes i stuffed c.net = (some s, n)) :
    ∃ (errs : List Err) (j : ℕ) (uses' : List (PcbPtr × Bool)), ¬ j < buf.length ∧
      writeMachine.run ⟨c, buf, .loop pcb i stuffed, uses⟩ (errs.map .advance) =
        ⟨{ c with net := n }, buf, .loop pcb j s, uses'⟩ := by
  induction outcomes generalizing c i stuffed uses with
  | nil =>
    by_cases hi : i < buf.length
    · simp [Conn.writeLoop, hi] at h
    · rw [Conn.writeLoop_done hi, Prod.mk.injEq, Option.some.injEq] at h
      obtain ⟨rfl, rfl⟩ := h
      exact ⟨[], i, uses, hi, rfl⟩
  | cons err outcomes ih =>
    by_cases hi : i < buf.length
    · by_cases herr : err = .mem
      · subst herr
        rw [Conn.writeLoop_full hi] at h
        cases stuffed with
        | false =>
          obtain ⟨errs, j, uses', hj, hrun⟩ := ih { c with net := _ } i true _ h
          refine ⟨.mem :: .ok :: errs, j, uses', hj, ?_⟩
          simp only [List.map_cons, Machine.run_cons]
          rw [← hrun]
          simp only [writeMachine, step, advance, hi, ↓reduceIte, ne_eq, not_true_eq_false, Bool.not_false,
            tcpWrite, tcpOutput, call]
          rfl
        | true =>
          obtain ⟨errs, j, uses', hj, hrun⟩ := ih { c with net := _ } i true _ h
          refine ⟨.mem :: .ok :: errs, j, uses', hj, ?_⟩
          simp only [List.map_cons, Machine.run_cons]
          rw [← hrun]
          simp only [writeMachine, step, advance, hi, ↓reduceIte, ne_eq, not_true_eq_false, Bool.not_true,
            Bool.false_eq_true, tcpWrite, call]
          rfl
      · rw [Conn.writeLoop_accept hi herr] at h
        obtain ⟨errs, j, uses', hj, hrun⟩ := ih { c with net := _ } _ false _ h
        refine ⟨err :: errs, j, uses', hj, ?_⟩
        simp only [List.map_cons, Machine.run_cons]
        rw [← hrun]
        simp only [writeMachine, step, advance, hi, ↓reduceIte, ne_eq, herr, not_false_eq_true, tcpWrite, call]
        rfl
    · rw [Conn.writeLoop_done hi, Prod.mk.injEq, Option.some.injEq] at h
      obtain ⟨rfl, rfl⟩ := h
      exact ⟨[], i, uses, hi, rfl⟩

theorem run_uninterrupted {c : Conn} {buf : List UInt8} {outcomes : List Err} {n : ℕ}
    (h : (c.write buf outcomes).1 = some n) :
    ∃ errs : List Err, (writeMachine.run (start c buf) (errs.map .advance)).point = .returned n ∧
      (writeMachine.run (start c buf) (errs.map .advance)).conn = (c.write buf outcomes).2 := by
  by_cases hs : c.stale = true
  · have hw : c.write buf outcomes = (some 0, c) := by rw [Conn.write, if_pos hs]
    rw [hw] at h ⊢
    obtain rfl := Option.some.inj h
    refine ⟨[.ok], ?_, rfl⟩
    simp [writeMachine, step, advance, start, hs]
  cases hc : c.cs.cpcb with
  | none =>
    have hw : c.write buf outcomes = (some 0, c) := by simp [Conn.write, hc]
    rw [hw] at h ⊢
    obtain rfl := Option.some.inj h
    refine ⟨[.ok, .ok], ?_, ?_⟩
    · simp [writeMachine, step, advance, start, hs, hc]
    · simp [writeMachine, step, advance, start, hs]
  | some pcb =>
    rcases hout : Conn.writeLoop pcb buf outcomes 0 false c.net with ⟨_ | s, m⟩
    · simp [Conn.write, hs, hc, hout] at h
    have hw : c.write buf outcomes = (some buf.length, { c with net := if s then m else m.tcpOutput pcb }) := by
      simp [Conn.write, hs, hc, hout]
    rw [hw] at h ⊢
    obtain rfl := Option.some.inj h
    obtain ⟨errs, j, uses, hj, hrun⟩ := run_loop outcomes c 0 false [] hout
    have hload : writeMachine.run (start c buf) [.advance .ok, .advance .ok] = ⟨c, buf, .loop pcb 0 false, []⟩ := by
      simp [writeMachine, step, advance, start, hs, hc]
    have hall : writeMachine.run (start c buf) ((.ok :: .ok :: (errs ++ [.ok])).map .advance) =
        advance ⟨{ c with net := m }, buf, .loop pcb j s, uses⟩ .ok := by
      have hsplit : (Err.ok :: .ok :: (errs ++ [.ok])).map WriteEvent.advance =
          [.advance .ok, .advance .ok] ++ (errs.map .advance ++ [.advance .ok]) := by simp
      rw [hsplit, Machine.run_append, hload, Machine.run_append, hrun]
      rfl
    refine ⟨.ok :: .ok :: (errs ++ [.ok]), ?_, ?_⟩
    · rw [hall]
      cases s <;> simp [advance, hj, tcpOutput, call]
    · rw [hall]
      cases s <;> simp [advance, hj, tcpOutput, call]

end WriteCall

end LogoCore.Ethernet
