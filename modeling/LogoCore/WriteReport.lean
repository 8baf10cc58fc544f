import LogoCore.ConnectionRuns

namespace LogoCore.Ethernet

def Call.written : Call → Option (List UInt8)
  | .tcpWrite _ chunk => some chunk
  | _ => none

/-- A piece given to `tcp_write` and what it returned. -/
abbrev Attempt := List UInt8 × Err

namespace Attempt

def joined (p : Err → Bool) (as : List Attempt) : List UInt8 := ((as.filter fun a => p a.2).map Prod.fst).flatten

theorem joined_cons (p : Err → Bool) (a : Attempt) (as : List Attempt) :
    joined p (a :: as) = (if p a.2 then a.1 else []) ++ joined p as := by
  unfold joined
  by_cases h : p a.2 = true
  · simp [h]
  · simp [h]

def accepted (as : List Attempt) : List UInt8 := joined (· == .ok) as

/-- The pieces the loop of `write` counts. -/
def counted (as : List Attempt) : List UInt8 := joined (· != .mem) as

theorem accepted_le_counted (as : List Attempt) : (accepted as).length ≤ (counted as).length := by
  unfold accepted counted
  induction as with
  | nil => exact Nat.le_refl _
  | cons a as ih =>
    rw [joined_cons, joined_cons, List.length_append, List.length_append]
    cases ha : a.2 <;> simp <;> omega

theorem accepted_eq_counted {as : List Attempt} (h : ∀ a ∈ as, a.2 = .ok ∨ a.2 = .mem) :
    accepted as = counted as := by
  unfold accepted counted
  induction as with
  | nil => rfl
  | cons a as ih =>
    rw [joined_cons, joined_cons, ih fun b hb => h b (by simp [hb])]
    obtain ha | ha := h a (by simp) <;> simp [ha]

theorem of_length_eq {as : List Attempt} (hne : ∀ a ∈ as, a.1 ≠ [])
    (h : (accepted as).length = (counted as).length) : ∀ a ∈ as, a.2 = .ok ∨ a.2 = .mem := by
  induction as with
  | nil => simp
  | cons a as ih =>
    have hle := accepted_le_counted as
    have hpos := List.length_pos_iff.mpr (hne a (by simp))
    unfold accepted counted at h hle ih
    rw [joined_cons, joined_cons, List.length_append, List.length_append] at h
    have ha : a.2 = .ok ∨ a.2 = .mem := by
      by_contra hbad
      obtain ⟨hok, hmem⟩ := not_or.mp hbad
      simp [hok, hmem] at h
      omega
    have hrest := ih (fun b hb => hne b (by simp [hb])) (by obtain ha | ha := ha <;> simpa [ha] using h)
    intro b hb
    obtain rfl | hb := List.mem_cons.mp hb
    · exact ha
    · exact hrest b hb

end Attempt

namespace Conn

variable {pcb : PcbPtr} {buf : List UInt8} {i : ℕ} {n : Net} {err : Err} {outcomes : List Err}

def inc (buf : List UInt8) (i : ℕ) : ℕ := if buf.length - i < 1024 then buf.length - i else 1024

def piece (buf : List UInt8) (i : ℕ) : List UInt8 := (buf.drop i).take (inc buf i)

theorem piece_append (buf : List UInt8) (i : ℕ) : piece buf i ++ buf.drop (i + inc buf i) = buf.drop i := by
  rw [piece, ← List.drop_drop, List.take_append_drop]

theorem inc_pos (h : i < buf.length) : 0 < inc buf i := by
  unfold inc
  split_ifs <;> omega

theorem piece_ne_nil (h : i < buf.length) : piece buf i ≠ [] := by
  have hpos := inc_pos h
  rw [← List.length_pos_iff, piece, List.length_take, List.length_drop]
  omega

theorem writeLoop_accept (h : i < buf.length) (herr : err ≠ .mem) (stuffed : Bool) :
    writeLoop pcb buf (err :: outcomes) i stuffed n =
      writeLoop pcb buf outcomes (i + inc buf i) false (n.tcpWrite pcb (piece buf i) err) := by
  rw [writeLoop, if_pos h]
  exact if_pos herr

theorem writeLoop_full (h : i < buf.length) (stuffed : Bool) :
    writeLoop pcb buf (.mem :: outcomes) i stuffed n =
      writeLoop pcb buf outcomes i true (if stuffed then n.tcpWrite pcb (piece buf i) .mem
        else (n.tcpWrite pcb (piece buf i) .mem).tcpOutput pcb) := by
  rw [writeLoop, if_pos h]
  cases stuffed <;> rfl

theorem writeLoop_done (h : ¬ i < buf.length) (outcomes : List Err) (stuffed : Bool) :
    writeLoop pcb buf outcomes i stuffed n = (some stuffed, n) := by
  cases outcomes <;> rw [writeLoop, if_neg h]

/-- What the loop of `write` does from position `i` on: the calls it makes, and its result. -/
structure LoopRun (buf : List UInt8) (outcomes : List Err) (i : ℕ) (stuffed : Bool) (n : Net)
    (out : Option Bool × Net) (calls : List Call) : Prop where
  log : out.2.log = n.log ++ calls
  nonempty : ∀ chunk ∈ calls.filterMap Call.written, chunk ≠ []
  flag : ∀ s, out.1 = some s → s = if i < buf.length then false else stuffed
  returns : out.1.isSome ↔ (buf.length - i + 1023) / 1024 ≤ (outcomes.filter (· != .mem)).length
  counted : out.1.isSome → Attempt.counted ((calls.filterMap Call.written).zip outcomes) = buf.drop i

theorem loopRun_accept (h : i < buf.length) (herr : err ≠ .mem) {stuffed : Bool} {out : Option Bool × Net}
    {calls : List Call}
    (hrun : LoopRun buf outcomes (i + inc buf i) false (n.tcpWrite pcb (piece buf i) err) out calls) :
    LoopRun buf (err :: outcomes) i stuffed n out (.tcpWrite pcb (piece buf i) :: calls) := by
  have hmem : (err != .mem) = true := by simpa using herr
  have hfilter : (err :: outcomes).filter (· != .mem) = err :: outcomes.filter (· != .mem) := by simp [herr]
  have hpos := inc_pos h
  have hcalls : (Call.tcpWrite pcb (piece buf i) :: calls).filterMap Call.written =
      piece buf i :: calls.filterMap Call.written := rfl
  refine ⟨?_, ?_, fun s hs => ?_, ?_, fun hs => ?_⟩
  · rw [hrun.log]
    simp [Net.tcpWrite, Net.record, Net.modify]
  · rw [hcalls]
    simpa [piece_ne_nil h] using hrun.nonempty
  · rw [hrun.flag s hs, if_pos h]
    exact ite_self false
  · rw [hrun.returns, hfilter, List.length_cons]
    unfold inc
    split_ifs <;> omega
  · have hrest := hrun.counted hs
    rw [hcalls, List.zip_cons_cons]
    unfold Attempt.counted at hrest ⊢
    rw [Attempt.joined_cons, hrest, if_pos hmem, piece_append]

theorem loopRun_full (h : i < buf.length) {stuffed : Bool} {out : Option Bool × Net} {calls : List Call}
    (hrun : LoopRun buf outcomes i true (if stuffed then n.tcpWrite pcb (piece buf i) .mem
        else (n.tcpWrite pcb (piece buf i) .mem).tcpOutput pcb) out calls) :
    LoopRun buf (.mem :: outcomes) i stuffed n out
      (.tcpWrite pcb (piece buf i) :: (if stuffed then [] else [.tcpOutput pcb]) ++ calls) := by
  have hcalls : (Call.tcpWrite pcb (piece buf i) :: (if stuffed then [] else [.tcpOutput pcb]) ++ calls).filterMap
      Call.written = piece buf i :: calls.filterMap Call.written := by
    cases stuffed <;> rfl
  refine ⟨?_, ?_, fun s hs => ?_, ?_, fun hs => ?_⟩
  · rw [hrun.log]
    cases stuffed <;> simp [Net.tcpWrite, Net.tcpOutput, Net.record, Net.modify]
  · rw [hcalls]
    simpa [piece_ne_nil h] using hrun.nonempty
  · rw [hrun.flag s hs, if_pos h, if_pos h]
  · rw [hrun.returns, List.filter_cons_of_neg (by simp)]
  · have hrest := hrun.counted hs
    rw [hcalls, List.zip_cons_cons]
    unfold Attempt.counted at hrest ⊢
    rw [Attempt.joined_cons, hrest]
    rfl

theorem loopRun_done (h : ¬ i < buf.length) (outcomes : List Err) (stuffed : Bool) (n : Net) :
    LoopRun buf outcomes i stuffed n (some stuffed, n) [] := by
  refine ⟨by simp, by simp, fun s hs => ?_, ?_, fun _ => ?_⟩
  · rw [if_neg h]
    exact (Option.some.inj hs).symm
  · simp only [Option.isSome_some, true_iff]
    omega
  · exact (List.drop_eq_nil_of_le (by omega)).symm

theorem exists_loopRun (pcb : PcbPtr) (buf : List UInt8) (outcomes : List Err) (i : ℕ) (stuffed : Bool) (n : Net) :
    ∃ calls, LoopRun buf outcomes i stuffed n (writeLoop pcb buf outcomes i stuffed n) calls := by
  induction outcomes generalizing i stuffed n with
  | nil =>
    refine ⟨[], ?_⟩
    by_cases h : i < buf.length
    · rw [writeLoop, if_pos h]
      refine ⟨by simp, by simp, by simp, ?_, by simp⟩
      simp only [Option.isSome_none, Bool.false_eq_true, List.filter_nil, List.length_nil, false_iff]
      omega
    · rw [writeLoop_done h]
      exact loopRun_done h [] stuffed n
  | cons err outcomes ih =>
    by_cases h : i < buf.length
    · by_cases herr : err = .mem
      · subst herr
        rw [writeLoop_full h]
        obtain ⟨calls, hrun⟩ := ih i true _
        exact ⟨_, loopRun_full h hrun⟩
      · rw [writeLoop_accept h herr]
        obtain ⟨calls, hrun⟩ := ih (i + inc buf i) false _
        exact ⟨_, loopRun_accept h herr hrun⟩
    · rw [writeLoop_done h]
      exact ⟨[], loopRun_done h _ stuffed n⟩

section Reports

variable (c : Conn) (buf : List UInt8) (outcomes : List Err)

def writeCalls : List Call := (c.write buf outcomes).2.net.log.drop c.net.log.length

def attempts : List Attempt := ((c.writeCalls buf outcomes).filterMap Call.written).zip outcomes

/-- The pieces lwIP accepted are the start of the buffer, their length is the result, and the last call
of a `write` that queued something is `tcp_output`. -/
structure Reports (n : ℕ) : Prop where
  start : Attempt.accepted (c.attempts buf outcomes) <+: buf
  count : n = (Attempt.accepted (c.attempts buf outcomes)).length
  pushed : Attempt.accepted (c.attempts buf outcomes) ≠ [] →
    ∃ pcb, c.cs.cpcb = some pcb ∧ (c.writeCalls buf outcomes).getLast? = some (.tcpOutput pcb)

/-- The outcomes hold a result other than ERR_MEM for each piece of the buffer. -/
def Suffices : Prop := (buf.length + 1023) / 1024 ≤ (outcomes.filter (· != .mem)).length

end Reports

variable {c : Conn}

theorem write_unconnected (h : c.stale = true ∨ c.cs.cpcb = none) (buf : List UInt8) (outcomes : List Err) :
    c.write buf outcomes = (some 0, c) ∧ c.writeCalls buf outcomes = [] := by
  have hw : c.write buf outcomes = (some 0, c) := by
    unfold write
    obtain h | h := h
    · rw [if_pos h]
    · rw [h]
      exact ite_self _
  rw [writeCalls, hw]
  exact ⟨rfl, List.drop_length⟩

/-- On a connection, a call that returns has counted the whole buffer and made `tcp_output` its last call. -/
structure WriteRun (c : Conn) (pcb : PcbPtr) (buf : List UInt8) (outcomes : List Err) : Prop where
  returns : (c.write buf outcomes).1.isSome ↔ Suffices buf outcomes
  result : ∀ n, (c.write buf outcomes).1 = some n → n = buf.length
  nonempty : ∀ a ∈ c.attempts buf outcomes, a.1 ≠ []
  counted : (c.write buf outcomes).1.isSome → Attempt.counted (c.attempts buf outcomes) = buf
  last : (c.write buf outcomes).1.isSome → (c.writeCalls buf outcomes).getLast? = some (.tcpOutput pcb)

theorem writeRun (hs : c.stale = false) (hc : c.cs.cpcb = some pcb) (buf : List UInt8) (outcomes : List Err) :
    WriteRun c pcb buf outcomes := by
  obtain ⟨calls, hrun⟩ := exists_loopRun pcb buf outcomes 0 false c.net
  have hlog := hrun.log
  have hret := hrun.returns
  have hcount := hrun.counted
  rw [Nat.sub_zero] at hret
  have hpieces : ∀ {cs : List Call}, cs.filterMap Call.written = calls.filterMap Call.written →
      c.writeCalls buf outcomes = cs →
        c.attempts buf outcomes = (calls.filterMap Call.written).zip outcomes := by
    intro cs hcs heq
    rw [attempts, heq, hcs]
  have hne : ∀ a ∈ (calls.filterMap Call.written).zip outcomes, a.1 ≠ [] :=
    fun a ha => hrun.nonempty a.1 (List.of_mem_zip ha).1
  rcases hout : writeLoop pcb buf outcomes 0 false c.net with ⟨_ | s, n⟩
  · have hw : c.write buf outcomes = (none, { c with net := n }) := by simp [write, hs, hc, hout]
    rw [hout] at hlog hret
    have hcalls : c.writeCalls buf outcomes = calls := by
      rw [writeCalls, hw]
      exact (congrArg (List.drop c.net.log.length) hlog).trans List.drop_left
    refine ⟨?_, ?_, ?_, ?_, ?_⟩
    · rw [hw]
      exact hret
    · simp [hw]
    · rwa [hpieces rfl hcalls]
    · simp [hw]
    · simp [hw]
  · have hflag : s = false := (hrun.flag s (by rw [hout])).trans (ite_self false)
    subst hflag
    have hw : c.write buf outcomes = (some buf.length, { c with net := n.tcpOutput pcb }) := by
      simp [write, hs, hc, hout]
    rw [hout] at hlog hret hcount
    have hcalls : c.writeCalls buf outcomes = calls ++ [.tcpOutput pcb] := by
      have : (n.tcpOutput pcb).log = c.net.log ++ (calls ++ [.tcpOutput pcb]) := by
        rw [← List.append_assoc, ← hlog]
        rfl
      rw [writeCalls, hw]
      exact (congrArg (List.drop c.net.log.length) this).trans List.drop_left
    have hatt := hpieces (by simp [Call.written]) hcalls
    refine ⟨?_, ?_, ?_, ?_, ?_⟩
    · rw [hw]
      exact hret
    · intro m hm
      rw [hw] at hm
      exact (Option.some.inj hm).symm
    · rwa [hatt]
    · intro _
      rw [hatt]
      exact hcount rfl
    · intro _
      rw [hcalls, List.getLast?_append_of_ne_nil _ (by simp)]
      rfl

theorem WriteRun.reports_iff (h : WriteRun c pcb buf outcomes) (hc : c.cs.cpcb = some pcb) {n : ℕ}
    (hn : (c.write buf outcomes).1 = some n) :
    c.Reports buf outcomes n ↔ ∀ a ∈ c.attempts buf outcomes, a.2 = .ok ∨ a.2 = .mem := by
  have hret : (c.write buf outcomes).1.isSome := by rw [hn]; rfl
  have hcount := h.counted hret
  obtain rfl := h.result n hn
  constructor
  · intro hr
    apply Attempt.of_length_eq h.nonempty
    rw [← hr.count, hcount]
  · intro hok
    have heq := (Attempt.accepted_eq_counted hok).trans hcount
    refine ⟨?_, ?_, fun _ => ⟨pcb, hc, h.last hret⟩⟩
    · exact ⟨[], (List.append_nil _).trans heq⟩
    · rw [heq]

end Conn

/-- A `write` that returns reports what it queued exactly when no `tcp_write` of it fails with another
error than ERR_MEM; it returns once each piece got a result other than ERR_MEM. -/
theorem write_reports_queued_iff (c : Conn) (buf : List UInt8) (outcomes : List Err) :
    ((c.write buf outcomes).1.isSome ↔
      c.stale = true ∨ c.cs.cpcb = none ∨ Conn.Suffices buf outcomes) ∧
    ∀ n, (c.write buf outcomes).1 = some n →
      (c.Reports buf outcomes n ↔ ∀ a ∈ c.attempts buf outcomes, a.2 = .ok ∨ a.2 = .mem) := by
  by_cases hidle : c.stale = true ∨ c.cs.cpcb = none
  · obtain ⟨hw, hcalls⟩ := Conn.write_unconnected hidle buf outcomes
    have hatt : c.attempts buf outcomes = [] := by rw [Conn.attempts, hcalls]; rfl
    refine ⟨?_, fun n hn => ?_⟩
    · rw [hw]
      exact iff_of_true rfl (hidle.imp_right .inl)
    · rw [hw] at hn
      obtain rfl := Option.some.inj hn
      refine iff_of_true ⟨?_, ?_, ?_⟩ ?_
      · rw [hatt]
        exact ⟨buf, rfl⟩
      · rw [hatt]
        rfl
      · rw [hatt]
        exact fun hne => absurd rfl hne
      · simp [hatt]
  · obtain ⟨hs, hc⟩ := not_or.mp hidle
    obtain ⟨pcb, hpcb⟩ := Option.ne_none_iff_exists'.mp hc
    have h := Conn.writeRun (Bool.not_eq_true _ ▸ hs) hpcb buf outcomes
    refine ⟨?_, fun n hn => h.reports_iff hpcb hn⟩
    rw [h.returns]
    simp only [hs, hc, Bool.false_eq_true, false_or]

theorem write_reports_queued_after_mem : Conn.accepted.Reports [1, 2] [.mem, .mem, .ok] 2 := by
  apply ((write_reports_queued_iff Conn.accepted [1, 2] [.mem, .mem, .ok]).2 2 ?_).mpr
  · decide
  · decide

/-- `tcp_write` refuses both bytes because the connection is closing, and `write` returns 2. -/
theorem write_reports_refused :
    (Conn.accepted.write [1, 2] [.conn]).1 = some 2 ∧
      Attempt.accepted (Conn.accepted.attempts [1, 2] [.conn]) = [] ∧ ¬ Conn.accepted.Reports [1, 2] [.conn] 2 := by
  refine ⟨by decide, by decide, fun h => ?_⟩
  exact absurd h.count (by decide)

end LogoCore.Ethernet
