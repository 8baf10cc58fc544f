import LogoCore.CStrings

namespace LogoCore.Streams

open CStrings

/-- A byte on its way to a stream: `wait` polls still find nothing. -/
structure Arrival where
  wait : ℕ
  byte : UInt8

inductive LookaheadMode
  | skipAll
  | skipNone
  | skipWhitespace
  deriving DecidableEq

def noIgnoreChar : UInt8 := 1

-- none is the -1 of the source
def peek : List Arrival → Option UInt8
  | ⟨0, b⟩ :: _ => some b
  | _ => none

def read : List Arrival → Option UInt8 × List Arrival
  | ⟨0, b⟩ :: s => (some b, s)
  | s => (none, s)

def elapse : List Arrival → List Arrival
  | ⟨w + 1, b⟩ :: s => ⟨w, b⟩ :: s
  | s => s

/-- Polls the stream once, and `patience` times more before the timeout. -/
def timedPeek : ℕ → List Arrival → Option UInt8 × List Arrival
  | patience, s =>
    match peek s, patience with
    | some c, _ => (some c, s)
    | none, 0 => (none, elapse s)
    | none, patience + 1 => timedPeek patience (elapse s)

def timedRead : ℕ → List Arrival → Option UInt8 × List Arrival
  | patience, s =>
    match read s, patience with
    | (some c, s), _ => (some c, s)
    | (none, s), 0 => (none, elapse s)
    | (none, s), patience + 1 => timedRead patience (elapse s)

def isSkipped (lookahead : LookaheadMode) (c : UInt8) : Bool :=
  match lookahead with
  | .skipNone => false
  | .skipWhitespace => c == 32 || c == 9 || c == 13 || c == 10
  | .skipAll => true

-- every turn of the two loops but the last discards a byte; none: the turns did not suffice
def peekNextDigit (patience : ℕ) (lookahead : LookaheadMode) (detectDecimal : Bool) :
    ℕ → List Arrival → Option (Option UInt8 × List Arrival)
  | 0, _ => none
  | turns + 1, s =>
    match timedPeek patience s with
    | (none, s) => some (none, s)
    | (some c, s) =>
      if c = 45 ∨ isDigit c ∨ (detectDecimal ∧ c = 46) then some (some c, s)
      else if isSkipped lookahead c then peekNextDigit patience lookahead detectDecimal turns (read s).2
      else some (none, s)

def absorb (ignore : UInt8) (acc : Bool × Int32) (c : UInt8) : Bool × Int32 :=
  if c = ignore then acc
  else if c = 45 then (true, acc.2)
  else if isDigit c then (acc.1, acc.2 * 10 + c.toUInt32.toInt32 - 48)
  else acc

def parseDigits (patience : ℕ) (ignore : UInt8) :
    ℕ → UInt8 → Bool × Int32 → List Arrival → Option ((Bool × Int32) × List Arrival)
  | 0, _, _, _ => none
  | turns + 1, c, acc, s =>
    match timedPeek patience (read s).2 with
    | (some c', s) =>
      if isDigit c' ∨ c' = ignore then parseDigits patience ignore turns c' (absorb ignore acc c) s
      else some (absorb ignore acc c, s)
    | (none, s) => some (absorb ignore acc c, s)

def applySign (acc : Bool × Int32) : Int32 := if acc.1 then -acc.2 else acc.2

/-- parseInt() and what is left of the stream. -/
def parseInt (patience : ℕ) (lookahead : LookaheadMode) (ignore : UInt8) (s : List Arrival) :
    Option (Int32 × List Arrival) :=
  match peekNextDigit patience lookahead false (s.length + 1) s with
  | none => none
  | some (none, s) => some (0, s)
  | some (some c, s) =>
    (parseDigits patience ignore (s.length + 1) c (false, 0) s).map fun r => (applySign r.1, r.2)

theorem timedPeek_ready {patience : ℕ} {a : Arrival} (h : a.wait ≤ patience) (s : List Arrival) :
    timedPeek patience (a :: s) = (some a.byte, ⟨0, a.byte⟩ :: s) := by
  induction patience generalizing a with
  | zero =>
    obtain ⟨wait, b⟩ := a
    obtain rfl : wait = 0 := Nat.le_zero.mp h
    rfl
  | succ patience ih =>
    obtain ⟨wait, b⟩ := a
    cases wait with
    | zero => rfl
    | succ wait => exact ih (a := ⟨wait, b⟩) (Nat.le_of_succ_le_succ h)

theorem timedRead_ready {patience : ℕ} {a : Arrival} (h : a.wait ≤ patience) (s : List Arrival) :
    timedRead patience (a :: s) = (some a.byte, s) := by
  induction patience generalizing a with
  | zero =>
    obtain ⟨wait, b⟩ := a
    obtain rfl : wait = 0 := Nat.le_zero.mp h
    rfl
  | succ patience ih =>
    obtain ⟨wait, b⟩ := a
    cases wait with
    | zero => rfl
    | succ wait => exact ih (a := ⟨wait, b⟩) (Nat.le_of_succ_le_succ h)

theorem elapse_bytes (s : List Arrival) : (elapse s).map Arrival.byte = s.map Arrival.byte := by
  unfold elapse
  split <;> rfl

theorem peek_eq_head {s : List Arrival} {c : UInt8} (h : peek s = some c) : (s.map Arrival.byte).head? = some c := by
  unfold peek at h
  split at h
  · exact h
  · cases h

theorem timedPeek_bytes (patience : ℕ) (s : List Arrival) :
    (timedPeek patience s).2.map Arrival.byte = s.map Arrival.byte ∧
      ∀ c, (timedPeek patience s).1 = some c → (s.map Arrival.byte).head? = some c := by
  induction patience generalizing s with
  | zero =>
    unfold timedPeek
    split
    · rename_i c hpeek
      exact ⟨rfl, fun c' h => peek_eq_head (hpeek.trans h)⟩
    · exact ⟨elapse_bytes s, fun c h => nomatch h⟩
    · contradiction
  | succ patience ih =>
    unfold timedPeek
    split
    · rename_i c hpeek
      exact ⟨rfl, fun c' h => peek_eq_head (hpeek.trans h)⟩
    · contradiction
    · rename_i hpatience
      cases hpatience
      have hbytes := ih (elapse s)
      rwa [elapse_bytes] at hbytes

def TimesOut (patience : ℕ) (s : List Arrival) : Prop := ∀ a ∈ s.head?, patience < a.wait

section Late

variable {patience : ℕ} {s : List Arrival}

theorem TimesOut.nil : TimesOut patience [] := nofun

theorem TimesOut.elapse (h : TimesOut (patience + 1) s) : TimesOut patience (elapse s) := by
  unfold Streams.elapse
  split
  · rintro a ha
    obtain rfl := Option.some.inj ha
    exact Nat.lt_of_succ_lt_succ (h _ rfl)
  · exact fun a ha => (Nat.lt_succ_self _).trans (h a ha)

theorem TimesOut.peek (h : TimesOut patience s) : peek s = none := by
  unfold Streams.peek
  split
  · exact absurd (h _ rfl) (Nat.not_lt_zero _)
  · rfl

theorem TimesOut.read (h : TimesOut patience s) : read s = (none, s) := by
  unfold Streams.read
  split
  · exact absurd (h _ rfl) (Nat.not_lt_zero _)
  · rfl

theorem TimesOut.timedPeek (h : TimesOut patience s) :
    ∃ s', timedPeek patience s = (none, s') ∧ s'.map Arrival.byte = s.map Arrival.byte := by
  induction patience generalizing s with
  | zero =>
    unfold Streams.timedPeek
    simp only [h.peek]
    exact ⟨_, rfl, elapse_bytes s⟩
  | succ patience ih =>
    unfold Streams.timedPeek
    simp only [h.peek]
    rw [← elapse_bytes s]
    exact ih h.elapse

theorem TimesOut.timedRead (h : TimesOut patience s) :
    ∃ s', timedRead patience s = (none, s') ∧ s'.map Arrival.byte = s.map Arrival.byte := by
  induction patience generalizing s with
  | zero =>
    unfold Streams.timedRead
    simp only [h.read]
    exact ⟨_, rfl, elapse_bytes s⟩
  | succ patience ih =>
    unfold Streams.timedRead
    simp only [h.read]
    rw [← elapse_bytes s]
    exact ih h.elapse

end Late

section Feeding

variable {patience : ℕ} {as : List Arrival}

theorem peekNextDigit_skips {lookahead : LookaheadMode} (hready : ∀ a ∈ as, a.wait ≤ patience)
    (hskip : ∀ a ∈ as, isSkipped lookahead a.byte ∧ ¬ isDigit a.byte ∧ a.byte ≠ 45) (turns : ℕ) (s : List Arrival) :
    peekNextDigit patience lookahead false (turns + as.length) (as ++ s) =
      peekNextDigit patience lookahead false turns s := by
  induction as with
  | nil => rfl
  | cons a as ih =>
    obtain ⟨hskipped, hdigit, hminus⟩ := hskip a List.mem_cons_self
    have hgo : ¬ (a.byte = 45 ∨ isDigit a.byte ∨ (false ∧ a.byte = 46)) := by simp [hdigit, hminus]
    rw [List.cons_append, List.length_cons, ← Nat.add_assoc, peekNextDigit,
      timedPeek_ready (hready a List.mem_cons_self)]
    simp only
    rw [if_neg hgo, if_pos hskipped]
    exact ih (fun b hb => hready b (List.mem_cons_of_mem a hb)) (fun b hb => hskip b (List.mem_cons_of_mem a hb))

theorem parseDigits_takes {ignore : UInt8} (hready : ∀ a ∈ as, a.wait ≤ patience)
    (hrun : ∀ a ∈ as, isDigit a.byte ∨ a.byte = ignore) {rest : List Arrival}
    (hstop : ∀ c, (timedPeek patience rest).1 = some c → ¬ isDigit c ∧ c ≠ ignore)
    (turns : ℕ) (c : UInt8) (acc : Bool × Int32) :
    ∃ s, s.map Arrival.byte = rest.map Arrival.byte ∧
      parseDigits patience ignore (turns + as.length + 1) c acc (⟨0, c⟩ :: (as ++ rest)) =
        some ((c :: as.map Arrival.byte).foldl (absorb ignore) acc, s) := by
  induction as generalizing c acc with
  | nil =>
    refine ⟨(timedPeek patience rest).2, (timedPeek_bytes patience rest).1, ?_⟩
    simp only [parseDigits, read, List.nil_append, List.map_nil, List.foldl_cons, List.foldl_nil]
    split
    · rename_i c' s' heq
      obtain ⟨hnot, hne⟩ := hstop c' (by rw [heq])
      rw [if_neg (by simp [hnot, hne]), heq]
    · rename_i heq
      rw [heq]
  | cons a as ih =>
    obtain ⟨s, hs, hparse⟩ := ih (fun b hb => hready b (List.mem_cons_of_mem a hb))
      (fun b hb => hrun b (List.mem_cons_of_mem a hb)) a.byte (absorb ignore acc c)
    refine ⟨s, hs, ?_⟩
    rw [parseDigits]
    simp only [read, List.cons_append, timedPeek_ready (hready a List.mem_cons_self)]
    rw [if_pos (hrun a List.mem_cons_self), List.length_cons, ← Nat.add_assoc, hparse]
    rfl

theorem parseInt_takes {lookahead : LookaheadMode} {ignore : UInt8} {a : Arrival} {skipped rest : List Arrival}
    (hready : ∀ b ∈ skipped ++ a :: as, b.wait ≤ patience)
    (hskip : ∀ b ∈ skipped, isSkipped lookahead b.byte ∧ ¬ isDigit b.byte ∧ b.byte ≠ 45)
    (hfirst : a.byte = 45 ∨ isDigit a.byte) (hrun : ∀ b ∈ as, isDigit b.byte ∨ b.byte = ignore)
    (hstop : ∀ c, (timedPeek patience rest).1 = some c → ¬ isDigit c ∧ c ≠ ignore) :
    ∃ s, s.map Arrival.byte = rest.map Arrival.byte ∧
      parseInt patience lookahead ignore (skipped ++ a :: (as ++ rest)) =
        some (applySign (((a :: as).map Arrival.byte).foldl (absorb ignore) (false, 0)), s) := by
  obtain ⟨hskipped, ha, has⟩ : (∀ b ∈ skipped, b.wait ≤ patience) ∧ a.wait ≤ patience ∧
      ∀ b ∈ as, b.wait ≤ patience := by
    rwa [List.forall_mem_append, List.forall_mem_cons] at hready
  have hpeek : peekNextDigit patience lookahead false ((skipped ++ a :: (as ++ rest)).length + 1)
      (skipped ++ a :: (as ++ rest)) = some (some a.byte, ⟨0, a.byte⟩ :: (as ++ rest)) := by
    have hturns : (skipped ++ a :: (as ++ rest)).length + 1 = ((as ++ rest).length + 1) + 1 + skipped.length := by
      rw [List.length_append, List.length_cons]
      omega
    rw [hturns, peekNextDigit_skips hskipped hskip, peekNextDigit, timedPeek_ready ha]
    exact if_pos (hfirst.imp_right Or.inl)
  obtain ⟨s, hs, hparse⟩ := parseDigits_takes has hrun hstop (rest.length + 1) a.byte (false, 0)
  refine ⟨s, hs, ?_⟩
  have hturns : (⟨0, a.byte⟩ :: (as ++ rest) : List Arrival).length + 1 = rest.length + 1 + as.length + 1 := by
    rw [List.length_cons, List.length_append]
    omega
  rw [parseInt, hpeek]
  simp only
  rw [hturns, hparse]
  rfl

theorem peekNextDigit_stops {lookahead : LookaheadMode} {s : List Arrival}
    (hstop : ∀ c, (timedPeek patience s).1 = some c → ¬ isSkipped lookahead c ∧ ¬ isDigit c ∧ c ≠ 45) (turns : ℕ) :
    peekNextDigit patience lookahead false (turns + 1) s = some (none, (timedPeek patience s).2) := by
  rw [peekNextDigit]
  split
  · rename_i hpeek
    rw [hpeek]
  · rename_i c s' hpeek
    obtain ⟨hskipped, hdigit, hminus⟩ := hstop c (by rw [hpeek])
    rw [if_neg (by simp [hdigit, hminus]), if_neg hskipped, hpeek]

theorem parseInt_gives_up {lookahead : LookaheadMode} (ignore : UInt8) {skipped rest : List Arrival}
    (hready : ∀ b ∈ skipped, b.wait ≤ patience)
    (hskip : ∀ b ∈ skipped, isSkipped lookahead b.byte ∧ ¬ isDigit b.byte ∧ b.byte ≠ 45)
    (hstop : ∀ c, (timedPeek patience rest).1 = some c → ¬ isSkipped lookahead c ∧ ¬ isDigit c ∧ c ≠ 45) :
    ∃ s, s.map Arrival.byte = rest.map Arrival.byte ∧
      parseInt patience lookahead ignore (skipped ++ rest) = some (0, s) := by
  have hturns : (skipped ++ rest).length + 1 = rest.length + 1 + skipped.length := by
    rw [List.length_append]
    omega
  refine ⟨(timedPeek patience rest).2, (timedPeek_bytes patience rest).1, ?_⟩
  rw [parseInt, hturns, peekNextDigit_skips hready hskip, peekNextDigit_stops hstop]

end Feeding

end LogoCore.Streams
