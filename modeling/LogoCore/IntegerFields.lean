import LogoCore.PrintedIntegers
import Mathlib.Data.Set.Insert

namespace LogoCore.Streams

open CStrings

def discardable : LookaheadMode → Set UInt8
  | .skipAll => Set.univ
  | .skipNone => ∅
  | .skipWhitespace => {32, 9, 13, 10}

theorem isSkipped_iff {lookahead : LookaheadMode} {b : UInt8} :
    isSkipped lookahead b = true ↔ b ∈ discardable lookahead := by
  cases lookahead with
  | skipAll => simp [isSkipped, discardable]
  | skipNone => simp [isSkipped, discardable]
  | skipWhitespace => simp [isSkipped, discardable, or_assoc]

/-- How the input splits around the number that parseInt() is to read. -/
structure IntegerField (lookahead : LookaheadMode) (ignore : UInt8) (input skipped sign run rest : List UInt8) :
    Prop where
  split : input = skipped ++ (sign ++ (run ++ rest))
  discards : ∀ b ∈ skipped, b ∈ discardable lookahead ∧ ¬ isDigit b ∧ b ≠ 45
  signs : sign = [] ∨ sign = [45]
  start : sign = [] → ∃ d ∈ run.head?, isDigit d
  runs : ∀ b ∈ run, isDigit b ∨ b = ignore
  stops : ∀ b ∈ rest.head?, ¬ isDigit b ∧ b ≠ ignore

def runValue (run : List UInt8) : ℕ := (run.filter isDigit).foldl (fun v d => v * 10 + (d.toNat - 48)) 0

theorem absorb_run {ignore : UInt8} (hignore : ¬ isDigit ignore) {run : List UInt8}
    (hrun : ∀ b ∈ run, isDigit b ∨ b = ignore) (neg : Bool) :
    run.foldl (absorb ignore) (neg, 0) = (neg, Int32.ofNat (runValue run)) := by
  have hdigits : ∀ d ∈ run.filter isDigit, isDigit d := fun d hd => List.of_mem_filter hd
  refine Eq.trans ?_ (absorb_digits hignore hdigits neg 0)
  rw [List.foldl_filter]
  apply List.foldl_ext
  intro acc b hb
  obtain hdigit | rfl := hrun b hb
  · rw [if_pos hdigit]
  · rw [if_neg hignore, absorb, if_pos rfl]

theorem applySign_ofNat (neg : Bool) (v : ℕ) :
    applySign (neg, Int32.ofNat v) = Int32.ofInt (if neg then -(v : ℤ) else v) := by
  cases neg with
  | false => exact (Int32.ofInt_eq_ofNat).symm
  | true =>
    simp only [applySign, if_true]
    rw [Int32.ofInt_neg, Int32.ofInt_eq_ofNat]

theorem timedPeek_append {patience : ℕ} {input late : List Arrival} (hready : ∀ a ∈ input, a.wait ≤ patience)
    (hlate : TimesOut patience late) {c : UInt8} (hc : (timedPeek patience (input ++ late)).1 = some c) :
    c ∈ (input.map Arrival.byte).head? := by
  cases input with
  | nil =>
    obtain ⟨s, hpeek, -⟩ := hlate.timedPeek
    rw [List.nil_append, hpeek] at hc
    cases hc
  | cons a input =>
    rw [List.cons_append, timedPeek_ready (hready a List.mem_cons_self)] at hc
    exact hc

section Fields

variable {lookahead : LookaheadMode} {ignore : UInt8} {input skipped sign run rest : List UInt8}

theorem IntegerField.body (h : IntegerField lookahead ignore input skipped sign run rest)
    (hignore : ¬ isDigit ignore ∧ ignore ≠ 45) :
    ∃ c cs, sign ++ run = c :: cs ∧ (c = 45 ∨ isDigit c) ∧ (∀ b ∈ cs, isDigit b ∨ b = ignore) ∧
      applySign ((sign ++ run).foldl (absorb ignore) (false, 0)) =
        Int32.ofInt (if sign = [45] then -(runValue run : ℤ) else runValue run) := by
  obtain rfl | rfl := h.signs
  · obtain ⟨d, hd, hdigit⟩ := h.start rfl
    obtain ⟨ds, rfl⟩ := List.head?_eq_some_iff.mp hd
    refine ⟨d, ds, rfl, Or.inr hdigit, fun b hb => h.runs b (List.mem_cons_of_mem d hb), ?_⟩
    rw [List.nil_append, absorb_run hignore.1 h.runs, applySign_ofNat]
    rfl
  · refine ⟨45, run, rfl, Or.inl rfl, h.runs, ?_⟩
    have hminus : absorb ignore (false, 0) 45 = (true, 0) := by
      rw [absorb, if_neg hignore.2.symm, if_pos rfl]
    rw [List.singleton_append, List.foldl_cons, hminus, absorb_run hignore.1 h.runs, applySign_ofNat]
    rfl

theorem exists_integerField (ignore : UInt8) {c : UInt8} (tail : List UInt8)
    (hskipped : ∀ b ∈ skipped, b ∈ discardable lookahead ∧ ¬ isDigit b ∧ b ≠ 45) (hc : c = 45 ∨ isDigit c) :
    ∃ sign run rest, IntegerField lookahead ignore (skipped ++ c :: tail) skipped sign run rest := by
  have hmunch (u : List UInt8) (sign : List UInt8) (hsign : sign = [] ∨ sign = [45])
      (hstart : sign = [] → ∃ d ∈ u.head?, isDigit d) (hsplit : c :: tail = sign ++ u) :
      IntegerField lookahead ignore (skipped ++ c :: tail) skipped sign
        (u.takeWhile fun b => isDigit b || b == ignore) (u.dropWhile fun b => isDigit b || b == ignore) := by
    refine ⟨?_, hskipped, hsign, ?_, ?_, ?_⟩
    · rw [List.takeWhile_append_dropWhile, hsplit]
    · intro hnil
      obtain ⟨d, hd, hdigit⟩ := hstart hnil
      obtain ⟨ds, rfl⟩ := List.head?_eq_some_iff.mp hd
      exact ⟨d, by simp [hdigit], hdigit⟩
    · intro b hb
      simpa using List.mem_takeWhile_imp hb
    · intro b hb
      have hnot := List.head?_dropWhile_not (fun b => isDigit b || b == ignore) u
      rw [Option.mem_def.mp hb] at hnot
      simpa using hnot
  obtain rfl | hdigit := hc
  · exact ⟨[45], _, _, hmunch tail [45] (Or.inr rfl) nofun rfl⟩
  · exact ⟨[], _, _, hmunch (c :: tail) [] (Or.inl rfl) (fun _ => ⟨c, rfl, hdigit⟩) rfl⟩

end Fields

section Parsing

variable {patience : ℕ} {lookahead : LookaheadMode} {ignore : UInt8} {input late : List Arrival}

theorem parseInt_of_field (hready : ∀ a ∈ input, a.wait ≤ patience) (hlate : TimesOut patience late)
    (hignore : ¬ isDigit ignore ∧ ignore ≠ 45) {skipped sign run rest : List UInt8}
    (h : IntegerField lookahead ignore (input.map Arrival.byte) skipped sign run rest) :
    ∃ s, parseInt patience lookahead ignore (input ++ late) =
        some (Int32.ofInt (if sign = [45] then -(runValue run : ℤ) else runValue run), s) ∧
      s.map Arrival.byte = rest ++ late.map Arrival.byte := by
  obtain ⟨c, cs, hbody, hfirst, hcs, hvalue⟩ := h.body hignore
  have hsplit := h.split
  rw [← List.append_assoc sign, hbody, List.cons_append] at hsplit
  obtain ⟨skippedIn, input₁, rfl, hskipped, hinput₁⟩ := List.map_eq_append_iff.mp hsplit
  obtain ⟨a, input₂, rfl, rfl, hinput₂⟩ := List.map_eq_cons_iff.mp hinput₁
  obtain ⟨as, restIn, rfl, rfl, hrest⟩ := List.map_eq_append_iff.mp hinput₂
  have hassoc : skippedIn ++ a :: (as ++ restIn) = skippedIn ++ a :: as ++ restIn := by simp
  rw [hassoc, List.forall_mem_append] at hready
  have hskip : ∀ b ∈ skippedIn, isSkipped lookahead b.byte ∧ ¬ isDigit b.byte ∧ b.byte ≠ 45 := by
    intro b hb
    rw [isSkipped_iff]
    exact h.discards b.byte (hskipped ▸ List.mem_map_of_mem hb)
  have hstop : ∀ c, (timedPeek patience (restIn ++ late)).1 = some c → ¬ isDigit c ∧ c ≠ ignore := by
    intro c hc
    exact h.stops c (hrest ▸ timedPeek_append hready.2 hlate hc)
  obtain ⟨s, hs, hparse⟩ :=
    parseInt_takes hready.1 hskip hfirst (fun b hb => hcs b.byte (List.mem_map_of_mem hb)) hstop
  refine ⟨s, ?_, ?_⟩
  · rw [List.map_cons, ← hbody, hvalue] at hparse
    rw [← hparse]
    simp
  · rw [hs, List.map_append, hrest]

theorem parseInt_without_field (hready : ∀ a ∈ input, a.wait ≤ patience) (hlate : TimesOut patience late)
    (h : ¬ ∃ skipped sign run rest, IntegerField lookahead ignore (input.map Arrival.byte) skipped sign run rest) :
    ∃ s discarded, parseInt patience lookahead ignore (input ++ late) = some (0, s) ∧
      (∀ b ∈ discarded, b ∈ discardable lookahead) ∧
      (input ++ late).map Arrival.byte = discarded ++ s.map Arrival.byte := by
  let skips : Arrival → Bool := fun a => isSkipped lookahead a.byte && !isDigit a.byte && a.byte != 45
  have hsplit : input.takeWhile skips ++ input.dropWhile skips = input := List.takeWhile_append_dropWhile
  have hskip : ∀ b ∈ input.takeWhile skips, isSkipped lookahead b.byte ∧ ¬ isDigit b.byte ∧ b.byte ≠ 45 := by
    intro b hb
    simpa [skips, and_assoc] using List.mem_takeWhile_imp hb
  have hdiscards : ∀ b ∈ (input.takeWhile skips).map Arrival.byte,
      b ∈ discardable lookahead ∧ ¬ isDigit b ∧ b ≠ 45 := by
    rw [List.forall_mem_map]
    intro b hb
    rw [← isSkipped_iff]
    exact hskip b hb
  rw [← hsplit, List.forall_mem_append] at hready
  have hstop : ∀ c, (timedPeek patience (input.dropWhile skips ++ late)).1 = some c →
      ¬ isSkipped lookahead c ∧ ¬ isDigit c ∧ c ≠ 45 := by
    intro c hc
    have hhead := timedPeek_append hready.2 hlate hc
    cases hdrop : input.dropWhile skips with
    | nil =>
      rw [hdrop] at hhead
      cases hhead
    | cons a tail =>
      rw [hdrop] at hhead
      obtain rfl : a.byte = c := Option.some.inj hhead
      have hnot := List.head?_dropWhile_not skips input
      rw [hdrop] at hnot
      have hstart : ¬ (a.byte = 45 ∨ isDigit a.byte) := by
        intro hstart
        obtain ⟨sign, run, rest, hfield⟩ := exists_integerField ignore (tail.map Arrival.byte) hdiscards hstart
        rw [← List.map_cons, ← List.map_append, ← hdrop, hsplit] at hfield
        exact h ⟨_, sign, run, rest, hfield⟩
      obtain ⟨hminus, hdigit⟩ := not_or.mp hstart
      have hnotSkipped : ¬ isSkipped lookahead a.byte := by
        simpa [skips, hminus, hdigit] using hnot
      exact ⟨hnotSkipped, hdigit, hminus⟩
  obtain ⟨s, hs, hparse⟩ := parseInt_gives_up ignore hready.1 hskip hstop
  refine ⟨s, (input.takeWhile skips).map Arrival.byte, ?_, fun b hb => (hdiscards b hb).1, ?_⟩
  · rw [← hparse, ← List.append_assoc, hsplit]
  · rw [hs, ← List.map_append, ← List.append_assoc, hsplit]

end Parsing

theorem parseInt_parses_field (patience : ℕ) (lookahead : LookaheadMode) (ignore : UInt8)
    (hignore : ¬ isDigit ignore ∧ ignore ≠ 45) (input late : List Arrival)
    (hready : ∀ a ∈ input, a.wait ≤ patience) (hlate : TimesOut patience late) :
    (∀ skipped sign run rest, IntegerField lookahead ignore (input.map Arrival.byte) skipped sign run rest →
      ∃ s, parseInt patience lookahead ignore (input ++ late) =
          some (Int32.ofInt (if sign = [45] then -(runValue run : ℤ) else runValue run), s) ∧
        s.map Arrival.byte = rest ++ late.map Arrival.byte) ∧
    ((¬ ∃ skipped sign run rest, IntegerField lookahead ignore (input.map Arrival.byte) skipped sign run rest) →
      ∃ s, parseInt patience lookahead ignore (input ++ late) = some (0, s) ∧
        (lookahead = .skipNone → s.map Arrival.byte = (input ++ late).map Arrival.byte) ∧
        (lookahead = .skipWhitespace → ∃ blanks, (∀ b ∈ blanks, b = 32 ∨ b = 9 ∨ b = 13 ∨ b = 10) ∧
          (input ++ late).map Arrival.byte = blanks ++ s.map Arrival.byte)) := by
  refine ⟨fun skipped sign run rest h => parseInt_of_field hready hlate hignore h, fun h => ?_⟩
  obtain ⟨s, discarded, hparse, hdiscards, hsplit⟩ := parseInt_without_field hready hlate h
  refine ⟨s, hparse, ?_, ?_⟩
  · rintro rfl
    obtain rfl : discarded = [] := List.eq_nil_iff_forall_not_mem.mpr hdiscards
    exact hsplit.symm
  · rintro rfl
    exact ⟨discarded, hdiscards, hsplit⟩

/-- SKIP_WHITESPACE and the ignored comma on " -1,234x". -/
theorem parseInt_parses_thousands :
    ∃ s, parseInt 2 .skipWhitespace 44 ([32, 45, 49, 44, 50, 51, 52, 120].map (Arrival.mk 1) ++ []) =
        some (-1234, s) ∧ s.map Arrival.byte = [120] := by
  refine (parseInt_parses_field 2 .skipWhitespace 44 (by decide)
    ([32, 45, 49, 44, 50, 51, 52, 120].map (Arrival.mk 1)) [] (by simp) TimesOut.nil).1
      [32] [45] [49, 44, 50, 51, 52] [120] ⟨rfl, ?_, Or.inr rfl, nofun, ?_, ?_⟩
  · rw [List.forall_mem_singleton, ← isSkipped_iff]
    decide
  · simp [isDigit]
  · intro b hb
    obtain rfl := Option.some.inj hb
    decide

end LogoCore.Streams
