import LogoCore.ModbusReboot

namespace LogoCore.Upload

/-- A device whose answer reaches the tool in the given reads; `mbTxn` makes only the first of them. -/
def segmented (reads : List (List UInt8)) : Peer := fun _ =>
  match reads with
  | [] => .reset
  | r :: _ => .frame r

/-- The tool's view of the device is the one it has when the answer arrives in one read. -/
structure SameAnswer (reads : List (List UInt8)) (adu : List UInt8) : Prop where
  mbTxn : ∀ pdu, mbTxn (segmented reads) pdu = mbTxn (segmented [adu]) pdu
  ask : ask (segmented reads) = ask (segmented [adu])
  lockState : lockState (segmented reads) = lockState (segmented [adu])

variable {r adu : List UInt8} {rs reads : List (List UInt8)}

theorem sameAnswer_of_mbTxn (h : ∀ pdu, mbTxn (segmented reads) pdu = mbTxn (segmented [adu]) pdu) :
    SameAnswer reads adu := by
  refine ⟨h, ?_, ?_⟩
  · rw [ask, h, ask]
  · rw [lockState, h, lockState]

theorem mbTxn_segmented (hr : r.length ≤ 64) (pdu : List UInt8) :
    mbTxn (segmented (r :: rs)) pdu = if r.length < 8 then ([], false) else (r.drop 7, true) := by
  simp only [mbTxn, segmented, List.take_of_length_le hr]

theorem length_first_le (hsplit : (r :: rs).flatten = adu) : r.length ≤ adu.length := by
  rw [← hsplit, List.flatten_cons, List.length_append]
  omega

theorem single_read (hsplit : (r :: rs).flatten = adu) (hne : ∀ s ∈ r :: rs, s ≠ [])
    (hlen : adu.length ≤ r.length) : r :: rs = [adu] := by
  have hrest : rs.flatten = [] := by
    have := congrArg List.length hsplit
    rw [List.flatten_cons, List.length_append] at this
    apply List.eq_nil_of_length_eq_zero
    omega
  have hrs : rs = [] := by
    apply List.eq_nil_iff_forall_not_mem.mpr
    intro s hs
    exact hne s (List.mem_cons_of_mem _ hs) (List.flatten_eq_nil_iff.mp hrest s hs)
  rw [List.flatten_cons, hrest, List.append_nil] at hsplit
  rw [hsplit, hrs]

theorem mbTxn_segmented_iff (hadu : adu.length ≤ 64) (hsplit : (r :: rs).flatten = adu)
    (hne : ∀ s ∈ r :: rs, s ≠ []) (pdu : List UInt8) :
    mbTxn (segmented (r :: rs)) pdu = mbTxn (segmented [adu]) pdu ↔ r :: rs = [adu] ∨ adu.length < 8 := by
  have hle := length_first_le hsplit
  rw [mbTxn_segmented (hle.trans hadu), mbTxn_segmented hadu]
  by_cases hshort : adu.length < 8
  · rw [if_pos hshort, if_pos (by omega)]
    exact iff_of_true rfl (.inr hshort)
  · rw [if_neg hshort, or_iff_left hshort]
    constructor
    · intro heq
      apply single_read hsplit hne
      split_ifs at heq with hr
      · exact absurd (congrArg Prod.snd heq) (by simp)
      · have := congrArg List.length (congrArg Prod.fst heq)
        simp only [List.length_drop] at this
        omega
    · intro heq
      obtain ⟨rfl, -⟩ := List.cons.inj heq
      exact if_neg hshort

/-- A complete answer is read as if it came in one piece exactly when it does come in one piece; an answer
too short to hold a function code is refused either way. -/
theorem segmented_answer_iff (adu : List UInt8) (reads : List (List UInt8)) (hpos : adu ≠ [])
    (hadu : adu.length ≤ 64) (hsplit : reads.flatten = adu) (hne : ∀ s ∈ reads, s ≠ []) :
    SameAnswer reads adu ↔ reads = [adu] ∨ adu.length < 8 := by
  cases reads with
  | nil => exact absurd hsplit.symm hpos
  | cons r rs =>
    constructor
    · intro h
      exact (mbTxn_segmented_iff hadu hsplit hne []).mp (h.mbTxn [])
    · intro h
      exact sameAnswer_of_mbTxn fun pdu => (mbTxn_segmented_iff hadu hsplit hne pdu).mpr h

theorem segmented_answer_one_read : SameAnswer [mbAdu [0x4D, 0x7E, 1]] (mbAdu [0x4D, 0x7E, 1]) := by
  apply (segmented_answer_iff (mbAdu [0x4D, 0x7E, 1]) [mbAdu [0x4D, 0x7E, 1]] ?_ ?_ ?_ ?_).mpr
  · exact .inl rfl
  all_goals decide

/-- A lock report cut in its header is taken for no answer, and a refusal cut after the function code for
an accepted reboot. -/
theorem segmented_answer_misread :
    (let adu := mbAdu [0x4D, 0x7E, 1]
      let reads := [adu.take 7, adu.drop 7]
      reads.flatten = adu ∧ (∀ s ∈ reads, s ≠ []) ∧ lockState (segmented [adu]) = (1, true) ∧
        lockState (segmented reads) = (0, false) ∧ ¬ SameAnswer reads adu) ∧
    (let adu := mbAdu [0x4C, 0x6C]
      let reads := [adu.take 8, adu.drop 8]
      reads.flatten = adu ∧ (∀ s ∈ reads, s ≠ []) ∧ ask (segmented [adu]) = .locked ∧
        ask (segmented reads) = .accepted ∧ ¬ SameAnswer reads adu) := by
  constructor
  · refine ⟨by decide, by decide, by decide, by decide, fun h => ?_⟩
    exact absurd h.lockState (by decide)
  · refine ⟨by decide, by decide, by decide, by decide, fun h => ?_⟩
    exact absurd h.ask (by decide)

end LogoCore.Upload
