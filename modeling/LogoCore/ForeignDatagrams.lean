import LogoCore.ToolTermination

namespace LogoCore.Upload

/-- The read fails, or returns a datagram from the device at `dev`. -/
def Read.own (dev : ℕ) : Read → Bool
  | .failed => true
  | .datagram src _ => src = dev

namespace Tool

variable {S : Setup} {dev : ℕ} {t : Tool}

/-- What an upload shows: the datagrams sent, what `ident` returned, and the exit code. -/
def observed (t : Tool) : List (List UInt8) × List (Option UInt32) × Option ℕ := (t.sent, t.roles, t.exitCode)

def quiet (dev : ℕ) (t : Tool) : Tool := { t with reads := t.reads.filter (Read.own dev) }

/-- The next read is not a foreign datagram that `ident` takes or that passes the test of `exchange`. -/
def undisturbed (dev : ℕ) (t : Tool) : Bool :=
  match t.phase, t.reads with
  | .identRead _, r :: _ => r.own dev
  | .upload (.reading st _ _), .datagram src d :: _ => src = dev || !st.accepts (d.take 2048)
  | _, _ => true

theorem quiet_observed : (t.quiet dev).observed = t.observed := rfl

theorem quiet_step (h : t.undisturbed dev = true) :
    (t.step S).quiet dev = t.quiet dev ∨ (t.step S).quiet dev = (t.quiet dev).step S := by
  obtain ⟨phase, writes, reads, sent, roles⟩ := t
  rcases phase with c | c | _ | _ | (⟨st, p, a⟩ | ⟨st, p, a⟩ | o) | code
  case identWrite =>
    right
    rcases writes with _ | ⟨_ | _, ws⟩ <;> rfl
  case identRead =>
    right
    cases reads with
    | nil => rfl
    | cons r rs =>
      have hr : r.own dev = true := h
      simp only [step, quiet, read, identified, List.filter_cons_of_pos hr, List.tail_cons, List.headD_cons]
  case upload.reading =>
    cases reads with
    | nil =>
      right
      rfl
    | cons r rs =>
      by_cases hr : r.own dev = true
      · right
        simp only [step, quiet, read, exchanged, List.filter_cons_of_pos hr, List.tail_cons, List.headD_cons]
      · left
        cases r with
        | failed => exact absurd rfl hr
        | datagram src d =>
          have hacc : st.accepts (d.take 2048) = false := by
            simp only [undisturbed, Bool.or_eq_true, decide_eq_true_eq, Bool.not_eq_true'] at h
            exact h.resolve_left fun heq => hr (by simp [Read.own, heq])
          simp only [step, quiet, read, exchanged, Read.event, Uploader.step, hacc, List.filter_cons_of_neg hr,
            List.tail_cons, List.headD_cons, List.append_nil, Bool.false_eq_true, ↓reduceIte]
  all_goals exact .inr rfl

theorem observed_final {writes : List Bool} {reads : List Read}
    (h : ∀ n, ((step S)^[n] (start S writes reads)).undisturbed dev = true) :
    ∃ N, ∀ n ≥ N, ((step S)^[n] (start S writes reads)).exitCode ≠ none ∧
      ((step S)^[n] (start S writes reads)).observed =
        ((step S)^[n] (start S writes (reads.filter (Read.own dev)))).observed := by
  obtain ⟨N, code, hcode⟩ := exists_exitCode S writes reads
  refine ⟨N, fun n hn => ?_⟩
  have hfix : Function.IsFixedPt (step S) ((step S)^[N] (start S writes reads)) := step_of_exitCode hcode
  obtain ⟨m, hm, heq⟩ := Iteration.iterate_of_stutter (r := quiet dev) (fun _ => quiet_step (S := S)) N
    fun i _ => h i
  have hquiet : (start S writes reads).quiet dev = start S writes (reads.filter (Read.own dev)) := rfl
  rw [hquiet] at heq
  have hcode' : ((step S)^[m] (start S writes (reads.filter (Read.own dev)))).exitCode = some code := by
    rw [← heq]
    exact hcode
  rw [Iteration.iterate_eq_of_fixed hfix hn,
    Iteration.iterate_eq_of_fixed (step_of_exitCode (S := S) hcode') (hm.trans hn), ← heq, quiet_observed]
  exact ⟨by simp [hcode], rfl⟩

end Tool

/-- Two uploads that get the same datagrams from the device end with the same observations, when neither
is disturbed by the datagrams of other senders. -/
theorem foreign_datagrams_unobserved (S : Setup) (dev : ℕ) (writes : List Bool) (reads reads' : List Read)
    (hsame : reads.filter (Read.own dev) = reads'.filter (Read.own dev))
    (h : ∀ n, ((Tool.step S)^[n] (.start S writes reads)).undisturbed dev = true)
    (h' : ∀ n, ((Tool.step S)^[n] (.start S writes reads')).undisturbed dev = true) :
    ∃ N, ∀ n ≥ N, ((Tool.step S)^[n] (.start S writes reads)).exitCode ≠ none ∧
      ((Tool.step S)^[n] (.start S writes reads)).observed =
        ((Tool.step S)^[n] (.start S writes reads')).observed := by
  obtain ⟨N, hN⟩ := Tool.observed_final h
  obtain ⟨N', hN'⟩ := Tool.observed_final h'
  refine ⟨max N N', fun n hn => ?_⟩
  obtain ⟨hcode, hobs⟩ := hN n (by omega)
  obtain ⟨-, hobs'⟩ := hN' n (by omega)
  rw [← hsame] at hobs'
  exact ⟨hcode, hobs.trans hobs'.symm⟩

theorem foreign_datagrams_unobserved_noise :
    let S : Setup := ⟨⟨[7], 1⟩, true, fun _ => .unreachable, []⟩
    let reads : List Read := [.datagram 2 [9], .datagram 1 (le32 tagAWRQ ++ le32 0 ++ le32 1),
      .datagram 1 (le32 tagADAT ++ le32 0 ++ le32 0), .datagram 2 [9], .datagram 1 (le32 tagAFIN ++ le32 0)]
    ∃ N, ∀ n ≥ N, ((Tool.step S)^[n] (.start S [] reads)).exitCode ≠ none ∧
      ((Tool.step S)^[n] (.start S [] reads)).observed =
        ((Tool.step S)^[n] (.start S [] (reads.filter (Read.own 1)))).observed := by
  intro S reads
  have hall (reads : List Read) (hstop : ((Tool.step S)^[8] (.start S [] reads)).exitCode = some 0)
      (hlow : ∀ n < 8, ((Tool.step S)^[n] (.start S [] reads)).undisturbed 1 = true)
      (hend : ((Tool.step S)^[8] (.start S [] reads)).undisturbed 1 = true) :
      ∀ n, ((Tool.step S)^[n] (.start S [] reads)).undisturbed 1 = true := by
    intro n
    obtain hn | hn := Nat.lt_or_ge n 8
    · exact hlow n hn
    · rw [Iteration.iterate_eq_of_fixed (Tool.step_of_exitCode (S := S) hstop) hn]
      exact hend
  exact foreign_datagrams_unobserved S 1 [] reads (reads.filter (Read.own 1)) (by decide)
    (hall _ (by decide) (by decide) (by decide)) (hall _ (by decide) (by decide) (by decide))

/-- A foreign AWRQ starts the transfer, and a foreign AIDENT is the role that `ident` sees. -/
theorem foreign_datagram_observed :
    let S : Setup := ⟨⟨[7], 1⟩, true, fun _ => .unreachable, []⟩
    let awrq : Read := .datagram 2 (le32 tagAWRQ ++ le32 0 ++ le32 1)
    let aident : Read := .datagram 2 (le32 tagAIDENT ++ le32 roleApp)
    (∀ n ≥ 4, ((Tool.step S)^[n] (.start S [] [awrq])).exitCode = some 3 ∧
      encodeDATA 0 [7] ∈ ((Tool.step S)^[n] (.start S [] [awrq])).sent ∧
      ((Tool.step S)^[n] (.start S [] [])).exitCode = some 2 ∧
      encodeDATA 0 [7] ∉ ((Tool.step S)^[n] (.start S [] [])).sent) ∧
    ((Tool.step S)^[2] (.start { S with noReboot := false } [] [aident])).roles = [some roleApp] ∧
      ((Tool.step S)^[2] (.start { S with noReboot := false } [] [])).roles = [none] := by
  intro S awrq aident
  refine ⟨fun n hn => ?_, by decide, by decide⟩
  have hone : ((Tool.step S)^[4] (.start S [] [awrq])).exitCode = some 3 := by decide
  have htwo : ((Tool.step S)^[4] (.start S [] [])).exitCode = some 2 := by decide
  rw [Iteration.iterate_eq_of_fixed (Tool.step_of_exitCode (S := S) hone) hn,
    Iteration.iterate_eq_of_fixed (Tool.step_of_exitCode (S := S) htwo) hn]
  exact ⟨hone, by decide, htwo, by decide⟩

end LogoCore.Upload
