import LogoCore.Print
import LogoCore.StreamParsing

namespace LogoCore.Streams

open CStrings

theorem ofNat_toNat (n : UInt32) : Int32.ofNat n.toNat = n.toInt32 := by
  rw [← UInt32.toInt32_ofNat', UInt32.ofNat_toNat]

theorem absorb_digit {ignore c : UInt8} (hignore : ¬ isDigit ignore) (hc : isDigit c) (neg : Bool) (v : ℕ) :
    absorb ignore (neg, Int32.ofNat v) c = (neg, Int32.ofNat (v * 10 + (c.toNat - 48))) := by
  have hne : c ≠ ignore := fun h => hignore (h ▸ hc)
  have hminus : c ≠ 45 := fun h => absurd (h ▸ hc) (by decide)
  have hle : 48 ≤ c.toNat := by
    simp only [isDigit, Bool.and_eq_true, decide_eq_true_eq] at hc
    exact hc.1
  have hsplit : c.toUInt32.toInt32 = Int32.ofNat (c.toNat - 48) + 48 := by
    rw [← ofNat_toNat, UInt8.toNat_toUInt32, show (48 : Int32) = Int32.ofNat 48 from rfl, ← Int32.ofNat_add,
      Nat.sub_add_cancel hle]
  rw [absorb, if_neg hne, if_neg hminus, if_pos hc, hsplit, ← Int32.add_assoc, Int32.add_sub_cancel,
    Int32.ofNat_add, Int32.ofNat_mul]
  rfl

theorem absorb_digits {ignore : UInt8} (hignore : ¬ isDigit ignore) {ds : List UInt8} (hds : ∀ d ∈ ds, isDigit d)
    (neg : Bool) (v : ℕ) :
    ds.foldl (absorb ignore) (neg, Int32.ofNat v) =
      (neg, Int32.ofNat (ds.foldl (fun v d => v * 10 + (d.toNat - 48)) v)) := by
  induction ds generalizing v with
  | nil => rfl
  | cons d ds ih =>
    rw [List.foldl_cons, List.foldl_cons, absorb_digit hignore (hds d List.mem_cons_self)]
    exact ih (fun b hb => hds b (List.mem_cons_of_mem d hb)) _

theorem Spells.absorbed {ds : List UInt8} {n : UInt32} (h : Spells ds n.toNat) (neg : Bool) :
    ds.foldl (absorb noIgnoreChar) (neg, 0) = (neg, n.toInt32) := by
  have hfold := absorb_digits (show ¬ isDigit noIgnoreChar by decide) h.digits neg 0
  rw [h.value, ofNat_toNat] at hfold
  exact hfold

theorem print_absorbed {σ : Type} {k : Sink σ} (hk : ∀ s b, (k.write s b).1 = true) {fill : ℕ → UInt8} {n : Int32}
    {o o' : Output σ} {c : ℕ} {t : List UInt8} (hprint : print k fill n 10 o = some (c, o'))
    (ht : o'.written = o.written ++ t) :
    ∃ d ds, t = d :: ds ∧ (d = 45 ∨ isDigit d) ∧ (∀ d ∈ ds, isDigit d) ∧
      applySign (t.foldl (absorb noIgnoreChar) (false, 0)) = n := by
  obtain ⟨-, hspells⟩ | ⟨-, ds, hspells, rfl⟩ := print_text hk fill hprint ht
  · obtain ⟨d, ds, rfl⟩ := List.exists_cons_of_ne_nil hspells.nonempty
    obtain ⟨hd, hds⟩ := List.forall_mem_cons.mp hspells.digits
    refine ⟨d, ds, rfl, Or.inr hd, hds, ?_⟩
    rw [hspells.absorbed, Int32.toInt32_toUInt32]
    rfl
  · refine ⟨45, ds, rfl, Or.inl rfl, hspells.digits, ?_⟩
    have hsign : absorb noIgnoreChar (false, 0) 45 = (true, 0) := rfl
    rw [List.foldl_cons, hsign, hspells.absorbed, Int32.toInt32_toUInt32]
    exact Int32.neg_neg

/-- print() returns the number of bytes it wrote. When the sink takes them all, parseInt() finds the number again
behind any text without digits and signs, and leaves what comes after it. -/
theorem printed_integer_parses_back {σ : Type} (k : Sink σ) (fill : ℕ → UInt8) (n : Int32) (o : Output σ) :
    ∃ c o' t, print k fill n 10 o = some (c, o') ∧ o'.written = o.written ++ t ∧ c = t.length ∧
      ((∀ s b, (k.write s b).1 = true) →
        ∀ (pre post : List UInt8), (∀ b ∈ pre, ¬ isDigit b ∧ b ≠ 45) →
          (∀ b, post.head? = some b → ¬ isDigit b ∧ b ≠ noIgnoreChar) →
          ∀ (patience : ℕ) (s : List Arrival), s.map Arrival.byte = pre ++ t ++ post →
            (∀ a ∈ s.take (pre ++ t).length, a.wait ≤ patience) →
            ∃ rest, parseInt patience .skipAll noIgnoreChar s = some (n, rest) ∧ rest.map Arrival.byte = post) := by
  obtain ⟨c, o', t, hprint, hwritten, hcount⟩ := print_counts k fill n o
  refine ⟨c, o', t, hprint, hwritten, hcount, ?_⟩
  intro hk pre post hpre hpost patience s hs hready
  obtain ⟨d, ds, rfl, hd, hds, hvalue⟩ := print_absorbed hk hprint hwritten
  rw [List.append_assoc, List.cons_append] at hs
  obtain ⟨skipped, s₁, rfl, rfl, hs₁⟩ := List.map_eq_append_iff.mp hs
  obtain ⟨a, s₂, rfl, rfl, hs₂⟩ := List.map_eq_cons_iff.mp hs₁
  obtain ⟨as, rest, rfl, rfl, rfl⟩ := List.map_eq_append_iff.mp hs₂
  have htake : (skipped ++ a :: (as ++ rest)).take
      (skipped.map Arrival.byte ++ a.byte :: as.map Arrival.byte).length = skipped ++ a :: as := by
    rw [← List.cons_append, ← List.append_assoc]
    apply List.take_left'
    simp
  rw [htake] at hready
  have hskip : ∀ b ∈ skipped, isSkipped .skipAll b.byte ∧ ¬ isDigit b.byte ∧ b.byte ≠ 45 :=
    fun b hb => ⟨rfl, hpre b.byte (List.mem_map_of_mem hb)⟩
  obtain ⟨s, hbytes, hparse⟩ := parseInt_takes hready hskip hd
    (fun b hb => Or.inl (hds b.byte (List.mem_map_of_mem hb)))
    (fun c hc => hpost c ((timedPeek_bytes patience rest).2 c hc))
  refine ⟨s, ?_, hbytes⟩
  rw [hparse, List.map_cons, hvalue]

def taking : Sink Unit := ⟨fun _ _ => (true, ())⟩

theorem printed_minimum_parses_back :
    ∃ c o', print taking (fun _ => 0) (-2147483648) 10 ⟨(), []⟩ = some (c, o') ∧ c = o'.written.length ∧
      ∃ rest, parseInt 5 .skipAll noIgnoreChar (([58, 32] ++ o'.written ++ [45, 10]).map (Arrival.mk 5)) =
        some (-2147483648, rest) ∧ rest.map Arrival.byte = [45, 10] := by
  obtain ⟨c, o', t, hprint, hwritten, hcount, hparse⟩ :=
    printed_integer_parses_back taking (fun _ => 0) (-2147483648) ⟨(), []⟩
  rw [List.nil_append] at hwritten
  subst hwritten
  refine ⟨c, o', hprint, hcount, ?_⟩
  apply hparse (fun _ _ => rfl) [58, 32] [45, 10] ?_ ?_ 5
  · rw [List.map_map]
    exact List.map_id _
  · intro a ha
    obtain ⟨b, -, rfl⟩ := List.mem_map.mp (List.mem_of_mem_take ha)
    exact le_refl 5
  · rw [List.forall_mem_cons, List.forall_mem_singleton]
    decide
  · intro b hb
    obtain rfl := Option.some.inj hb
    decide

end LogoCore.Streams
