import LogoCore.AddressText
import LogoCore.PrintedIntegers

namespace LogoCore.Ethernet

open CStrings Streams

section Model

variable {σ : Type} (k : Sink σ)

/-- Print::print(unsigned long, int), which the overload for unsigned char calls. -/
def printUnsigned (fill : ℕ → UInt8) (n : UInt32) (base : Int32) (o : Output σ) : Option (ℕ × Output σ) :=
  if base = 0 then some (write k o n.toUInt8) else printNumber k fill n base.toUInt32.toUInt8 o

def printOctet (fill : ℕ → UInt8) (b : BitVec 8) (o : Output σ) : Option (ℕ × Output σ) :=
  printUnsigned k fill (UInt32.ofNat b.toNat) 10 o

-- `fill i` is what the stack held when octet i was printed
def printDotted (fill : ℕ → ℕ → UInt8) (ip : IPAddress) : List ℕ → ℕ → Output σ → Option (ℕ × Output σ)
  | [], n, o => some (n, o)
  | i :: is, n, o => do
    let r ← printOctet k (fill i) (ip.octet i) o
    let d := write k r.2 46
    printDotted fill ip is (n + r.1 + d.1) d.2

def printTo (fill : ℕ → ℕ → UInt8) (ip : IPAddress) (o : Output σ) : Option (ℕ × Output σ) := do
  let r ← printDotted k fill ip [0, 1, 2] 0 o
  let s ← printOctet k (fill 3) (ip.octet 3) r.2
  return (r.1 + s.1, s.2)

end Model

theorem octetField_of_spells {ds : List UInt8} {n : ℕ} (h : Spells ds n) (hn : n ≤ 255) : OctetField ds :=
  ⟨h.digits, h.value.trans_le hn⟩

section Printing

variable {σ : Type} (k : Sink σ)

theorem write_text (o : Output σ) (b : UInt8) :
    ∃ t, (write k o b).2.written = o.written ++ t ∧ (write k o b).1 = t.length ∧
      ((∀ s b, (k.write s b).1 = true) → t = [b]) := by
  obtain ⟨hone, hwritten⟩ | ⟨hzero, hwritten⟩ := write_cases k o b
  · exact ⟨[b], hwritten, hone, fun _ => rfl⟩
  · refine ⟨[], by rw [hwritten, List.append_nil], hzero, fun hk => ?_⟩
    have hone := (write_accepted hk o b).1
    omega

theorem printOctet_text (fill : ℕ → UInt8) (b : BitVec 8) (o : Output σ) :
    ∃ c o' t, printOctet k fill b o = some (c, o') ∧ o'.written = o.written ++ t ∧ c = t.length ∧
      ((∀ s b, (k.write s b).1 = true) → Spells t b.toNat) := by
  obtain ⟨ds, hprint, hspells⟩ := printNumber_ten k fill (UInt32.ofNat b.toNat) o
  have hnat : (UInt32.ofNat b.toNat).toNat = b.toNat := by
    rw [UInt32.toNat_ofNat']
    exact Nat.mod_eq_of_lt (by have := b.isLt; omega)
  rw [hnat] at hspells
  obtain ⟨t, hwritten, hcount⟩ := writeBuffer_counts k ds o
  refine ⟨_, _, t, ?_, hwritten, hcount, fun hk => ?_⟩
  · rw [printOctet, printUnsigned, if_neg (by decide)]
    exact hprint
  · have hall := writeBuffer_accepted hk ds o
    rw [hwritten, List.append_cancel_left_eq] at hall
    rwa [hall]

theorem printDotted_text (fill : ℕ → ℕ → UInt8) (ip : IPAddress) (is : List ℕ) (n : ℕ) (o : Output σ) :
    ∃ c o' t, printDotted k fill ip is n o = some (n + c, o') ∧ o'.written = o.written ++ t ∧ c = t.length ∧
      ((∀ s b, (k.write s b).1 = true) →
        ∃ qs, t = dottedFields qs ∧ List.Forall₂ (fun i q => Spells q (ip.octet i).toNat) is qs) := by
  induction is generalizing n o with
  | nil => exact ⟨0, o, [], rfl, (List.append_nil _).symm, rfl, fun _ => ⟨[], rfl, .nil⟩⟩
  | cons i is ih =>
    obtain ⟨c, o₁, t, hprint, hwritten, hcount, hspells⟩ := printOctet_text k (fill i) (ip.octet i) o
    obtain ⟨c', o₂, t', hrest, hwritten', hcount', hall⟩ := ih (n + c + (write k o₁ 46).1) (write k o₁ 46).2
    have hstep : printDotted k fill ip (i :: is) n o =
        printDotted k fill ip is (n + c + (write k o₁ 46).1) (write k o₁ 46).2 := by
      rw [printDotted, hprint]
      rfl
    obtain ⟨d, hdot, hone, htaken⟩ := write_text k o₁ 46
    refine ⟨c + (write k o₁ 46).1 + c', o₂, t ++ (d ++ t'), ?_, ?_, ?_, fun hk => ?_⟩
    · rw [hstep, hrest, Nat.add_assoc n, Nat.add_assoc n]
    · rw [hwritten', hdot, hwritten, List.append_assoc, List.append_assoc]
    · rw [List.length_append, List.length_append, hcount, hone, hcount', Nat.add_assoc]
    · obtain rfl := htaken hk
      obtain ⟨qs, rfl, hqs⟩ := hall hk
      exact ⟨t :: qs, by simp [dottedFields], .cons (hspells hk) hqs⟩

theorem nulFree_octetField {p : List UInt8} (h : OctetField p) : NulFree p := by
  rintro b hb rfl
  exact absurd (h.digits 0 hb) (by decide)

theorem nulFree_dottedFields {qs : List (List UInt8)} (h : ∀ q ∈ qs, OctetField q) : NulFree (dottedFields qs) := by
  intro b hb
  obtain ⟨q, hq, hb⟩ := List.mem_flatMap.mp hb
  obtain hb | hb := List.mem_append.mp hb
  · exact nulFree_octetField (h q hq) b hb
  · obtain rfl := List.mem_singleton.mp hb
    decide

theorem fourFields_of_spells {ip : IPAddress} {qs : List (List UInt8)} {q : List UInt8}
    (hqs : List.Forall₂ (fun i q => Spells q (ip.octet i).toNat) [0, 1, 2] qs) (hq : Spells q (ip.octet 3).toNat) :
    FourFields (dottedFields qs ++ q) (qs ++ [q]) ∧
      ∀ i < 4, ∃ p, (qs ++ [q])[i]? = some p ∧ fieldValue p = (ip.octet i).toNat := by
  obtain ⟨p₀, qs₁, h₀, hqs₁, rfl⟩ := List.forall₂_cons_left_iff.mp hqs
  obtain ⟨p₁, qs₂, h₁, hqs₂, rfl⟩ := List.forall₂_cons_left_iff.mp hqs₁
  obtain ⟨p₂, qs₃, h₂, hqs₃, rfl⟩ := List.forall₂_cons_left_iff.mp hqs₂
  obtain rfl := List.forall₂_nil_left_iff.mp hqs₃
  have hfield {p : List UInt8} {i : ℕ} (h : Spells p (ip.octet i).toNat) : OctetField p :=
    octetField_of_spells h (Nat.le_of_lt_succ (ip.octet i).isLt)
  refine ⟨⟨rfl, ?_, (intercalate_concat _ _).symm⟩, ?_⟩
  · simp only [List.cons_append, List.nil_append, List.forall_mem_cons]
    exact ⟨hfield h₀, hfield h₁, hfield h₂, hfield hq, nofun⟩
  · intro i hi
    interval_cases i
    · exact ⟨p₀, rfl, h₀.value⟩
    · exact ⟨p₁, rfl, h₁.value⟩
    · exact ⟨p₂, rfl, h₂.value⟩
    · exact ⟨q, rfl, hq.value⟩

theorem printed_address_parses_back (fill : ℕ → ℕ → UInt8) (ip : IPAddress) (o : Output σ) :
    ∃ c o' t, printTo k fill ip o = some (c, o') ∧ o'.written = o.written ++ t ∧ c = t.length ∧
      ((∀ s b, (k.write s b).1 = true) → ∀ old : IPAddress, fromString (t ++ [0]) old = (true, ip)) := by
  obtain ⟨c, o₁, t, hdotted, hwritten, hcount, hall⟩ := printDotted_text k fill ip [0, 1, 2] 0 o
  obtain ⟨c', o₂, t', hlast, hwritten', hcount', hspells⟩ := printOctet_text k (fill 3) (ip.octet 3) o₁
  refine ⟨c + c', o₂, t ++ t', ?_, ?_, ?_, ?_⟩
  · simp only [printTo, hdotted, hlast, Option.bind_eq_bind, Option.bind_some, Option.pure_def, Nat.zero_add]
  · rw [hwritten', hwritten, List.append_assoc]
  · rw [List.length_append, hcount, hcount']
  · intro hk old
    obtain ⟨qs, rfl, hqs⟩ := hall hk
    obtain ⟨hfour, hvalues⟩ := fourFields_of_spells hqs (hspells hk)
    have htext : cString (dottedFields qs ++ t' ++ [0]) = dottedFields qs ++ t' := by
      obtain ⟨hqs, hq⟩ := List.forall_mem_append.mp hfour.fields
      apply cString_append_nul
      exact nulFree_append.mpr ⟨nulFree_dottedFields hqs, nulFree_octetField (hq t' List.mem_cons_self)⟩
    obtain ⟨ip', hcommitted, hloop⟩ := fromStringLoop_of_fourFields hfour old
    rw [fromString, htext, hloop]
    congr 1
    apply ext_octet
    intro i hi
    obtain ⟨p, hp, hvalue⟩ := hvalues i hi
    rw [hcommitted.octet hi hp, hvalue, BitVec.ofNat_toNat, BitVec.setWidth_eq]

end Printing

theorem printed_quad_parses_back :
    ∃ c o', printTo taking (fun _ _ => 0) (.ofOctets 255 0 10 7) ⟨(), []⟩ = some (c, o') ∧
      c = o'.written.length ∧ fromString (o'.written ++ [0]) ⟨0⟩ = (true, .ofOctets 255 0 10 7) := by
  obtain ⟨c, o', t, hprint, hwritten, hcount, hparse⟩ :=
    printed_address_parses_back taking (fun _ _ => 0) (.ofOctets 255 0 10 7) ⟨(), []⟩
  rw [List.nil_append] at hwritten
  subst hwritten
  exact ⟨c, o', hprint, hcount, hparse (fun _ _ => rfl) ⟨0⟩⟩

end LogoCore.Ethernet
