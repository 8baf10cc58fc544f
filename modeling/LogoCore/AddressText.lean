import LogoCore.CStrings
import LogoCore.EthernetBegin

namespace LogoCore.Ethernet

open ByteLanes CStrings

/-- The loop of fromString() and what follows it. The octets go to the object as the dots are met. -/
def fromStringLoop : List UInt8 → IPAddress → ℕ → ℕ → Bool × IPAddress
  | [], ip, acc, dots => if dots ≠ 3 then (false, ip) else (true, ip.setOctet 3 (BitVec.ofNat 8 acc))
  | c :: cs, ip, acc, dots =>
    if isDigit c then
      let acc := (acc * 10 + (c.toNat - 48)) % 2 ^ 16
      if acc > 255 then (false, ip) else fromStringLoop cs ip acc dots
    else if c = 46 then
      if dots = 3 then (false, ip) else fromStringLoop cs (ip.setOctet dots (BitVec.ofNat 8 acc)) 0 (dots + 1)
    else (false, ip)

def fromString (address : List UInt8) (ip : IPAddress) : Bool × IPAddress :=
  fromStringLoop (cString address) ip 0 0

def fieldValueFrom (acc : ℕ) (part : List UInt8) : ℕ := part.foldl (fun v d => v * 10 + (d.toNat - 48)) acc

def fieldValue (part : List UInt8) : ℕ := fieldValueFrom 0 part

/-- Decimal digits, if any, of a value that an octet holds. -/
structure OctetField (part : List UInt8) : Prop where
  digits : ∀ b ∈ part, isDigit b
  small : fieldValue part ≤ 255

structure FourFields (t : List UInt8) (ps : List (List UInt8)) : Prop where
  four : ps.length = 4
  fields : ∀ p ∈ ps, OctetField p
  text : t = [46].intercalate ps

def dottedFields (ps : List (List UInt8)) : List UInt8 := ps.flatMap (· ++ [46])

def Committed (ip : IPAddress) (ps : List (List UInt8)) (ip' : IPAddress) : Prop :=
  ∀ k < 4, ip'.octet k = (ps[k]?.map fun p => BitVec.ofNat 8 (fieldValue p)).getD (ip.octet k)

section Octets

variable {ip ip' : IPAddress}

theorem ext_octet (h : ∀ k < 4, ip.octet k = ip'.octet k) : ip = ip' := by
  obtain ⟨w⟩ := ip
  obtain ⟨w'⟩ := ip'
  congr 1
  apply BitVec.eq_of_getLsbD_eq
  intro i hi
  have hlane := congrArg (fun b => b.getLsbD (i % 8)) (h (i / 8) (by omega))
  simp only [IPAddress.octet] at hlane
  rw [getLsbD_getLane _ _ (Nat.mod_lt i (by decide)), getLsbD_getLane _ _ (Nat.mod_lt i (by decide)),
    Nat.div_add_mod] at hlane
  exact hlane

theorem octet_setOctet (ip : IPAddress) {j k : ℕ} (hj : j < 4) (b : BitVec 8) :
    (ip.setOctet k b).octet j = if j = k then b else ip.octet j := by
  rw [IPAddress.octet, IPAddress.setOctet]
  split
  · rename_i h
    subst h
    exact getLane_setLane_self _ (by omega) b
  · rename_i h
    exact getLane_setLane_other _ (by omega) h b

theorem committed_nil (ip : IPAddress) : Committed ip [] ip := fun _ _ => rfl

theorem Committed.concat {ps : List (List UInt8)} (h : Committed ip ps ip') (p : List UInt8) :
    Committed ip (ps ++ [p]) (ip'.setOctet ps.length (BitVec.ofNat 8 (fieldValue p))) := by
  intro k hk
  rw [octet_setOctet ip' hk]
  by_cases heq : k = ps.length
  · subst heq
    simp
  · rw [if_neg heq, h k hk]
    by_cases hlt : k < ps.length
    · rw [List.getElem?_append_left hlt]
    · rw [List.getElem?_eq_none (by omega), List.getElem?_eq_none (by simp; omega)]

theorem Committed.octet {ps : List (List UInt8)} (h : Committed ip ps ip') {k : ℕ} (hk : k < 4) {p : List UInt8}
    (hp : ps[k]? = some p) : ip'.octet k = BitVec.ofNat 8 (fieldValue p) := by
  rw [h k hk, hp]
  rfl

end Octets

section Values

variable {acc : ℕ} {part : List UInt8}

theorem le_fieldValueFrom (acc : ℕ) (part : List UInt8) : acc ≤ fieldValueFrom acc part := by
  induction part generalizing acc with
  | nil => exact le_rfl
  | cons d part ih => exact le_trans (by omega) (ih (acc * 10 + (d.toNat - 48)))

theorem fieldValue_concat (part : List UInt8) (d : UInt8) :
    fieldValue (part ++ [d]) = fieldValue part * 10 + (d.toNat - 48) := by
  rw [fieldValue, fieldValueFrom, List.foldl_append]
  rfl

theorem OctetField.toNat (h : OctetField part) : (BitVec.ofNat 8 (fieldValue part)).toNat = fieldValue part := by
  rw [BitVec.toNat_ofNat]
  exact Nat.mod_eq_of_lt (Nat.lt_succ_of_le h.small)

theorem octetField_nil : OctetField [] := ⟨nofun, Nat.zero_le _⟩

theorem dotted_concat (ps : List (List UInt8)) (p : List UInt8) :
    dottedFields (ps ++ [p]) = dottedFields ps ++ (p ++ [46]) := by
  simp [dottedFields]

theorem intercalate_concat (ps : List (List UInt8)) (p : List UInt8) :
    [46].intercalate (ps ++ [p]) = dottedFields ps ++ p := by
  induction ps with
  | nil => exact List.intercalate_singleton
  | cons q ps ih =>
    cases ps with
    | nil => simp [dottedFields]
    | cons r ps =>
      rw [List.cons_append, List.cons_append, List.intercalate_cons_cons, ← List.cons_append, ih]
      simp [dottedFields]

end Values

section Parsing

variable {ip ip' : IPAddress} {ps : List (List UInt8)} {part cs : List UInt8}

theorem fromStringLoop_digits (hdigits : ∀ b ∈ part, isDigit b) {acc : ℕ} (hsmall : fieldValueFrom acc part ≤ 255)
    (cs : List UInt8) (ip : IPAddress) (dots : ℕ) :
    fromStringLoop (part ++ cs) ip acc dots = fromStringLoop cs ip (fieldValueFrom acc part) dots := by
  induction part generalizing acc with
  | nil => rfl
  | cons d part ih =>
    obtain ⟨hd, hdigits⟩ := List.forall_mem_cons.mp hdigits
    have hle : acc * 10 + (d.toNat - 48) ≤ 255 := (le_fieldValueFrom _ part).trans hsmall
    have hmod : (acc * 10 + (d.toNat - 48)) % 2 ^ 16 = acc * 10 + (d.toNat - 48) := Nat.mod_eq_of_lt (by omega)
    rw [List.cons_append, fromStringLoop, if_pos hd]
    simp only [hmod]
    rw [if_neg (by omega)]
    exact ih hdigits hsmall

theorem fromStringLoop_dot {acc dots : ℕ} (h : dots ≠ 3) (cs : List UInt8) (ip : IPAddress) :
    fromStringLoop (46 :: cs) ip acc dots =
      fromStringLoop cs (ip.setOctet dots (BitVec.ofNat 8 acc)) 0 (dots + 1) := by
  rw [fromStringLoop, if_neg (by decide), if_pos rfl, if_neg h]

theorem fromStringLoop_dotted (hps : ∀ p ∈ ps, OctetField p) (hlen : ps.length ≤ 3) (ip : IPAddress)
    (cs : List UInt8) :
    ∃ ip', Committed ip ps ip' ∧
      fromStringLoop (dottedFields ps ++ cs) ip 0 0 = fromStringLoop cs ip' 0 ps.length := by
  induction ps using List.reverseRecOn generalizing cs with
  | nil => exact ⟨ip, committed_nil ip, rfl⟩
  | append_singleton ps p ih =>
    rw [List.length_append, List.length_singleton] at hlen ⊢
    obtain ⟨hps, hp⟩ := List.forall_mem_append.mp hps
    have hp := hp p List.mem_cons_self
    obtain ⟨ip', hcommitted, hloop⟩ := ih hps (by omega) (p ++ 46 :: cs)
    refine ⟨_, hcommitted.concat p, ?_⟩
    have hsplit : dottedFields (ps ++ [p]) ++ cs = dottedFields ps ++ (p ++ 46 :: cs) := by
      rw [dotted_concat, List.append_assoc, List.append_assoc, List.singleton_append]
    rw [hsplit, hloop, fromStringLoop_digits hp.digits hp.small, fromStringLoop_dot (by omega)]
    rfl

theorem fromStringLoop_of_fourFields {t : List UInt8} (h : FourFields t ps) (ip : IPAddress) :
    ∃ ip', Committed ip ps ip' ∧ fromStringLoop t ip 0 0 = (true, ip') := by
  obtain ⟨hfour, hfields, rfl⟩ := h
  obtain rfl | ⟨qs, q, rfl⟩ := List.eq_nil_or_concat' ps
  · cases hfour
  rw [List.length_append, List.length_singleton] at hfour
  obtain ⟨hqs, hq⟩ := List.forall_mem_append.mp hfields
  have hq := hq q List.mem_cons_self
  obtain ⟨ip', hcommitted, hloop⟩ := fromStringLoop_dotted hqs (by omega) ip q
  refine ⟨_, hcommitted.concat q, ?_⟩
  have hdone := fromStringLoop_digits hq.digits hq.small [] ip' qs.length
  rw [List.append_nil] at hdone
  have hthree : qs.length = 3 := by omega
  rw [intercalate_concat, hloop, hdone, hthree]
  rfl

theorem fromStringLoop_keeps {j dots : ℕ} (hj : j < dots) (hdots : dots ≤ 3) (cs : List UInt8) (ip : IPAddress)
    (acc : ℕ) : (fromStringLoop cs ip acc dots).2.octet j = ip.octet j := by
  induction cs generalizing ip acc dots with
  | nil =>
    rw [fromStringLoop]
    split
    · rfl
    · exact (octet_setOctet ip (by omega) _).trans (if_neg (by omega))
  | cons c cs ih =>
    rw [fromStringLoop]
    split
    · simp only
      split
      · rfl
      · exact ih hj hdots ip _
    · split
      · split
        · rfl
        · rw [ih (by omega) (by omega), octet_setOctet ip (by omega), if_neg (by omega)]
      · rfl

theorem fromStringLoop_cases (hcommitted : Committed ip ps ip') (hps : ∀ p ∈ ps, OctetField p) (hlen : ps.length ≤ 3)
    (hpart : OctetField part) (cs : List UInt8) :
    (∃ qs ip'', fromStringLoop cs ip' (fieldValue part) ps.length = (true, ip'') ∧
      FourFields (dottedFields ps ++ (part ++ cs)) qs) ∨
    ∃ qs ip'', fromStringLoop cs ip' (fieldValue part) ps.length = (false, ip'') ∧ Committed ip qs ip'' ∧
      qs.length ≤ 3 ∧ (∀ q ∈ qs, OctetField q) ∧ dottedFields qs <+: dottedFields ps ++ (part ++ cs) := by
  induction cs generalizing ps part ip' with
  | nil =>
    rw [fromStringLoop]
    split
    · exact .inr ⟨ps, ip', rfl, hcommitted, hlen, hps, List.prefix_append _ _⟩
    · rename_i hthree
      refine .inl ⟨ps ++ [part], _, rfl, ?_, ?_, ?_⟩
      · rw [List.length_append, List.length_singleton]
        omega
      · exact List.forall_mem_append.mpr ⟨hps, List.forall_mem_singleton.mpr hpart⟩
      · rw [List.append_nil, intercalate_concat]
  | cons c cs ih =>
    have hstop : ∃ qs ip'', (false, ip') = (false, ip'') ∧ Committed ip qs ip'' ∧ qs.length ≤ 3 ∧
        (∀ q ∈ qs, OctetField q) ∧ dottedFields qs <+: dottedFields ps ++ (part ++ c :: cs) :=
      ⟨ps, ip', rfl, hcommitted, hlen, hps, List.prefix_append _ _⟩
    rw [fromStringLoop]
    split
    · rename_i hdigit
      have hsmall := hpart.small
      have hc : c.toNat < 256 := c.toNat_lt
      have hmod : (fieldValue part * 10 + (c.toNat - 48)) % 2 ^ 16 = fieldValue (part ++ [c]) := by
        rw [fieldValue_concat, Nat.mod_eq_of_lt (by omega)]
      simp only [hmod]
      split
      · exact .inr hstop
      · rename_i hle
        have hdigits : ∀ b ∈ part ++ [c], isDigit b :=
          List.forall_mem_append.mpr ⟨hpart.digits, List.forall_mem_singleton.mpr hdigit⟩
        have hnext := ih hcommitted hps hlen ⟨hdigits, Nat.le_of_not_lt hle⟩
        rwa [List.append_assoc, List.singleton_append] at hnext
    · split
      · rename_i hdot
        subst hdot
        split
        · exact .inr hstop
        · have hfields : ∀ p ∈ ps ++ [part], OctetField p :=
            List.forall_mem_append.mpr ⟨hps, List.forall_mem_singleton.mpr hpart⟩
          have hnext := ih (hcommitted.concat part) hfields (by rw [List.length_append, List.length_singleton]; omega)
            octetField_nil
          rw [List.length_append, List.length_singleton, dotted_concat, List.nil_append, List.append_assoc,
            List.append_assoc, List.singleton_append] at hnext
          exact hnext
      · exact .inr hstop

end Parsing

section Language

variable {ps qs : List (List UInt8)} {t : List UInt8}

theorem OctetField.not_mem_dot {p : List UInt8} (h : OctetField p) : 46 ∉ p :=
  fun hmem => absurd (h.digits 46 hmem) (by decide)

theorem FourFields.unique (hps : FourFields t ps) (hqs : FourFields t qs) : ps = qs := by
  have hsplit {rs : List (List UInt8)} (h : FourFields t rs) : t.splitOn 46 = rs := by
    rw [h.text]
    apply List.splitOn_intercalate
    · exact fun p hp => (h.fields p hp).not_mem_dot
    · rintro rfl
      cases h.four
  rw [← hsplit hps, ← hsplit hqs]

theorem fromString_cases (address : List UInt8) (ip : IPAddress) :
    (∃ qs ip', fromString address ip = (true, ip') ∧ FourFields (cString address) qs) ∨
    ∃ qs ip', fromString address ip = (false, ip') ∧ Committed ip qs ip' ∧ qs.length ≤ 3 ∧
      (∀ q ∈ qs, OctetField q) ∧ dottedFields qs <+: cString address :=
  fromStringLoop_cases (committed_nil ip) nofun (Nat.zero_le 3) octetField_nil (cString address)

theorem fromString_true_iff (address : List UInt8) (ip : IPAddress) :
    (fromString address ip).1 = true ↔ ∃ ps, FourFields (cString address) ps := by
  constructor
  · intro h
    obtain ⟨qs, ip', -, hfour⟩ | ⟨qs, ip', hrejected, -⟩ := fromString_cases address ip
    · exact ⟨qs, hfour⟩
    · rw [hrejected] at h
      cases h
  · rintro ⟨ps, hps⟩
    obtain ⟨ip', -, hloop⟩ := fromStringLoop_of_fourFields hps ip
    rw [fromString, hloop]

end Language

structure DottedQuad (t : List UInt8) (ps : List (List UInt8)) : Prop extends FourFields t ps where
  numerals : ∀ p ∈ ps, p ≠ []

def TakesDottedQuads (address : List UInt8) (ip : IPAddress) : Prop :=
  ((fromString address ip).1 = true ↔ ∃ ps, DottedQuad (cString address) ps) ∧
    ∀ ps, DottedQuad (cString address) ps →
      ∀ k p, ps[k]? = some p → ((fromString address ip).2.octet k).toNat = fieldValue p

theorem takesDottedQuads_iff (address : List UInt8) (ip : IPAddress) :
    TakesDottedQuads address ip ↔ ∀ ps, FourFields (cString address) ps → ∀ p ∈ ps, p ≠ [] := by
  constructor
  · rintro ⟨haccepts, -⟩ ps hps
    obtain ⟨qs, hqs⟩ := haccepts.mp ((fromString_true_iff address ip).mpr ⟨ps, hps⟩)
    rw [hps.unique hqs.toFourFields]
    exact hqs.numerals
  · intro hnumerals
    refine ⟨?_, ?_⟩
    · rw [fromString_true_iff]
      exact exists_congr fun ps => ⟨fun hps => ⟨hps, hnumerals ps hps⟩, fun hps => hps.toFourFields⟩
    · intro ps hps k p hp
      obtain ⟨ip', hcommitted, hloop⟩ := fromStringLoop_of_fourFields hps.toFourFields ip
      have hk : k < 4 := by
        rw [← hps.four]
        exact (List.getElem?_eq_some_iff.mp hp).1
      rw [fromString, hloop, hcommitted.octet hk hp]
      exact (hps.fields p (List.mem_of_getElem? hp)).toNat

theorem three_dots_accepted :
    (fromString [46, 46, 46, 0] (.ofOctets 192 168 1 10)) = (true, .ofOctets 0 0 0 0) ∧
      ¬ ∃ ps, DottedQuad (cString [46, 46, 46, 0]) ps := by
  refine ⟨by decide, ?_⟩
  rintro ⟨ps, hps⟩
  have hfour : FourFields (cString [46, 46, 46, 0]) [[], [], [], []] :=
    ⟨rfl, by simpa using octetField_nil, rfl⟩
  rw [hps.toFourFields.unique hfour] at hps
  exact hps.numerals [] List.mem_cons_self rfl

def UnchangedWhenRejected (address : List UInt8) (ip : IPAddress) : Prop :=
  (fromString address ip).1 = false → (fromString address ip).2 = ip

/-- A rejected string leaves the address alone only where the fields read before the rejection repeat its octets. -/
theorem unchangedWhenRejected_iff (address : List UInt8) (ip : IPAddress) :
    UnchangedWhenRejected address ip ↔ (∃ ps, FourFields (cString address) ps) ∨
      ∀ ps, ps.length ≤ 3 → (∀ p ∈ ps, OctetField p) → dottedFields ps <+: cString address →
        ∀ k p, ps[k]? = some p → (ip.octet k).toNat = fieldValue p := by
  rw [← fromString_true_iff address ip]
  constructor
  · intro h
    by_cases hok : (fromString address ip).1 = true
    · exact .inl hok
    · refine .inr fun ps hlen hps hdotted k p hp => ?_
      obtain ⟨cs, hcs⟩ := hdotted
      obtain ⟨ip', hcommitted, hloop⟩ := fromStringLoop_dotted hps hlen ip cs
      have hk : k < ps.length := (List.getElem?_eq_some_iff.mp hp).1
      have hkeeps := fromStringLoop_keeps hk hlen cs ip' 0
      rw [← hloop, hcs, hcommitted.octet (by omega) hp] at hkeeps
      rw [← h (Bool.eq_false_iff.mpr hok), fromString, hkeeps]
      exact (hps p (List.mem_of_getElem? hp)).toNat
  · rintro (hok | hsame) hrejected
    · rw [hok] at hrejected
      cases hrejected
    · obtain ⟨qs, ip', haccepted, -⟩ | ⟨qs, ip', hresult, hcommitted, hlen, hqs, hdotted⟩ :=
        fromString_cases address ip
      · rw [haccepted] at hrejected
        cases hrejected
      · rw [hresult]
        apply ext_octet
        intro k hk
        rw [hcommitted k hk]
        cases hq : qs[k]? with
        | none => rfl
        | some q =>
          apply BitVec.eq_of_toNat_eq
          rw [hsame qs hlen hqs hdotted k q hq]
          exact (hqs q (List.mem_of_getElem? hq)).toNat

/-- "9.x" is rejected after its first octet has been stored. -/
theorem rejected_address_changed :
    fromString [57, 46, 120, 0] (.ofOctets 192 168 1 10) = (false, .ofOctets 9 168 1 10) ∧
      ¬ UnchangedWhenRejected [57, 46, 120, 0] (.ofOctets 192 168 1 10) := by
  have hrejected : fromString [57, 46, 120, 0] (.ofOctets 192 168 1 10) = (false, .ofOctets 9 168 1 10) := by decide
  refine ⟨hrejected, fun h => ?_⟩
  have hsame := h (congrArg Prod.fst hrejected)
  rw [hrejected] at hsame
  exact absurd hsame (by decide)

end LogoCore.Ethernet
