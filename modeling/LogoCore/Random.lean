import LogoCore.SignedWords

namespace LogoCore.Random

open SignedWords

def addModulus (x : ℤ) : Option ℤ := if x < 0 then checked (x + 0x7fffffff) else some x

/-- do_random(): the value returned and the state after it; none: an operation on long overflows. -/
def doRandom (ctx : UInt32) : Option (ℤ × UInt32) := do
  let x := ctx.toInt32.toInt
  let x := if x = 0 then 123459876 else x
  let hi ← div x 127773
  let lo ← rem x 127773
  let a ← checked (16807 * lo)
  let b ← checked (2836 * hi)
  let x ← checked (a - b)
  let x ← addModulus x
  let ctx := (Int32.ofInt x).toUInt32
  return ((ctx % (0x7fffffff + 1)).toInt32.toInt, ctx)

def randomSeed (seed next : UInt32) : UInt32 := if seed ≠ 0 then seed else next

inductive RandomCall
  | random
  | srandom (seed : UInt32)
  | randomSeed (seed : UInt32)

structure Draw where
  before : UInt32
  value : ℤ
  after : UInt32

/-- The draws of a sequence of calls and the state `next` at its end. -/
def runCalls : List RandomCall → UInt32 → Option (List Draw × UInt32)
  | [], next => some ([], next)
  | .random :: calls, next => do
    let r ← doRandom next
    let rest ← runCalls calls r.2
    return (⟨next, r.1, r.2⟩ :: rest.1, rest.2)
  | .srandom seed :: calls, _ => runCalls calls seed
  | .randomSeed seed :: calls, next => runCalls calls (randomSeed seed next)

def randomBelow (howbig : Int32) (next : UInt32) : Option (ℤ × UInt32) :=
  if howbig = 0 then some (0, next)
  else do
    let r ← doRandom next
    let v ← rem r.1 howbig.toInt
    return (v, r.2)

def randomBetween (howsmall howbig : Int32) (next : UInt32) : Option (ℤ × UInt32) :=
  if howsmall ≥ howbig then some (howsmall.toInt, next)
  else do
    -- modulo 2^32 where the difference does not fit
    let diff := howbig - howsmall
    let r ← randomBelow diff next
    let v ← checked (r.1 + howsmall.toInt)
    return (v, r.2)

def stateValue (ctx : UInt32) : ℤ := if ctx.toInt32.toInt = 0 then 123459876 else ctx.toInt32.toInt

/-- One step of the generator x ↦ 16807 x modulo 2^31 - 1. -/
structure Draw.ParkMiller (d : Draw) : Prop where
  congruent : (d.after.toNat : ℤ) ≡ 16807 * stateValue d.before [ZMOD 2 ^ 31 - 1]
  bounded : d.after.toNat ≤ 2 ^ 31 - 2
  returned : d.value = d.after.toNat

/-- The draws of a list of calls: one for each random(), each from the state that the calls before it left. -/
inductive DrawnBy : List RandomCall → UInt32 → List Draw → UInt32 → Prop
  | done (next : UInt32) : DrawnBy [] next [] next
  | random {calls : List RandomCall} {draws : List Draw} {last : UInt32} (d : Draw)
      (rest : DrawnBy calls d.after draws last) : DrawnBy (.random :: calls) d.before (d :: draws) last
  | srandom {calls : List RandomCall} {draws : List Draw} {last : UInt32} (seed next : UInt32)
      (rest : DrawnBy calls seed draws last) : DrawnBy (.srandom seed :: calls) next draws last
  | randomSeed {calls : List RandomCall} {draws : List Draw} {last : UInt32} (seed next : UInt32)
      (rest : DrawnBy calls (Random.randomSeed seed next) draws last) :
      DrawnBy (.randomSeed seed :: calls) next draws last

def reduced (x : ℤ) : ℤ :=
  if 16807 * x.tmod 127773 - 2836 * x.tdiv 127773 < 0
  then 16807 * x.tmod 127773 - 2836 * x.tdiv 127773 + 0x7fffffff
  else 16807 * x.tmod 127773 - 2836 * x.tdiv 127773

section Schrage

variable {x : ℤ}

theorem fits_products (h : Fits x) :
    Fits (16807 * x.tmod 127773) ∧ Fits (2836 * x.tdiv 127773) ∧
      Fits (16807 * x.tmod 127773 - 2836 * x.tdiv 127773) := by
  obtain ⟨hsplit, hsign⟩ := tdiv_tmod_cases x (show (0 : ℤ) < 127773 by decide)
  unfold Fits at *
  omega

theorem reduced_bounds (h : Fits x) : 0 ≤ reduced x ∧ reduced x ≤ 2 ^ 31 - 2 := by
  obtain ⟨hsplit, hsign⟩ := tdiv_tmod_cases x (show (0 : ℤ) < 127773 by decide)
  unfold Fits at h
  unfold reduced
  split <;> omega

theorem addModulus_eq (h : Fits x) :
    addModulus (16807 * x.tmod 127773 - 2836 * x.tdiv 127773) = some (reduced x) := by
  obtain ⟨hlow, hhigh⟩ := reduced_bounds h
  unfold reduced at *
  unfold addModulus
  split
  · rename_i hneg
    rw [if_pos hneg] at hlow hhigh
    exact checked_eq ⟨by omega, by omega⟩
  · rfl

theorem reduced_congruent (x : ℤ) : reduced x ≡ 16807 * x [ZMOD 2 ^ 31 - 1] := by
  obtain ⟨hsplit, -⟩ := tdiv_tmod_cases x (show (0 : ℤ) < 127773 by decide)
  -- 2^31 - 1 = 127773 * 16807 + 2836
  apply Int.modEq_iff_dvd.mpr
  unfold reduced
  split
  · exact ⟨x.tdiv 127773 - 1, by omega⟩
  · exact ⟨x.tdiv 127773, by omega⟩

theorem fits_stateValue (ctx : UInt32) : Fits (stateValue ctx) := by
  unfold stateValue
  split
  · decide
  · exact fits_toInt _

end Schrage

theorem ofInt_toUInt32 {n : ℤ} (h : 0 ≤ n ∧ n < 2 ^ 31) : (Int32.ofInt n).toUInt32 = UInt32.ofNat n.toNat := by
  obtain ⟨m, rfl⟩ := Int.eq_ofNat_of_zero_le h.1
  rw [Int32.ofInt_eq_ofNat, Int.toNat_natCast]
  rfl

theorem toInt_toInt32_mod {n : ℕ} (h : n < 2 ^ 31) :
    (UInt32.ofNat n % (0x7fffffff + 1)).toInt32.toInt = n := by
  have hmod : UInt32.ofNat n % (0x7fffffff + 1) = UInt32.ofNat n := by
    apply UInt32.toNat_inj.mp
    rw [UInt32.toNat_mod, UInt32.toNat_ofNat']
    change n % 2 ^ 32 % 2 ^ 31 = n % 2 ^ 32
    omega
  rw [hmod]
  have hround : (UInt32.ofNat n).toInt32 = Int32.ofNat n := rfl
  rw [hround, ← Int32.ofInt_eq_ofNat, toInt_ofInt_of_fits]
  unfold Fits
  omega

theorem doRandom_eq (ctx : UInt32) :
    doRandom ctx = some (reduced (stateValue ctx), UInt32.ofNat (reduced (stateValue ctx)).toNat) := by
  have hfits := fits_stateValue ctx
  have hstate : (if ctx.toInt32.toInt = 0 then 123459876 else ctx.toInt32.toInt) = stateValue ctx := rfl
  obtain ⟨hleft, hright, hdiff⟩ := fits_products hfits
  obtain ⟨hlow, hhigh⟩ := reduced_bounds hfits
  simp only [doRandom, hstate, div_eq hfits (show (127773 : ℤ) ≠ 0 by decide) (.inr (by decide)),
    rem_eq hfits (show (127773 : ℤ) ≠ 0 by decide) (.inr (by decide)), Option.bind_eq_bind, Option.bind_some,
    checked_eq hleft, checked_eq hright, checked_eq hdiff, addModulus_eq hfits, Option.pure_def]
  rw [ofInt_toUInt32 ⟨hlow, by omega⟩, toInt_toInt32_mod (by omega), Int.toNat_of_nonneg hlow]

theorem doRandom_parkMiller (ctx : UInt32) :
    ∃ v ctx', doRandom ctx = some (v, ctx') ∧ Draw.ParkMiller ⟨ctx, v, ctx'⟩ := by
  obtain ⟨hlow, hhigh⟩ := reduced_bounds (fits_stateValue ctx)
  have hnat : ((UInt32.ofNat (reduced (stateValue ctx)).toNat).toNat : ℤ) = reduced (stateValue ctx) := by
    rw [UInt32.toNat_ofNat', Nat.mod_eq_of_lt (by omega), Int.toNat_of_nonneg hlow]
  refine ⟨_, _, doRandom_eq ctx, ?_, ?_, hnat.symm⟩
  · rw [hnat]
    exact reduced_congruent _
  · change (UInt32.ofNat (reduced (stateValue ctx)).toNat).toNat ≤ 2 ^ 31 - 2
    omega

theorem Draw.ParkMiller.value_bounds {d : Draw} (h : d.ParkMiller) : 0 ≤ d.value ∧ d.value ≤ 2 ^ 31 - 2 := by
  have hbounded := h.bounded
  rw [h.returned]
  omega

theorem random_is_parkMiller (next : UInt32) (calls : List RandomCall) :
    ∃ draws last, runCalls calls next = some (draws, last) ∧ DrawnBy calls next draws last ∧
      ∀ d ∈ draws, d.ParkMiller ∧ 0 ≤ d.value ∧ d.value ≤ 2 ^ 31 - 2 := by
  induction calls generalizing next with
  | nil => exact ⟨[], next, rfl, .done next, nofun⟩
  | cons call calls ih =>
    cases call with
    | random =>
      obtain ⟨v, next', hdraw, hstep⟩ := doRandom_parkMiller next
      obtain ⟨draws, last, hrest, hdrawn, hall⟩ := ih next'
      refine ⟨⟨next, v, next'⟩ :: draws, last, ?_, .random ⟨next, v, next'⟩ hdrawn,
        List.forall_mem_cons.mpr ⟨⟨hstep, hstep.value_bounds⟩, hall⟩⟩
      rw [runCalls, hdraw, Option.bind_eq_bind, Option.bind_some, hrest]
      rfl
    | srandom seed =>
      obtain ⟨draws, last, hrest, hdrawn, hall⟩ := ih seed
      exact ⟨draws, last, hrest, .srandom seed next hdrawn, hall⟩
    | randomSeed seed =>
      obtain ⟨draws, last, hrest, hdrawn, hall⟩ := ih (randomSeed seed next)
      exact ⟨draws, last, hrest, .randomSeed seed next hdrawn, hall⟩

theorem randomBelow_bounds {howbig : Int32} (hne : howbig ≠ 0) (next : UInt32) :
    ∃ v next', randomBelow howbig next = some (v, next') ∧ 0 ≤ v ∧ v < howbig.toInt.natAbs := by
  have hzero : howbig.toInt ≠ 0 := by
    intro heq
    exact hne (Int32.toInt_inj.mp heq)
  obtain ⟨r, next', hdraw, hstep⟩ := doRandom_parkMiller next
  obtain ⟨hlow, hhigh⟩ : 0 ≤ r ∧ r ≤ 2 ^ 31 - 2 := hstep.value_bounds
  have hfits : Fits r := ⟨by omega, by omega⟩
  refine ⟨r.tmod howbig.toInt, next', ?_, Int.tmod_nonneg _ hlow, ?_⟩
  · rw [randomBelow, if_neg hne, hdraw, Option.bind_eq_bind, Option.bind_some, rem_eq hfits hzero (.inl hlow)]
    rfl
  · rw [Int.tmod_eq_emod_of_nonneg hlow]
    exact Int.emod_lt r hzero

theorem natAbs_sub_le {lo hi : Int32} (h : lo < hi) :
    hi - lo ≠ 0 ∧ ((hi - lo).toInt.natAbs : ℤ) ≤ hi.toInt - lo.toInt := by
  have hlt := Int32.lt_iff_toInt_lt.mp h
  obtain ⟨hlo, hlo'⟩ := fits_toInt lo
  obtain ⟨hhi, hhi'⟩ := fits_toInt hi
  have hsub : (hi - lo).toInt = if hi.toInt - lo.toInt < 2 ^ 31 then hi.toInt - lo.toInt
      else hi.toInt - lo.toInt - 2 ^ 32 := by
    rw [Int32.toInt_sub]
    split
    · exact bmod_eq_of_fits ⟨by omega, by omega⟩
    · rw [← Int.sub_bmod_right]
      exact bmod_eq_of_fits ⟨by omega, by omega⟩
  refine ⟨?_, ?_⟩
  · intro heq
    rw [heq] at hsub
    change 0 = _ at hsub
    split at hsub <;> omega
  · rw [hsub]
    split <;> omega

theorem randomBetween_in_range (lo hi : Int32) (h : lo < hi) (next : UInt32) :
    ∃ v next', randomBetween lo hi next = some (v, next') ∧ lo.toInt ≤ v ∧ v < hi.toInt := by
  obtain ⟨hne, hle⟩ := natAbs_sub_le h
  obtain ⟨v, next', hbelow, hlow, hhigh⟩ := randomBelow_bounds hne next
  obtain ⟨hlo, -⟩ := fits_toInt lo
  obtain ⟨-, hhi⟩ := fits_toInt hi
  refine ⟨v + lo.toInt, next', ?_, by omega, by omega⟩
  have hfits : Fits (v + lo.toInt) := ⟨by omega, by omega⟩
  rw [randomBetween, if_neg (by simpa using h)]
  simp only [Option.bind_eq_bind, hbelow, Option.bind_some, checked_eq hfits, Option.pure_def]

theorem randomBetween_over_all_longs :
    ∃ v next', randomBetween (-2147483648) 2147483647 1 = some (v, next') ∧
      (-2147483648 : Int32).toInt ≤ v ∧ v < (2147483647 : Int32).toInt :=
  randomBetween_in_range (-2147483648) 2147483647 (by decide) 1

end LogoCore.Random
