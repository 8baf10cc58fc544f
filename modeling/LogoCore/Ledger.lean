import Mathlib.Logic.Function.Basic
import Mathlib.Data.Option.Basic

namespace LogoCore

structure Entry (ι : Type*) where
  owner : Option ι
  closed : Bool

structure Ledger (ι ρ : Type*) where
  held : ι → Option (Option ρ)
  entry : ρ → Option (Entry ι)

namespace Ledger

variable {ι ρ : Type*}

def Holds (l : Ledger ι ρ) (k : ι) (r : ρ) : Prop := l.held k = some (some r)

def name [DecidableEq ι] (l : Ledger ι ρ) (k : ι) (o : Option (Option ρ)) : Ledger ι ρ :=
  { l with held := Function.update l.held k o }

def book [DecidableEq ρ] (l : Ledger ι ρ) (r : ρ) (e : Option (Entry ι)) : Ledger ι ρ :=
  { l with entry := Function.update l.entry r e }

def Shut (e e' : Option (Entry ι)) : Prop :=
  ∀ b ∈ e', b.closed = true ∧ ∃ a ∈ e, b.owner = a.owner ∨ b.owner = none

inductive Tidy [DecidableEq ι] [DecidableEq ρ] : Ledger ι ρ → Ledger ι ρ → Prop
  | quiet (l : Ledger ι ρ) : Tidy l l
  | release (l : Ledger ι ρ) (k : ι) (r : ρ) (e : Option (Entry ι)) (h : l.Holds k r)
      (he : Shut (l.entry r) e) : Tidy l ((l.book r e).name k (some none))
  | shut (l : Ledger ι ρ) (r : ρ) (e : Option (Entry ι)) (he : Shut (l.entry r) e)
      (hr : ∀ a ∈ l.entry r, a.closed = true ∨ ∃ k, a.owner = some k ∧ ¬ l.Holds k r) : Tidy l (l.book r e)

/-- Every open resource reports to the one holder that names it, and no closed one is named. -/
structure Consistent (l : Ledger ι ρ) : Prop where
  opened : ∀ r e, l.entry r = some e → e.closed = false → ∃ k, e.owner = some k ∧ l.Holds k r
  unique : ∀ k k' r, l.Holds k r → l.Holds k' r → k = k'
  closed : ∀ k r e, l.Holds k r → l.entry r = some e → e.closed = false

def Attached (l : Ledger ι ρ) : Prop := ∀ r e k, l.entry r = some e → e.owner = some k → l.held k ≠ none

def Anchored (l : Ledger ι ρ) : Prop :=
  ∀ k r, l.Holds k r → ∃ e, l.entry r = some e ∧ e.closed = false ∧ e.owner = some k

theorem Holds.inj {l : Ledger ι ρ} {k : ι} {r s : ρ} (h : l.Holds k r) (h' : l.Holds k s) : r = s :=
  Option.some.inj (Option.some.inj (h.symm.trans h'))

theorem Anchored.unique {l : Ledger ι ρ} (h : l.Anchored) {k k' : ι} {r : ρ} (hk : l.Holds k r)
    (hk' : l.Holds k' r) : k = k' := by
  obtain ⟨e, he, -, ho⟩ := h k r hk
  obtain ⟨e', he', -, ho'⟩ := h k' r hk'
  obtain rfl : e = e' := Option.some.inj (he.symm.trans he')
  exact Option.some.inj (ho.symm.trans ho')

variable [DecidableEq ι] [DecidableEq ρ] {l l' : Ledger ι ρ} {k : ι} {r : ρ} {e : Option (Entry ι)}

section Names

omit [DecidableEq ρ]

theorem holds_name {o : Option (Option ρ)} {j : ι} {s : ρ} :
    (l.name k o).Holds j s ↔ if j = k then o = some (some s) else l.Holds j s := by
  by_cases h : j = k
  · subst j; simp [Holds, name]
  · simp [Holds, name, h]

theorem held_name_ne_none {o : Option ρ} {j : ι} (h : l.held j ≠ none) : (l.name k (some o)).held j ≠ none := by
  by_cases hj : j = k
  · subst j; simp [name]
  · simpa [name, hj] using h

theorem holds_drop {j : ι} {s : ρ} (h : (l.name k (some none)).Holds j s) : j ≠ k ∧ l.Holds j s := by
  rw [holds_name] at h
  by_cases hj : j = k
  · simp [hj] at h
  · rw [if_neg hj] at h
    exact ⟨hj, h⟩

theorem holds_drop_of_ne {j : ι} {s : ρ} (hj : j ≠ k) (h : l.Holds j s) : (l.name k (some none)).Holds j s := by
  rwa [holds_name, if_neg hj]

end Names

omit [DecidableEq ι] in
theorem entry_book {s : ρ} : (l.book r e).entry s = if s = r then e else l.entry s := by
  by_cases h : s = r
  · subst s; simp [book]
  · simp [book, h]

omit [DecidableEq ι] in
theorem entry_of_book {s : ρ} {a : Entry ι} (he : ∀ b ∈ e, b.closed = true) (ha : (l.book r e).entry s = some a)
    (hc : a.closed = false) : s ≠ r ∧ l.entry s = some a := by
  rw [entry_book] at ha
  by_cases hs : s = r
  · rw [if_pos hs] at ha
    rw [he a ha] at hc
    cases hc
  · rw [if_neg hs] at ha
    exact ⟨hs, ha⟩

namespace Consistent

omit [DecidableEq ι] in
theorem book (h : l.Consistent) (he : ∀ b ∈ e, b.closed = true) (hr : ∀ k, l.Holds k r → e = none) :
    (l.book r e).Consistent := by
  constructor
  · intro s a ha hc
    exact h.opened s a (entry_of_book he ha hc).2 hc
  · exact h.unique
  · intro k s a hk ha
    rw [entry_book] at ha
    by_cases hs : s = r
    · subst s
      rw [if_pos rfl, hr k hk] at ha
      cases ha
    · rw [if_neg hs] at ha
      exact h.closed k s a hk ha

omit [DecidableEq ρ] in
theorem drop_iff (h : l.Consistent) :
    (l.name k (some none)).Consistent ↔ ∀ s, l.Holds k s → l.entry s = none := by
  constructor
  · intro h' s hs
    by_contra hne
    obtain ⟨a, ha⟩ := Option.ne_none_iff_exists'.mp hne
    obtain ⟨j, -, hj⟩ := h'.opened s a ha (h.closed k s a hs ha)
    obtain ⟨hjk, hj⟩ := holds_drop hj
    exact hjk (h.unique j k s hj hs)
  · intro hk
    constructor
    · intro s a ha hc
      obtain ⟨j, ho, hj⟩ := h.opened s a ha hc
      refine ⟨j, ho, holds_drop_of_ne ?_ hj⟩
      rintro rfl
      have hnone := hk s hj
      change l.entry s = some a at ha
      rw [hnone] at ha
      cases ha
    · exact fun j j' s hj hj' => h.unique j j' s (holds_drop hj).2 (holds_drop hj').2
    · exact fun j s a hj ha => h.closed j s a (holds_drop hj).2 ha

theorem release (h : l.Consistent) (hk : l.Holds k r) (he : ∀ b ∈ e, b.closed = true) :
    ((l.book r e).name k (some none)).Consistent := by
  constructor
  · intro s a ha hc
    obtain ⟨hs, ha⟩ := entry_of_book he (show (l.book r e).entry s = some a from ha) hc
    obtain ⟨j, ho, hj⟩ := h.opened s a ha hc
    refine ⟨j, ho, holds_drop_of_ne ?_ hj⟩
    rintro rfl
    exact hs (hj.inj hk)
  · exact fun j j' s hj hj' => h.unique j j' s (holds_drop hj).2 (holds_drop hj').2
  · intro j s a hj ha
    obtain ⟨hjk, hj⟩ := holds_drop hj
    have hs : s ≠ r := by
      rintro rfl
      exact hjk (h.unique j k s hj hk)
    change (l.book r e).entry s = some a at ha
    rw [entry_book, if_neg hs] at ha
    exact h.closed j s a hj ha

theorem tidy (h : l.Consistent) (ht : Tidy l l') : l'.Consistent := by
  cases ht with
  | quiet => exact h
  | release k r e hk he => exact h.release hk fun b hb => (he b hb).1
  | shut r e he hr =>
    refine h.book (fun b hb => (he b hb).1) fun k hk => ?_
    cases e with
    | none => rfl
    | some b =>
      exfalso
      -- an open resource that somebody names is named by the holder it reports to
      obtain ⟨-, a, ha, -⟩ := he b rfl
      have hopen := h.closed k r a hk ha
      obtain ⟨j, ho, hj⟩ := h.opened r a ha hopen
      obtain hc | ⟨i, hi, hn⟩ := hr a ha
      · rw [hopen] at hc; cases hc
      · rw [ho] at hi
        cases hi
        exact hn hj

theorem acquire_iff (h : l.Consistent) (hr : l.entry r = none) :
    ((l.book r (some ⟨some k, false⟩)).name k (some (some r))).Consistent ↔
      (∀ s, l.Holds k s → l.entry s = none) ∧ ∀ j, j ≠ k → ¬ l.Holds j r := by
  have hnew : ((l.book r (some ⟨some k, false⟩)).name k (some (some r))).Holds k r := by
    rw [holds_name, if_pos rfl]
  have hother {j : ι} {s : ρ} (hj : j ≠ k) :
      ((l.book r (some ⟨some k, false⟩)).name k (some (some r))).Holds j s ↔ l.Holds j s := by
    rw [holds_name, if_neg hj]; rfl
  have hold {s : ρ} (hs : s ≠ r) :
      ((l.book r (some ⟨some k, false⟩)).name k (some (some r))).entry s = l.entry s := by
    change (l.book r _).entry s = _
    rw [entry_book, if_neg hs]
  constructor
  · intro h'
    refine ⟨fun s hs => ?_, fun j hj hjr => hj (h'.unique j k r ((hother hj).mpr hjr) hnew)⟩
    by_contra hne
    obtain ⟨a, ha⟩ := Option.ne_none_iff_exists'.mp hne
    have hsr : s ≠ r := by rintro rfl; exact hne hr
    obtain ⟨j, -, hj⟩ := h'.opened s a ((hold hsr).trans ha) (h.closed k s a hs ha)
    by_cases hjk : j = k
    · subst j; exact hsr (hj.inj hnew)
    · exact hjk (h.unique j k s ((hother hjk).mp hj) hs)
  · rintro ⟨hk, hfresh⟩
    constructor
    · intro s a ha hc
      by_cases hs : s = r
      · subst s
        change (l.book r _).entry r = some a at ha
        rw [entry_book, if_pos rfl] at ha
        cases ha
        exact ⟨k, rfl, hnew⟩
      · rw [hold hs] at ha
        obtain ⟨j, ho, hj⟩ := h.opened s a ha hc
        refine ⟨j, ho, (hother ?_).mpr hj⟩
        rintro rfl
        rw [hk s hj] at ha
        cases ha
    · intro j j' s hj hj'
      by_cases hjk : j = k <;> by_cases hjk' : j' = k
      · exact hjk.trans hjk'.symm
      · subst hjk
        obtain rfl := hj.inj hnew
        exact absurd ((hother hjk').mp hj') (hfresh j' hjk')
      · subst hjk'
        obtain rfl := hj'.inj hnew
        exact absurd ((hother hjk).mp hj) (hfresh j hjk)
      · exact h.unique j j' s ((hother hjk).mp hj) ((hother hjk').mp hj')
    · intro j s a hj ha
      by_cases hs : s = r
      · subst s
        change (l.book r _).entry r = some a at ha
        rw [entry_book, if_pos rfl] at ha
        cases ha
        rfl
      · rw [hold hs] at ha
        by_cases hjk : j = k
        · subst j; exact absurd (hj.inj hnew) hs
        · exact h.closed j s a ((hother hjk).mp hj) ha

omit [DecidableEq ρ] in
theorem share_iff (h : l.Consistent) {j : ι} (hjk : j ≠ k) {o : Option ρ} (hk : l.held k = some o) :
    (l.name j (some o)).Consistent ↔ o = none ∧ ∀ s, l.Holds j s → l.entry s = none := by
  cases o with
  | none => simpa using h.drop_iff
  | some s =>
    refine iff_of_false (fun h' => hjk ?_) (by simp)
    refine h'.unique j k s ?_ ?_
    · rw [holds_name, if_pos rfl]
    · rw [holds_name, if_neg (Ne.symm hjk)]
      exact hk

omit [DecidableEq ρ] in
theorem remove_iff (h : l.Consistent) (ha : l.Attached) :
    (l.name k none).Consistent ∧ (l.name k none).Attached ↔
      ∀ s a, l.entry s = some a → a.owner ≠ some k := by
  have hholds {j : ι} {s : ρ} (hj : (l.name k none).Holds j s) : l.Holds j s := by
    rw [holds_name] at hj
    by_cases hjk : j = k
    · simp [hjk] at hj
    · rwa [if_neg hjk] at hj
  constructor
  · rintro ⟨-, ha'⟩ s a hs ho
    exact ha' s a k hs ho (by simp [name])
  · intro hk
    refine ⟨⟨?_, ?_, ?_⟩, ?_⟩
    · intro s a hs hc
      obtain ⟨j, ho, hj⟩ := h.opened s a hs hc
      have hjk : j ≠ k := by rintro rfl; exact hk s a hs ho
      exact ⟨j, ho, by rwa [holds_name, if_neg hjk]⟩
    · exact fun j j' s hj hj' => h.unique j j' s (hholds hj) (hholds hj')
    · exact fun j s a hj hs => h.closed j s a (hholds hj) hs
    · intro s a j hs ho
      have hjk : j ≠ k := by rintro rfl; exact hk s a hs ho
      simpa [name, hjk] using ha s a j hs ho

end Consistent

namespace Attached

omit [DecidableEq ρ] in
theorem name (h : l.Attached) (o : Option ρ) : (l.name k (some o)).Attached :=
  fun s a j hs ho => held_name_ne_none (h s a j hs ho)

omit [DecidableEq ι] in
theorem book (h : l.Attached) (he : ∀ b j, b ∈ e → b.owner = some j → l.held j ≠ none) :
    (l.book r e).Attached := by
  intro s a j hs ho
  rw [entry_book] at hs
  by_cases hsr : s = r
  · rw [if_pos hsr] at hs
    exact he a j hs ho
  · rw [if_neg hsr] at hs
    exact h s a j hs ho

omit [DecidableEq ι] in
theorem shut (h : l.Attached) (he : Shut (l.entry r) e) : (l.book r e).Attached := by
  refine h.book fun b j hb hj => ?_
  obtain ⟨-, a, ha, ho | ho⟩ := he b hb
  · exact h r a j ha (ho ▸ hj)
  · rw [ho] at hj; cases hj

theorem tidy (h : l.Attached) (ht : Tidy l l') : l'.Attached := by
  cases ht with
  | quiet => exact h
  | release k r e hk he => exact (h.shut he).name none
  | shut r e he hr => exact h.shut he

end Attached

namespace Anchored

omit [DecidableEq ι] in
theorem book (h : l.Anchored) (hr : ∀ k, ¬ l.Holds k r) : (l.book r e).Anchored := by
  intro k s hk
  have hs : s ≠ r := by rintro rfl; exact hr k hk
  rw [entry_book, if_neg hs]
  exact h k s hk

omit [DecidableEq ρ] in
theorem drop (h : l.Anchored) : (l.name k (some none)).Anchored :=
  fun j s hj => h j s (holds_drop hj).2

theorem release (h : l.Anchored) (hk : l.Holds k r) : ((l.book r e).name k (some none)).Anchored := by
  intro j s hj
  obtain ⟨hjk, hj⟩ := holds_drop hj
  have hs : s ≠ r := by rintro rfl; exact hjk (h.unique hj hk)
  change ∃ a, (l.book r e).entry s = some a ∧ _
  rw [entry_book, if_neg hs]
  exact h j s hj

theorem acquire (h : l.Anchored) (hr : l.entry r = none) :
    ((l.book r (some ⟨some k, false⟩)).name k (some (some r))).Anchored := by
  intro j s hj
  change ∃ a, (l.book r _).entry s = some a ∧ _
  rw [entry_book]
  by_cases hjk : j = k
  · subst j
    rw [holds_name, if_pos rfl] at hj
    obtain rfl : r = s := by simpa using hj
    exact ⟨_, if_pos rfl, rfl, rfl⟩
  · rw [holds_name, if_neg hjk] at hj
    have hold : l.Holds j s := hj
    have hs : s ≠ r := by
      rintro rfl
      obtain ⟨a, ha, -⟩ := h j s hold
      rw [hr] at ha
      cases ha
    rw [if_neg hs]
    exact h j s hold

theorem tidy (h : l.Anchored) (ht : Tidy l l') : l'.Anchored := by
  cases ht with
  | quiet => exact h
  | release k r e hk he => exact h.release hk
  | shut r e he hr =>
    refine h.book fun k hk => ?_
    obtain ⟨a, ha, hopen, ho⟩ := h k r hk
    obtain hc | ⟨j, hj, hn⟩ := hr a ha
    · rw [hopen] at hc; cases hc
    · rw [ho] at hj
      cases hj
      exact hn hk

end Anchored

end Ledger

end LogoCore
