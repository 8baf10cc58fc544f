import Mathlib.Data.List.Basic
import Mathlib.Algebra.Group.Int.Defs

namespace LogoCore

/-- A deterministic machine driven by events; `enabled` is what its environment promises. -/
structure Machine (σ ε : Type*) where
  enabled : σ → ε → Prop
  step : σ → ε → σ

namespace Machine

variable {σ ε : Type*} (M : Machine σ ε)

def run (s : σ) (es : List ε) : σ := es.foldl M.step s

def Legal (M : Machine σ ε) : σ → List ε → Prop
  | _, [] => True
  | s, e :: es => M.enabled s e ∧ Legal M (M.step s e) es

instance decidableLegal [∀ s e, Decidable (M.enabled s e)] (s : σ) (es : List ε) :
    Decidable (M.Legal s es) :=
  match es with
  | [] => isTrue trivial
  | e :: es => @instDecidableAnd _ _ inferInstance (decidableLegal (M.step s e) es)

@[simp] theorem run_nil (s : σ) : M.run s [] = s := rfl

@[simp] theorem run_cons (s : σ) (e : ε) (es : List ε) :
    M.run s (e :: es) = M.run (M.step s e) es := rfl

theorem run_append (s : σ) (es fs : List ε) : M.run s (es ++ fs) = M.run (M.run s es) fs := by
  simp [run]

theorem legal_append (s : σ) (es fs : List ε) :
    M.Legal s (es ++ fs) ↔ M.Legal s es ∧ M.Legal (M.run s es) fs := by
  induction es generalizing s with
  | nil => simp [Legal]
  | cons e es ih => simp [Legal, ih, and_assoc]

variable {M}

theorem legal_mono {N : Machine σ ε} (hs : N.step = M.step) {es : List ε}
    (he : ∀ s, ∀ e ∈ es, M.enabled s e → N.enabled s e) {s : σ} (h : M.Legal s es) : N.Legal s es := by
  induction es generalizing s with
  | nil => trivial
  | cons e es ih =>
    refine ⟨he s e (by simp) h.1, ?_⟩
    rw [hs]
    exact ih (fun s e' he' => he s e' (by simp [he'])) h.2

theorem legal_iff_splits {s : σ} {es : List ε} :
    M.Legal s es ↔ ∀ fs e gs, es = fs ++ e :: gs → M.enabled (M.run s fs) e := by
  induction es generalizing s with
  | nil => simp [Legal]
  | cons e es ih =>
    constructor
    · rintro ⟨he, hl⟩ fs e' gs h
      cases fs with
      | nil =>
        obtain ⟨rfl, rfl⟩ := List.cons.inj h
        exact he
      | cons a fs =>
        obtain ⟨rfl, rfl⟩ := List.cons.inj h
        exact ih.mp hl fs e' gs rfl
    · intro h
      exact ⟨h [] e es rfl, ih.mpr fun fs e' gs he => h (e :: fs) e' gs (by rw [he]; rfl)⟩

theorem legal_and {P : σ → ε → Prop} {s : σ} {es : List ε} (h : M.Legal s es)
    (hP : ∀ fs e gs, es = fs ++ e :: gs → P (M.run s fs) e) :
    (Machine.mk (fun s e => M.enabled s e ∧ P s e) M.step).Legal s es :=
  legal_iff_splits.mpr fun fs e gs he => ⟨legal_iff_splits.mp h fs e gs he, hP fs e gs he⟩

theorem legal_congr {I : σ → Prop} {P Q : σ → ε → Prop}
    (hPQ : ∀ s e, I s → M.enabled s e → (P s e ↔ Q s e))
    (hI : ∀ s e, I s → M.enabled s e → Q s e → I (M.step s e)) {s : σ} (h : I s) {es : List ε}
    (hl : M.Legal s es) : (Machine.mk P M.step).Legal s es ↔ (Machine.mk Q M.step).Legal s es := by
  induction es generalizing s with
  | nil => exact Iff.rfl
  | cons e es ih =>
    constructor
    · rintro ⟨hp, hes⟩
      have hq := (hPQ s e h hl.1).mp hp
      exact ⟨hq, (ih (hI s e h hl.1 hq) hl.2).mp hes⟩
    · rintro ⟨hq, hes⟩
      exact ⟨(hPQ s e h hl.1).mpr hq, (ih (hI s e h hl.1 hq) hl.2).mpr hes⟩

theorem always_iff {I P : σ → Prop} {Q : σ → ε → Prop} (hP : ∀ s, I s → P s)
    (hQ : ∀ s e, I s → M.enabled s e → P (M.step s e) → Q s e)
    (hI : ∀ s e, I s → M.enabled s e → Q s e → I (M.step s e)) {s : σ} (h : I s) {es : List ε}
    (hl : M.Legal s es) :
    (∀ fs gs, es = fs ++ gs → P (M.run s fs)) ↔ (Machine.mk Q M.step).Legal s es := by
  induction es generalizing s with
  | nil =>
    refine iff_of_true (fun fs gs hs => ?_) trivial
    obtain ⟨rfl, -⟩ := List.nil_eq_append_iff.mp hs
    exact hP s h
  | cons e es ih =>
    constructor
    · intro hall
      have hq := hQ s e h hl.1 (hall [e] es rfl)
      exact ⟨hq, (ih (hI s e h hl.1 hq) hl.2).mp fun fs gs hs => hall (e :: fs) gs (by rw [hs]; rfl)⟩
    · rintro ⟨hq, hrest⟩ fs gs hs
      cases fs with
      | nil => exact hP s h
      | cons a fs =>
        obtain ⟨rfl, rfl⟩ := List.cons.inj hs
        exact (ih (hI s e h hl.1 hq) hl.2).mpr hrest fs gs rfl

def total (M : Machine σ ε) (d : σ → ε → ℤ) : σ → List ε → ℤ
  | _, [] => 0
  | s, e :: es => d s e + M.total d (M.step s e) es

theorem total_eq_iff (f : σ → ℤ) (d : σ → ε → ℤ) {s : σ} {es : List ε} :
    (∀ fs gs, es = fs ++ gs → f (M.run s fs) = f s + M.total d s fs) ↔
      (Machine.mk (fun s e => f (M.step s e) = f s + d s e) M.step).Legal s es := by
  induction es generalizing s with
  | nil =>
    refine iff_of_true (fun fs gs h => ?_) trivial
    obtain ⟨rfl, -⟩ := List.nil_eq_append_iff.mp h
    simp [total]
  | cons e es ih =>
    constructor
    · intro h
      have hone : f (M.step s e) = f s + d s e := by simpa [total] using h [e] es rfl
      refine ⟨hone, ih.mp fun fs gs he => ?_⟩
      have hrest := h (e :: fs) gs (by rw [he]; rfl)
      rw [run_cons, total] at hrest
      change f (M.run (M.step s e) fs) = f (M.step s e) + M.total d (M.step s e) fs
      rw [hrest, hone, Int.add_assoc]
    · rintro ⟨hone, hrest⟩ fs gs h
      cases fs with
      | nil => simp [total]
      | cons a fs =>
        obtain ⟨rfl, rfl⟩ := List.cons.inj h
        rw [run_cons, total, ih.mpr hrest fs gs rfl, hone, Int.add_assoc]

theorem invariant {I : σ → Prop} (hstep : ∀ s e, M.enabled s e → I s → I (M.step s e))
    {s : σ} (h : I s) {es : List ε} (hl : M.Legal s es) : I (M.run s es) := by
  induction es generalizing s with
  | nil => exact h
  | cons e es ih => exact ih (hstep s e hl.1 h) hl.2

theorem invariant_on {I : σ → Prop} {P : ε → Prop} (hstep : ∀ s e, P e → I s → I (M.step s e)) {s : σ} (h : I s)
    {es : List ε} (hes : ∀ e ∈ es, P e) : I (M.run s es) := by
  induction es generalizing s with
  | nil => exact h
  | cons e es ih =>
    rw [List.forall_mem_cons] at hes
    exact ih (hstep s e hes.1 h) hes.2

theorem invariant_under {I : σ → Prop} {P : σ → ε → Prop}
    (hstep : ∀ s e, M.enabled s e → P s e → I s → I (M.step s e)) {s : σ} (h : I s) {es : List ε}
    (hl : M.Legal s es) (hp : (Machine.mk P M.step).Legal s es) : I (M.run s es) := by
  induction es generalizing s with
  | nil => exact h
  | cons e es ih => exact ih (hstep s e hl.1 hp.1 h) hl.2 hp.2

end Machine

end LogoCore
