import Mathlib.Data.List.Basic

namespace LogoCore.Upload

abbrev Arg := List UInt8

def ascii (cs : List Char) : Arg := cs.map fun c => UInt8.ofNat c.toNat

def dash : UInt8 := 45

def equalsSign : UInt8 := 61

def host : Arg := ascii ['h', 'o', 's', 't']
def port : Arg := ascii ['p', 'o', 'r', 't']
def timeout : Arg := ascii ['t', 'i', 'm', 'e', 'o', 'u', 't']
def retries : Arg := ascii ['r', 'e', 't', 'r', 'i', 'e', 's']

/-- The keys of the map of the same name. -/
def takesValue : List Arg := [dash :: host, dash :: port, dash :: timeout, dash :: retries]

def trimLeft (a : Arg) : Arg := a.dropWhile (· == dash)

def SwallowsNext (a : Arg) : Prop := equalsSign ∉ a ∧ dash :: trimLeft a ∈ takesValue

instance (a : Arg) : Decidable (SwallowsNext a) := inferInstanceAs (Decidable (_ ∧ _))

def splitLoop : List Arg → Arg → List Arg → Arg × List Arg
  | [], positional, rest => (positional, rest)
  | a :: args, positional, rest =>
    if a.head? = some dash then
      if SwallowsNext a then
        match args with
        | [] => (positional, rest ++ [a])
        | v :: args => splitLoop args positional (rest ++ [a, v])
      else splitLoop args positional (rest ++ [a])
    else if positional = [] then splitLoop args a rest
    else splitLoop args positional (rest ++ [a])

def splitPositional (args : List Arg) : Arg × List Arg := splitLoop args [] []

def ValueFlag (a : Arg) : Prop := ∃ name ∈ [host, port, timeout, retries], a = dash :: name ∨ a = dash :: dash :: name

def SingleFlag (a : Arg) : Prop :=
  a.head? = some dash ∧ (equalsSign ∈ a ∨ trimLeft a ∉ [host, port, timeout, retries])

inductive FlagGroup where
  | value (flag v : Arg) (h : ValueFlag flag)
  | single (flag : Arg) (h : SingleFlag flag)

def FlagGroup.args : FlagGroup → List Arg
  | .value flag v _ => [flag, v]
  | .single flag _ => [flag]

def flagArgs (groups : List FlagGroup) : List Arg := groups.flatMap FlagGroup.args

theorem ValueFlag.swallowsNext {a : Arg} (h : ValueFlag a) : a.head? = some dash ∧ SwallowsNext a := by
  obtain ⟨name, hname, hflag⟩ := h
  simp only [List.mem_cons, List.not_mem_nil, or_false] at hname
  obtain rfl | rfl | rfl | rfl := hname <;> obtain rfl | rfl := hflag <;> decide

theorem SingleFlag.not_swallowsNext {a : Arg} (h : SingleFlag a) : ¬ SwallowsNext a := by
  rintro ⟨heq, hname⟩
  obtain hform | hbool := h.2
  · exact heq hform
  · simp only [takesValue, List.mem_cons, List.cons.injEq, true_and, List.not_mem_nil, or_false] at hname
    apply hbool
    simpa only [List.mem_cons, List.not_mem_nil, or_false] using hname

theorem splitLoop_single {a : Arg} (hdash : a.head? = some dash) (hswallow : ¬ SwallowsNext a) (args : List Arg)
    (positional : Arg) (rest : List Arg) :
    splitLoop (a :: args) positional rest = splitLoop args positional (rest ++ [a]) := by
  rw [splitLoop.eq_def]
  simp only [hdash, hswallow, ↓reduceIte]

theorem splitLoop_word {a : Arg} (hdash : a.head? ≠ some dash) (args : List Arg) (positional : Arg)
    (rest : List Arg) :
    splitLoop (a :: args) positional rest =
      if positional = [] then splitLoop args a rest else splitLoop args positional (rest ++ [a]) := by
  rw [splitLoop.eq_def]
  simp only [hdash, ↓reduceIte]

theorem splitLoop_group (g : FlagGroup) (args : List Arg) (positional : Arg) (rest : List Arg) :
    splitLoop (g.args ++ args) positional rest = splitLoop args positional (rest ++ g.args) := by
  cases g with
  | value flag v h =>
    obtain ⟨hdash, hswallow⟩ := h.swallowsNext
    simp only [FlagGroup.args, List.cons_append, List.nil_append]
    rw [splitLoop, if_pos hdash, if_pos hswallow]
  | single flag h =>
    simp only [FlagGroup.args, List.cons_append, List.nil_append]
    exact splitLoop_single h.1 h.not_swallowsNext args positional rest

theorem splitLoop_groups (gs : List FlagGroup) (args : List Arg) (positional : Arg) (rest : List Arg) :
    splitLoop (flagArgs gs ++ args) positional rest = splitLoop args positional (rest ++ flagArgs gs) := by
  induction gs generalizing rest with
  | nil => simp [flagArgs]
  | cons g gs ih =>
    have hcons : flagArgs (g :: gs) = g.args ++ flagArgs gs := rfl
    rw [hcons, List.append_assoc, splitLoop_group, ih, List.append_assoc]

theorem splitPositional_inserted (gs hs : List FlagGroup) {path : Arg}
    (hpath : path.head? ≠ some dash) :
    splitPositional (flagArgs gs ++ path :: flagArgs hs) = (path, flagArgs (gs ++ hs)) := by
  have hend := splitLoop_groups hs [] path (flagArgs gs)
  rw [List.append_nil] at hend
  rw [splitPositional, splitLoop_groups, splitLoop_word hpath, if_pos rfl, List.nil_append, hend, splitLoop,
    flagArgs, flagArgs, flagArgs, List.flatMap_append]

structure Splits (args : List Arg) (positional : Arg) (rest : List Arg) (out : Arg × List Arg) : Prop where
  found : positional ≠ [] → out = (positional, rest ++ args)
  none : positional = [] → out.1 = [] → out.2 = rest ++ args
  some : positional = [] → out.1 ≠ [] →
    ∃ front back, args = front ++ out.1 :: back ∧ out.2 = rest ++ (front ++ back)

theorem Splits.skip (front : List Arg) {args rest : List Arg} {positional : Arg} {out : Arg × List Arg}
    (h : Splits args positional (rest ++ front) out) : Splits (front ++ args) positional rest out := by
  refine ⟨fun hp => ?_, fun hp hout => ?_, fun hp hout => ?_⟩
  · rw [h.found hp, List.append_assoc]
  · rw [h.none hp hout, List.append_assoc]
  · obtain ⟨f, b, hargs, hrest⟩ := h.some hp hout
    exact ⟨front ++ f, b, by rw [hargs, List.append_assoc], by rw [hrest, List.append_assoc, List.append_assoc]⟩

theorem splits_splitLoop (args : List Arg) (positional : Arg) (rest : List Arg) (hne : ∀ a ∈ args, a ≠ []) :
    Splits args positional rest (splitLoop args positional rest) := by
  induction args, positional, rest using splitLoop.induct with
  | case1 positional rest =>
    rw [splitLoop]
    exact ⟨by simp, by simp, fun hp hout => absurd hp hout⟩
  | case2 a positional rest hdash hswallow =>
    rw [splitLoop, if_pos hdash, if_pos hswallow]
    exact ⟨by simp, by simp, fun hp hout => absurd hp hout⟩
  | case3 a positional rest hdash hswallow v args ih =>
    rw [splitLoop, if_pos hdash, if_pos hswallow]
    exact Splits.skip [a, v] (ih fun b hb => hne b (by simp [hb]))
  | case4 a args positional rest hdash hswallow ih =>
    rw [splitLoop_single hdash hswallow]
    exact Splits.skip [a] (ih fun b hb => hne b (by simp [hb]))
  | case5 a args rest hdash ih =>
    have ha : a ≠ [] := hne a (by simp)
    have hout := (ih fun b hb => hne b (by simp [hb])).found ha
    rw [splitLoop_word hdash, if_pos rfl, hout]
    exact ⟨fun hp => absurd rfl hp, fun _ hnil => absurd hnil ha, fun _ _ => ⟨[], args, rfl, rfl⟩⟩
  | case6 a args positional rest hdash hp ih =>
    rw [splitLoop_word hdash, if_neg hp]
    exact Splits.skip [a] (ih fun b hb => hne b (by simp [hb]))

/-- The firmware path may stand at any boundary between flag groups, and no argument is lost, duplicated or
reordered. -/
theorem splitPositional_lifts_path :
    (∀ (gs hs : List FlagGroup) (path : Arg), path.head? ≠ some dash →
      splitPositional (flagArgs gs ++ path :: flagArgs hs) = (path, flagArgs (gs ++ hs))) ∧
    (∀ args : List Arg, (∀ a ∈ args, a ≠ []) →
      ((splitPositional args).1 ≠ [] →
        ∃ front back, args = front ++ (splitPositional args).1 :: back ∧ (splitPositional args).2 = front ++ back) ∧
      ((splitPositional args).1 = [] → (splitPositional args).2 = args)) := by
  refine ⟨fun gs hs path hpath => splitPositional_inserted gs hs hpath, fun args hne => ?_⟩
  have h := splits_splitLoop args [] [] hne
  exact ⟨h.some rfl, h.none rfl⟩

theorem splitPositional_lifts_path_between_flags :
    splitPositional [dash :: dash :: host, ascii ['-', '1'], ascii ['f', '.', 'b'], ascii ['-', 'v']] =
        (ascii ['f', '.', 'b'], [dash :: dash :: host, ascii ['-', '1'], ascii ['-', 'v']]) ∧
      (splitPositional [ascii ['-', 'v']]).2 = [ascii ['-', 'v']] := by
  have hhost : ValueFlag (dash :: dash :: host) := ⟨host, by decide, .inr rfl⟩
  have hverbose : SingleFlag (ascii ['-', 'v']) := by
    refine ⟨by decide, .inr ?_⟩
    decide
  constructor
  · exact splitPositional_lifts_path.1 [.value _ (ascii ['-', '1']) hhost] [.single _ hverbose]
      (ascii ['f', '.', 'b']) (by decide)
  · exact (splitPositional_lifts_path.2 [ascii ['-', 'v']] (by decide)).2 (by decide)

end LogoCore.Upload
