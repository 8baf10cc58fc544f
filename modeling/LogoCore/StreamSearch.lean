import LogoCore.PrefixMatching
import LogoCore.StreamParsing

namespace LogoCore.Streams

open CStrings PrefixMatching

structure MultiTarget where
  str : List UInt8
  len : ℕ
  index : ℕ

def MultiTarget.text (t : MultiTarget) : List UInt8 := t.str.take t.len

def agreement (str : List UInt8) (diff index : ℕ) : ℕ :=
  ((List.range index).takeWhile fun i => str[i]? == str[i + diff]?).length

def walkBack (str : List UInt8) (c : UInt8) (origIndex : ℕ) : ℕ → ℕ
  | 0 => 0
  | index + 1 =>
    if str[index]? ≠ some c then walkBack str c origIndex index
    else if index = 0 then 1
    else if agreement str (origIndex - index) index = index then index + 1
    else walkBack str c origIndex index

def MultiTarget.feed (t : MultiTarget) (c : UInt8) : MultiTarget :=
  { t with
    index :=
      if t.str[t.index]? = some c then t.index + 1
      else if t.index = 0 then 0
      else walkBack t.str c t.index t.index }

def feedTargets (c : UInt8) : List MultiTarget → Option ℕ × List MultiTarget
  | [] => (none, [])
  | t :: ts =>
    if t.str[t.index]? = some c ∧ (t.feed c).index = t.len then (some 0, t.feed c :: ts)
    else ((feedTargets c ts).1.map (· + 1), t.feed c :: (feedTargets c ts).2)

-- none: the turns did not suffice; the inner none is the -1 of the source
def findLoop (patience : ℕ) :
    ℕ → List MultiTarget → List Arrival → Option (Option ℕ × List MultiTarget × List Arrival)
  | 0, _, _ => none
  | turns + 1, ts, s =>
    match timedRead patience s with
    | (none, s) => some (none, ts, s)
    | (some c, s) =>
      match feedTargets c ts with
      | (some i, ts) => some (some i, ts, s)
      | (none, ts) => findLoop patience turns ts s

def findMulti (patience : ℕ) (targets : List MultiTarget) (s : List Arrival) :
    Option (Option ℕ × List MultiTarget × List Arrival) :=
  match targets.findIdx? fun t => t.len ≤ 0 with
  | some i => some (some i, targets, s)
  | none => findLoop patience (s.length + 1) targets s

/-- findUntil() with the lengths of both strings; none is the NULL terminator. -/
def findUntilLength (patience : ℕ) (target : List UInt8) (targetLen : ℕ) (terminator : Option (List UInt8))
    (termLen : ℕ) (s : List Arrival) : Option (Bool × List Arrival) :=
  match terminator with
  | none => (findMulti patience [⟨target, targetLen, 0⟩] s).map fun r => (r.1 == some 0, r.2.2)
  | some terminator =>
    (findMulti patience [⟨target, targetLen, 0⟩, ⟨terminator, termLen, 0⟩] s).map fun r => (r.1 == some 0, r.2.2)

def findUntil (patience : ℕ) (target terminator : List UInt8) (s : List Arrival) : Option (Bool × List Arrival) :=
  findUntilLength patience target (strlen target) (some terminator) (strlen terminator) s

def findLength (patience : ℕ) (target : List UInt8) (length : ℕ) (s : List Arrival) :
    Option (Bool × List Arrival) :=
  findUntilLength patience target length none 0 s

def find (patience : ℕ) (target : List UInt8) (s : List Arrival) : Option (Bool × List Arrival) :=
  findUntilLength patience target (strlen target) none 0 s

section Walk

variable {str : List UInt8} {c : UInt8} {index origIndex : ℕ}

theorem agreement_eq_iff {diff : ℕ} :
    agreement str diff index = index ↔ ∀ i < index, str[i]? = str[i + diff]? := by
  have hself : agreement str diff index = index ↔
      (List.range index).takeWhile (fun i => str[i]? == str[i + diff]?) = List.range index := by
    constructor
    · intro h
      exact (List.takeWhile_prefix _).eq_of_length (h.trans List.length_range.symm)
    · intro h
      rw [agreement, h, List.length_range]
  rw [hself, List.takeWhile_eq_self_iff]
  simp only [List.mem_range, beq_iff_eq]

theorem continues_iff_agreement (horig : origIndex ≤ str.length) (hindex : index ≤ origIndex) :
    Continues str c origIndex index ↔
      str[index]? = some c ∧ agreement str (origIndex - index) index = index := by
  rw [Continues, take_suffix_take_iff hindex horig, agreement_eq_iff]

theorem walkBack_succ_of_continues (horig : origIndex ≤ str.length) (hindex : index ≤ origIndex)
    (hc : Continues str c origIndex index) : walkBack str c origIndex (index + 1) = index + 1 := by
  obtain ⟨hchar, hagree⟩ := (continues_iff_agreement horig hindex).mp hc
  rw [walkBack, if_neg (not_not.mpr hchar), if_pos hagree]
  split
  · rename_i hzero
    rw [hzero]
  · rfl

theorem walkBack_succ_of_not_continues (horig : origIndex ≤ str.length) (hindex : index ≤ origIndex)
    (hc : ¬ Continues str c origIndex index) :
    walkBack str c origIndex (index + 1) = walkBack str c origIndex index := by
  rw [continues_iff_agreement horig hindex, not_and] at hc
  rw [walkBack]
  by_cases hchar : str[index]? = some c
  · have hzero : index ≠ 0 := by
      rintro rfl
      exact hc hchar rfl
    rw [if_neg (not_not.mpr hchar), if_neg hzero, if_neg (hc hchar)]
  · rw [if_pos hchar]

theorem walkBack_isGreatest (horig : origIndex ≤ str.length) (hindex : index ≤ origIndex) :
    IsGreatest (continuations str c origIndex index) (walkBack str c origIndex index) := by
  induction index with
  | zero => exact isGreatest_continuations_zero
  | succ index ih =>
    have hle : index ≤ origIndex := Nat.le_of_succ_le hindex
    by_cases hc : Continues str c origIndex index
    · rw [walkBack_succ_of_continues horig hle hc]
      exact isGreatest_continuations_succ hc
    · rw [walkBack_succ_of_not_continues horig hle hc, continuations_succ hc]
      exact ih hle

end Walk

structure Follows (w : List UInt8) (t : MultiTarget) : Prop where
  stored : t.len ≤ t.str.length
  pending : t.index < t.len
  matched : Matched t.text w t.index

section Feed

variable {w : List UInt8} {t : MultiTarget} {c : UInt8}

theorem text_feed : (t.feed c).text = t.text := rfl

theorem length_text (h : t.len ≤ t.str.length) : t.text.length = t.len := by
  rw [MultiTarget.text, List.length_take]
  omega

theorem continues_text_iff {k j : ℕ} (hk : k < t.len) (hj : j ≤ k) :
    Continues t.text c k j ↔ Continues t.str c k j := by
  rw [Continues, Continues, MultiTarget.text, List.getElem?_take_of_lt (by omega), List.take_take, List.take_take,
    Nat.min_eq_left (by omega), Nat.min_eq_left (by omega)]

theorem continuations_text {k : ℕ} (hk : k < t.len) :
    continuations t.text c k (k + 1) = continuations t.str c k (k + 1) := by
  ext l
  cases l with
  | zero => exact iff_of_true nofun nofun
  | succ j =>
    rw [succ_mem_continuations_iff, succ_mem_continuations_iff]
    exact and_congr_right fun hj => continues_text_iff hk (Nat.le_of_lt_succ hj)

theorem feed_of_mismatch (hc : t.str[t.index]? ≠ some c) (hlen : t.index ≤ t.str.length) :
    IsGreatest (continuations t.str c t.index t.index) (t.feed c).index := by
  simp only [MultiTarget.feed, hc, if_false]
  split
  · rename_i hzero
    rw [hzero]
    exact isGreatest_continuations_zero
  · exact walkBack_isGreatest hlen le_rfl

theorem Follows.feed (h : Follows w t) : Matched t.text (w ++ [c]) (t.feed c).index := by
  have hk : t.index < t.text.length := (length_text h.stored).symm ▸ h.pending
  rw [Matched, h.matched.matchLengths_concat hk, continuations_text h.pending]
  by_cases hchar : t.str[t.index]? = some c
  · simp only [MultiTarget.feed, hchar, if_true]
    exact isGreatest_continuations_succ ⟨hchar, List.suffix_rfl⟩
  · rw [continuations_succ fun hc => hchar hc.1]
    exact feed_of_mismatch hchar (h.pending.le.trans h.stored)

theorem Follows.completed_iff (h : Follows w t) :
    t.str[t.index]? = some c ∧ (t.feed c).index = t.len ↔ t.text <:+ w ++ [c] := by
  rw [← h.feed.eq_length_iff, length_text h.stored, and_iff_right_iff_imp]
  intro hlen
  by_contra hc
  have hle := le_of_mem_continuations (feed_of_mismatch hc (h.pending.le.trans h.stored)).1
  have hpending := h.pending
  omega

theorem Follows.feed_of_not (h : Follows w t) (hnot : ¬ t.text <:+ w ++ [c]) : Follows (w ++ [c]) (t.feed c) where
  stored := h.stored
  pending := by
    have hle := h.feed (c := c).1.1
    have hne := mt (h.feed (c := c)).eq_length_iff.mp hnot
    rw [length_text h.stored] at hle hne
    exact lt_of_le_of_ne hle hne
  matched := h.feed

end Feed

theorem feedTargets_some {w : List UInt8} {c : UInt8} {ts : List MultiTarget} (h : ∀ t ∈ ts, Follows w t) {i : ℕ}
    {ts' : List MultiTarget} (heq : feedTargets c ts = (some i, ts')) :
    (∃ p, (ts.map MultiTarget.text)[i]? = some p ∧ p <:+ w ++ [c]) ∧
      ∀ j < i, ∀ p, (ts.map MultiTarget.text)[j]? = some p → ¬ p <:+ w ++ [c] := by
  induction ts generalizing i ts' with
  | nil => cases heq
  | cons t ts ih =>
    obtain ⟨ht, hts⟩ := List.forall_mem_cons.mp h
    rw [feedTargets] at heq
    split at heq
    · rename_i hdone
      obtain rfl : 0 = i := Option.some.inj (congrArg Prod.fst heq)
      exact ⟨⟨t.text, rfl, ht.completed_iff.mp hdone⟩, nofun⟩
    · rename_i hdone
      obtain ⟨i', hi', rfl⟩ := Option.map_eq_some_iff.mp (congrArg Prod.fst heq)
      obtain ⟨hhit, hleast⟩ := ih hts (Prod.ext hi' rfl : feedTargets c ts = (some i', (feedTargets c ts).2))
      refine ⟨hhit, fun j hj p hp => ?_⟩
      cases j with
      | zero =>
        obtain rfl := Option.some.inj hp
        rwa [ht.completed_iff] at hdone
      | succ j => exact hleast j (Nat.lt_of_succ_lt_succ hj) p hp

theorem feedTargets_none {w : List UInt8} {c : UInt8} {ts : List MultiTarget} (h : ∀ t ∈ ts, Follows w t)
    {ts' : List MultiTarget} (heq : feedTargets c ts = (none, ts')) :
    ts'.map MultiTarget.text = ts.map MultiTarget.text ∧ (∀ t ∈ ts', Follows (w ++ [c]) t) ∧
      ∀ p ∈ ts.map MultiTarget.text, ¬ p <:+ w ++ [c] := by
  induction ts generalizing ts' with
  | nil =>
    obtain rfl : [] = ts' := congrArg Prod.snd heq
    exact ⟨rfl, nofun, nofun⟩
  | cons t ts ih =>
    obtain ⟨ht, hts⟩ := List.forall_mem_cons.mp h
    rw [feedTargets] at heq
    split at heq
    · cases heq
    · rename_i hdone
      rw [ht.completed_iff] at hdone
      obtain rfl : t.feed c :: (feedTargets c ts).2 = ts' := congrArg Prod.snd heq
      have hrest : feedTargets c ts = (none, (feedTargets c ts).2) :=
        Prod.ext (Option.map_eq_none_iff.mp (congrArg Prod.fst heq)) rfl
      obtain ⟨htexts, hfollow, hclear⟩ := ih hts hrest
      refine ⟨?_, List.forall_mem_cons.mpr ⟨ht.feed_of_not hdone, hfollow⟩, ?_⟩
      · rw [List.map_cons, List.map_cons, htexts, text_feed]
      · exact List.forall_mem_cons.mpr ⟨hdone, hclear⟩

section Search

variable {patience : ℕ} {late : List Arrival}

theorem findLoop_searches (hlate : TimesOut patience late) {input : List Arrival}
    (hready : ∀ a ∈ input, a.wait ≤ patience) {w : List UInt8} {ts : List MultiTarget}
    (hfollow : ∀ t ∈ ts, Follows w t) (hclear : ∀ p ∈ ts.map MultiTarget.text, ¬ p <:+: w) (turns : ℕ) :
    ∃ r ts' s rest, findLoop patience (turns + input.length + 1) ts (input ++ late) = some (r, ts', s) ∧
      NaiveSearch (ts.map MultiTarget.text) (w ++ input.map Arrival.byte) r rest ∧
      s.map Arrival.byte = rest ++ late.map Arrival.byte := by
  induction input generalizing w ts with
  | nil =>
    obtain ⟨s, hread, hs⟩ := hlate.timedRead
    refine ⟨none, ts, s, [], ?_, ⟨?_, rfl⟩, hs⟩
    · rw [findLoop, List.nil_append, hread]
    · rwa [List.map_nil, List.append_nil]
  | cons a input ih =>
    obtain ⟨ha, hready⟩ := List.forall_mem_cons.mp hready
    have hread : timedRead patience (a :: input ++ late) = (some a.byte, input ++ late) := timedRead_ready ha _
    obtain ⟨r, ts', hfeed⟩ : ∃ r ts', feedTargets a.byte ts = (r, ts') := ⟨_, _, rfl⟩
    cases r with
    | some i =>
      obtain ⟨hhit, hleast⟩ := feedTargets_some hfollow hfeed
      refine ⟨some i, ts', input ++ late, input.map Arrival.byte, ?_, ?_, List.map_append⟩
      · rw [findLoop, hread]
        simp only [hfeed]
      · exact ⟨w ++ [a.byte], FirstHit.of_concat hclear hhit hleast⟩
    | none =>
      obtain ⟨htexts, hfollow', hnot⟩ := feedTargets_none hfollow hfeed
      have hclear' : ∀ p ∈ ts'.map MultiTarget.text, ¬ p <:+: w ++ [a.byte] := by
        intro p hp hinfix
        rw [htexts] at hp
        obtain hsuffix | hinfix := List.infix_concat_iff.mp hinfix
        · exact hnot p hp hsuffix
        · exact hclear p hp hinfix
      obtain ⟨r, ts'', s, rest, hloop, hsearch, hs⟩ := ih hready hfollow' hclear'
      refine ⟨r, ts'', s, rest, ?_, ?_, hs⟩
      · rw [List.length_cons, ← Nat.add_assoc, findLoop, hread]
        simp only [hfeed]
        exact hloop
      · rwa [htexts, List.append_assoc, List.singleton_append] at hsearch

/-- A target as the callers of findMulti() set it up. -/
structure Fresh (t : MultiTarget) : Prop where
  nonempty : 0 < t.len
  stored : t.len ≤ t.str.length
  unmatched : t.index = 0

theorem Fresh.follows {t : MultiTarget} (h : Fresh t) : Follows [] t where
  stored := h.stored
  pending := h.unmatched ▸ h.nonempty
  matched := h.unmatched ▸ matched_nil t.text

theorem findMulti_searches (hlate : TimesOut patience late) {input : List Arrival}
    (hready : ∀ a ∈ input, a.wait ≤ patience) (targets : List MultiTarget) (hfresh : ∀ t ∈ targets, Fresh t) :
    ∃ r ts s rest, findMulti patience targets (input ++ late) = some (r, ts, s) ∧
      NaiveSearch (targets.map MultiTarget.text) (input.map Arrival.byte) r rest ∧
      s.map Arrival.byte = rest ++ late.map Arrival.byte := by
  have hnone : targets.findIdx? (fun t => decide (t.len ≤ 0)) = none := by
    rw [List.findIdx?_eq_none_iff]
    intro t ht
    exact decide_eq_false (Nat.not_le.mpr (hfresh t ht).nonempty)
  have hclear : ∀ p ∈ targets.map MultiTarget.text, ¬ p <:+: [] := by
    intro p hp hinfix
    obtain ⟨t, ht, rfl⟩ := List.mem_map.mp hp
    have hlen := congrArg List.length (List.infix_nil.mp hinfix)
    rw [length_text (hfresh t ht).stored, List.length_nil] at hlen
    exact (hfresh t ht).nonempty.ne' hlen
  have hturns : (input ++ late).length + 1 = late.length + input.length + 1 := by
    rw [List.length_append, Nat.add_comm input.length]
  obtain ⟨r, ts, s, rest, hloop, hsearch, hs⟩ :=
    findLoop_searches hlate hready (fun t ht => (hfresh t ht).follows) hclear late.length
  refine ⟨r, ts, s, rest, ?_, hsearch, hs⟩
  rw [findMulti, hnone, hturns]
  exact hloop

theorem findUntilLength_endsFirst (hlate : TimesOut patience late) {input : List Arrival}
    (hready : ∀ a ∈ input, a.wait ≤ patience) {target : List UInt8} {targetLen : ℕ}
    (terminator : Option (List UInt8)) (termLen : ℕ) (htarget : 0 < targetLen ∧ targetLen ≤ target.length)
    (hterminator : ∀ t ∈ terminator, 0 < termLen ∧ termLen ≤ t.length) :
    ∃ b s, findUntilLength patience target targetLen terminator termLen (input ++ late) = some (b, s) ∧
      (b = true ↔
        EndsFirst (target.take targetLen) (terminator.map (List.take termLen)) (input.map Arrival.byte)) := by
  have hfirst : Fresh ⟨target, targetLen, 0⟩ := ⟨htarget.1, htarget.2, rfl⟩
  cases terminator with
  | none =>
    obtain ⟨r, ts, s, rest, hfind, hsearch, -⟩ :=
      findMulti_searches hlate hready [⟨target, targetLen, 0⟩] (by simpa using hfirst)
    refine ⟨r == some 0, s, by simp [findUntilLength, hfind], ?_⟩
    rw [beq_iff_eq]
    exact hsearch.zero_iff (q := none)
  | some terminator =>
    have hsecond : Fresh ⟨terminator, termLen, 0⟩ :=
      ⟨(hterminator terminator rfl).1, (hterminator terminator rfl).2, rfl⟩
    obtain ⟨r, ts, s, rest, hfind, hsearch, -⟩ := findMulti_searches hlate hready
      [⟨target, targetLen, 0⟩, ⟨terminator, termLen, 0⟩] (by simpa using ⟨hfirst, hsecond⟩)
    refine ⟨r == some 0, s, by simp [findUntilLength, hfind], ?_⟩
    rw [beq_iff_eq]
    exact hsearch.zero_iff (q := some (terminator.take termLen))

end Search

theorem take_strlen (bs : List UInt8) : bs.take (strlen bs) = cString bs :=
  (List.prefix_iff_eq_take.mp (List.takeWhile_prefix _)).symm

theorem strlen_bounds {bs : List UInt8} (h : cString bs ≠ []) : 0 < strlen bs ∧ strlen bs ≤ bs.length :=
  ⟨List.length_pos_iff.mpr h, (List.takeWhile_prefix _).length_le⟩

theorem stream_search_eq_naive_search (patience : ℕ) (input late : List Arrival)
    (hready : ∀ a ∈ input, a.wait ≤ patience) (hlate : TimesOut patience late) :
    (∀ targets : List MultiTarget, (∀ t ∈ targets, Fresh t) →
      ∃ r ts s rest, findMulti patience targets (input ++ late) = some (r, ts, s) ∧
        NaiveSearch (targets.map MultiTarget.text) (input.map Arrival.byte) r rest ∧
        s.map Arrival.byte = rest ++ late.map Arrival.byte) ∧
    (∀ (target terminator : List UInt8) (targetLen termLen : ℕ), 0 < targetLen → targetLen ≤ target.length →
      0 < termLen → termLen ≤ terminator.length →
      ∃ b s, findUntilLength patience target targetLen (some terminator) termLen (input ++ late) = some (b, s) ∧
        (b = true ↔
          EndsFirst (target.take targetLen) (some (terminator.take termLen)) (input.map Arrival.byte))) ∧
    (∀ target terminator : List UInt8, cString target ≠ [] → cString terminator ≠ [] →
      ∃ b s, findUntil patience target terminator (input ++ late) = some (b, s) ∧
        (b = true ↔ EndsFirst (cString target) (some (cString terminator)) (input.map Arrival.byte))) ∧
    (∀ (target : List UInt8) (length : ℕ), 0 < length → length ≤ target.length →
      ∃ b s, findLength patience target length (input ++ late) = some (b, s) ∧
        (b = true ↔ target.take length <:+: input.map Arrival.byte)) ∧
    ∀ target : List UInt8, cString target ≠ [] →
      ∃ b s, find patience target (input ++ late) = some (b, s) ∧
        (b = true ↔ cString target <:+: input.map Arrival.byte) := by
  refine ⟨findMulti_searches hlate hready, ?_, ?_, ?_, ?_⟩
  · intro target terminator targetLen termLen htarget htargetLen hterm htermLen
    exact findUntilLength_endsFirst hlate hready (some terminator) termLen ⟨htarget, htargetLen⟩
      (by simpa using ⟨hterm, htermLen⟩)
  · intro target terminator htarget hterminator
    have hfind := findUntilLength_endsFirst hlate hready (some terminator) (strlen terminator)
      (strlen_bounds htarget) (by simpa using strlen_bounds hterminator)
    rwa [Option.map_some, take_strlen, take_strlen] at hfind
  · intro target length htarget hlength
    have hfind := findUntilLength_endsFirst hlate hready none 0 ⟨htarget, hlength⟩ nofun
    simp only [Option.map_none, endsFirst_none_iff] at hfind
    exact hfind
  · intro target htarget
    have hfind := findUntilLength_endsFirst hlate hready none 0 (strlen_bounds htarget) nofun
    simp only [Option.map_none, endsFirst_none_iff, take_strlen] at hfind
    exact hfind

theorem stream_search_of_overlapping_target :
    ∃ b s, find 4 [49, 49, 49, 50, 0] ([49, 49, 49, 49, 50].map (Arrival.mk 3) ++ []) = some (b, s) ∧
      (b = true ↔ cString [49, 49, 49, 50, 0] <:+: ([49, 49, 49, 49, 50].map (Arrival.mk 3)).map Arrival.byte) :=
  (stream_search_eq_naive_search 4 ([49, 49, 49, 49, 50].map (Arrival.mk 3)) [] (by simp) TimesOut.nil).2.2.2.2
    [49, 49, 49, 50, 0] (by decide)

end LogoCore.Streams
