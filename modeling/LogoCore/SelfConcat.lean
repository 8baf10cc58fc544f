import LogoCore.StoredStrings

namespace LogoCore.Strings

open CStrings

/-- What realloc() does with a block: it refuses, extends the block where it stands, or moves it; `stale` is then
what is read from the old address on. -/
inductive Realloc
  | fails
  | inPlace (fill : ℕ → UInt8)
  | moves (fill : ℕ → UInt8) (stale : List UInt8)

def Realloc.alloc : Realloc → Alloc
  | .fails => none
  | .inPlace fill => some fill
  | .moves fill _ => some fill

namespace WString

def copySelf (s : WString) (bs : List UInt8) (newlen : ℕ) (r : Realloc) : Option (List UInt8) :=
  if newlen ≤ s.capacity then strcpyWithin bs s.len 0
  else
    match r with
    -- cstr still points to where the block was
    | .moves _ stale => if s.len + strlen stale < bs.length then some (strcpy bs s.len stale) else none
    | _ => strcpyWithin bs s.len 0

/-- `s.concat(s)`: the argument is the pointer to the block as it was before the call. -/
def concatSelf (s : WString) (r : Realloc) : Option (Bool × WString) :=
  let newlen := (s.len + s.len) % 2 ^ 32
  match s.buffer with
  | none => some (false, s)
  | some _ =>
    if s.len = 0 then some (true, s)
    else
      match s.reserve newlen r.alloc with
      | (false, s') => some (false, s')
      | (true, s') => (s.copySelf s'.bytes newlen r).map fun bs => (true, { s' with buffer := some bs, len := newlen })

def Doubles (t : List UInt8) (out : Option (Bool × WString)) : Prop :=
  ∃ s', out = some (true, s') ∧ s'.len = t.length + t.length ∧ s'.contents = t ++ t

/-- The copy reads the text up to its first zero byte: it ends before it reaches what it writes, or the old block was
given back and still holds the text. -/
def ReadsText (s : WString) (t : List UInt8) (r : Realloc) : Prop :=
  if t.length + t.length ≤ s.capacity then ¬ NulFree t
  else
    match r with
    | .fails => False
    | .inPlace _ => ¬ NulFree t
    | .moves _ stale => cString stale = cString t

section Copy

variable {bs t src : List UInt8}

theorem strcpy_drop {i : ℕ} (h : i + strlen src < bs.length) :
    (strcpy bs i src).drop i = CStrings.cString src ++ 0 :: bs.drop (i + strlen src + 1) := by
  have htake : (bs.take i).length = i := List.length_take_of_le (by omega)
  have hsplit := overwrite_append (bs.take i) (bs.drop i) (CStrings.cString src ++ [0]) (by
    simp only [List.length_append, List.length_drop, List.length_singleton]
    rw [strlen] at h
    omega)
  rw [List.take_append_drop, htake] at hsplit
  rw [strcpy, hsplit, List.append_assoc, List.drop_append, htake, Nat.sub_self, List.drop_of_length_le htake.le,
    List.nil_append, List.drop_zero, List.append_assoc, List.singleton_append, List.drop_drop, List.length_append,
    List.length_singleton, strlen, Nat.add_assoc]

theorem cString_take_terminated {w : List UInt8} (hw : NulFree w) (rest : List UInt8) {n : ℕ} (hn : w.length ≤ n) :
    CStrings.cString ((w ++ 0 :: rest).take n) = w := by
  rcases Nat.lt_or_eq_of_le hn with hlt | rfl
  · obtain ⟨k, rfl⟩ : ∃ k, n = w.length + (k + 1) := ⟨n - w.length - 1, by omega⟩
    rw [List.take_length_add_append, List.take_succ_cons, cString_append_nul hw]
  · rw [List.take_left, cString_eq_self hw]

theorem copied_twice_iff (htext : bs.take t.length = t) (hroom : t.length + t.length ≤ bs.length)
    (hsrc : t.length + strlen src < bs.length) (hle : strlen src ≤ t.length) :
    (strcpy bs t.length src).take (t.length + t.length) = t ++ t ↔
      CStrings.cString src = CStrings.cString t ∧ ∀ k, strlen t < k → k < t.length → bs[t.length + k]? = t[k]? := by
  have hhalf : (strcpy bs t.length src).take (t.length + t.length) = t ++ t ↔
      ((strcpy bs t.length src).drop t.length).take t.length = t := by
    rw [List.take_add, strcpy_take, htext, List.append_cancel_left_eq]
  rw [hhalf]
  have hrange := strcpy_range_iff t hroom le_rfl
  rw [List.take_length] at hrange
  rw [← hrange]
  constructor
  · intro h
    have hcstring : CStrings.cString src = CStrings.cString t := by
      rw [← h, strcpy_drop hsrc, cString_take_terminated (nulFree_cString src) _ hle]
    refine ⟨hcstring, ?_⟩
    rwa [strcpy, hcstring] at h
  · rintro ⟨hcstring, h⟩
    rwa [strcpy, hcstring]

end Copy

section SelfConcat

variable {bs t : List UInt8}

theorem strcpyWithin_self (htext : bs.take t.length = t) (hroom : t.length + t.length < bs.length) :
    (NulFree t → 0 < t.length → strcpyWithin bs t.length 0 = none) ∧
      (¬ NulFree t → strcpyWithin bs t.length 0 = some (strcpy bs t.length t)) := by
  constructor
  · intro hfree hpos
    apply strcpyFrom_eq_none _ hpos
    rwa [htext]
  · intro hnul
    have hlt : strlen t < t.length := by
      refine Nat.lt_of_le_of_ne (strlen_le t) fun heq => hnul ?_
      have hself : CStrings.cString t = t := (List.takeWhile_prefix _).eq_of_length heq
      rw [← hself]
      exact nulFree_cString t
    obtain ⟨rest, hrest⟩ := exists_nul hlt
    have hread : CStrings.cString (bs.drop 0) = CStrings.cString t := by
      rw [List.drop_zero, ← List.take_append_drop t.length bs, htext]
      nth_rewrite 1 [hrest]
      rw [List.append_assoc, List.cons_append, cString_append_nul (nulFree_cString t)]
    rw [strlen] at hlt
    exact strcpyWithin_eq hread (by omega) (.inr (by omega)) (by omega)

theorem doubles_some (s : WString) (bs t : List UInt8) :
    Doubles t (some (true, { s with buffer := some bs, len := t.length + t.length })) ↔
      bs.take (t.length + t.length) = t ++ t := by
  constructor
  · rintro ⟨s', heq, -, htext⟩
    obtain rfl : _ = s' := (Prod.mk.inj (Option.some.inj heq)).2
    exact htext
  · exact fun htext => ⟨_, rfl, rfl, htext⟩

theorem doubles_within_iff (s : WString) (htext : bs.take t.length = t) (hroom : t.length + t.length < bs.length)
    (hpos : 0 < t.length) :
    Doubles t ((strcpyWithin bs t.length 0).map fun bs =>
      (true, { s with buffer := some bs, len := t.length + t.length })) ↔
      ¬ NulFree t ∧ ∀ k, strlen t < k → k < t.length → bs[t.length + k]? = t[k]? := by
  obtain ⟨hfree, hnul⟩ := strcpyWithin_self htext hroom
  by_cases h : NulFree t
  · rw [hfree h hpos]
    exact ⟨fun ⟨s', heq, _⟩ => (nomatch heq), fun hnot => absurd h hnot.1⟩
  · have hle := strlen_le t
    rw [hnul h, Option.map_some, doubles_some, copied_twice_iff htext hroom.le (by omega) hle]
    exact ⟨fun hk => ⟨h, hk.2⟩, fun hk => ⟨rfl, hk.2⟩⟩

theorem doubles_moved_iff (s : WString) (stale : List UInt8) (htext : bs.take t.length = t)
    (hroom : bs.length = t.length + t.length + 1) :
    Doubles t ((if t.length + strlen stale < bs.length then some (strcpy bs t.length stale) else none).map fun bs =>
      (true, { s with buffer := some bs, len := t.length + t.length })) ↔
      CStrings.cString stale = CStrings.cString t ∧
        ∀ k, strlen t < k → k < t.length → bs[t.length + k]? = t[k]? := by
  split
  · rw [Option.map_some, doubles_some, copied_twice_iff htext (by omega) (by assumption) (by omega)]
  · rename_i hlong
    refine ⟨fun ⟨s', heq, _⟩ => (nomatch heq), fun ⟨heq, _⟩ => ?_⟩
    have hle := strlen_le t
    rw [strlen, heq, ← strlen] at hlong
    omega

end SelfConcat

theorem doubles_reserved_iff {s : WString} {bs : List UInt8} (h : s.Stored bs) (hpos : 0 < s.len) (r : Realloc) :
    Doubles s.contents (s.concatSelf r) ↔ s.ReadsText s.contents r ∧
      ∀ k, strlen s.contents < k → k < s.len →
        (s.reserved (s.len + s.len) r.alloc)[s.len + k]? = s.contents[k]? := by
  have hcap := h.object
  have hlen := h.len
  have hbytes := h.bytes_eq
  have hcontents := Any.length_contents (.inr ⟨bs, h⟩)
  have hnew : (s.len + s.len) % 2 ^ 32 = s.len + s.len := Nat.mod_eq_of_lt (by omega)
  simp only [concatSelf, hnew, h.buffer, if_neg (show ¬ s.len = 0 by omega), copySelf, ReadsText, hcontents, reserved]
  by_cases hfits : s.len + s.len ≤ s.capacity
  · have hreserve := reserve_fits (s := s) ⟨by rw [h.buffer]; rfl, hfits⟩ r.alloc
    simp only [hreserve, if_pos hfits]
    have hiff := doubles_within_iff s (show s.bytes.take s.contents.length = s.contents by rw [hcontents]; rfl)
      (by rw [hcontents, hbytes, h.size]; omega) (by omega)
    rw [hcontents] at hiff
    exact hiff
  · have hroom : ¬ (s.buffer.isSome ∧ s.len + s.len ≤ s.capacity) := fun hr => hfits hr.2
    simp only [if_neg hfits]
    cases r with
    | fails =>
      simp only [Realloc.alloc, reserve_fails hroom (by omega), false_and, iff_false]
      rintro ⟨s', heq, -⟩
      exact absurd (Prod.mk.inj (Option.some.inj heq)).1 (by decide)
    | inPlace fill =>
      obtain ⟨bs', hreserve, hsize, htext⟩ := reserve_grows hroom (by omega) (by omega)
        (by rw [hbytes, h.size]; omega) fill
      simp only [Realloc.alloc, hreserve]
      have hiff := doubles_within_iff ⟨some bs', s.len + s.len, s.len⟩
        (show bs'.take s.contents.length = s.contents by rwa [hcontents]) (by rw [hcontents, hsize]; omega) (by omega)
      rw [hcontents] at hiff
      exact hiff
    | moves fill stale =>
      obtain ⟨bs', hreserve, hsize, htext⟩ := reserve_grows hroom (by omega) (by omega)
        (by rw [hbytes, h.size]; omega) fill
      simp only [Realloc.alloc, hreserve]
      have hiff := doubles_moved_iff ⟨some bs', s.len + s.len, s.len⟩ stale
        (show bs'.take s.contents.length = s.contents by rwa [hcontents]) (by rw [hcontents, hsize])
      rw [hcontents] at hiff
      exact hiff

theorem ReadsText.granted {s : WString} {bs : List UInt8} (h : s.Stored bs) {r : Realloc}
    (hreads : s.ReadsText s.contents r) : s.Granted (s.len + s.len) r.alloc := by
  have hcontents := Any.length_contents (.inr ⟨bs, h⟩)
  simp only [ReadsText, hcontents] at hreads
  split at hreads
  · rename_i hfits
    exact .inl ⟨by rw [h.buffer]; rfl, hfits⟩
  · cases r with
    | fails => exact hreads.elim
    | inPlace fill => exact .inr nofun
    | moves fill stale => exact .inr nofun

end WString

theorem self_concat_doubles_iff {s : WString} {bs : List UInt8} (h : s.Stored bs) (hpos : 0 < s.len) (r : Realloc) :
    WString.Doubles s.contents (s.concatSelf r) ↔ s.ReadsText s.contents r ∧
      ∀ k, strlen s.contents < k → k < s.len → s.memory r.alloc (s.len + k) = s.contents[k]? := by
  have hshort := WString.Any.short (.inr ⟨bs, h⟩)
  rw [WString.doubles_reserved_iff h hpos r]
  apply and_congr_right
  intro hreads
  apply forall₃_congr
  intro k _ hk
  rw [WString.getElem?_reserved (.inr ⟨bs, h⟩) (by omega) (hreads.granted h) (by omega) (by omega)]

theorem self_concat_doubles_of_intact_copy :
    WString.Doubles [97, 98] ((⟨some [97, 98, 0], 2, 2⟩ : WString).concatSelf (.moves (fun _ => 0) [97, 98, 0])) :=
  (self_concat_doubles_iff ⟨rfl, rfl, le_rfl, by decide⟩ (by decide) _).mpr
    ⟨show cString [97, 98, 0] = cString [97, 98] by decide, fun k hk hlt => absurd (show 2 < k from hk) hlt.le.not_gt⟩

/-- "ab" in a block with room for "abab": the copy overwrites the terminator that it waits for and runs out of the
block. -/
theorem self_concat_runs_away :
    (⟨some [97, 98, 0, 0, 0], 4, 2⟩ : WString).Stored [97, 98, 0, 0, 0] ∧
      (⟨some [97, 98, 0, 0, 0], 4, 2⟩ : WString).concatSelf .fails = none :=
  ⟨⟨rfl, rfl, by decide, by decide⟩, by decide +kernel⟩

end LogoCore.Strings
