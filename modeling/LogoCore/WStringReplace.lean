import LogoCore.Substitution
import LogoCore.WStringSearch

namespace LogoCore.Strings

open CStrings TextSearch

/-- An unsigned number after `+=` of an `int`. -/
def addInt (n : ℕ) (d : ℤ) : ℕ := ((n + d) % 2 ^ 32).toNat

structure Edit where
  str : WString
  stores : List ℕ
deriving DecidableEq

namespace Edit

def write (e : Edit) (i : ℕ) (ws : List UInt8) : Edit :=
  ⟨{ e.str with buffer := e.str.buffer.map (overwrite · i ws) }, e.stores ++ List.range' i ws.length⟩

def memcpy (e : Edit) (dst src n : ℕ) : Edit :=
  ⟨{ e.str with buffer := e.str.buffer.map (memcpyWithin · dst src n) }, e.stores ++ List.range' dst n⟩

def memmove (e : Edit) (dst src n : ℕ) : Edit :=
  ⟨{ e.str with buffer := e.str.buffer.map fun bs => overwrite bs dst ((bs.drop src).take n) },
    e.stores ++ List.range' dst n⟩

def strcpy (e : Edit) (dst src : ℕ) : Option Edit :=
  (strcpyWithin e.str.bytes dst src).map fun bs =>
    ⟨{ e.str with buffer := some bs }, e.stores ++ List.range' dst (strlen (e.str.bytes.drop src) + 1)⟩

def grow (e : Edit) (diff : ℤ) : Edit := { e with str := { e.str with len := addInt e.str.len diff } }

end Edit

namespace WString

section Loops

variable (find replace : WString)

def replaceSame : ℕ → Edit → ℕ → Option Edit
  | 0, _, _ => none
  | fuel + 1, e, readFrom =>
    match strstr (e.str.bytes.drop readFrom) find.bytes with
    | none => some e
    | some o => replaceSame fuel (e.write (readFrom + o) replace.contents) (readFrom + o + replace.len)

def replaceShorter (diff : ℤ) : ℕ → Edit → ℕ → ℕ → Option Edit
  | 0, _, _, _ => none
  | fuel + 1, e, writeTo, readFrom =>
    match strstr (e.str.bytes.drop readFrom) find.bytes with
    | none => e.strcpy writeTo readFrom
    | some n =>
      replaceShorter diff fuel (((e.memcpy writeTo readFrom n).write (writeTo + n) replace.contents).grow diff)
        (writeTo + n + replace.len) (readFrom + n + find.len)

def sizeNeeded (bs : List UInt8) (diff : ℤ) : ℕ → ℕ → ℕ → Option ℕ
  | 0, _, _ => none
  | fuel + 1, readFrom, size =>
    match strstr (bs.drop readFrom) find.bytes with
    | none => some size
    | some o => sizeNeeded bs diff fuel (readFrom + o + find.len) (addInt size diff)

-- one pass of the loop that rewrites from the end, for an occurrence at index
def replaceAt (diff : ℤ) (e : Edit) (index : ℕ) : Edit :=
  let readFrom := index + find.len
  let e := (e.memmove (readFrom + diff.toNat) readFrom ((e.str.len + 2 ^ 32 - readFrom) % 2 ^ 32)).grow diff
  (e.write e.str.len [0]).write index replace.contents

def replaceLonger (diff : ℤ) (steps : ℕ) : ℕ → Edit → ℤ → Option Edit
  | 0, _, _ => none
  | fuel + 1, e, index =>
    if index < 0 then some e
    else
      match e.str.lastIndexOfFrom steps find index.toNat with
      | none => none
      | some index =>
        if index < 0 then some e
        else replaceLonger diff steps fuel (replaceAt find replace diff e index.toNat) (index - 1)

end Loops

/-- `replace(const String&, const String&)`; every loop may take `fuel` steps. -/
def replaceString (fuel : ℕ) (s find replace : WString) (a : Alloc) : Option Edit :=
  if s.len = 0 ∨ find.len = 0 then some ⟨s, []⟩
  else
    let diff := asInt (replace.len + 2 ^ 32 - find.len)
    if diff = 0 then replaceSame find replace fuel ⟨s, []⟩ 0
    else if diff < 0 then replaceShorter find replace diff fuel ⟨s, []⟩ 0 0
    else
      match sizeNeeded find s.bytes diff fuel 0 s.len with
      | none => none
      | some size =>
        if size = s.len then some ⟨s, []⟩
        else if s.capacity < size then
          match s.changeBuffer size a with
          | (true, s) => replaceLonger find replace diff fuel fuel ⟨s, []⟩ (asInt (s.len - 1))
          | (false, s) => some ⟨s, []⟩
        else replaceLonger find replace diff fuel fuel ⟨s, []⟩ (asInt (s.len - 1))

end WString

section Diff

variable {m n : ℕ}

theorem asInt_sub (hm : m < 2 ^ 31) (hn : n < 2 ^ 31) : asInt (n + 2 ^ 32 - m) = (n : ℤ) - m := by
  rw [asInt]
  split <;> omega

theorem addInt_eq {k : ℕ} {d : ℤ} (h : (n : ℤ) + d = k) (hk : k < 2 ^ 32) : addInt n d = k := by
  rw [addInt, h, Int.emod_eq_of_lt (by omega) (by omega), Int.toNat_natCast]

end Diff

namespace WString

section InPlace

variable {find replace : WString} {f u : List UInt8}

theorem replaceSame_spec (hfind : CStrings.cString find.bytes = f) (hf : f ≠ []) (hu : replace.contents = u)
    (hlen : replace.len = u.length) (heq : u.length = f.length) {fuel : ℕ} (cap len : ℕ) (before rest : List UInt8)
    {v : List UInt8} (hv : NulFree v) (st : List ℕ) (hfuel : v.length < fuel) :
    ∃ st', replaceSame find replace fuel ⟨⟨some (before ++ (v ++ 0 :: rest)), cap, len⟩, st⟩ before.length =
      some ⟨⟨some (before ++ (substitute f u v ++ 0 :: rest)), cap, len⟩, st ++ st'⟩ ∧
        ∀ i ∈ st', i < before.length + v.length := by
  induction fuel generalizing before v st with
  | zero => exact absurd hfuel (Nat.not_lt_zero _)
  | succ fuel ih =>
    have hsearch : strstr ((before ++ (v ++ 0 :: rest)).drop before.length) find.bytes = TextSearch.find f v := by
      rw [List.drop_left]
      exact strstr_text (p := 0) hv hfind (Nat.zero_le _)
    rw [replaceSame, bytes, Option.getD_some, hsearch]
    cases hfound : TextSearch.find f v with
    | none =>
      rw [(substitute_of_none hf hfound).1]
      exact ⟨[], by rw [List.append_nil], List.forall_mem_nil _⟩
    | some o =>
      obtain ⟨g, w, rfl, rfl, hsub, -⟩ := exists_split_of_find (u := u) hf hfound
      have hpos := List.length_pos_iff.mpr hf
      have hw : NulFree w := (nulFree_append.mp (nulFree_append.mp hv).2).2
      have hwrite : overwrite (before ++ (g ++ (f ++ w) ++ 0 :: rest)) (before.length + g.length) u =
          (before ++ (g ++ u)) ++ (w ++ 0 :: rest) := by
        have := overwrite_exact (before ++ g) f (w ++ 0 :: rest) heq
        simpa only [List.append_assoc, List.length_append] using this
      simp only [List.length_append] at hfuel
      obtain ⟨st', hrun, hst'⟩ := ih (before ++ (g ++ u)) hw
        (st ++ List.range' (before.length + g.length) u.length) (by omega)
      refine ⟨List.range' (before.length + g.length) u.length ++ st', ?_, ?_⟩
      · simp only [Edit.write, hu, hlen, Option.map_some, hwrite, hsub]
        simp only [List.length_append, ← Nat.add_assoc] at hrun
        rw [hrun]
        simp only [List.append_assoc]
      · intro i hi
        simp only [List.length_append] at hst' ⊢
        rcases List.mem_append.mp hi with hi | hi
        · rw [List.mem_range'_1] at hi
          omega
        · have := hst' i hi
          omega

section Cursors

variable (before mid : List UInt8)

theorem cString_behind (rest : List UInt8) {v : List UInt8} (hv : NulFree v) :
    CStrings.cString ((before ++ (mid ++ (v ++ 0 :: rest))).drop (before.length + mid.length)) = v := by
  rw [← List.drop_drop, List.drop_left, List.drop_left, cString_append_nul hv]

theorem strcpyWithin_behind (rest : List UInt8) {v : List UInt8} (hv : NulFree v) :
    strcpyWithin (before ++ (mid ++ (v ++ 0 :: rest))) before.length (before.length + mid.length) =
      some (before ++ v ++ 0 :: (mid ++ (v ++ 0 :: rest)).drop (v.length + 1)) := by
  have hblock : (before ++ (mid ++ (v ++ 0 :: rest))).length =
      before.length + mid.length + v.length + rest.length + 1 := by
    simp only [List.length_append, List.length_cons]
    omega
  rw [strcpyWithin_eq (cString_behind before mid rest hv) (by omega) (.inl (Nat.le_add_right _ _)) (by omega),
    overwrite_append _ _ _ (by simp only [List.length_append, List.length_cons, List.length_nil]; omega),
    List.length_append, List.length_singleton, ← List.append_assoc, List.append_assoc, List.singleton_append]

theorem overwrite_memcpyWithin (g w rest : List UInt8) (hle : u.length ≤ f.length) :
    overwrite (memcpyWithin (before ++ (mid ++ (g ++ (f ++ w) ++ 0 :: rest))) before.length
      (before.length + mid.length) g.length) (before.length + g.length) u =
        (before ++ (g ++ u)) ++ ((mid ++ (g ++ f)).drop (g ++ u).length ++ (w ++ 0 :: rest)) := by
  have hsource : ((before ++ (mid ++ (g ++ (f ++ w) ++ 0 :: rest))).drop (before.length + mid.length)).take
      g.length = g := by
    rw [← List.drop_drop, List.drop_left, List.drop_left, List.append_assoc, List.take_left]
  rw [memcpyWithin_eq (Nat.le_add_right _ _) (by simp only [List.length_append]; omega), hsource,
    overwrite_append_right, overwrite_append _ _ _ (by simp only [List.length_append]; omega)]
  have hdrop : (mid ++ (g ++ (f ++ w) ++ 0 :: rest)).drop (g ++ u).length =
      (mid ++ (g ++ f)).drop (g ++ u).length ++ (w ++ 0 :: rest) := by
    rw [← List.drop_append_of_le_length (by simp only [List.length_append]; omega)]
    simp only [List.append_assoc]
  rw [hdrop, List.append_assoc]

end Cursors

theorem replaceShorter_spec (hfind : CStrings.cString find.bytes = f) (hf : f ≠ []) (hu : replace.contents = u)
    (hflen : find.len = f.length) (hlen : replace.len = u.length) (hlt : u.length < f.length) {diff : ℤ}
    (hdiff : diff = u.length - f.length) {fuel len : ℕ} (cap : ℕ) (before mid rest : List UInt8) {v : List UInt8}
    (hv : NulFree v) (hcount : len = before.length + v.length) (hshort : len < 2 ^ 31) (st : List ℕ)
    (hfuel : v.length < fuel) :
    ∃ junk st', replaceShorter find replace diff fuel ⟨⟨some (before ++ (mid ++ (v ++ 0 :: rest))), cap, len⟩, st⟩
        before.length (before.length + mid.length) =
      some ⟨⟨some (before ++ substitute f u v ++ 0 :: junk), cap, (before ++ substitute f u v).length⟩, st ++ st'⟩ ∧
      (before ++ substitute f u v ++ 0 :: junk).length = (before ++ (mid ++ (v ++ 0 :: rest))).length ∧
        ∀ i ∈ st', i ≤ before.length + mid.length + v.length := by
  induction fuel generalizing before mid v st len with
  | zero => exact absurd hfuel (Nat.not_lt_zero _)
  | succ fuel ih =>
    have hsearch : strstr ((before ++ (mid ++ (v ++ 0 :: rest))).drop (before.length + mid.length)) find.bytes =
        TextSearch.find f v := by
      rw [← List.drop_drop, List.drop_left, List.drop_left]
      exact strstr_text (p := 0) hv hfind (Nat.zero_le _)
    rw [replaceShorter, bytes, Option.getD_some, hsearch]
    cases hfound : TextSearch.find f v with
    | none =>
      rw [(substitute_of_none hf hfound).1]
      have hread := cString_behind before mid rest hv
      have hcopy := strcpyWithin_behind before mid rest hv
      refine ⟨(mid ++ (v ++ 0 :: rest)).drop (v.length + 1), List.range' before.length (v.length + 1), ?_, ?_, ?_⟩
      · simp only [Edit.strcpy, bytes, Option.getD_some, hcopy, Option.map_some, strlen, hread]
        rw [hcount, List.length_append]
      · simp only [List.length_append, List.length_cons, List.length_drop]
        omega
      · intro i hi
        rw [List.mem_range'_1] at hi
        omega
    | some o =>
      obtain ⟨g, w, rfl, rfl, hsub, -⟩ := exists_split_of_find (u := u) hf hfound
      have hw : NulFree w := (nulFree_append.mp (nulFree_append.mp hv).2).2
      simp only [List.length_append] at hfuel hcount
      -- what lies between the two cursors after the step
      set mid' := (mid ++ (g ++ f)).drop (g ++ u).length with hmid
      have hmidlen : mid'.length = mid.length + f.length - u.length := by
        simp only [hmid, List.length_drop, List.length_append]
        omega
      have hbytes := overwrite_memcpyWithin before mid g w rest hlt.le
      have hlen' : addInt len diff = (before ++ (g ++ u)).length + w.length := by
        apply addInt_eq
        · simp only [List.length_append]
          omega
        · simp only [List.length_append]
          omega
      have hshort' : addInt len diff < 2 ^ 31 := by
        rw [hlen']
        simp only [List.length_append]
        omega
      obtain ⟨junk, st', hrun, hsize, hst'⟩ := ih (before ++ (g ++ u)) mid' hw hlen' hshort'
        (st ++ List.range' before.length g.length ++ List.range' (before.length + g.length) u.length) (by omega)
      have hwr : before.length + g.length + u.length = (before ++ (g ++ u)).length := by
        simp only [List.length_append]
        omega
      have hrd : before.length + mid.length + g.length + f.length = (before ++ (g ++ u)).length + mid'.length := by
        rw [hmidlen]
        simp only [List.length_append]
        omega
      refine ⟨junk, List.range' before.length g.length ++ List.range' (before.length + g.length) u.length ++ st',
        ?_, ?_, ?_⟩
      · simp only [Edit.memcpy, Edit.write, Edit.grow, Option.map_some, hu, hlen, hflen, hbytes, hwr, hrd, hlen']
        rw [hlen'] at hrun
        rw [hrun, hsub]
        simp only [List.append_assoc]
      · rw [hsub]
        simp only [List.length_append, List.append_assoc, hmidlen] at hsize ⊢
        omega
      · intro i hi
        simp only [List.length_append, hmidlen] at hst' ⊢
        rcases List.mem_append.mp hi with hi | hi
        · rcases List.mem_append.mp hi with hi | hi <;> rw [List.mem_range'_1] at hi <;> omega
        · have := hst' i hi
          omega

end InPlace

end WString

theorem inPlace_replace_substitutes {s find replace : WString} {t f u : List UInt8} (hs : s.Valid t)
    (hfind : find.Valid f) (hf : f ≠ []) (hreplace : replace.Held u) (hle : u.length ≤ f.length) (fuel : ℕ)
    (hfuel : s.len < fuel) (a : Alloc) :
    ∃ e, s.replaceString fuel find replace a = some e ∧ e.str.Valid (substitute f u t) ∧
      e.str.capacity = s.capacity ∧ ∀ i ∈ e.stores, i ≤ s.len := by
  have hpos := List.length_pos_iff.mpr hf
  have hshort := hfind.short
  have hneedle : cString find.bytes = f := hfind.cString_bytes
  have hfree : NulFree (substitute f u t) := forall_mem_substitute hf hreplace.nulFree hs.rep.nulFree
  rw [WString.replaceString, hfind.rep.len, hreplace.len, hs.rep.len]
  rw [hs.rep.len] at hfuel
  simp only [asInt_sub (show f.length < 2 ^ 31 by omega) (show u.length < 2 ^ 31 by omega)]
  obtain ⟨rest, rfl, ht, hblock⟩ := hs
  split
  · rename_i hempty
    obtain rfl : t = [] := List.length_eq_zero_iff.mp (by omega)
    exact ⟨_, rfl, ⟨rest, rfl, ht, hblock⟩, rfl, nofun⟩
  · rcases Nat.lt_or_eq_of_le hle with hlt | heq
    · rw [if_neg (by omega), if_pos (by omega)]
      obtain ⟨junk, st, hrun, hsize, hst⟩ := WString.replaceShorter_spec hneedle hf hreplace.contents hfind.rep.len
        hreplace.len hlt rfl (t.length + rest.length) [] [] rest ht (Nat.zero_add _).symm (by omega) [] hfuel
      simp only [List.nil_append, List.length_nil, List.length_append, List.length_cons, Nat.zero_add] at hrun hsize hst
      have hroom : (substitute f u t).length + junk.length = t.length + rest.length := by omega
      refine ⟨_, hrun, ⟨junk, ?_, hfree, by omega⟩, rfl, hst⟩
      rw [WString.holding, hroom]
    · rw [if_pos (by omega)]
      obtain ⟨st, hrun, hst⟩ := WString.replaceSame_spec hneedle hf hreplace.contents hreplace.len heq
        (t.length + rest.length) t.length [] rest ht [] hfuel
      simp only [List.nil_append, List.length_nil, Nat.zero_add] at hrun hst
      have hlen : (substitute f u t).length = t.length := by
        have := length_substitute (u := u) hf t
        rw [heq] at this
        omega
      refine ⟨_, hrun, ⟨rest, ?_, hfree, by omega⟩, rfl, fun i hi => (hst i hi).le⟩
      rw [WString.holding, hlen]

theorem inPlace_replace_removes :
    ∃ e, (WString.holding [97, 98, 120, 97, 98] []).replaceString 6 (WString.holding [97, 98] []) .init none = some e ∧
      e.str.Valid (substitute [97, 98] [] [97, 98, 120, 97, 98]) := by
  obtain ⟨e, he, hvalid, -⟩ := inPlace_replace_substitutes
    (WString.valid_of_nulFree [97, 98, 120, 97, 98] (by decide) (by decide))
    (WString.valid_of_nulFree [97, 98] (by decide) (by decide)) (by decide) (.inl ⟨rfl, rfl⟩) (by decide) 6 (by decide)
    none
  exact ⟨e, he, hvalid⟩

end LogoCore.Strings
