import LogoCore.NumberText
import LogoCore.WStringReplace

namespace LogoCore.Strings

open CStrings

/-- The operand of a `concat` overload that does not belong to the receiver. -/
inductive Argument
  | str (r : WString)
  | text (t : Text)

namespace Argument

-- the bytes of the block that strcpy() reads, the terminator of a C string included
def buffer : Argument → Option (List UInt8)
  | .str r => r.buffer
  | .text t => t.operand.map (· ++ [0])

def length : Argument → ℕ
  | .str r => r.len
  | .text (.char _) => 1
  | .text t => strlen (t.operand.getD [])

def bytes (arg : Argument) : List UInt8 := arg.buffer.getD []

def contents (arg : Argument) : List UInt8 := arg.bytes.take arg.length

/-- Strings and C strings that are objects of the platform. -/
def Placed : Argument → Prop
  | .str r => r.Any
  | .text (.cstr c) => strlen (c.getD []) + 1 < 2 ^ 31
  | .text (.flash c) => strlen (c.getD []) + 1 < 2 ^ 31
  | .text _ => True

variable {arg : Argument}

theorem strlen_lt (c : Option (List UInt8)) (h : c.map (· ++ [0]) ≠ none) :
    strlen (c.getD []) < ((c.map (· ++ [0])).getD []).length := by
  cases c with
  | none => exact absurd rfl h
  | some c =>
    simp only [Option.getD_some, Option.map_some, List.length_append, List.length_singleton]
    exact Nat.lt_succ_of_le (strlen_le c)

theorem length_lt (h : arg.Placed) (hvalid : arg.buffer ≠ none) : arg.length < arg.bytes.length := by
  cases arg with
  | str r => exact WString.Any.len_lt h (Option.isSome_iff_ne_none.mpr hvalid)
  | text t =>
    cases t with
    | char c => exact (by decide : 1 < 2)
    | cstr c => exact strlen_lt c hvalid
    | flash c => exact strlen_lt c hvalid
    | number n => exact strlen_lt n.renderDecimal hvalid

theorem length_short (h : arg.Placed) : arg.length + 1 < 2 ^ 31 := by
  cases arg with
  | str r =>
    rcases h with rfl | ⟨bs, h⟩
    · decide
    · have hlen : r.len ≤ r.capacity := h.len
      have hsize := h.object
      simp only [length]
      omega
  | text t =>
    cases t with
    | char c => exact (by decide : 1 + 1 < 2 ^ 31)
    | cstr c => exact h
    | flash c => exact h
    | number n =>
      have hle : strlen (n.renderDecimal.getD []) ≤ 33 := by
        cases hn : n.renderDecimal with
        | none => exact Nat.zero_le _
        | some c => exact (strlen_le c).trans (Number.renderDecimal_rendered hn).short
      simp only [length, Text.operand]
      omega

theorem length_null (h : arg.Placed) (hnull : arg.buffer = none) : arg.length = 0 := by
  cases arg with
  | str r =>
    have hle := WString.Any.len_le h
    rw [WString.bytes, show r.buffer = none from hnull] at hle
    exact Nat.le_zero.mp hle
  | text t =>
    have hoperand : t.operand = none := Option.map_eq_none_iff.mp hnull
    have hzero : strlen (t.operand.getD []) = 0 := by
      rw [hoperand]
      rfl
    cases t with
    | char c => cases hoperand
    | cstr c => exact hzero
    | flash c => exact hzero
    | number n => exact hzero

theorem valid_of_length (h : arg.Placed) (hlen : arg.length ≠ 0) : arg.buffer ≠ none :=
  fun hnull => hlen (length_null h hnull)

theorem buffer_eq (h : arg.buffer ≠ none) : arg.buffer = some arg.bytes := by
  obtain ⟨c, hc⟩ := Option.ne_none_iff_exists'.mp h
  rw [bytes, hc, Option.getD_some]

end Argument

namespace WString

def concatArg (s : WString) (arg : Argument) (a : Alloc) : Option (Bool × WString) :=
  s.concatBlock arg.buffer arg.length a

def plusArg (s : WString) (arg : Argument) (a : Alloc) : Option WString := s.plusBlock arg.buffer arg.length a

def Terminated (s : WString) : Prop := ∀ bs ∈ s.buffer, bs[s.len]? = some 0

/-- What the class promises of its calls that need memory, for one operand and one outcome of the allocation. -/
structure Contract (s : WString) (arg : Argument) (a : Alloc) : Prop where
  reserve : ∀ size, size + 1 < 2 ^ 32 → ¬ s.Granted size a → s.reserve size a = (false, s)
  concatNull : arg.buffer = none → s.concatArg arg a = some (false, s)
  concatFails : arg.length ≠ 0 → ¬ s.Granted (s.len + arg.length) a → s.concatArg arg a = some (false, s)
  concatSucceeds : arg.buffer ≠ none → arg.length = 0 ∨ s.Granted (s.len + arg.length) a →
    ∃ s', s.concatArg arg a = some (true, s') ∧ s'.len = s.len + arg.length ∧
      s'.contents = s.contents ++ arg.contents ∧ s'.Terminated
  replaceFails : ∀ fuel find replace size, s.len ≠ 0 → find.len ≠ 0 → 0 < asInt (replace.len + 2 ^ 32 - find.len) →
    sizeNeeded find s.bytes (asInt (replace.len + 2 ^ 32 - find.len)) fuel 0 s.len = some size →
      s.capacity < size → size + 1 < 2 ^ 32 → a = none → s.replaceString fuel find replace a = some ⟨s, []⟩
  assignFails : ∀ r, arg = .str r → r.buffer ≠ none → ¬ s.Granted r.len a → s.assignBlock r a = some init
  assignCStrFails : ∀ c, arg = .text (.cstr (some c)) → ¬ s.Granted (strlen c) a →
    s.copyBlock (c ++ [0]) (strlen c) a = some init
  plusFails : arg.length ≠ 0 → ¬ s.Granted (s.len + arg.length) a → s.plusArg arg a = some init

section Calls

variable {s : WString} {a : Alloc}

variable {cs : List UInt8} {n : ℕ}

theorem concatBlock_denied (hn : n ≠ 0) (hsize : s.len + n + 1 < 2 ^ 32) (ha : ¬ s.Granted (s.len + n) a) :
    s.concatBlock (some cs) n a = some (false, s) := by
  have hreserve := reserve_denied hsize ha
  simp only [concatBlock, concat, if_neg hn, Nat.mod_eq_of_lt (show s.len + n < 2 ^ 32 by omega), hreserve]
  exact if_pos fun _ _ _ h => absurd h Bool.false_ne_true

theorem copyBlock_denied {src : List UInt8} (hsize : n + 1 < 2 ^ 32) (ha : ¬ s.Granted n a) :
    s.copyBlock src n a = some init := by
  rw [copyBlock, copy_denied hsize ha, reserve_denied hsize ha]
  exact if_pos fun h => (nomatch h)

theorem text_terminated_iff {r : WString} {t u : List UInt8} (hsome : r.buffer.isSome)
    (hlen : r.len = t.length + u.length) (htext : r.bytes.take t.length = t) (hblock : r.len < r.bytes.length) :
    r.contents = t ++ u ∧ r.Terminated ↔ (r.bytes.drop t.length).take (u.length + 1) = u ++ [0] := by
  obtain ⟨bs, hbs⟩ := Option.isSome_iff_exists.mp hsome
  have hbytes : r.bytes = bs := by rw [bytes, hbs, Option.getD_some]
  rw [hbytes] at htext hblock
  have hnul : r.Terminated ↔ bs[r.len]? = some 0 := by simp only [Terminated, hbs, Option.mem_some_iff, forall_eq']
  have hcontents : r.contents = t ++ u ↔ (bs.drop t.length).take u.length = u := by
    rw [contents, hbytes, hlen, List.take_add, htext, List.append_cancel_left_eq]
  have hshort : ((bs.drop t.length).take u.length).length = u.length := by
    rw [List.length_take, List.length_drop]
    omega
  rw [hcontents, hnul, hbytes, List.take_add_one, List.getElem?_drop, hlen]
  constructor
  · rintro ⟨hu, hzero⟩
    rw [hu, hzero]
    rfl
  · intro h
    obtain ⟨hu, hzero⟩ := List.append_inj h hshort
    refine ⟨hu, ?_⟩
    rw [hlen] at hblock
    rw [List.getElem?_eq_getElem hblock] at hzero ⊢
    simpa using hzero

theorem concatBlock_granted_iff (hs : s.Any) (hn : n ≠ 0) (hsize : s.len + n + 1 < 2 ^ 32)
    (ha : s.Granted (s.len + n) a) (hc : n < cs.length) :
    (∃ s', s.concatBlock (some cs) n a = some (true, s') ∧ s'.len = s.len + n ∧
      s'.contents = s.contents ++ cs.take n ∧ s'.Terminated) ↔
    strlen cs ≤ n ∧ ∀ k, strlen cs < k → k ≤ n → s.memory a (s.len + k) = (cs.take n ++ [0])[k]? := by
  have hmod : (s.len + n) % 2 ^ 32 = s.len + n := Nat.mod_eq_of_lt (by omega)
  obtain ⟨block, cap, hreserve, hblock, hroom, htext⟩ := reserve_granted hs hsize ha
  have hbytes : s.reserved (s.len + n) a = block := by rw [reserved, hreserve]; rfl
  have hconcat : s.concatBlock (some cs) n a = if Copyable cs s.len (cap + 1)
      then some (true, ⟨some (strcpy block s.len cs), cap, s.len + n⟩) else none := by
    simp only [concatBlock, concat, hmod, hbytes, hblock, hreserve, Option.map_some, Option.mem_some_iff,
      forall_eq', ne_eq, hn, if_false, not_false_eq_true, forall_const]
  have htake : (cs.take n).length = n := List.length_take_of_le hc.le
  have hresult := text_terminated_iff (r := ⟨some (strcpy block s.len cs), cap, s.len + n⟩) (t := s.contents)
    (u := cs.take n) rfl (by rw [hs.length_contents, htake])
    (by rw [hs.length_contents]; exact (strcpy_take block cs s.len).trans htext)
    (by simp only [bytes, Option.getD_some, strcpy, length_overwrite]; omega)
  rw [hs.length_contents, htake] at hresult
  have hcopied := strcpy_terminated_iff cs (show s.len + n < block.length by omega) hc
  have hmemory (k : ℕ) (hk : strlen cs < k) (hle : k ≤ n) : block[s.len + k]? = s.memory a (s.len + k) := by
    rw [← hbytes]
    exact getElem?_reserved hs hsize ha (by omega) (by omega)
  have hiff : ((⟨some (strcpy block s.len cs), cap, s.len + n⟩ : WString).contents = s.contents ++ cs.take n ∧
      (⟨some (strcpy block s.len cs), cap, s.len + n⟩ : WString).Terminated) ↔
      strlen cs ≤ n ∧ ∀ k, strlen cs < k → k ≤ n → s.memory a (s.len + k) = (cs.take n ++ [0])[k]? := by
    rw [hresult]
    refine hcopied.trans (and_congr_right' (forall₃_congr fun k hk hle => ?_))
    rw [hmemory k hk hle]
  rw [← hiff, hconcat]
  constructor
  · rintro ⟨s', hs', -, htext', hnul⟩
    split at hs'
    · obtain rfl : _ = s' := congrArg Prod.snd (Option.some.inj hs')
      exact ⟨htext', hnul⟩
    · cases hs'
  · intro h
    have hle := (hiff.mp h).1
    exact ⟨_, if_pos ⟨by omega, by omega⟩, rfl, h⟩

theorem replaceString_denied {find replace : WString} {fuel size : ℕ} (hlen : s.len ≠ 0) (hfind : find.len ≠ 0)
    (hdiff : 0 < asInt (replace.len + 2 ^ 32 - find.len))
    (hneed : sizeNeeded find s.bytes (asInt (replace.len + 2 ^ 32 - find.len)) fuel 0 s.len = some size)
    (hcap : s.capacity < size) (hsize : size + 1 < 2 ^ 32) :
    s.replaceString fuel find replace none = some ⟨s, []⟩ := by
  rw [replaceString, if_neg (not_or.mpr ⟨hlen, hfind⟩)]
  simp only [if_neg (ne_of_gt hdiff), if_neg (not_lt.mpr hdiff.le), hneed, if_pos hcap, changeBuffer_fails hsize,
    ite_self]

end Calls

end WString

/-- The operand ends no later than its length says, and the bytes that it holds behind its first zero byte and the
terminator already stand where they would be appended. -/
def Argument.Standing (arg : Argument) (s : WString) (a : Alloc) : Prop :=
  arg.length ≠ 0 → s.Granted (s.len + arg.length) a → strlen arg.bytes ≤ arg.length ∧
    ∀ k, strlen arg.bytes < k → k ≤ arg.length → s.memory a (s.len + k) = (arg.contents ++ [0])[k]?

namespace WString

variable {s : WString} {arg : Argument} {a : Alloc}

theorem newlen_short (hs : s.Any) (harg : arg.Placed) : s.len + arg.length + 1 < 2 ^ 32 := by
  have hshort := hs.short
  have hlength := Argument.length_short harg
  omega

theorem concatArg_granted_iff (hs : s.Any) (harg : arg.Placed) (hlen : arg.length ≠ 0)
    (ha : s.Granted (s.len + arg.length) a) :
    (∃ s', s.concatArg arg a = some (true, s') ∧ s'.len = s.len + arg.length ∧
      s'.contents = s.contents ++ arg.contents ∧ s'.Terminated) ↔
    strlen arg.bytes ≤ arg.length ∧
      ∀ k, strlen arg.bytes < k → k ≤ arg.length → s.memory a (s.len + k) = (arg.contents ++ [0])[k]? := by
  have hvalid := Argument.valid_of_length harg hlen
  rw [concatArg, Argument.buffer_eq hvalid, Argument.contents]
  exact concatBlock_granted_iff hs hlen (newlen_short hs harg) ha (Argument.length_lt harg hvalid)

theorem standing_of_contract (hs : s.Any) (harg : arg.Placed) (h : s.Contract arg a) : arg.Standing s a :=
  fun hlen ha => (concatArg_granted_iff hs harg hlen ha).mp
    (h.concatSucceeds (Argument.valid_of_length harg hlen) (.inr ha))

theorem concatArg_denied (hs : s.Any) (harg : arg.Placed) (hlen : arg.length ≠ 0)
    (ha : ¬ s.Granted (s.len + arg.length) a) : s.concatArg arg a = some (false, s) := by
  rw [concatArg, Argument.buffer_eq (Argument.valid_of_length harg hlen)]
  exact concatBlock_denied hlen (newlen_short hs harg) ha

theorem concatArg_empty (hvalid : arg.buffer ≠ none) (hlen : arg.length = 0) :
    s.concatArg arg a = some (true, s) := by
  rw [concatArg, Argument.buffer_eq hvalid, hlen, concatBlock, if_pos fun _ _ h => absurd rfl h]
  rfl

theorem Held.terminated {t : List UInt8} (h : s.Held t) : s.Terminated := by
  rcases h with ⟨rfl, -⟩ | ⟨rest, rfl, -, -⟩
  · exact fun bs h => (nomatch h)
  · rintro bs hbs
    obtain rfl := Option.some.inj hbs
    exact List.getElem?_append_right le_rfl |>.trans (by rw [Nat.sub_self]; rfl)

theorem contract_of_standing {t : List UInt8} (hheld : s.Held t) (harg : arg.Placed) (h : arg.Standing s a) :
    s.Contract arg a := by
  have hs := hheld.any
  constructor
  case reserve => exact fun size hsize ha => reserve_denied hsize ha
  case concatNull =>
    intro hnull
    simp [concatArg, hnull, concatBlock, concat]
  case concatFails => exact concatArg_denied hs harg
  case concatSucceeds =>
    intro hvalid ha
    by_cases hlen : arg.length = 0
    · refine ⟨s, concatArg_empty hvalid hlen, by rw [hlen, Nat.add_zero], ?_, hheld.terminated⟩
      rw [Argument.contents, hlen, List.take_zero, List.append_nil]
    · exact (concatArg_granted_iff hs harg hlen (ha.resolve_left hlen)).mpr (h hlen (ha.resolve_left hlen))
  case replaceFails =>
    rintro fuel find replace size hlen hfind hdiff hneed hcap hsize rfl
    exact replaceString_denied hlen hfind hdiff hneed hcap hsize
  case assignFails =>
    rintro r rfl hvalid ha
    obtain ⟨bs, hbuffer⟩ := Option.ne_none_iff_exists'.mp hvalid
    have hshort : r.len + 1 < 2 ^ 31 := Argument.length_short harg
    rw [assignBlock, hbuffer]
    exact copyBlock_denied (by omega) ha
  case assignCStrFails =>
    rintro c rfl ha
    have hshort : strlen c + 1 < 2 ^ 31 := harg
    exact copyBlock_denied (by omega) ha
  case plusFails =>
    intro hlen ha
    have hconcat := concatArg_denied hs harg hlen ha
    rw [concatArg] at hconcat
    rw [plusArg, plusBlock, hconcat]
    rfl

end WString

theorem allocation_contract_iff (arg : Argument) (harg : arg.Placed) :
    (∀ s t a, WString.Held s t → (s.Contract arg a ↔ arg.Standing s a)) ∧
    ((∀ s t a, WString.Held s t → s.Contract arg a) ↔ arg.length = 0 ∨ arg.length = strlen arg.bytes) := by
  refine ⟨fun s t a hs => ⟨WString.standing_of_contract hs.any harg, WString.contract_of_standing hs harg⟩,
    fun h => ?_, fun h s t a hs => WString.contract_of_standing hs harg fun hlen _ => ?_⟩
  · by_contra hfails
    obtain ⟨hlen, hends⟩ := not_or.mp hfails
    -- an invalid String that gets memory with other bytes than the operand behind its first zero byte
    obtain ⟨hle, hbytes⟩ := WString.standing_of_contract (.inl rfl) harg
      (h .init [] (some (WString.differing (arg.contents ++ [0]))) (.inl ⟨rfl, rfl⟩)) hlen (.inr nofun)
    have hbyte := hbytes (strlen arg.bytes + 1) (Nat.lt_succ_self _) (by omega)
    have hzero : WString.init.len = 0 := rfl
    rw [hzero, Nat.zero_add] at hbyte
    have hlt := Argument.length_lt harg (Argument.valid_of_length harg hlen)
    refine WString.memory_differing ?_ hbyte
    rw [List.length_append, Argument.contents, List.length_take_of_le hlt.le, List.length_singleton]
    omega
  · have hends := h.resolve_left hlen
    exact ⟨hends.ge, fun k hk hle => absurd hle (by omega)⟩

theorem allocation_contract_of_nulFree :
    (WString.holding [120] []).Contract (.str (WString.holding [97, 98] [])) none :=
  (allocation_contract_iff (.str (WString.holding [97, 98] []))
    (.inr ⟨_, (WString.valid_of_nulFree [97, 98] (by decide) (by decide)).stored⟩)).2.mpr (.inr (by decide))
    _ [120] none
    (.inr (WString.valid_of_nulFree [120] (by decide) (by decide)))

/-- The String with the bytes "a", 0, "b" appended to "x": the length is 4, the last byte is not "b". A zero byte
appended to "x": the String of length 2 has no terminator. A String that is longer than its length appended to "x": the
copy leaves the block. -/
theorem concat_loses_byte_behind_nul :
    WString.Valid (WString.holding [120] []) [120] ∧ WString.Stored ⟨some [97, 0, 98, 0], 3, 3⟩ [97, 0, 98, 0] ∧
      (WString.holding [120] []).concatArg (.str ⟨some [97, 0, 98, 0], 3, 3⟩) (some fun _ => 7) =
        some (true, ⟨some [120, 97, 0, 7, 7], 4, 4⟩) ∧
      (WString.holding [120] []).concatArg (.text (.char 0)) (some fun _ => 7) =
        some (true, ⟨some [120, 0, 7], 2, 2⟩) ∧
      WString.Stored ⟨some [97, 120, 7], 2, 2⟩ [97, 120, 7] ∧
      (WString.holding [120] []).concatArg (.str ⟨some [97, 120, 7], 2, 2⟩) (some fun _ => 7) = none :=
  ⟨WString.valid_of_nulFree [120] (by decide) (by decide), ⟨rfl, rfl, by decide, by decide⟩, by decide +kernel,
    by decide +kernel, ⟨rfl, rfl, by decide, by decide⟩, by decide +kernel⟩

end LogoCore.Strings
