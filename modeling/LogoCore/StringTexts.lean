import LogoCore.StringObjects

namespace LogoCore.Strings

open CStrings

namespace WString

def Inv (s : WString) : Prop :=
  (s.buffer = none ∧ s.len = 0 ∧ s.capacity = 0) ∨
    ∃ bs, s.buffer = some bs ∧ s.len ≤ s.capacity ∧ bs[s.len]? = some 0 ∧ ∀ i < s.len, bs[i]? ≠ some 0

def text (s : WString) : List UInt8 := (s.buffer.getD []).take s.len

structure Describes (s : WString) : Prop where
  length : s.length = s.text.length
  cStr : s.cStr.getD [] = s.text
  toInt : s.toInt = atol s.text
  equalsCStr : ∀ cstr, s.equalsCStr cstr = true ↔ s.text = cString (cstr.getD [])

structure ComparesWith (s r : WString) : Prop where
  compareTo : s.compareTo r = compareBytes s.text r.text
  equals : s.equals r = true ↔ s.text = r.text

variable {s r : WString} {t : List UInt8}

theorem Rep.inv (h : s.Rep t) : s.Inv := by
  rcases h with ⟨rfl, -⟩ | ⟨rest, rfl, ht, -⟩
  · exact .inl ⟨rfl, rfl, rfl⟩
  · refine .inr ⟨_, rfl, Nat.le_add_right _ _, by simp [holding], fun i hi hzero => ?_⟩
    have hi : i < t.length := hi
    rw [List.getElem?_append_left hi] at hzero
    exact ht 0 (List.mem_of_getElem? hzero) rfl

theorem Inv.exists_nul (h : s.Inv) :
    s = init ∨ ∃ rest, s.buffer = some (s.text ++ 0 :: rest) ∧ s.text.length = s.len ∧ NulFree s.text := by
  rcases h with ⟨hb, hl, hc⟩ | ⟨bs, hb, -, hnul, hfree⟩
  · left
    obtain ⟨b, c, l⟩ := s
    simp_all [init]
  · right
    obtain ⟨hlt, hget⟩ := List.getElem?_eq_some_iff.mp hnul
    have htext : s.text = bs.take s.len := by rw [text, hb, Option.getD_some]
    refine ⟨bs.drop (s.len + 1), ?_, ?_, fun b hmem hzero => ?_⟩
    · rw [hb, htext, ← hget, ← List.drop_eq_getElem_cons hlt, List.take_append_drop]
    · rw [htext, List.length_take]
      omega
    · obtain ⟨i, hi, hi'⟩ := List.mem_iff_getElem.mp (htext ▸ hmem)
      rw [List.length_take] at hi
      rw [List.getElem_take] at hi'
      exact hfree i (by omega) (List.getElem?_eq_some_iff.mpr ⟨by omega, by rw [hi', hzero]⟩)

theorem Inv.nulFree (h : s.Inv) : NulFree s.text := by
  rcases h.exists_nul with rfl | ⟨rest, -, -, ht⟩
  · exact nulFree_nil
  · exact ht

theorem Inv.length_text (h : s.Inv) : s.text.length = s.len := by
  rcases h.exists_nul with rfl | ⟨rest, -, hlen, -⟩
  · rfl
  · exact hlen

theorem Inv.cString_buffer (h : s.Inv) : cString (s.buffer.getD []) = s.text := by
  rcases h.exists_nul with rfl | ⟨rest, hb, -, ht⟩
  · rfl
  · rw [hb, Option.getD_some, cString_append_nul ht]

theorem Inv.describes (h : s.Inv) : s.Describes := by
  refine ⟨h.length_text.symm, ?_, ?_, fun cstr => ?_⟩
  · rw [← h.cString_buffer, WString.cStr]
    cases s.buffer <;> rfl
  · rw [← h.cString_buffer, WString.toInt]
    cases s.buffer with
    | none => rfl
    | some bs => simp [atol]
  · by_cases hlen : s.len = 0
    · have hempty : s.text = [] := List.length_eq_zero_iff.mp (h.length_text.trans hlen)
      cases cstr with
      | none => simp [WString.equalsCStr, hlen, hempty, cString]
      | some c =>
        simp only [WString.equalsCStr, if_pos hlen, hempty, List.isEmpty_iff, Option.getD_some]
        exact eq_comm
    · cases cstr with
      | none =>
        rcases h.exists_nul with rfl | ⟨rest, hb, hl, ht⟩
        · exact absurd rfl hlen
        · cases htext : s.text with
          | nil => exact absurd (by rw [← hl, htext]; rfl) hlen
          | cons b bs =>
            have hb0 : b ≠ 0 := ht b (by simp [htext])
            rw [htext] at hb
            simp [WString.equalsCStr, hlen, hb, hb0, cString]
      | some c =>
        simp only [WString.equalsCStr, if_neg hlen]
        rw [decide_eq_true_iff, strcmp, h.cString_buffer, compareBytes_eq_zero h.nulFree (nulFree_cString c)]
        rfl

theorem Inv.comparesWith (h : s.Inv) (hr : r.Inv) : s.ComparesWith r := by
  have hnull : init.text = [] := rfl
  have hcompare : s.compareTo r = compareBytes s.text r.text := by
    rcases h.exists_nul with rfl | ⟨rest, hb, hl, ht⟩
    · rcases hr.exists_nul with rfl | ⟨rest', hb', hl', ht'⟩
      · rfl
      · rw [hnull]
        cases htext : r.text <;> rw [htext] at hb' hl' <;>
          simp [WString.compareTo, init, hb', ← hl', compareBytes]
    · rcases hr.exists_nul with rfl | ⟨rest', hb', hl', ht'⟩
      · rw [hnull]
        cases htext : s.text <;> rw [htext] at hb hl <;>
          simp [WString.compareTo, init, hb, ← hl, compareBytes]
      · simp only [WString.compareTo, hb, hb']
        rw [strcmp, cString_append_nul ht, cString_append_nul ht']
  refine ⟨hcompare, ?_⟩
  rw [WString.equals, decide_eq_true_iff, hcompare, compareBytes_eq_zero h.nulFree hr.nulFree, ← h.length_text,
    ← hr.length_text]
  constructor
  · exact And.right
  · exact fun htext => ⟨by rw [htext], htext⟩

end WString

namespace Objects

def Sound (x : Objects) : Prop := ∀ k s, x k = some s → s.Inv

structure Agree (x : Objects) : Prop where
  describes : ∀ k s, x k = some s → s.Describes
  compares : ∀ k j s r, x k = some s → x j = some r → s.ComparesWith r

variable {x : Objects}

theorem Texts.sound (h : x.Texts) : x.Sound := by
  intro k s hs
  obtain ⟨t, ht⟩ := h k s hs
  exact ht.inv

theorem Sound.agree (h : x.Sound) : x.Agree :=
  ⟨fun k s hs => (h k s hs).describes, fun k j s r hs hr => (h k s hs).comparesWith (h j r hr)⟩

end Objects

namespace WString

theorem moved_inv {r : WString} {u : List UInt8} (hr : r.Rep u) (hb : r.buffer ≠ none)
    (h : ({ r with len := 0 } : WString).Inv) : r.len = 0 := by
  rcases hr with ⟨rfl, -⟩ | ⟨rest, rfl, hu, -⟩
  · exact absurd rfl hb
  · rcases h with ⟨hnone, -⟩ | ⟨bs, hbs, -, hnul, -⟩
    · cases hnone
    · obtain rfl := Option.some.inj hbs
      cases u with
      | nil => rfl
      | cons b u =>
        obtain rfl : b = 0 := by simpa using hnul
        exact absurd rfl (hu 0 (by simp))

theorem reserve_max_inv {s : WString} {t : List UInt8} (hs : s.Rep t) {a : Alloc}
    (h : (s.reserve (2 ^ 32 - 1) a).2.Inv) : a = none ∧ s.buffer = none := by
  have hcap : ¬ (s.buffer.isSome ∧ 2 ^ 32 - 1 ≤ s.capacity) := by
    have := hs.capacity
    omega
  rw [reserve, if_neg hcap] at h
  have hbytes {b : WString} (hb : b.buffer = some []) : ¬ b.Inv := by
    rintro (⟨hnone, -⟩ | ⟨bs, hbs, -, hnul, -⟩)
    · rw [hb] at hnone
      cases hnone
    · obtain rfl := Option.some.inj (hb.symm.trans hbs)
      simp at hnul
  cases a with
  | some fill =>
    refine absurd h (hbytes ?_)
    simp only [changeBuffer]
    split <;> simp [resize, overwrite]
  | none =>
    cases hbuf : s.buffer with
    | none => exact ⟨rfl, rfl⟩
    | some bs =>
      refine absurd h (hbytes ?_)
      simp [changeBuffer, hbuf]

end WString

namespace Objects

variable {x : Objects}

theorem put_self (k : ObjId) (s : WString) : x.put k s k = some s := by
  simp [put]

theorem put_of_ne {k j : ObjId} (h : j ≠ k) (s : WString) : x.put k s j = x j := by
  simp [put, h]

theorem careful_of_sound {e : StringEvent} (h : x.Texts) (he : x.Enabled e) (hs : (x.step e).Sound) :
    x.Careful e := by
  cases e with
  | reserve k size a =>
    by_cases hsize : size = 2 ^ 32 - 1
    · obtain rfl := hsize
      obtain ⟨s, hk⟩ := Option.ne_none_iff_exists'.mp he.1
      obtain ⟨t, ht⟩ := h k s hk
      have hstep : x.step (.reserve k (2 ^ 32 - 1) a) k = some (s.reserve (2 ^ 32 - 1) a).2 := by
        simp only [step, modify, hk, put_self]
      obtain ⟨ha, hb⟩ := WString.reserve_max_inv ht (hs k _ hstep)
      refine .inr ⟨ha, fun s' hs' => ?_⟩
      obtain rfl := Option.some.inj (hk.symm.trans hs')
      exact hb
    · exact .inl hsize
  | assignMove k j =>
    intro hkj s r hk hj hsb hrb hroom
    obtain ⟨u, hu⟩ := h j r hj
    have hmove : (s.move r).2 = { r with len := 0 } := by
      obtain ⟨bs, hbs⟩ := Option.ne_none_iff_exists'.mp hsb
      obtain ⟨rs, hrs⟩ := Option.ne_none_iff_exists'.mp hrb
      simp [WString.move, hbs, hrs, hroom]
    have hstep : x.step (.assignMove k j) j = some { r with len := 0 } := by
      simp only [step, if_neg hkj, hk, Objects.move, hj]
      rw [put_of_ne (Ne.symm hkj), put_self, hmove]
    exact WString.moved_inv hu hrb (hs j _ hstep)
  | _ => trivial

end Objects

theorem strings_keep_their_texts_iff (es : List StringEvent) (hl : stringMachine.Legal .empty es) :
    (∀ fs gs, es = fs ++ gs → (stringMachine.run .empty fs).Sound ∧ (stringMachine.run .empty fs).Agree) ↔
      (Machine.mk Objects.Careful Objects.step).Legal .empty es := by
  refine Machine.always_iff (M := stringMachine) (I := Objects.Texts)
    (P := fun x => x.Sound ∧ x.Agree) ?_ ?_ ?_ Objects.texts_empty hl
  · exact fun x h => ⟨h.sound, h.sound.agree⟩
  · exact fun x e h he hp => Objects.careful_of_sound h he hp.1
  · exact fun x e h he hq => Objects.texts_step h he hq

def letters (c : List UInt8) (k : ObjId) : StringEvent := .construct k (.cstr (some c)) 10 (some fun _ => 0)

theorem letters_enabled {x : Objects} {k : ObjId} (hx : x k = none) {c : List UInt8} (hc : NulFree c)
    (hlen : c.length + 1 < 2 ^ 32) : x.Enabled (letters c k) := by
  refine ⟨hx, ?_, by decide, by decide⟩
  intro d hd
  obtain rfl := Option.some.inj hd
  exact ⟨hc, hlen⟩

theorem strings_keep_their_texts_of_takeover :
    stringMachine.Legal .empty [letters [120] 0, letters [121, 122] 1, .assignMove 0 1] ∧
      (stringMachine.run .empty [letters [120] 0, letters [121, 122] 1, .assignMove 0 1]).Sound := by
  have hl : stringMachine.Legal .empty [letters [120] 0, letters [121, 122] 1, .assignMove 0 1] :=
    ⟨letters_enabled rfl (by decide) (by simp), letters_enabled rfl (by decide) (by simp), ⟨nofun, nofun⟩,
      trivial⟩
  refine ⟨hl, ((strings_keep_their_texts_iff _ hl).mpr ⟨trivial, trivial, ?_, trivial⟩ _ [] rfl).1⟩
  intro _ s r hs hr _ _ hroom
  obtain rfl := Option.some.inj (show some ⟨some [120, 0], 1, 1⟩ = some s from hs)
  obtain rfl := Option.some.inj (show some ⟨some [121, 122, 0], 2, 2⟩ = some r from hr)
  exact absurd hroom (by decide)

/-- After `a = std::move(b)` with room in `a`, `b` has length 0 and equals "", but its C string is still "z". -/
theorem moved_from_keeps_bytes :
    stringMachine.Legal .empty [letters [120, 121] 0, letters [122] 1, .assignMove 0 1] ∧
      ∃ b, stringMachine.run .empty [letters [120, 121] 0, letters [122] 1, .assignMove 0 1] 1 = some b ∧ ¬ b.Inv ∧
        b.length = 0 ∧ b.equalsCStr (some []) = true ∧ b.cStr = some [122] := by
  refine ⟨⟨letters_enabled rfl (by decide) (by simp), letters_enabled rfl (by decide) (by simp),
    ⟨nofun, nofun⟩, trivial⟩, ⟨some [122, 0], 1, 0⟩, rfl, ?_, rfl, rfl, rfl⟩
  rintro (⟨hnone, -⟩ | ⟨bs, hbs, -, hnul, -⟩)
  · cases hnone
  · obtain rfl := Option.some.inj hbs
    exact absurd hnul (by decide)

end LogoCore.Strings
