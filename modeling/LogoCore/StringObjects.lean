import LogoCore.EventMachine
import LogoCore.NumberText
import LogoCore.WStringEdits

namespace LogoCore.Strings

open CStrings

abbrev ObjId := ℕ

abbrev Objects := ObjId → Option WString

inductive StringEvent
  | construct (k : ObjId) (t : Text) (base : ℕ) (a : Alloc)
  | constructCopy (k j : ObjId) (a : Alloc)
  | constructMove (k j : ObjId)
  | destruct (k : ObjId)
  | reserve (k : ObjId) (size : ℕ) (a : Alloc)
  | assign (k j : ObjId) (a : Alloc)
  | assignMove (k j : ObjId)
  | assignCStr (k : ObjId) (cstr : Option (List UInt8)) (a : Alloc)
  | concat (k j : ObjId) (a : Alloc)
  | concatText (k : ObjId) (t : Text) (a : Alloc)
  | plus (k j : ObjId) (a : Alloc)
  | plusText (k : ObjId) (t : Text) (a : Alloc)
  | setCharAt (k : ObjId) (loc : ℕ) (c : UInt8)
  | replace (k : ObjId) (find replace : UInt8)
  | remove (k : ObjId) (index count : ℕ)
  | toLowerCase (k : ObjId)
  | toUpperCase (k : ObjId)
  | trim (k : ObjId)
  | substring (k j : ObjId) (left right : ℕ) (a a' : Alloc)

namespace Objects

def empty : Objects := fun _ => none

def put (x : Objects) (k : ObjId) (s : WString) : Objects := Function.update x k (some s)

def modify (x : Objects) (k : ObjId) (f : WString → WString) : Objects :=
  match x k with
  | some s => x.put k (f s)
  | none => x

def modifyFrom (x : Objects) (k j : ObjId) (f : WString → WString → WString) : Objects :=
  match x j with
  | some r => x.modify k (f · r)
  | none => x

def move (x : Objects) (k j : ObjId) (s : WString) : Objects :=
  match x j with
  | some r => (x.put j (s.move r).2).put k (s.move r).1
  | none => x

def textLength (t : Option (List UInt8)) : ℕ := strlen (t.getD [])

def step (x : Objects) : StringEvent → Objects
  | .construct k t base a => x.put k (.ofText t base a)
  | .constructCopy k j a => (x.put k .init).modifyFrom k j (·.assign · a)
  | .constructMove k j => x.move k j .init
  | .destruct k => Function.update x k none
  | .reserve k size a => x.modify k fun s => (s.reserve size a).2
  | .assign k j a => if k = j then x else x.modifyFrom k j (·.assign · a)
  | .assignMove k j =>
    if k = j then x
    else
      match x k with
      | some s => x.move k j s
      | none => x
  | .assignCStr k cstr a => x.modify k (·.assignCStr cstr a)
  | .concat k j a => x.modifyFrom k j fun s r => (s.concat r.buffer r.len a).2
  | .concatText k t a => x.modify k fun s => (s.concat t.operand (textLength t.operand) a).2
  | .plus k j a => x.modifyFrom k j fun s r => s.plus r.buffer r.len a
  | .plusText k t a => x.modify k (·.plus t.operand (textLength t.operand) a)
  | .setCharAt k loc c => x.modify k (·.setCharAt loc c)
  | .replace k find replace => x.modify k (·.replace find replace)
  | .remove k index count => x.modify k (·.remove index count)
  | .toLowerCase k => x.modify k (·.toLowerCase)
  | .toUpperCase k => x.modify k (·.toUpperCase)
  | .trim k => x.modify k (·.trim)
  | .substring k j left right a a' => (x.put k .init).modifyFrom k j fun _ r => r.substring left right a a'

end Objects

def Readable (cstr : Option (List UInt8)) : Prop := ∀ c ∈ cstr, NulFree c ∧ c.length + 1 < 2 ^ 32

def Text.Readable : Text → Prop
  | .cstr c => Strings.Readable c
  | .flash c => Strings.Readable c
  | .char c => c ≠ 0
  | .number _ => True

namespace Objects

/-- What holds of every call: the objects exist, bytes passed are not zero, and two texts that are in memory
together fit into the 32-bit address space. -/
def Enabled (x : Objects) : StringEvent → Prop
  | .construct k t base _ => x k = none ∧ t.Readable ∧ 2 ≤ base ∧ base ≤ 36
  | .constructCopy k j _ => x k = none ∧ x j ≠ none
  | .constructMove k j => x k = none ∧ x j ≠ none
  | .destruct k => x k ≠ none
  | .reserve k size _ => x k ≠ none ∧ size < 2 ^ 32
  | .assign k j _ => x k ≠ none ∧ x j ≠ none
  | .assignMove k j => x k ≠ none ∧ x j ≠ none
  | .assignCStr k cstr _ => x k ≠ none ∧ Readable cstr
  | .concat k j _ => k ≠ j ∧ ∃ s r, x k = some s ∧ x j = some r ∧ s.len + r.len + 1 < 2 ^ 32
  | .concatText k t _ => t.Readable ∧ ∃ s, x k = some s ∧ s.len + textLength t.operand + 1 < 2 ^ 32
  | .plus k j _ => k ≠ j ∧ ∃ s r, x k = some s ∧ x j = some r ∧ s.len + r.len + 1 < 2 ^ 32
  | .plusText k t _ => t.Readable ∧ ∃ s, x k = some s ∧ s.len + textLength t.operand + 1 < 2 ^ 32
  | .setCharAt k _ c => x k ≠ none ∧ c ≠ 0
  | .replace k find replace => x k ≠ none ∧ find ≠ 0 ∧ replace ≠ 0
  | .remove k index count => x k ≠ none ∧ index < 2 ^ 32 ∧ count < 2 ^ 32
  | .toLowerCase k => x k ≠ none
  | .toUpperCase k => x k ≠ none
  | .trim k => x k ≠ none
  | .substring k j left right _ _ => x k = none ∧ x j ≠ none ∧ left < 2 ^ 32 ∧ right < 2 ^ 32

end Objects

def stringMachine : Machine Objects StringEvent := ⟨Objects.Enabled, Objects.step⟩

theorem Text.render_short {t : Text} (h : t.Readable) (base : ℕ) : ∀ c ∈ t.render base, strlen c + 1 < 2 ^ 32 := by
  have hshort {c : List UInt8} (hc : Rendered c) : strlen c + 1 < 2 ^ 32 := by
    have := hc.short
    rw [strlen, cString_eq_self hc.nulFree]
    omega
  have hread {cstr : Option (List UInt8)} (hc : Strings.Readable cstr) : ∀ c ∈ cstr, strlen c + 1 < 2 ^ 32 := by
    intro c hmem
    rw [strlen, cString_eq_self (hc c hmem).1]
    exact (hc c hmem).2
  intro c hc
  cases t with
  | cstr => exact hread h c hc
  | flash => exact hread h c hc
  | char b =>
    obtain rfl := Option.some.inj hc
    have hb : b ≠ 0 := h
    rw [strlen, cString_eq_self (by simpa [NulFree] using hb)]
    simp
  | number n => exact hshort (Number.render_rendered hc)

namespace Objects

def Texts (x : Objects) : Prop := ∀ k s, x k = some s → ∃ t, s.Rep t

/-- The moves that empty their source and the sizes that a block can have. -/
def Careful (x : Objects) : StringEvent → Prop
  | .reserve k size a => size ≠ 2 ^ 32 - 1 ∨ a = none ∧ ∀ s, x k = some s → s.buffer = none
  | .assignMove k j => k ≠ j → ∀ s r, x k = some s → x j = some r → s.buffer ≠ none → r.buffer ≠ none →
      r.len ≤ s.capacity → r.len = 0
  | _ => True

variable {x : Objects}

theorem texts_empty : empty.Texts := fun _ _ h => nomatch h

theorem Texts.put (h : x.Texts) (k : ObjId) {s : WString} (hs : ∃ t, s.Rep t) : (x.put k s).Texts := by
  intro j r hr
  rw [Objects.put, Function.update_apply] at hr
  split at hr
  · obtain rfl := Option.some.inj hr
    exact hs
  · exact h j r hr

theorem Texts.remove (h : x.Texts) (k : ObjId) : Objects.Texts (Function.update x k none) := by
  intro j r hr
  rw [Function.update_apply] at hr
  split at hr
  · cases hr
  · exact h j r hr

theorem Texts.modify (h : x.Texts) (k : ObjId) {f : WString → WString}
    (hf : ∀ s t, x k = some s → s.Rep t → ∃ u, (f s).Rep u) : (x.modify k f).Texts := by
  unfold Objects.modify
  split
  · rename_i s hs
    obtain ⟨t, ht⟩ := h k s hs
    exact h.put k (hf s t hs ht)
  · exact h

theorem Texts.modifyFrom (h : x.Texts) (k j : ObjId) {f : WString → WString → WString}
    (hf : ∀ s r t u, x k = some s → x j = some r → s.Rep t → r.Rep u → ∃ w, (f s r).Rep w) :
    (x.modifyFrom k j f).Texts := by
  unfold Objects.modifyFrom
  split
  · rename_i r hr
    obtain ⟨u, hu⟩ := h j r hr
    exact h.modify k fun s t hs ht => hf s r t u hs hr ht hu
  · exact h

theorem Texts.move (h : x.Texts) (k j : ObjId) {s : WString} {t : List UInt8} (hs : s.Rep t)
    (hmove : ∀ r, x j = some r → s.buffer ≠ none → r.buffer ≠ none → r.len ≤ s.capacity → r.len = 0) :
    (x.move k j s).Texts := by
  unfold Objects.move
  split
  · rename_i r hr
    obtain ⟨u, hu⟩ := h j r hr
    rcases WString.move_of_rep hs hu with hm | ⟨hsome, hrsome, hroom, hdst, hsrc⟩
    · rw [hm]
      exact (h.put j ⟨[], WString.rep_init⟩).put k ⟨u, hu⟩
    · have hzero := hmove r hr (Option.isSome_iff_ne_none.mp hsome) (Option.isSome_iff_ne_none.mp hrsome) hroom
      have hsame : ({ r with len := 0 } : WString) = r := by rw [← hzero]
      rw [hsrc, hsame]
      exact (h.put j ⟨u, hu⟩).put k ⟨u, hdst⟩
  · exact h

theorem concat_operand {t : Option (List UInt8)} : ∀ c ∈ t, cString c = cString (t.getD []) := by
  rintro c hc
  obtain rfl : t = some c := hc
  rfl

theorem fits_of_rep {k j : ObjId} {s r : WString} {t u : List UInt8} (hs : x k = some s) (hr : x j = some r)
    (ht : s.Rep t) (hu : r.Rep u) (h : ∃ s r, x k = some s ∧ x j = some r ∧ s.len + r.len + 1 < 2 ^ 32) :
    t.length + u.length + 1 < 2 ^ 32 := by
  obtain ⟨s', r', hs', hr', hfit⟩ := h
  obtain rfl := Option.some.inj (hs.symm.trans hs')
  obtain rfl := Option.some.inj (hr.symm.trans hr')
  rwa [ht.len, hu.len] at hfit

theorem fits_text_of_rep {k : ObjId} {s : WString} {t : List UInt8} {n : ℕ} (hs : x k = some s) (ht : s.Rep t)
    (h : ∃ s, x k = some s ∧ s.len + n + 1 < 2 ^ 32) : t.length + n + 1 < 2 ^ 32 := by
  obtain ⟨s', hs', hfit⟩ := h
  obtain rfl := Option.some.inj (hs.symm.trans hs')
  rwa [ht.len] at hfit

theorem texts_step {e : StringEvent} (h : x.Texts) (he : x.Enabled e) (hq : x.Careful e) : (x.step e).Texts := by
  have hinit (k : ObjId) : (x.put k .init).Texts := h.put k ⟨[], WString.rep_init⟩
  cases e with
  | construct k t base a => exact h.put k (WString.assignCStr_rep WString.rep_init (t.render_short he.2.1 base) a)
  | constructCopy k j a => exact (hinit k).modifyFrom k j fun s r t u _ _ hs hr => WString.assign_rep hs hr a
  | constructMove k j => exact h.move k j WString.rep_init fun r _ hb => absurd rfl hb
  | destruct k => exact h.remove k
  | reserve k size a =>
    refine h.modify k fun s t hs ht => ?_
    rcases hq with hsize | ⟨rfl, hnone⟩
    · exact ⟨t, WString.reserve_rep ht (by have := he.2; omega) a⟩
    · exact ⟨t, by rwa [WString.reserve_null_fails (hnone s hs)]⟩
  | assign k j a =>
    change (if k = j then x else _).Texts
    split
    · exact h
    · exact h.modifyFrom k j fun s r t u _ _ hs hr => WString.assign_rep hs hr a
  | assignMove k j =>
    change (if k = j then x else _).Texts
    split
    · exact h
    · rename_i hkj
      split
      · rename_i s hs
        obtain ⟨t, ht⟩ := h k s hs
        exact h.move k j ht fun r hr => hq hkj s r hs hr
      · exact h
  | assignCStr k cstr a =>
    refine h.modify k fun s t hs ht => WString.assignCStr_rep ht (fun c hc => ?_) a
    rw [strlen, cString_eq_self (he.2 c hc).1]
    exact (he.2 c hc).2
  | concat k j a =>
    refine h.modifyFrom k j fun s r t u hs hr ht hu => ?_
    rw [hu.len]
    exact WString.concat_rep ht (fun c hc => hu.cString hc) (fits_of_rep hs hr ht hu he.2) a
  | concatText k t a =>
    exact h.modify k fun s u hs hu => WString.concat_rep hu concat_operand (fits_text_of_rep hs hu he.2) a
  | plus k j a =>
    refine h.modifyFrom k j fun s r t u hs hr ht hu => ?_
    rw [hu.len]
    exact WString.plus_rep ht (fun c hc => hu.cString hc) (fits_of_rep hs hr ht hu he.2) a
  | plusText k t a =>
    exact h.modify k fun s u hs hu => WString.plus_rep hu concat_operand (fits_text_of_rep hs hu he.2) a
  | setCharAt k loc c => exact h.modify k fun s t _ ht => WString.setCharAt_rep ht loc he.2
  | replace k find replace => exact h.modify k fun s t _ ht => WString.replace_rep ht find he.2.2
  | remove k index count => exact h.modify k fun s t _ ht => ⟨_, WString.remove_rep ht index count⟩
  | toLowerCase k => exact h.modify k fun s t _ ht => ⟨_, WString.toLowerCase_rep ht⟩
  | toUpperCase k => exact h.modify k fun s t _ ht => ⟨_, WString.toUpperCase_rep ht⟩
  | trim k => exact h.modify k fun s t _ ht => ⟨_, WString.trim_rep ht⟩
  | substring k j left right a a' =>
    exact (hinit k).modifyFrom k j fun s r t u _ _ _ hu => WString.substring_rep hu left right a a'

end Objects

end LogoCore.Strings
