import Mathlib.Data.List.TakeDrop
import Mathlib.Tactic.Ring

namespace LogoCore.Upload

def tagWRQ : UInt32 := 0x31515257
def tagAWRQ : UInt32 := 0x51525741
def tagDATA : UInt32 := 0x31544144
def tagADAT : UInt32 := 0x54414441
def tagFIN : UInt32 := 0x314E4946
def tagAFIN : UInt32 := 0x4E494641
def tagIDENT : UInt32 := 0x544E4449
def tagAIDENT : UInt32 := 0x746E6469
def tagREBOOT : UInt32 := 0x54424552

def roleBootloader : UInt32 := 0
def roleApp : UInt32 := 1

def stOK : UInt32 := 0

def le32 (v : UInt32) : List UInt8 :=
  [UInt8.ofNat v.toNat, UInt8.ofNat (v.toNat / 256), UInt8.ofNat (v.toNat / 65536),
    UInt8.ofNat (v.toNat / 16777216)]

def leUint32 (b : List UInt8) : UInt32 :=
  UInt32.ofNat ((b.getD 0 0).toNat + 256 * (b.getD 1 0).toNat + 65536 * (b.getD 2 0).toNat +
    16777216 * (b.getD 3 0).toNat)

def putU32 (b : List UInt8) (off : ℕ) (v : UInt32) : List UInt8 := b.take off ++ le32 v ++ b.drop (off + 4)

def u32At (b : List UInt8) (off : ℕ) : UInt32 × Bool :=
  if b.length < off + 4 then (0, false) else (leUint32 (b.drop off), true)

def encodeTag (tag : UInt32) : List UInt8 := putU32 (List.replicate 4 0) 0 tag

def encodeWRQ (total crc : UInt32) : List UInt8 :=
  putU32 (putU32 (putU32 (List.replicate 12 0) 0 tagWRQ) 4 total) 8 crc

def encodeDATA (seq : UInt32) (chunk : List UInt8) : List UInt8 :=
  (putU32 (putU32 (List.replicate (8 + chunk.length) 0) 0 tagDATA) 4 seq).take 8 ++ chunk

def crcBit (c : UInt32) : UInt32 := if c &&& 1 = 1 then (c >>> 1) ^^^ 0xEDB88320 else c >>> 1

def checksumIEEE (img : List UInt8) : UInt32 :=
  ~~~ img.foldl (fun c b => Nat.iterate crcBit 8 (c ^^^ b.toUInt32)) 0xFFFFFFFF

@[simp] theorem length_le32 (v : UInt32) : (le32 v).length = 4 := rfl

theorem leUint32_le32 (v : UInt32) (rest : List UInt8) : leUint32 (le32 v ++ rest) = v := by
  have hlt := v.toNat_lt
  apply UInt32.toNat_inj.mp
  simp only [leUint32, le32, List.cons_append, List.nil_append, List.getD_cons_zero, List.getD_cons_succ,
    UInt32.toNat_ofNat', UInt8.toNat_ofNat']
  omega

theorem u32At_append (front : List UInt8) (v : UInt32) (rest : List UInt8) :
    u32At (front ++ (le32 v ++ rest)) front.length = (v, true) := by
  rw [u32At, if_neg (by simp), List.drop_left, leUint32_le32]

theorem u32At_zero (v : UInt32) (rest : List UInt8) : u32At (le32 v ++ rest) 0 = (v, true) := by
  simpa only [List.nil_append, List.length_nil] using u32At_append [] v rest

theorem u32At_four (a v : UInt32) (rest : List UInt8) : u32At (le32 a ++ (le32 v ++ rest)) 4 = (v, true) := by
  simpa only [length_le32] using u32At_append (le32 a) v rest

theorem u32At_eight (a b v : UInt32) (rest : List UInt8) :
    u32At (le32 a ++ (le32 b ++ (le32 v ++ rest))) 8 = (v, true) := by
  simpa only [List.length_append, length_le32, List.append_assoc, Nat.reduceAdd] using
    u32At_append (le32 a ++ le32 b) v rest

theorem putU32_append (front old : List UInt8) (hold : old.length = 4) (rest : List UInt8) (v : UInt32) :
    putU32 (front ++ (old ++ rest)) front.length v = front ++ (le32 v ++ rest) := by
  have hskip : (front ++ (old ++ rest)).drop (front.length + 4) = rest := by
    rw [← List.append_assoc]
    exact List.drop_left' (by simp [hold])
  rw [putU32, List.take_left, hskip, List.append_assoc]

theorem encodeTag_eq (tag : UInt32) : encodeTag tag = le32 tag := by
  simpa only [encodeTag, List.nil_append, List.append_nil, List.length_nil] using
    putU32_append [] (List.replicate 4 0) List.length_replicate [] tag

theorem putU32_two (a b : UInt32) (rest : List UInt8) :
    putU32 (putU32 (List.replicate 8 0 ++ rest) 0 a) 4 b = le32 a ++ (le32 b ++ rest) := by
  have hone := putU32_append [] (List.replicate 4 0) List.length_replicate
    (List.replicate 4 0 ++ rest) a
  have htwo := putU32_append (le32 a) (List.replicate 4 0) List.length_replicate rest b
  rw [List.nil_append, ← List.append_assoc, List.replicate_append_replicate] at hone
  rw [length_le32] at htwo
  exact (congrArg (putU32 · 4 b) hone).trans htwo

theorem encodeWRQ_eq (total crc : UInt32) : encodeWRQ total crc = le32 tagWRQ ++ (le32 total ++ le32 crc) := by
  have hthree := putU32_append (le32 tagWRQ ++ le32 total) (List.replicate 4 0) List.length_replicate [] crc
  have hzero : List.replicate 12 (0 : UInt8) = List.replicate 8 0 ++ (List.replicate 4 0 ++ []) := by simp
  rw [List.length_append, length_le32, length_le32, List.append_assoc, List.append_assoc] at hthree
  rw [encodeWRQ, hzero, putU32_two]
  exact hthree.trans (by rw [List.append_nil])

theorem encodeDATA_eq (seq : UInt32) (chunk : List UInt8) :
    encodeDATA seq chunk = le32 tagDATA ++ (le32 seq ++ chunk) := by
  have htake : (le32 tagDATA ++ (le32 seq ++ List.replicate chunk.length 0)).take 8 = le32 tagDATA ++ le32 seq := by
    rw [← List.append_assoc]
    exact List.take_left' (by rw [List.length_append, length_le32, length_le32])
  rw [encodeDATA, ← List.replicate_append_replicate, putU32_two, htake, List.append_assoc]

theorem u32At_encodeTag (tag : UInt32) : u32At (encodeTag tag) 0 = (tag, true) := by
  simpa only [encodeTag_eq, List.append_nil] using u32At_zero tag []

theorem u32At_encodeWRQ (total crc : UInt32) : u32At (encodeWRQ total crc) 0 = (tagWRQ, true) := by
  rw [encodeWRQ_eq, u32At_zero]

theorem u32At_encodeDATA (seq : UInt32) (chunk : List UInt8) :
    u32At (encodeDATA seq chunk) 0 = (tagDATA, true) ∧ u32At (encodeDATA seq chunk) 4 = (seq, true) ∧
      (encodeDATA seq chunk).drop 8 = chunk := by
  have hdrop : (le32 tagDATA ++ (le32 seq ++ chunk)).drop 8 = chunk := by
    rw [← List.append_assoc]
    exact List.drop_left' (by rw [List.length_append, length_le32, length_le32])
  rw [encodeDATA_eq]
  exact ⟨u32At_zero _ _, u32At_four _ _ _, hdrop⟩

theorem encodeDATA_inj {s t : UInt32} {c d : List UInt8} (h : encodeDATA s c = encodeDATA t d) :
    s = t ∧ c = d := by
  obtain ⟨-, hs, hc⟩ := u32At_encodeDATA s c
  obtain ⟨-, ht, hd⟩ := u32At_encodeDATA t d
  rw [h] at hs hc
  exact ⟨congrArg Prod.fst (hs.symm.trans ht), hc.symm.trans hd⟩

theorem encodeDATA_ne_encodeWRQ (s : UInt32) (c : List UInt8) (total crc : UInt32) :
    encodeDATA s c ≠ encodeWRQ total crc := by
  intro h
  have hd := (u32At_encodeDATA s c).1
  rw [h, u32At_encodeWRQ] at hd
  exact absurd hd (by decide)

theorem encodeDATA_ne_encodeTag (s : UInt32) (c : List UInt8) (tag : UInt32) : encodeDATA s c ≠ encodeTag tag := by
  intro h
  have := congrArg List.length h
  simp [encodeDATA_eq, encodeTag_eq] at this

theorem encodeWRQ_ne_encodeTag (total crc tag : UInt32) : encodeWRQ total crc ≠ encodeTag tag := by
  intro h
  have := congrArg List.length h
  simp [encodeWRQ_eq, encodeTag_eq] at this

end LogoCore.Upload
