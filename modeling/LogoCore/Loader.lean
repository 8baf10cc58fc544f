import LogoCore.ImageBlocks
import LogoCore.OrderedChannel

namespace LogoCore.Upload

open Channel

inductive Request where
  | wrq
  | data (seq : UInt32) (payload : List UInt8)
  | other

def Request.parse (d : List UInt8) : Request :=
  if u32At d 0 = (tagWRQ, true) then .wrq
  else if u32At d 0 = (tagDATA, true) ∧ (u32At d 4).2 = true then .data (u32At d 4).1 (d.drop 8)
  else .other

theorem parse_encodeWRQ (total crc : UInt32) : Request.parse (encodeWRQ total crc) = .wrq := by
  rw [Request.parse, if_pos (u32At_encodeWRQ total crc)]

theorem parse_encodeDATA (seq : UInt32) (chunk : List UInt8) :
    Request.parse (encodeDATA seq chunk) = .data seq chunk := by
  obtain ⟨htag, hseq, hpayload⟩ := u32At_encodeDATA seq chunk
  rw [Request.parse, htag, hseq, hpayload, if_neg (by decide), if_pos ⟨rfl, rfl⟩]

theorem parse_encodeTag_fin : Request.parse (encodeTag tagFIN) = .other := by
  rw [Request.parse, u32At_encodeTag, if_neg (by decide), if_neg (by decide)]

def awrq (blk : UInt32) : List UInt8 := le32 tagAWRQ ++ (le32 stOK ++ le32 blk)

def adat (seq status : UInt32) : List UInt8 := le32 tagADAT ++ (le32 seq ++ le32 status)

structure Loader where
  expected : ℕ
  stored : List (List UInt8)
deriving DecidableEq, Repr

namespace Loader

/-- The assumed behaviour of the device. It is not part of the repository; what it says to anything but a
WRQ or a DATA is left open. -/
def serve (blk : UInt32) (answer : List UInt8 → List UInt8) (ld : Loader) (d : List UInt8) :
    Loader × List UInt8 :=
  match Request.parse d with
  | .wrq => (⟨0, []⟩, awrq blk)
  | .data seq payload =>
    if seq.toNat = ld.expected then (⟨ld.expected + 1, ld.stored ++ [payload]⟩, adat seq stOK)
    else if seq.toNat + 1 = ld.expected then (ld, adat seq stOK)
    else (ld, adat seq 3)
  | .other => (ld, answer d)

section

variable (blk : UInt32) (answer : List UInt8 → List UInt8) (ld : Loader)

theorem serve_encodeWRQ (total crc : UInt32) : ld.serve blk answer (encodeWRQ total crc) = (⟨0, []⟩, awrq blk) := by
  simp only [serve, parse_encodeWRQ]

theorem serve_encodeDATA (seq : UInt32) (chunk : List UInt8) :
    ld.serve blk answer (encodeDATA seq chunk) =
      if seq.toNat = ld.expected then (⟨ld.expected + 1, ld.stored ++ [chunk]⟩, adat seq stOK)
      else if seq.toNat + 1 = ld.expected then (ld, adat seq stOK) else (ld, adat seq 3) := by
  simp only [serve, parse_encodeDATA]

theorem serve_encodeTag_fin : ld.serve blk answer (encodeTag tagFIN) = (ld, answer (encodeTag tagFIN)) := by
  simp only [serve, parse_encodeTag_fin]

end

end Loader

inductive Answers (blk : UInt32) (n : ℕ) : List UInt8 → Prop
  | awrq : Answers blk n (awrq blk)
  | adat (seq : UInt32) (h : seq.toNat < n) : Answers blk n (adat seq stOK)

namespace Answers

variable {blk seq b : UInt32} {n m : ℕ} {d : List UInt8}

theorem mono (h : Answers blk n d) (hnm : n ≤ m) : Answers blk m d := by
  cases h with
  | awrq => exact .awrq
  | adat seq h => exact .adat seq (h.trans_le hnm)

theorem take (h : Answers blk n d) : d.take 2048 = d := by
  apply List.take_of_length_le
  cases h <;> simp [Upload.awrq, Upload.adat]

theorem accepted_wrq (h : Answers blk n d) (ha : Stage.wrq.accepts d = true) : d = Upload.awrq blk := by
  cases h with
  | awrq => rfl
  | adat seq h =>
    have htag := Stage.accepts_tag ha
    rw [Upload.adat, u32At_zero] at htag
    exact absurd htag (by decide)

theorem accepted_data (h : Answers blk n d) (ha : (Stage.data seq b).accepts d = true) : seq.toNat < n := by
  cases h with
  | awrq =>
    have htag := Stage.accepts_tag ha
    rw [Upload.awrq, u32At_zero] at htag
    exact absurd (congrArg Prod.fst htag) (by rw [Stage.wantTag]; decide)
  | adat s h =>
    have hseq := Stage.accepts_seq ha
    rw [Upload.adat, u32At_four] at hseq
    exact (Prod.mk.inj hseq).1 ▸ h

end Answers

end LogoCore.Upload
