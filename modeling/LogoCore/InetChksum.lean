import LogoCore.OnesComplement

namespace LogoCore.Lwip

def foldU32T (u : UInt32) : UInt32 := (u >>> 16) + (u &&& 0xffff)

def swapBytesInWord (w : UInt32) : UInt32 := ((w &&& 0xff) <<< 8) ||| ((w &&& 0xff00) >>> 8)

structure Summed where
  sum : UInt32
  rest : List UInt8

def addWords : UInt32 → List UInt8 → Summed
  | sum, x :: y :: l => addWords (sum + (x.toUInt32 + 256 * y.toUInt32)) l
  | sum, l => ⟨sum, l⟩

/-- `lwip_standard_chksum` of the bytes at an address that is `odd` or not. The bytes of `t` are those in front of the
first and behind the last aligned word. -/
def lwipStandardChksum (odd : Bool) (data : List UInt8) : UInt16 :=
  let high : UInt32 := if odd then (data.head?.getD 0).toUInt32 else 0
  let w := addWords 0 (if odd then data.tail else data)
  let t := (w.rest.head?.getD 0).toUInt32 + 256 * high
  let sum := foldU32T (foldU32T (w.sum + t))
  if odd then (swapBytesInWord sum).toUInt16 else sum.toUInt16

def inetChksum (odd : Bool) (data : List UInt8) : UInt16 := ~~~ lwipStandardChksum odd data

structure ChksumBuf where
  odd : Bool
  data : List UInt8

structure ChksumAcc where
  acc : UInt32
  swapped : Bool

def ChksumAcc.add (a : ChksumAcc) (q : ChksumBuf) : ChksumAcc :=
  let acc := foldU32T (a.acc + (lwipStandardChksum q.odd q.data).toUInt32)
  if q.data.length % 2 ≠ 0 then ⟨swapBytesInWord acc, !a.swapped⟩ else ⟨acc, a.swapped⟩

def inetChksumPbuf (p : List ChksumBuf) : UInt16 :=
  let a := p.foldl ChksumAcc.add ⟨0, false⟩
  let acc := if a.swapped then swapBytesInWord a.acc else a.acc
  (~~~ (acc &&& 0xffff)).toUInt16

end LogoCore.Lwip
