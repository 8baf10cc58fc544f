import Mathlib.Data.List.Basic
import Mathlib.Tactic.Ring

namespace LogoCore.Ethernet

/-- `struct pbuf` without its `next` link, which is the tail of the chain. `payload` is the memory
from the payload pointer to the end of the buffer, of which `len` bytes are data. -/
structure Pbuf where
  addr : ℕ
  payload : List UInt8
  len : ℕ
  totLen : ℕ
  ref : ℕ
deriving DecidableEq, Repr

abbrev Chain := List Pbuf

namespace Pbuf

def bytes (p : Pbuf) : List UInt8 := p.payload.take p.len

def load (p : Pbuf) (i : ℕ) : UInt8 := p.payload.getD i 0

def decRef (p : Pbuf) : Pbuf := { p with ref := (p.ref + 65535) % 65536 }

def incRef (p : Pbuf) : Pbuf := { p with ref := (p.ref + 1) % 65536 }

def grow (n : ℕ) (p : Pbuf) : Pbuf := { p with totLen := (p.totLen + n) % 65536 }

end Pbuf

def Chain.totLen : Chain → ℕ
  | [] => 0
  | p :: _ => p.totLen

def Chain.bytes (c : Chain) : List UInt8 := c.flatMap Pbuf.bytes

def pbufCat : Chain → Chain → Chain
  | [], _ => []
  | [p], t => p.grow (Chain.totLen t) :: t
  | p :: q :: h, t => p.grow (Chain.totLen t) :: pbufCat (q :: h) t

/-- The deallocated pbufs and the part of the chain that is still referenced. -/
def pbufFree : Chain → List ℕ × Chain
  | [] => ([], [])
  | p :: c =>
    if p.decRef.ref = 0 then (p.addr :: (pbufFree c).1, (pbufFree c).2) else ([], p.decRef :: c)

theorem pbufFree_last {p : Pbuf} (h : p.decRef.ref = 0) (c : Chain) :
    pbufFree (p :: c) = (p.addr :: (pbufFree c).1, (pbufFree c).2) := by
  rw [pbufFree, if_pos h]

theorem pbufFree_shared {p : Pbuf} (h : p.decRef.ref ≠ 0) (c : Chain) :
    pbufFree (p :: c) = ([], p.decRef :: c) := by
  rw [pbufFree, if_neg h]

def pbufRef : Chain → Chain
  | [] => []
  | p :: c => p.incRef :: c

end LogoCore.Ethernet
