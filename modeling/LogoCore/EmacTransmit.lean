import LogoCore.EventMachine
import LogoCore.RingBuffer
import Mathlib.Data.List.Basic

namespace LogoCore.Emac

/-- The address of a pbuf: not `NULL`, and even, so that its low bit can be used as a mark. -/
def PbufPtr := { p : UInt32 // p ≠ 0 ∧ p &&& 1 = 0 }

structure TxBuf where
  payload : UInt32
  data : List UInt8

/-- A chain of pbufs with the address of the first. It holds a frame, `tot_len` has 16 bits and `pbuf_clen` counts in a
byte. -/
structure TxPacket where
  ptr : PbufPtr
  bufs : List TxBuf
  nonempty : bufs.flatMap TxBuf.data ≠ []
  short : (bufs.flatMap TxBuf.data).length < 65536
  chain : bufs.length < 256

def TxPacket.bytes (p : TxPacket) : List UInt8 := p.bufs.flatMap TxBuf.data

/-- `tDescriptor` of the transmit list. `data` are the `ui32Count` bytes at `pvBuffer1`. -/
structure TxDescriptor where
  own : Bool
  first : Bool
  last : Bool
  data : List UInt8
  pBuf : UInt32

def numTxDescriptors : ℕ := 24

/-- What is left of the loop of `tivaif_transmit`. -/
structure Filling where
  p : UInt32
  pBuf : List TxBuf
  bFirst : Bool

structure Piece where
  data : List UInt8
  first : Bool
  last : Bool
deriving DecidableEq

/-- The transmit side: the descriptor list, the descriptor the DMA is at, and the call that is in progress. The last
fields record what happened: the references to pbufs that the driver holds, the packets that were accepted, as given and
as they are sent, what the DMA sent, the pbufs that were freed after that, and those whose copy failed. -/
structure TxState where
  descs : ℕ → TxDescriptor
  read : ℕ
  write : ℕ
  dma : ℕ
  filling : Option Filling
  refs : UInt32 → ℤ
  given : List TxPacket
  accepted : List TxPacket
  wire : List Piece
  freed : List UInt32
  uncopied : List UInt32

def ptrSafeForEmacDma (ptr : UInt32) : Bool := 0x2000000 ≤ ptr && ptr < 0x20070000

def poolBufs (bytes : List UInt8) : List TxBuf :=
  (List.range ((bytes.length + 511) / 512)).map fun i => ⟨0x20000000, (bytes.drop (512 * i)).take 512⟩

theorem flatMap_poolBufs (bytes : List UInt8) : (poolBufs bytes).flatMap TxBuf.data = bytes := by
  have hchunks : ∀ n, ((List.range n).map fun i => (⟨0x20000000, (bytes.drop (512 * i)).take 512⟩ : TxBuf)).flatMap
      TxBuf.data = bytes.take (512 * n) := by
    intro n
    induction n with
    | zero => rfl
    | succ n ih => rw [List.range_succ, List.map_append, List.flatMap_append, ih, Nat.mul_succ, List.take_add]; simp
  rw [poolBufs, hchunks, List.take_of_length_le (by omega)]

/-- `pbuf_alloc` from the pool at the address `q`, and `pbuf_copy`. -/
def TxPacket.copyTo (p : TxPacket) (q : PbufPtr) : TxPacket where
  ptr := q
  bufs := poolBufs p.bytes
  nonempty := (flatMap_poolBufs p.bytes).symm ▸ p.nonempty
  short := (flatMap_poolBufs p.bytes).symm ▸ p.short
  chain := by
    have hshort : p.bytes.length < 65536 := p.short
    rw [poolBufs, List.length_map, List.length_range]
    omega

def pbufRef (refs : UInt32 → ℤ) (p : UInt32) : UInt32 → ℤ := fun q => if q = p then refs q + 1 else refs q

def pbufFree (refs : UInt32 → ℤ) (p : UInt32) : UInt32 → ℤ := fun q => if q = p then refs q - 1 else refs q

namespace TxState

variable (s : TxState)

structure Checked where
  state : TxState
  p : Option TxPacket

/-- `tivaif_check_pbuf`, with the address that `pbuf_alloc` returns. -/
def tivaifCheckPbuf (p : TxPacket) (alloc : Option PbufPtr) : Checked :=
  if p.bufs.all fun b => ptrSafeForEmacDma b.payload then ⟨s, some p⟩
  else
    match alloc with
    | none => ⟨{ s with uncopied := p.ptr.val :: s.uncopied }, none⟩
    | some q => ⟨{ s with refs := pbufFree (pbufRef s.refs q.val) p.ptr.val }, some (p.copyTo q)⟩

/-- The free descriptors that `tivaif_transmit` counts. -/
def numDescs : ℕ := if s.write < s.read then s.read - s.write else numTxDescriptors - s.write + s.read

/-- `tivaif_transmit` from the test of the ring up to the loop. -/
def enqueue (given p : TxPacket) : TxState :=
  if (s.descs s.write).pBuf ≠ 0 then { s with refs := pbufFree s.refs p.ptr.val }
  else if s.numDescs < p.bufs.length % 256 then { s with refs := pbufFree s.refs p.ptr.val }
  else
    { s with
      descs := Function.update s.descs s.write { s.descs s.write with own := false, first := true, last := false },
      filling := some ⟨p.ptr.val, p.bufs.take (p.bufs.length % 256), true⟩,
      given := s.given ++ [given],
      accepted := s.accepted ++ [p] }

/-- `tivaif_transmit` up to its loop. -/
def tivaifTransmit (p : TxPacket) (alloc : Option PbufPtr) : TxState :=
  let c := { s with refs := pbufRef s.refs p.ptr.val }.tivaifCheckPbuf p alloc
  match c.p with
  | none => c.state
  | some q => c.state.enqueue p q

/-- One round of the loop: the descriptor is filled in and handed to the hardware. -/
def fill : TxState :=
  match s.filling with
  | none => s
  | some ⟨_, [], _⟩ => { s with filling := none }
  | some ⟨p, b :: rest, bFirst⟩ =>
    let desc : TxDescriptor := ⟨true, bFirst, rest.isEmpty, b.data, if rest.isEmpty then p else p + 1⟩
    { s with
      descs := Function.update s.descs s.write desc,
      write := RingBuffer.wrap numTxDescriptors (s.write + 1),
      filling := if rest.isEmpty then none else some ⟨p, rest, false⟩ }

def dmaSend : TxState :=
  let desc := s.descs s.dma
  if desc.own then
    { s with
      descs := Function.update s.descs s.dma { desc with own := false },
      dma := RingBuffer.wrap numTxDescriptors (s.dma + 1),
      wire := s.wire ++ [⟨desc.data, desc.first, desc.last⟩] }
  else s

/-- One round of the loop of `tivaif_process_transmit`, `none` if it breaks. -/
def reclaim : Option TxState :=
  let desc := s.descs s.read
  if desc.own then none
  else if desc.pBuf ≠ 0 then
    let s := if desc.pBuf &&& 1 = 0 then
        { s with refs := pbufFree s.refs desc.pBuf, freed := s.freed ++ [desc.pBuf] }
      else s
    some { s with
      descs := Function.update s.descs s.read { desc with pBuf := 0 },
      read := RingBuffer.wrap numTxDescriptors (s.read + 1) }
  else none

/-- `tivaif_process_transmit` -/
def tivaifProcessTransmit (s : TxState) : ℕ → TxState
  | 0 => s
  | n + 1 =>
    match s.reclaim with
    | none => s
    | some s => s.tivaifProcessTransmit n

end TxState

inductive TxEvent where
  | transmit (p : TxPacket) (alloc : Option PbufPtr)
  | fill
  | dma
  | interrupt

def txStep (s : TxState) : TxEvent → TxState
  | .transmit p alloc => s.tivaifTransmit p alloc
  | .fill => s.fill
  | .dma => s.dmaSend
  | .interrupt => s.tivaifProcessTransmit numTxDescriptors

/-- After `InitDMADescriptors`. -/
def initTx : TxState :=
  ⟨fun _ => ⟨false, false, false, [], 0⟩, 0, 0, 0, none, fun _ => 0, [], [], [], [], []⟩

/-- The driver's calls do not interrupt each other, the DMA runs at any time. -/
def txMachine : Machine TxState TxEvent where
  enabled s e :=
    match e with
    | .transmit _ _ => s.filling = none
    | .fill => s.filling ≠ none
    | .dma => True
    | .interrupt => s.filling = none
  step := txStep

instance (s : TxState) (e : TxEvent) : Decidable (txMachine.enabled s e) :=
  match e with
  | .transmit _ _ => decidable_of_iff (s.filling.isNone = true) Option.isNone_iff_eq_none
  | .fill => decidable_of_iff (s.filling.isSome = true) Option.isSome_iff_ne_none
  | .dma => isTrue trivial
  | .interrupt => decidable_of_iff (s.filling.isNone = true) Option.isNone_iff_eq_none

end LogoCore.Emac
