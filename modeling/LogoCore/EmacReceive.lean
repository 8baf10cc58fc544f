import LogoCore.EventMachine
import LogoCore.PbufBuffers
import LogoCore.RingBuffer

namespace LogoCore.Emac

open Ethernet

structure RxChunk where
  data : List UInt8
  last : Bool
  err : Bool
  frameLength : ℕ
  fits : data.length ≤ pbufPoolBufsize
  short : frameLength < 16384

/-- `tDescriptor` of the receive list. -/
structure RxDescriptor where
  own : Bool
  last : Bool
  err : Bool
  frameLength : ℕ
  pBuf : Option Pbuf

def numRxDescriptors : ℕ := 8

/-- The receive side: the descriptor list and the descriptor the DMA is at. The last fields record what the DMA has
stored and which chains of pbufs were passed to `ethernet_input` or freed. -/
structure RxState where
  descs : ℕ → RxDescriptor
  read : ℕ
  dma : ℕ
  rxBufReadCount : ℕ
  stream : List RxChunk
  passed : List Chain
  freed : List Chain

/-- What `pbuf_alloc` makes of a block of the pool for a raw pbuf of the full size. -/
def rxPbuf (b : PoolBlock) : Pbuf := ⟨b.addr, b.mem, pbufPoolBufsize, pbufPoolBufsize, 1⟩

def RxDescriptor.store (desc : RxDescriptor) (x : RxChunk) : RxDescriptor where
  own := false
  last := x.last
  err := x.err
  frameLength := x.frameLength
  pBuf := desc.pBuf.map fun p => { p with payload := x.data ++ p.payload.drop x.data.length }

namespace RxState

variable (s : RxState)

def dmaStore (x : RxChunk) : RxState :=
  let desc := s.descs s.dma
  if desc.own then
    { s with
      descs := Function.update s.descs s.dma (desc.store x),
      dma := RingBuffer.wrap numRxDescriptors (s.dma + 1),
      stream := s.stream ++ [x] }
  else s

/-- The walk of `tivaif_receive`, with the chain of the frame in progress. -/
structure Walk where
  state : RxState
  pBuf : Chain

def busy : Bool := (s.descs s.read).pBuf.isSome && (s.descs s.read).own

def takeBuffer (cur : Chain) : Walk :=
  let desc := s.descs s.read
  match desc.pBuf with
  | none => ⟨s, cur⟩
  | some p =>
    let p := if desc.last then { p with len := desc.frameLength, totLen := desc.frameLength } else p
    let chain := if cur.isEmpty then [p] else pbufCat cur [p]
    let s := { s with rxBufReadCount := s.rxBufReadCount + 1 }
    if desc.last then
      if desc.err then ⟨{ s with freed := s.freed ++ [chain] }, []⟩ else ⟨{ s with passed := s.passed ++ [chain] }, []⟩
    else ⟨s, chain⟩

def refill (b : PoolBlock) : RxState :=
  { s with
    descs := Function.update s.descs s.read ⟨true, false, false, 0, some (rxPbuf b)⟩,
    read := RingBuffer.wrap numRxDescriptors (s.read + 1) }

def leaveEmpty : RxState :=
  { s with descs := Function.update s.descs s.read { s.descs s.read with pBuf := none } }

/-- The loop of `tivaif_receive`, with the results of `pbuf_alloc`. -/
def receiveLoop (descEnd : ℕ) (alloc : ℕ → Option PoolBlock) : ℕ → Walk → Walk
  | 0, w => w
  | n + 1, w =>
    if w.state.read = descEnd then w
    else if w.state.busy then w
    else
      let w := w.state.takeBuffer w.pBuf
      match alloc n with
      | none => { w with state := w.state.leaveEmpty }
      | some b => receiveLoop descEnd alloc n { w with state := w.state.refill b }

/-- `tivaif_receive` -/
def tivaifReceive (alloc : ℕ → Option PoolBlock) : RxState :=
  let descEnd := if s.read ≠ 0 then s.read - 1 else numRxDescriptors - 1
  let w := receiveLoop descEnd alloc numRxDescriptors ⟨s, []⟩
  if w.pBuf.isEmpty then w.state else { w.state with freed := w.state.freed ++ [w.pBuf] }

end RxState

inductive RxEvent where
  | dma (x : RxChunk)
  | interrupt (alloc : ℕ → Option PoolBlock)

def rxStep (s : RxState) : RxEvent → RxState
  | .dma x => s.dmaStore x
  | .interrupt alloc => s.tivaifReceive alloc

/-- After `InitDMADescriptors`, which finds a buffer for each descriptor in the fresh pool. -/
def initRx (mem : ℕ → PoolBlock) : RxState :=
  ⟨fun i => ⟨true, false, false, 0, some (rxPbuf (mem i))⟩, 0, 0, 0, [], [], []⟩

def rxMachine : Machine RxState RxEvent where
  enabled _ _ := True
  step := rxStep

end LogoCore.Emac
