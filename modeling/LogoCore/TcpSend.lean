import LogoCore.EventMachine
import LogoCore.TcpReceive

namespace LogoCore.Lwip

open Ethernet SequenceNumbers

abbrev tcpMss : ℕ := 1500

abbrev tcpSndQueuelen : ℕ := (4 * tcpSndBuf + (tcpMss - 1)) / tcpMss

/-- `struct tcp_seg` of a segment to send: the header and data as they go out, the number of pbufs, and the memory left
behind the data in the last of them. -/
structure OutSeg where
  seg : TcpSeg
  clen : UInt16
  room : ℕ
deriving DecidableEq, Repr

/-- The fields of `struct tcp_pcb` that sending uses, without those of the round-trip measurement and the persist
timer. -/
structure SendPcb where
  state : TcpState
  mss : UInt16
  sndWnd : UInt16
  sndWndMax : UInt16
  cwnd : UInt16
  ssthresh : UInt16
  sndNxt : UInt32
  sndLbb : UInt32
  lastack : UInt32
  sndWl1 : UInt32
  sndWl2 : UInt32
  sndBuf : UInt16
  sndQueuelen : UInt16
  unsentOversize : UInt16
  acked : UInt16
  dupacks : UInt8
  rtime : Int16
  nagleMemErr : Bool
  fin : Bool
  nodelay : Bool
  infr : Bool
  unsent : List OutSeg
  unacked : List OutSeg
deriving DecidableEq, Repr

section Write

def alignSize (n : ℕ) : ℕ := (n + 3) / 4 * 4

/-- The bytes `tcp_pbuf_prealloc` leaves free behind `length`. -/
def preallocRoom (pcb : SendPcb) (length maxLength : ℕ) (more first : Bool) : ℕ :=
  if length < maxLength ∧
      (more ∨ ¬ pcb.nodelay ∧ (¬ first ∨ pcb.unsent ≠ [] ∨ pcb.unacked ≠ [])) then
    min maxLength (alignSize (length + tcpMss)) - length
  else 0

/-- States in which `tcp_write` accepts data. -/
def Writable (state : TcpState) : Prop :=
  state = .established ∨ state = .closeWait ∨ state = .synSent ∨ state = .synRcvd

instance (state : TcpState) : Decidable (Writable state) := inferInstanceAs (Decidable (_ ∨ _))

def tcpWriteChecks (pcb : SendPcb) (len : ℕ) : Err × SendPcb :=
  if ¬ Writable pcb.state then (.conn, pcb)
  else if len = 0 then (.ok, pcb)
  else if pcb.sndBuf.toNat < len ∨ tcpSndQueuelen ≤ pcb.sndQueuelen.toNat then
    (.mem, { pcb with nagleMemErr := true })
  else (.ok, pcb)

def OutSeg.extend (s : OutSeg) (data : List UInt8) (pbufs : UInt16) (room : ℕ) : OutSeg :=
  ⟨{ s.seg with len := s.seg.len + UInt16.ofNat data.length, p := s.seg.p ++ data }, s.clen + pbufs, room⟩

/-- The last unsent segment after phases 1 and 2 of `tcp_write`, with the bytes and pbufs they added to it and the new
oversize. -/
structure Filled where
  last : OutSeg
  pos : ℕ
  chained : ℕ
  oversize : ℕ
deriving DecidableEq, Repr

/-- Phases 1 and 2 of `tcp_write`. `none` stands for a failed allocation; `mem` counts the allocations that still
succeed. -/
def fillLast (pcb : SendPcb) (mssLocal : ℕ) (last : OutSeg) (data : List UInt8) (more : Bool) (mem : ℕ) :
    Option Filled :=
  let space := UInt16.ofNat mssLocal - (last.seg.len + if last.seg.syn then 4 else 0)
  let used := min pcb.unsentOversize.toNat data.length
  let space := (space - UInt16.ofNat used).toNat
  let filled := last.extend (data.take used) 0 (last.room - used)
  if used < data.length ∧ 0 < space ∧ 0 < last.seg.len then
    let seglen := min space (data.length - used)
    let room := preallocRoom pcb seglen space more true
    if mem = 0 then none else some ⟨filled.extend ((data.drop used).take seglen) 1 room, used + seglen, 1, room⟩
  else some ⟨filled, used, 0, pcb.unsentOversize.toNat - used⟩

/-- Phase 3: new segments for the data from `pos` on. `quota` is what `snd_queuelen` may still grow by. -/
def newSegments (pcb : SendPcb) (mssLocal : ℕ) (more : Bool) : ℕ → ℕ → ℕ → Bool → List UInt8 → Option (List OutSeg)
  | _, _, _, _, [] => some []
  | 0, _, _, _, _ :: _ => none
  | quota + 1, mem, pos, first, b :: data =>
    let seglen := min (data.length + 1) mssLocal
    let seg : OutSeg := ⟨⟨pcb.sndLbb + UInt32.ofNat pos, false, false, UInt16.ofNat seglen, (b :: data).take seglen⟩, 1,
      preallocRoom pcb seglen mssLocal more first⟩
    if mem < 2 then none
    else
      (newSegments pcb mssLocal more quota (mem - 2) (pos + seglen) false ((b :: data).drop seglen)).map (seg :: ·)

/-- What the three phases of `tcp_write` have prepared: the unsent queue, its oversize, and the pbufs added. -/
structure Segmented where
  unsent : List OutSeg
  oversize : ℕ
  added : ℕ
deriving DecidableEq, Repr

/-- The three phases of `tcp_write`, if no allocation fails. -/
def segmentation (pcb : SendPcb) (data : List UInt8) (more : Bool) (mem : ℕ) : Option Segmented :=
  let mssLocal := min pcb.mss.toNat (pcb.sndWndMax.toNat / 2)
  let quota := tcpSndQueuelen - pcb.sndQueuelen.toNat
  match pcb.unsent.getLast? with
  | none =>
    (newSegments pcb mssLocal more quota mem 0 true data).map fun queue =>
      ⟨queue, (queue.getLast?.map OutSeg.room).getD 0, queue.length⟩
  | some last =>
    (fillLast pcb mssLocal last data more mem).bind fun f =>
      (newSegments pcb mssLocal more (quota - f.chained) (mem - f.chained) f.pos true (data.drop f.pos)).map
        fun queue => ⟨pcb.unsent.dropLast ++ f.last :: queue, (queue.getLast?.map OutSeg.room).getD f.oversize,
          f.chained + queue.length⟩

/-- `tcp_write` with `TCP_WRITE_FLAG_COPY`, as the library calls it. -/
def tcpWrite (pcb : SendPcb) (data : List UInt8) (more : Bool) (mem : ℕ) : Err × SendPcb :=
  match tcpWriteChecks pcb data.length with
  | (.ok, _) =>
    match segmentation pcb data more mem with
    | none => (.mem, { pcb with nagleMemErr := true })
    | some queued =>
      (.ok, { pcb with
        unsent := queued.unsent
        unsentOversize := UInt16.ofNat queued.oversize
        sndLbb := pcb.sndLbb + UInt32.ofNat data.length
        sndBuf := pcb.sndBuf - UInt16.ofNat data.length
        sndQueuelen := pcb.sndQueuelen + UInt16.ofNat queued.added })
  | refused => refused

end Write

section Flags

/-- `tcp_enqueue_flags` for a SYN or a FIN. -/
def tcpEnqueueFlags (pcb : SendPcb) (syn fin : Bool) (mem : ℕ) : Err × SendPcb :=
  if tcpSndQueuelen ≤ pcb.sndQueuelen.toNat then (.mem, { pcb with nagleMemErr := true })
  else if pcb.sndBuf = 0 then (.mem, pcb)
  else if mem < 2 then (.mem, { pcb with nagleMemErr := true })
  else
    (.ok, { pcb with
      unsent := pcb.unsent ++ [⟨⟨pcb.sndLbb, fin, syn, 0, []⟩, 1, 0⟩]
      unsentOversize := 0
      sndLbb := pcb.sndLbb + 1
      sndBuf := pcb.sndBuf - 1
      fin := pcb.fin || fin
      sndQueuelen := pcb.sndQueuelen + 1 })

def tcpSendFin (pcb : SendPcb) (mem : ℕ) : Err × SendPcb :=
  match pcb.unsent.getLast? with
  | some last =>
    if !last.seg.syn && !last.seg.fin then
      (.ok, { pcb with
        unsent := pcb.unsent.dropLast ++ [{ last with seg := { last.seg with fin := true } }], fin := true })
    else tcpEnqueueFlags pcb false true mem
  | none => tcpEnqueueFlags pcb false true mem

end Flags

section Output

def tcpDoOutputNagle (pcb : SendPcb) : Bool :=
  pcb.unacked.isEmpty || pcb.nodelay || pcb.infr ||
    (match pcb.unsent with
      | [] => false
      | [seg] => pcb.mss ≤ seg.seg.len
      | _ :: _ :: _ => true) ||
    pcb.sndBuf = 0 || tcpSndQueuelen ≤ pcb.sndQueuelen.toNat

def insertSorted (s : OutSeg) : List OutSeg → List OutSeg
  | [] => [s]
  | cur :: rest => if lt cur.seg.seqno s.seg.seqno then cur :: insertSorted s rest else s :: cur :: rest

def insertUnacked (s : OutSeg) (unacked : List OutSeg) : List OutSeg :=
  match unacked.getLast? with
  | none => [s]
  | some useg => if lt s.seg.seqno useg.seg.seqno then insertSorted s unacked else unacked ++ [s]

/-- The window test of `tcp_output`. -/
def fitsWindow (pcb : SendPcb) (wnd : UInt32) (s : OutSeg) : Bool :=
  s.seg.seqno - pcb.lastack + s.seg.len.toUInt32 ≤ wnd

/-- What `tcp_output` does with a segment it sends. -/
def outputSegment (pcb : SendPcb) (s : OutSeg) : SendPcb :=
  let sndNxt := s.seg.seqno + s.seg.tcplen.toUInt32
  { pcb with
    rtime := if pcb.rtime = -1 then 0 else pcb.rtime
    sndNxt := if lt pcb.sndNxt sndNxt then sndNxt else pcb.sndNxt
    unacked := if 0 < s.seg.tcplen then insertUnacked s pcb.unacked else pcb.unacked }

/-- The loop of `tcp_output` over the unsent queue, with the segments it sends. -/
def outputLoop (wnd : UInt32) (pcb : SendPcb) : List OutSeg → SendPcb × List TcpSeg
  | [] => ({ pcb with unsent := [] }, [])
  | s :: rest =>
    if fitsWindow pcb wnd s &&
        (tcpDoOutputNagle { pcb with unsent := s :: rest } || pcb.nagleMemErr || pcb.fin) then
      let (pcb, sent) := outputLoop wnd (outputSegment pcb s) rest
      (pcb, s.seg :: sent)
    else ({ pcb with unsent := s :: rest }, [])

/-- `tcp_output`; with `ackNow` it only sends an empty ACK when no data can go with it. -/
def tcpOutput (pcb : SendPcb) (ackNow : Bool) : SendPcb × List TcpSeg :=
  let wnd := (min pcb.sndWnd pcb.cwnd).toUInt32
  if ackNow && (pcb.unsent.head?.all fun s => !fitsWindow pcb wnd s) then (pcb, [])
  else
    let (pcb, sent) := outputLoop wnd pcb pcb.unsent
    let oversize := if pcb.unsent = [] then 0 else pcb.unsentOversize
    ({ pcb with unsentOversize := oversize, nagleMemErr := false }, sent)

end Output

section Retransmission

/-- `tcp_rexmit_rto` without the output it calls. -/
def tcpRexmitRto (pcb : SendPcb) : SendPcb := { pcb with unsent := pcb.unacked ++ pcb.unsent, unacked := [] }

/-- The part of `tcp_slowtmr` for a retransmission that is due. -/
def retransmit (pcb : SendPcb) (ackNow : Bool) : SendPcb × List TcpSeg :=
  if pcb.unacked = [] then (pcb, [])
  else
    let ssthresh := (min pcb.cwnd pcb.sndWnd) >>> 1
    let ssthresh := if ssthresh < pcb.mss <<< 1 then pcb.mss <<< 1 else ssthresh
    tcpOutput (tcpRexmitRto { pcb with rtime := 0, ssthresh := ssthresh, cwnd := pcb.mss }) ackNow

def tcpRexmit (pcb : SendPcb) : SendPcb :=
  match pcb.unacked with
  | [] => pcb
  | s :: rest =>
    { pcb with
      unacked := rest
      unsent := insertSorted s pcb.unsent
      unsentOversize := if pcb.unsent.all fun cur => lt cur.seg.seqno s.seg.seqno then 0 else pcb.unsentOversize }

def tcpRexmitFast (pcb : SendPcb) : SendPcb :=
  if pcb.unacked ≠ [] ∧ ¬ pcb.infr then
    let pcb := tcpRexmit pcb
    let ssthresh := if pcb.sndWnd < pcb.cwnd then pcb.sndWnd / 2 else pcb.cwnd / 2
    let ssthresh := if ssthresh < 2 * pcb.mss then 2 * pcb.mss else ssthresh
    { pcb with ssthresh := ssthresh, cwnd := ssthresh + 3 * pcb.mss, infr := true }
  else pcb

/-- The byte or FIN that `tcp_zero_window_probe` sends. -/
def tcpZeroWindowProbe (pcb : SendPcb) (mem : Bool) : List TcpSeg :=
  match (pcb.unacked ++ pcb.unsent).head? with
  | none => []
  | some s =>
    if !mem then []
    else if s.seg.fin && s.seg.len = 0 then [⟨s.seg.seqno, true, false, 0, []⟩]
    else [⟨s.seg.seqno, false, false, 1, s.seg.p.take 1⟩]

end Retransmission

section Acknowledgement

def updateWindow (pcb : SendPcb) (seqno ackno : UInt32) (wnd : UInt16) : SendPcb :=
  if lt pcb.sndWl1 seqno || (pcb.sndWl1 = seqno && lt pcb.sndWl2 ackno) ||
      (pcb.sndWl2 = ackno && pcb.sndWnd < wnd) then
    { pcb with
      sndWnd := wnd, sndWl1 := seqno, sndWl2 := ackno
      sndWndMax := if pcb.sndWndMax < wnd then wnd else pcb.sndWndMax }
  else pcb

def dupAck (pcb : SendPcb) (rightWndEdge ackno : UInt32) (tcplen : UInt16) : SendPcb :=
  let pcb := { pcb with acked := 0 }
  if tcplen = 0 ∧ pcb.sndWl2 + pcb.sndWnd.toUInt32 = rightWndEdge ∧ 0 ≤ pcb.rtime ∧ pcb.lastack = ackno then
    let dupacks := if pcb.dupacks < pcb.dupacks + 1 then pcb.dupacks + 1 else pcb.dupacks
    let pcb := { pcb with dupacks := dupacks }
    if 3 < dupacks then { pcb with cwnd := if pcb.cwnd < pcb.cwnd + pcb.mss then pcb.cwnd + pcb.mss else pcb.cwnd }
    else if dupacks = 3 then tcpRexmitFast pcb
    else pcb
  else { pcb with dupacks := 0 }

def growCwnd (pcb : SendPcb) : SendPcb :=
  if pcb.cwnd < pcb.ssthresh then
    { pcb with cwnd := if pcb.cwnd < pcb.cwnd + pcb.mss then pcb.cwnd + pcb.mss else pcb.cwnd }
  else
    let cwnd := UInt16.ofNat (pcb.cwnd.toNat + pcb.mss.toNat * pcb.mss.toNat / pcb.cwnd.toNat)
    { pcb with cwnd := if pcb.cwnd < cwnd then cwnd else pcb.cwnd }

def freeAcked (pcb : SendPcb) (s : OutSeg) : SendPcb :=
  { pcb with
    acked := if pcb.acked ≠ 0 ∧ s.seg.fin then pcb.acked - 1 else pcb.acked
    sndQueuelen := pcb.sndQueuelen - s.clen }

def freeUnacked (ackno : UInt32) (pcb : SendPcb) : List OutSeg → SendPcb
  | [] => { pcb with unacked := [] }
  | s :: rest =>
    if leq (s.seg.seqno + s.seg.tcplen.toUInt32) ackno then freeUnacked ackno (freeAcked pcb s) rest
    else { pcb with unacked := s :: rest }

def freeUnsent (ackno : UInt32) (pcb : SendPcb) : List OutSeg → SendPcb
  | [] => { pcb with unsent := [] }
  | s :: rest =>
    if between ackno (s.seg.seqno + s.seg.tcplen.toUInt32) pcb.sndNxt then
      let pcb := freeAcked pcb s
      freeUnsent ackno (if rest = [] then { pcb with unsentOversize := 0 } else pcb) rest
    else { pcb with unsent := s :: rest }

def newAck (pcb : SendPcb) (ackno : UInt32) : SendPcb :=
  let pcb := if pcb.infr then { pcb with infr := false, cwnd := pcb.ssthresh } else pcb
  let acked := (ackno - pcb.lastack).toUInt16
  let pcb := growCwnd { pcb with acked := acked, sndBuf := pcb.sndBuf + acked, dupacks := 0, lastack := ackno }
  let pcb := freeUnacked ackno pcb pcb.unacked
  { pcb with rtime := if pcb.unacked = [] then -1 else 0 }

/-- The part of `tcp_receive` that handles the acknowledgement of a segment. -/
def receiveAck (pcb : SendPcb) (seqno ackno : UInt32) (wnd tcplen : UInt16) : SendPcb :=
  let rightWndEdge := pcb.sndWnd.toUInt32 + pcb.sndWl2
  let pcb := updateWindow pcb seqno ackno wnd
  let pcb :=
    if leq ackno pcb.lastack then dupAck pcb rightWndEdge ackno tcplen
    else if between ackno (pcb.lastack + 1) pcb.sndNxt then newAck pcb ackno
    else { pcb with acked := 0 }
  freeUnsent ackno pcb pcb.unsent

end Acknowledgement

end LogoCore.Lwip
