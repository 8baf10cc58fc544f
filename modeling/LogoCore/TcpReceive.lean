import LogoCore.SequenceNumbers
import LogoCore.TcpControlBlock

namespace LogoCore.Lwip

open Ethernet SequenceNumbers

/-- `struct tcp_seg` of a received segment. `p` is the data of its pbuf chain from the payload pointer on, so
that `pbuf_header` with a negative increment drops bytes and `pbuf_realloc`, which never enlarges, keeps the
first ones; `len` is a field of its own. -/
structure TcpSeg where
  seqno : UInt32
  fin : Bool
  syn : Bool
  len : UInt16
  p : List UInt8
deriving DecidableEq, Repr

namespace TcpSeg

def tcplen (seg : TcpSeg) : UInt16 := seg.len + if seg.fin || seg.syn then 1 else 0

/-- Setting `len` and calling `pbuf_realloc` with it. -/
def cut (seg : TcpSeg) (len : UInt16) : TcpSeg := { seg with len := len, p := seg.p.take len.toNat }

end TcpSeg

/-- The fields of `struct tcp_pcb` that receiving uses. -/
structure RecvPcb where
  state : TcpState
  rcvNxt : UInt32
  rcvWnd : UInt16
  rcvAnnWnd : UInt16
  rcvAnnRightEdge : UInt32
  mss : UInt16
  ackDelay : Bool
  ackNow : Bool
  ooseq : List TcpSeg
deriving DecidableEq, Repr

structure Ack where
  ackno : UInt32
  wnd : UInt16
deriving DecidableEq, Repr

def tcpUpdateRcvAnnWnd (pcb : RecvPcb) : UInt32 × RecvPcb :=
  let newRightEdge := pcb.rcvNxt + pcb.rcvWnd.toUInt32
  if geq newRightEdge (pcb.rcvAnnRightEdge + (min (UInt16.ofNat (tcpWnd / 2)) pcb.mss).toUInt32) then
    (newRightEdge - pcb.rcvAnnRightEdge, { pcb with rcvAnnWnd := pcb.rcvWnd })
  else if gt pcb.rcvNxt pcb.rcvAnnRightEdge then (0, { pcb with rcvAnnWnd := 0 })
  else (0, { pcb with rcvAnnWnd := (pcb.rcvAnnRightEdge - pcb.rcvNxt).toUInt16 })

theorem tcpUpdateRcvAnnWnd_eq (pcb : RecvPcb) :
    ∃ wnd, (tcpUpdateRcvAnnWnd pcb).2 = { pcb with rcvAnnWnd := wnd } := by
  simp only [tcpUpdateRcvAnnWnd]
  split_ifs
  · exact ⟨_, rfl⟩
  · exact ⟨_, rfl⟩
  · exact ⟨_, rfl⟩

def tcpAckNow (pcb : RecvPcb) : RecvPcb := { pcb with ackNow := true }

def tcpAck (pcb : RecvPcb) : RecvPcb :=
  if pcb.ackDelay then { pcb with ackDelay := false, ackNow := true } else { pcb with ackDelay := true }

def announce (pcb : RecvPcb) : Ack × RecvPcb :=
  (⟨pcb.rcvNxt, pcb.rcvAnnWnd⟩, { pcb with rcvAnnRightEdge := pcb.rcvNxt + pcb.rcvAnnWnd.toUInt32 })

/-- `tcp_send_empty_ack`; `mem` says whether the pbuf for the header is there. -/
def tcpSendEmptyAck (mem : Bool) (pcb : RecvPcb) : List Ack × RecvPcb :=
  if mem then ([(announce pcb).1], { (announce pcb).2 with ackDelay := false, ackNow := false }) else ([], pcb)

section Queueing

variable (seqno : UInt32)

/-- The loop of `tcp_oos_insert_segment` that deletes what `cseg` covers. -/
def oosCovered (cseg : TcpSeg) : List TcpSeg → TcpSeg × List TcpSeg
  | [] => (cseg, [])
  | next :: rest =>
    if geq (seqno + cseg.len.toUInt32) (next.seqno + next.len.toUInt32) then
      oosCovered (if next.fin then { cseg with fin := true } else cseg) rest
    else (cseg, next :: rest)

def tcpOosInsertSegment (cseg : TcpSeg) (next : List TcpSeg) : List TcpSeg :=
  if cseg.fin then [cseg]
  else
    let (cseg, next) := oosCovered seqno cseg next
    match next with
    | [] => [cseg]
    | n :: _ =>
      if gt (seqno + cseg.len.toUInt32) n.seqno then cseg.cut (n.seqno - seqno).toUInt16 :: next else cseg :: next

def overruns (pcb : RecvPcb) (tcplen : UInt16) : Bool :=
  pcb.rcvNxt + pcb.rcvWnd.toUInt32 < tcplen.toUInt32 + seqno

def cutBefore (seg : TcpSeg) : TcpSeg :=
  if gt (seg.seqno + seg.len.toUInt32) seqno then seg.cut (seqno - seg.seqno).toUInt16 else seg

def oosAppend (pcb : RecvPcb) (inseg : TcpSeg) (copied : Bool) (next : TcpSeg) : List TcpSeg :=
  if next.fin || !copied then [next]
  else if overruns seqno pcb inseg.tcplen then
    [cutBefore seqno next, { inseg with fin := false }.cut (pcb.rcvNxt + pcb.rcvWnd.toUInt32 - seqno).toUInt16]
  else [cutBefore seqno next, inseg]

def oosBefore (prev : Option TcpSeg) (next : TcpSeg) : Bool :=
  match prev with
  | none => lt seqno next.seqno
  | some prev => between seqno (prev.seqno + 1) (next.seqno - 1)

/-- The loop that finds the place of `inseg`, at the segments after `prev`; the result starts with `prev`.
`copied` says whether `tcp_seg_copy` gets its memory. -/
def oosWalk (pcb : RecvPcb) (inseg : TcpSeg) (copied : Bool) (prev : Option TcpSeg) : List TcpSeg → List TcpSeg
  | [] => prev.toList
  | next :: rest =>
    if seqno = next.seqno then
      if next.len < inseg.len && copied then prev.toList ++ tcpOosInsertSegment seqno inseg (next :: rest)
      else prev.toList ++ next :: rest
    else if oosBefore seqno prev next then
      if copied then (prev.map (cutBefore seqno)).toList ++ tcpOosInsertSegment seqno inseg (next :: rest)
      else prev.toList ++ next :: rest
    else if rest.isEmpty && gt seqno next.seqno then prev.toList ++ oosAppend seqno pcb inseg copied next
    else prev.toList ++ oosWalk pcb inseg copied (some next) rest

def oosQueue (pcb : RecvPcb) (inseg : TcpSeg) (copied : Bool) : List TcpSeg :=
  match pcb.ooseq with
  | [] => if copied then [inseg] else []
  | next :: rest => oosWalk seqno pcb inseg copied none (next :: rest)

end Queueing

/-- What `tcp_receive` leaves behind: `recv_data`, the flag `TF_GOT_FIN` and the empty ACKs it sent. -/
structure Received where
  pcb : RecvPcb
  recvData : List UInt8
  gotFin : Bool
  acks : List Ack
deriving DecidableEq, Repr

/-- Trimming the first edge: the payload pointer moves up to `rcv_nxt`. -/
def trimFront (rcvNxt : UInt32) (inseg : TcpSeg) : TcpSeg :=
  { inseg with
    seqno := rcvNxt
    len := inseg.len - (rcvNxt - inseg.seqno).toUInt16
    p := inseg.p.drop (rcvNxt - inseg.seqno).toNat }

def trimWindow (rcvWnd : UInt16) (inseg : TcpSeg) : TcpSeg :=
  if rcvWnd < inseg.tcplen then
    { inseg with fin := false }.cut (if inseg.syn then rcvWnd - 1 else rcvWnd)
  else inseg

def inseqCovered (inseg : TcpSeg) : List TcpSeg → TcpSeg × List TcpSeg
  | [] => (inseg, [])
  | next :: rest =>
    if geq (inseg.seqno + inseg.tcplen.toUInt32) (next.seqno + next.len.toUInt32) then
      inseqCovered (if next.fin && !inseg.syn then { inseg with fin := true } else inseg) rest
    else (inseg, next :: rest)

def inseqTrim (inseg : TcpSeg) (ooseq : List TcpSeg) : TcpSeg × List TcpSeg :=
  if inseg.fin then (inseg, [])
  else
    let (inseg, next) := inseqCovered inseg ooseq
    match next with
    | [] => (inseg, [])
    | n :: rest =>
      if gt (inseg.seqno + inseg.tcplen.toUInt32) n.seqno then
        let len := (n.seqno - inseg.seqno).toUInt16
        (inseg.cut (if inseg.syn then len - 1 else len), n :: rest)
      else (inseg, n :: rest)

/-- Advancing `rcv_nxt` over a segment. -/
def advance (pcb : RecvPcb) (seg : TcpSeg) : RecvPcb :=
  (tcpUpdateRcvAnnWnd
    { pcb with rcvNxt := pcb.rcvNxt + seg.tcplen.toUInt32, rcvWnd := pcb.rcvWnd - seg.tcplen }).2

theorem advance_eq (pcb : RecvPcb) (seg : TcpSeg) :
    ∃ wnd, advance pcb seg = { pcb with
      rcvNxt := pcb.rcvNxt + seg.tcplen.toUInt32, rcvWnd := pcb.rcvWnd - seg.tcplen, rcvAnnWnd := wnd } := by
  obtain ⟨wnd, h⟩ := tcpUpdateRcvAnnWnd_eq
    { pcb with rcvNxt := pcb.rcvNxt + seg.tcplen.toUInt32, rcvWnd := pcb.rcvWnd - seg.tcplen }
  exact ⟨wnd, h⟩

def dequeue (pcb : RecvPcb) (recvData : List UInt8) (gotFin : Bool) : List TcpSeg → Received
  | [] => ⟨{ pcb with ooseq := [] }, recvData, gotFin, []⟩
  | cseg :: rest =>
    if cseg.seqno = pcb.rcvNxt then
      let pcb := advance pcb cseg
      let pcb := if cseg.fin && pcb.state = .established then { pcb with state := .closeWait } else pcb
      dequeue pcb (recvData ++ cseg.p) (gotFin || cseg.fin) rest
    else ⟨{ pcb with ooseq := cseg :: rest }, recvData, gotFin, []⟩

def inSequence (pcb : RecvPcb) (inseg : TcpSeg) : Received :=
  let (inseg, ooseq) := inseqTrim (trimWindow pcb.rcvWnd inseg) pcb.ooseq
  let r := dequeue (advance pcb inseg) inseg.p inseg.fin ooseq
  { r with pcb := tcpAck r.pcb }

/-- The part of `tcp_receive` that handles the data and the FIN of a segment. `mem` and `copied` say whether the
memory for an empty ACK and for the copy of the segment is there. -/
def tcpReceive (pcb : RecvPcb) (inseg : TcpSeg) (mem copied : Bool) : Received :=
  if 0 < inseg.tcplen ∧ pcb.state.ctorIdx < TcpState.closeWait.ctorIdx then
    let front := between pcb.rcvNxt (inseg.seqno + 1) (inseg.seqno + inseg.tcplen.toUInt32 - 1)
    let pcb := if !front && lt inseg.seqno pcb.rcvNxt then tcpAckNow pcb else pcb
    let inseg := if front then trimFront pcb.rcvNxt inseg else inseg
    if between inseg.seqno pcb.rcvNxt (pcb.rcvNxt + pcb.rcvWnd.toUInt32 - 1) then
      if pcb.rcvNxt = inseg.seqno then inSequence pcb inseg
      else
        let (acks, pcb) := tcpSendEmptyAck mem pcb
        ⟨{ pcb with ooseq := oosQueue inseg.seqno pcb inseg copied }, [], false, acks⟩
    else
      let (acks, pcb) := tcpSendEmptyAck mem pcb
      ⟨pcb, [], false, acks⟩
  else if between inseg.seqno pcb.rcvNxt (pcb.rcvNxt + pcb.rcvWnd.toUInt32 - 1) then ⟨pcb, [], false, []⟩
  else ⟨tcpAckNow pcb, [], false, []⟩

end LogoCore.Lwip
