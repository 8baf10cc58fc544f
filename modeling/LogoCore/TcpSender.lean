import LogoCore.TcpSend

namespace LogoCore.Lwip

open Ethernet SequenceNumbers

structure AckSegment where
  seqno : UInt32
  ackno : UInt32
  wnd : UInt16
  tcplen : UInt16
  ack : Bool
  syn : Bool
  again : Bool
  gotFin : Bool
  mssOption : Option UInt16
deriving DecidableEq, Repr

/-- The sending side of a connection. `live` ends when its queues are purged; `written` is what `tcp_write` has accepted
and `wire` what has been sent. -/
structure Sender where
  pcb : SendPcb
  live : Bool
  written : List UInt8
  wire : List TcpSeg
deriving DecidableEq, Repr

namespace SendPcb

/-- `tcp_eff_send_mss` for an interface with the MTU of Ethernet. -/
def effSendMss (mss : UInt16) : UInt16 := if mss < 1460 then mss else 1460

/-- The MSS option as `tcp_parseopt` stores it. -/
def parseopt (pcb : SendPcb) : Option UInt16 → SendPcb
  | none => pcb
  | some mss => { pcb with mss := if 1500 < mss ∨ mss = 0 then 1500 else mss }

def openCwnd (cwnd mss : UInt16) : UInt16 := if cwnd = 1 then mss * 2 else mss

def synAcked (pcb : SendPcb) (x : AckSegment) : SendPcb :=
  match pcb.unacked with
  | [] => pcb
  | rseg :: rest =>
    if x.ackno = rseg.seg.seqno + 1 then
      let mss := effSendMss pcb.mss
      { pcb with
        sndBuf := pcb.sndBuf + 1
        lastack := x.ackno
        sndWnd := x.wnd
        sndWndMax := x.wnd
        sndWl1 := x.seqno - 1
        state := .established
        mss := mss
        ssthresh := mss * 10
        cwnd := openCwnd pcb.cwnd mss
        sndQueuelen := pcb.sndQueuelen - 1
        unacked := rest
        rtime := if rest = [] then -1 else 0 }
    else pcb

def receive (pcb : SendPcb) (x : AckSegment) : SendPcb :=
  if x.ack then receiveAck pcb x.seqno x.ackno x.wnd x.tcplen else pcb

def accepted (pcb : SendPcb) (x : AckSegment) : SendPcb :=
  let cwnd := pcb.cwnd
  let pcb := { pcb with state := .established }.receive x
  { pcb with
    acked := if pcb.acked ≠ 0 then pcb.acked - 1 else pcb.acked
    cwnd := openCwnd cwnd pcb.mss
    state := if x.gotFin then .closeWait else pcb.state }

def acksAll (pcb : SendPcb) (x : AckSegment) : Bool := x.ack && x.ackno = pcb.sndNxt

end SendPcb

namespace Sender

def tcpOutput (s : Sender) (ackNow : Bool) : Sender :=
  let out := Lwip.tcpOutput s.pcb ackNow
  { s with pcb := out.1, wire := s.wire ++ out.2 }

/-- The switch over the states in `tcp_process`. The queues are purged on the way to `TIME_WAIT` and with the control
block. -/
def processState (s : Sender) (x : AckSegment) : Sender :=
  match s.pcb.state with
  | .synSent => if x.ack && x.syn then { s with pcb := s.pcb.synAcked x } else s
  | .synRcvd =>
    if x.ack then
      if between x.ackno (s.pcb.lastack + 1) s.pcb.sndNxt then { s with pcb := s.pcb.accepted x } else s
    else if x.syn && x.again then { s with pcb := tcpRexmit s.pcb }
    else s
  | .closeWait | .established =>
    let pcb := s.pcb.receive x
    { s with pcb := if x.gotFin then { pcb with state := .closeWait } else pcb }
  | .finWait1 =>
    let pcb := s.pcb.receive x
    if x.gotFin then
      if pcb.acksAll x then { s with live := false } else { s with pcb := { pcb with state := .closing } }
    else if pcb.acksAll x then { s with pcb := { pcb with state := .finWait2 } }
    else { s with pcb := pcb }
  | .finWait2 => if x.gotFin then { s with live := false } else { s with pcb := s.pcb.receive x }
  | .closing | .lastAck =>
    let pcb := s.pcb.receive x
    if pcb.acksAll x then { s with live := false } else { s with pcb := pcb }
  | _ => s

def tcpProcess (s : Sender) (x : AckSegment) : Sender :=
  if x.syn ∧ s.pcb.state ≠ .synSent ∧ s.pcb.state ≠ .synRcvd then s
  else { s with pcb := s.pcb.parseopt x.mssOption }.processState x

/-- No callback of the application runs between `tcp_process` and the `tcp_output` at the end of `tcp_input`. Before the
connection is accepted `acked` is still 0. -/
def Undisturbed (s : Sender) (x : AckSegment) (s' : Sender) : Prop :=
  s.pcb.state ≠ .synSent ∧ if s.pcb.state = .synRcvd then x.ack = false else s'.pcb.acked = 0 ∧ x.tcplen = 0

instance (s : Sender) (x : AckSegment) (s' : Sender) : Decidable (Undisturbed s x s') :=
  inferInstanceAs (Decidable (_ ∧ _))

/-- `tcp_input`; after a callback its last `tcp_output` is a step of its own. -/
def tcpInput (s : Sender) (x : AckSegment) (ackNow : Bool) : Sender :=
  let s' := s.tcpProcess x
  if s'.live ∧ Undisturbed s x s' then s'.tcpOutput ackNow else s'

def tcpWrite (s : Sender) (data : List UInt8) (more : Bool) (mem : ℕ) : Sender :=
  let w := Lwip.tcpWrite s.pcb data more mem
  { s with pcb := w.2, written := if w.1 = .ok then s.written ++ data else s.written }

def finish (s : Sender) (state : TcpState) (mem : ℕ) (ackNow : Bool) : Sender :=
  let f := tcpSendFin s.pcb mem
  if f.1 = .ok then { s with pcb := { f.2 with state := state } }.tcpOutput ackNow else { s with pcb := f.2 }

/-- `tcp_close`; with `rst` the application has left data unread. -/
def tcpClose (s : Sender) (rst : Bool) (mem : ℕ) (ackNow : Bool) : Sender :=
  if rst ∧ (s.pcb.state = .established ∨ s.pcb.state = .closeWait) then { s with live := false }
  else match s.pcb.state with
    | .closed | .listen | .synSent => { s with live := false }
    | .synRcvd | .established => s.finish .finWait1 mem ackNow
    | .closeWait => s.finish .lastAck mem ackNow
    | _ => s

def tcpSlowtmr (s : Sender) (ackNow : Bool) : Sender :=
  let out := retransmit s.pcb ackNow
  { s with pcb := out.1, wire := s.wire ++ out.2 }

def tcpZeroWindowProbe (s : Sender) (mem : Bool) : Sender :=
  { s with wire := s.wire ++ Lwip.tcpZeroWindowProbe s.pcb mem }

end Sender

inductive SendEvent where
  | write (data : List UInt8) (more : Bool) (mem : ℕ)
  | close (rst : Bool) (mem : ℕ) (ackNow : Bool)
  | output (ackNow : Bool)
  | input (x : AckSegment) (ackNow : Bool)
  | slowtmr (ackNow : Bool)
  | probe (mem : Bool)
  | remove
deriving DecidableEq, Repr

def sendStep (s : Sender) (e : SendEvent) : Sender :=
  if !s.live then s
  else match e with
    | .write data more mem => s.tcpWrite data more mem
    | .close rst mem ackNow => s.tcpClose rst mem ackNow
    | .output ackNow => s.tcpOutput ackNow
    | .input x ackNow => s.tcpInput x ackNow
    | .slowtmr ackNow => s.tcpSlowtmr ackNow
    | .probe mem => s.tcpZeroWindowProbe mem
    | .remove => { s with live := false }

/-- The sending fields of the block `tcp_alloc` hands out. -/
def tcpAllocSend (iss : UInt32) : SendPcb where
  state := .closed
  mss := 536
  sndWnd := 0
  sndWndMax := 0
  cwnd := 1
  ssthresh := 0
  sndNxt := iss
  sndLbb := iss
  lastack := iss
  sndWl1 := 0
  sndWl2 := iss
  sndBuf := UInt16.ofNat tcpSndBuf
  sndQueuelen := 0
  unsentOversize := 0
  acked := 0
  dupacks := 0
  rtime := -1
  nagleMemErr := false
  fin := false
  nodelay := false
  infr := false
  unsent := []
  unacked := []

/-- The connection `tcp_listen_input` sets up, with its SYN queued. -/
def tcpListenInputSend (iss seqno : UInt32) (wnd : UInt16) (mssOption : Option UInt16) : Sender :=
  let pcb := SendPcb.parseopt
    { tcpAllocSend iss with
      state := .synRcvd, sndWnd := wnd, sndWndMax := wnd, ssthresh := wnd, sndWl1 := seqno - 1 } mssOption
  let pcb := { pcb with mss := SendPcb.effSendMss pcb.mss }
  ⟨(tcpEnqueueFlags pcb true false 2).2, true, [], []⟩

/-- The connection after `tcp_connect` has queued its SYN; `old` was the number `tcp_alloc` had chosen. -/
def tcpConnectSend (old iss : UInt32) : Sender :=
  let pcb := { tcpAllocSend old with
    sndNxt := iss, lastack := iss - 1, sndLbb := iss - 1, sndWnd := UInt16.ofNat tcpWnd
    mss := SendPcb.effSendMss 536, ssthresh := SendPcb.effSendMss 536 * 10 }
  ⟨{ (tcpEnqueueFlags pcb true false 2).2 with state := .synSent }, true, [], []⟩

end LogoCore.Lwip
