import LogoCore.EventMachine
import LogoCore.TcpReceive

namespace LogoCore.Lwip

open Ethernet SequenceNumbers

/-- A segment for the connection: its data and flags, whether its acknowledgement number answers the SYN of this side,
whether it is `snd_nxt`, and the MSS option if it has one. The two numbers belong to the sending side. -/
structure Segment where
  seg : TcpSeg
  rst : Bool
  ack : Bool
  acksSyn : Bool
  acksAll : Bool
  mssOption : Option UInt16
deriving DecidableEq, Repr

inductive Answer where
  | ok | refuse | abort
deriving DecidableEq, Repr

/-- How memory and the application's callbacks behave while one segment is processed: `mem` for an empty ACK, `copied`
for a copied segment, `keep` for the accepting, connected and sent callbacks, `recv` and `closed` for the receive
callback, `retry` and `retryClosed` for it when refused data is offered again. A false `keep`, `closed` or
`retryClosed` means that the callback aborts the connection. -/
structure Env where
  mem : Bool
  copied : Bool
  keep : Bool
  recv : Answer
  closed : Bool
  retry : Answer
  retryClosed : Bool
deriving DecidableEq, Repr

/-- The receiving side of a connection. `refusedData` comes with its flag `PBUF_FLAG_TCP_FIN`; `live` ends when the
control block is given up. The rest is history: what `tcp_receive` has passed on, what the application has accepted of
it, the callbacks with a null pointer, and the acknowledgements sent. -/
structure Receiver where
  pcb : RecvPcb
  refusedData : Option (List UInt8 × Bool)
  rxClosed : Bool
  live : Bool
  received : List UInt8
  taken : List UInt8
  closedCalls : ℕ
  acks : List Ack
deriving DecidableEq, Repr

/-- What `tcp_process` leaves for `tcp_input`: the connection, `recv_data` and the flag `TF_GOT_FIN`. -/
structure Handed where
  r : Receiver
  data : List UInt8
  gotFin : Bool
deriving DecidableEq, Repr

namespace Receiver

def tcpPcbPurge (r : Receiver) : Receiver := { r with refusedData := none, pcb := { r.pcb with ooseq := [] } }

def eventClosed (r : Receiver) (keep : Bool) : Receiver :=
  let pcb := if r.pcb.rcvWnd = UInt16.ofNat tcpWnd then r.pcb else { r.pcb with rcvWnd := r.pcb.rcvWnd + 1 }
  { r with pcb := pcb, closedCalls := r.closedCalls + 1, live := keep }

def tcpProcessRefusedData (r : Receiver) (answer : Answer) (keep : Bool) : Receiver :=
  match r.refusedData with
  | none => r
  | some (data, fin) =>
    match answer with
    | .ok =>
      let r := { r with refusedData := none, taken := r.taken ++ data }
      if fin then r.eventClosed keep else r
    | .refuse => r
    | .abort => { r with refusedData := none, live := false }

/-- The MSS option as `tcp_parseopt` stores it. -/
def tcpParseopt (pcb : RecvPcb) : Option UInt16 → RecvPcb
  | none => pcb
  | some mss => { pcb with mss := if 1500 < mss ∨ mss = 0 then 1500 else mss }

def receive (r : Receiver) (x : Segment) (env : Env) : Handed :=
  let q := tcpReceive r.pcb x.seg env.mem env.copied
  ⟨{ r with pcb := q.pcb, received := r.received ++ q.recvData, acks := r.acks ++ q.acks }, q.recvData, q.gotFin⟩

def setState (r : Receiver) (state : TcpState) : Receiver := { r with pcb := { r.pcb with state := state } }

def ackNow (r : Receiver) : Receiver := { r with pcb := tcpAckNow r.pcb }

def passiveClose (p : Handed) : Handed := { p with r := if p.gotFin then p.r.ackNow.setState .closeWait else p.r }

/-- The switch over the states in `tcp_process`. -/
def processState (r : Receiver) (x : Segment) (env : Env) : Handed :=
  match r.pcb.state with
  | .synSent =>
    if x.ack && x.seg.syn && x.acksSyn then
      let pcb := { r.pcb with
        rcvNxt := x.seg.seqno + 1, rcvAnnRightEdge := x.seg.seqno + 1, state := .established,
        mss := min r.pcb.mss 1460 }
      ⟨{ r with pcb := tcpAckNow pcb, live := env.keep }, [], false⟩
    else ⟨r, [], false⟩
  | .synRcvd =>
    if x.ack && x.acksSyn then
      if env.keep then passiveClose ((r.setState .established).receive x env)
      else ⟨{ r with live := false }, [], false⟩
    else ⟨r, [], false⟩
  | .closeWait | .established => passiveClose (r.receive x env)
  | .finWait1 =>
    let p := r.receive x env
    { p with r :=
        if p.gotFin then
          if x.ack && x.acksAll then p.r.ackNow.tcpPcbPurge.setState .timeWait else p.r.ackNow.setState .closing
        else if x.ack && x.acksAll then p.r.setState .finWait2 else p.r }
  | .finWait2 =>
    let p := r.receive x env
    { p with r := if p.gotFin then p.r.ackNow.tcpPcbPurge.setState .timeWait else p.r }
  | .closing =>
    let p := r.receive x env
    { p with r := if x.ack && x.acksAll then p.r.tcpPcbPurge.setState .timeWait else p.r }
  | .lastAck =>
    let p := r.receive x env
    { p with r := if x.ack && x.acksAll then { p.r with live := false } else p.r }
  | _ => ⟨r, [], false⟩

def tcpProcess (r : Receiver) (x : Segment) (env : Env) : Handed :=
  if x.rst then
    let acceptable :=
      if r.pcb.state = .synSent then x.acksAll
      else between x.seg.seqno r.pcb.rcvNxt (r.pcb.rcvNxt + r.pcb.rcvWnd.toUInt32)
    ⟨if acceptable then { r with live := false } else r, [], false⟩
  else if x.seg.syn ∧ r.pcb.state ≠ .synSent ∧ r.pcb.state ≠ .synRcvd then ⟨r.ackNow, [], false⟩
  else processState { r with pcb := tcpParseopt r.pcb x.mssOption } x env

/-- `recv_data` is offered to the application. -/
def offer (r : Receiver) (data : List UInt8) (env : Env) : Receiver :=
  if data = [] then r
  else if r.rxClosed then { r with live := false }
  else match env.recv with
    | .ok => { r with taken := r.taken ++ data }
    | .refuse => { r with refusedData := some (data, false) }
    | .abort => { r with live := false }

def offerEnd (r : Receiver) (env : Env) : Receiver :=
  match r.refusedData with
  | some (kept, _) => { r with refusedData := some (kept, true) }
  | none => r.eventClosed env.closed

def deliver (r : Receiver) (data : List UInt8) (gotFin : Bool) (env : Env) : Receiver :=
  let r := r.offer data env
  if r.live && gotFin then r.offerEnd env else r

def tcpTimewaitInput (r : Receiver) (x : Segment) : Receiver :=
  if x.rst ∨ x.seg.syn ∧ between x.seg.seqno r.pcb.rcvNxt (r.pcb.rcvNxt + r.pcb.rcvWnd.toUInt32) then r
  else if 0 < x.seg.tcplen then r.ackNow else r

/-- The part of `tcp_input` for a segment that belongs to this connection. -/
def tcpInput (r : Receiver) (x : Segment) (env : Env) : Receiver :=
  if r.pcb.state = .timeWait then r.tcpTimewaitInput x
  else
    let r := r.tcpProcessRefusedData env.retry env.retryClosed
    if !r.live || r.refusedData.isSome && 0 < x.seg.tcplen then r
    else
      let p := r.tcpProcess x env
      if !p.r.live then p.r
      else if !env.keep then { p.r with live := false }
      else p.r.deliver p.data p.gotFin env

def tcpRecved (r : Receiver) (len : UInt16) : Receiver :=
  let wnd := r.pcb.rcvWnd + len
  let wnd := if UInt16.ofNat tcpWnd < wnd then UInt16.ofNat tcpWnd else wnd
  let (inflation, pcb) := tcpUpdateRcvAnnWnd { r.pcb with rcvWnd := wnd }
  { r with pcb := if UInt32.ofNat (tcpWnd / 4) ≤ inflation then tcpAckNow pcb else pcb }

/-- `tcp_close`; `fin` says whether `tcp_send_fin` succeeds. -/
def tcpClose (r : Receiver) (fin : Bool) : Receiver :=
  let r := { r with rxClosed := true }
  if (r.pcb.state = .established ∨ r.pcb.state = .closeWait) ∧
      (r.refusedData.isSome ∨ r.pcb.rcvWnd ≠ UInt16.ofNat tcpWnd) then
    if r.pcb.state = .established then r.tcpPcbPurge.setState .timeWait else { r.tcpPcbPurge with live := false }
  else match r.pcb.state with
    | .closed | .listen | .synSent => { r with live := false }
    | .synRcvd | .established => if fin then r.setState .finWait1 else r
    | .closeWait => if fin then r.setState .lastAck else r
    | _ => r

/-- The out-of-sequence timeout of `tcp_slowtmr`, and `tcp_free_ooseq` when the pbuf pool runs dry. -/
def dropOoseq (r : Receiver) : Receiver := { r with pcb := { r.pcb with ooseq := [] } }

/-- The connection's part of `tcp_fasttmr` that offers refused data again. -/
def tcpFasttmr (r : Receiver) (env : Env) : Receiver :=
  if r.pcb.state = .timeWait then r else r.tcpProcessRefusedData env.retry env.retryClosed

def output (r : Receiver) : Receiver :=
  let (ack, pcb) := announce r.pcb
  if r.pcb.state = .synSent then { r with pcb := pcb }
  else { r with pcb := { pcb with ackDelay := false, ackNow := false }, acks := r.acks ++ [ack] }

end Receiver

inductive RecvEvent where
  | input (x : Segment) (env : Env)
  | recved (len : UInt16)
  | close (fin : Bool)
  | dropOoseq
  | fasttmr (env : Env)
  | output
  | remove
deriving DecidableEq, Repr

def recvStep (r : Receiver) (e : RecvEvent) : Receiver :=
  if !r.live then r
  else match e with
    | .input x env => r.tcpInput x env
    | .recved len => r.tcpRecved len
    | .close fin => r.tcpClose fin
    | .dropOoseq => r.dropOoseq
    | .fasttmr env => r.tcpFasttmr env
    | .output => r.output
    | .remove => { r with live := false }

/-- The receiving fields of the block `tcp_alloc` hands out. -/
def tcpAlloc : RecvPcb := ⟨.closed, 0, UInt16.ofNat tcpWnd, UInt16.ofNat tcpWnd, 0, 536, false, false, []⟩

/-- The connection `tcp_listen_input` sets up for a SYN. -/
def tcpListenInput (seqno : UInt32) (mssOption : Option UInt16) : Receiver :=
  let pcb := Receiver.tcpParseopt
    { tcpAlloc with state := .synRcvd, rcvNxt := seqno + 1, rcvAnnRightEdge := seqno + 1 } mssOption
  ⟨{ pcb with mss := min pcb.mss 1460 }, none, false, true, [], [], 0, []⟩

/-- The connection after `tcp_connect` has queued its SYN. -/
def tcpConnect : Receiver := ⟨{ tcpAlloc with state := .synSent }, none, false, true, [], [], 0, []⟩

end LogoCore.Lwip
