import LogoCore.PbufChain
import Mathlib.Logic.Function.Basic

namespace LogoCore.Ethernet

inductive TcpState where
  | closed | listen | synSent | synRcvd | established | finWait1 | finWait2 | closeWait | closing
  | lastAck | timeWait
deriving DecidableEq, Repr

inductive Err where
  | ok | mem | buf | timeout | rte | inProgress | val | wouldBlock | use | isConn | abrt | rst
  | clsd | conn | arg | netif
deriving DecidableEq, Repr

abbrev maxClients : ℕ := 8

abbrev Slot := Fin maxClients

scoped instance : NeZero maxClients := ⟨Nat.succ_ne_zero 7⟩

abbrev PcbPtr := ℕ

abbrev ObjId := ℕ

/-- What `callback_arg` points at: nothing, the listening server, a slot of its table, or the
`EthernetClient` object that opened the connection. -/
inductive CallbackArg where
  | null
  | server
  | slot (i : Slot)
  | client (h : ObjId)
deriving DecidableEq, Repr

inductive Callback where
  | tcpRecvNull | doRecv | didSent | doErr | doPoll | closeRetryPoll
  | clientDoRecv | clientDoErr | clientDoPoll
deriving DecidableEq, Repr

structure Pcb where
  remotePort : UInt16
  state : TcpState
  callbackArg : CallbackArg
  recv : Option Callback
  sent : Option Callback
  errf : Option Callback
  poll : Option Callback
  rxClosed : Bool
  refusedData : Bool
  rcvWnd : ℕ
  sndBuf : ℕ
deriving DecidableEq, Repr

abbrev tcpWnd : ℕ := 11680

abbrev tcpSndBuf : ℕ := 6 * 1500

inductive Call where
  | tcpArg (pcb : PcbPtr) (arg : CallbackArg)
  | tcpRecv (pcb : PcbPtr) (f : Option Callback)
  | tcpSent (pcb : PcbPtr) (f : Option Callback)
  | tcpErr (pcb : PcbPtr) (f : Option Callback)
  | tcpPoll (pcb : PcbPtr) (f : Option Callback)
  | tcpRecved (pcb : Option PcbPtr) (len : ℕ)
  | tcpClose (pcb : PcbPtr)
  | tcpWrite (pcb : PcbPtr) (chunk : List UInt8)
  | tcpOutput (pcb : PcbPtr)
  | pbufCat (h t : ℕ)
  | pbufRef (p : ℕ)
  | pbufFree (deallocated : List ℕ)
deriving DecidableEq, Repr

/-- lwIP as the library sees it: the control blocks in use and the calls made so far. -/
structure Net where
  pcbs : PcbPtr → Option Pcb
  log : List Call

namespace Net

def record (n : Net) (c : Call) : Net := { n with log := n.log ++ [c] }

def modify (n : Net) (p : PcbPtr) (f : Pcb → Pcb) : Net :=
  { n with pcbs := Function.update n.pcbs p ((n.pcbs p).map f) }

def free (n : Net) (p : PcbPtr) : Net := { n with pcbs := Function.update n.pcbs p none }

def tcpArg (n : Net) (p : PcbPtr) (a : CallbackArg) : Net :=
  (n.modify p fun b => { b with callbackArg := a }).record (.tcpArg p a)

def tcpRecv (n : Net) (p : PcbPtr) (f : Option Callback) : Net :=
  (n.modify p fun b => { b with recv := f }).record (.tcpRecv p f)

def tcpSent (n : Net) (p : PcbPtr) (f : Option Callback) : Net :=
  (n.modify p fun b => { b with sent := f }).record (.tcpSent p f)

def tcpErr (n : Net) (p : PcbPtr) (f : Option Callback) : Net :=
  (n.modify p fun b => { b with errf := f }).record (.tcpErr p f)

def tcpPoll (n : Net) (p : PcbPtr) (f : Option Callback) : Net :=
  (n.modify p fun b => { b with poll := f }).record (.tcpPoll p f)

def tcpRecved (n : Net) (p : PcbPtr) (len : ℕ) : Net :=
  (n.modify p fun b => { b with rcvWnd := min ((b.rcvWnd + len) % 65536) tcpWnd }).record
    (.tcpRecved (some p) len)

def tcpWrite (n : Net) (p : PcbPtr) (chunk : List UInt8) (err : Err) : Net :=
  (n.modify p fun b => if err = .ok then { b with sndBuf := b.sndBuf - chunk.length } else b).record
    (.tcpWrite p chunk)

def tcpOutput (n : Net) (p : PcbPtr) : Net := n.record (.tcpOutput p)

/-- `tcp_close`; `fin` is what `tcp_send_fin` returns where the state makes it send one. -/
def tcpClose (n : Net) (p : PcbPtr) (fin : Err) : Err × Net :=
  let n := (n.modify p fun b => if b.state = .listen then b else { b with rxClosed := true }).record
    (.tcpClose p)
  match n.pcbs p with
  | none => (.ok, n)
  | some b =>
    if (b.state = .established ∨ b.state = .closeWait) ∧ (b.refusedData ∨ b.rcvWnd ≠ tcpWnd) then
      if b.state = .established then (.ok, n.modify p fun b => { b with state := .timeWait })
      else (.ok, n.free p)
    else match b.state with
      | .closed | .listen | .synSent => (.ok, n.free p)
      | .synRcvd | .established =>
        if fin = .ok then (.ok, n.modify p fun b => { b with state := .finWait1 }) else (fin, n)
      | .closeWait =>
        if fin = .ok then (.ok, n.modify p fun b => { b with state := .lastAck }) else (fin, n)
      | _ => (.ok, n)

theorem tcpClose_cases (n : Net) (p : PcbPtr) (fin : Err) :
    let m := (n.modify p fun b => if b.state = .listen then b else { b with rxClosed := true }).record
      (.tcpClose p)
    (n.tcpClose p fin).2 = m ∨ (n.tcpClose p fin).2 = m.free p ∨
      ∃ s, (n.tcpClose p fin).2 = m.modify p fun b => { b with state := s } := by
  intro m
  have hmove (s : TcpState) (fin : Err) :
      (if fin = .ok then (Err.ok, m.modify p fun b => { b with state := s }) else (fin, m)).2 = m ∨
      (if fin = .ok then (Err.ok, m.modify p fun b => { b with state := s }) else (fin, m)).2 = m.free p ∨
      ∃ s', (if fin = .ok then (Err.ok, m.modify p fun b => { b with state := s }) else (fin, m)).2 =
        m.modify p fun b => { b with state := s' } := by
    split
    · exact .inr (.inr ⟨s, rfl⟩)
    · exact .inl rfl
  unfold tcpClose
  dsimp only
  split
  · exact .inl rfl
  · split
    · split
      · exact .inr (.inr ⟨_, rfl⟩)
      · exact .inr (.inl rfl)
    · split
      · exact .inr (.inl rfl)
      · exact .inr (.inl rfl)
      · exact .inr (.inl rfl)
      · exact hmove .finWait1 fin
      · exact hmove .finWait1 fin
      · exact hmove .lastAck fin
      · exact .inl rfl

/-- `tcp_new` when it returns the address `p`. -/
def tcpNew (n : Net) (p : PcbPtr) : Net :=
  let b : Pcb := ⟨0, .closed, .null, some .tcpRecvNull, none, none, none, false, false, tcpWnd, tcpSndBuf⟩
  { n with pcbs := Function.update n.pcbs p (some b) }

/-- `tcp_connect`, which returns `err`; the state changes when the SYN is queued. -/
def tcpConnect (n : Net) (p : PcbPtr) (port : UInt16) (err : Err) : Net :=
  n.modify p fun b => { b with remotePort := port, state := if err = .ok then .synSent else b.state }

/-- `tcp_abort` without the error callback it makes. -/
def tcpAbort (n : Net) (p : PcbPtr) : Net := n.free p

def receive (n : Net) (p : PcbPtr) (len : ℕ) : Net := n.modify p fun b => { b with rcvWnd := b.rcvWnd - len }

def receiveFin (n : Net) (p : PcbPtr) : Net :=
  n.modify p fun b => if b.state = .established ∨ b.state = .synRcvd then { b with state := .closeWait } else b

def pbufFree (n : Net) (c : Chain) : Net := n.record (.pbufFree (Ethernet.pbufFree c).1)

end Net

end LogoCore.Ethernet
