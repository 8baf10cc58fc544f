import Mathlib.Data.UInt
import LogoCore.IndexRing

namespace LogoCore.Serial

/-- A use of a cell of one of the two buffers, with the number of bytes that malloc gave for the buffer. -/
structure Access where
  index : ℕ
  allocated : ℕ
  deriving DecidableEq

/-- A HardwareSerial object. The sizes are those of the index arithmetic; `sent` is what went to the transmit FIFO. -/
structure HardwareSerial where
  tx : IndexRing UInt8
  rx : IndexRing UInt8
  txAllocated : ℕ
  rxAllocated : ℕ
  sent : List UInt8
  accesses : List Access

namespace HardwareSerial

-- before the first begin() both pointers are 0xFFFFFFFF
def construct : HardwareSerial := ⟨⟨fun _ => 0, 256, 0, 0⟩, ⟨fun _ => 0, 256, 0, 0⟩, 0, 0, [], []⟩

def touchTx (s : HardwareSerial) (i : ℕ) : HardwareSerial :=
  { s with accesses := s.accesses ++ [⟨i, s.txAllocated⟩] }

def touchRx (s : HardwareSerial) (i : ℕ) : HardwareSerial :=
  { s with accesses := s.accesses ++ [⟨i, s.rxAllocated⟩] }

def sendNext (s : HardwareSerial) : HardwareSerial :=
  { s.touchTx s.tx.readIndex with tx := s.tx.skip, sent := s.sent ++ [s.tx.cells s.tx.readIndex] }

-- the UART takes every character in the end; none: the indices do not meet within the turns given
def sendAll : ℕ → HardwareSerial → Option HardwareSerial
  | 0, s => if s.tx.IsEmpty then some s else none
  | n + 1, s => if s.tx.IsEmpty then some s else sendAll n s.sendNext

-- from the second turn on the read index runs through the residues of the size
def primeTransmit (s : HardwareSerial) : Option HardwareSerial := sendAll (s.tx.size + 1) s

/-- none: the wait for the transmit buffer to run empty does not end. -/
def flushAll (s : HardwareSerial) : Option HardwareSerial :=
  if s.tx.IsEmpty then
    some { s with tx := { s.tx with readIndex := 0, writeIndex := 0 },
                  rx := { s.rx with readIndex := 0, writeIndex := 0 } }
  else none

/-- `txOk` and `rxOk` say whether malloc finds a block; `fresh` is what the blocks hold. -/
def begin (s : HardwareSerial) (txOk rxOk : Bool) (fresh : ℕ → UInt8) : Option HardwareSerial :=
  s.flushAll.map fun s =>
    { s with tx := { s.tx with cells := fresh }, rx := { s.rx with cells := fresh },
             txAllocated := if txOk then s.tx.size else 0, rxAllocated := if rxOk then s.rx.size else 0 }

def setBufferSize (s : HardwareSerial) (txsize rxsize : ℕ) : HardwareSerial :=
  { s with tx := if 0 < txsize then { s.tx with size := txsize } else s.tx,
           rx := if 0 < rxsize then { s.rx with size := rxsize } else s.rx }

def setModule (s : HardwareSerial) (txOk rxOk : Bool) (fresh : ℕ → UInt8) : Option HardwareSerial :=
  s.begin txOk rxOk fresh

def endSerial (s : HardwareSerial) : Option HardwareSerial := s.flushAll

-- unsigned arithmetic, converted to int
def available (s : HardwareSerial) : Int32 :=
  if s.rx.readIndex ≤ s.rx.writeIndex then Int32.ofNat (s.rx.writeIndex - s.rx.readIndex)
  else Int32.ofNat s.rx.size - Int32.ofNat (s.rx.readIndex - s.rx.writeIndex)

def peek (s : HardwareSerial) : Option UInt8 × HardwareSerial :=
  if s.rx.IsEmpty then (none, s) else (some (s.rx.cells s.rx.readIndex), s.touchRx s.rx.readIndex)

def read (s : HardwareSerial) : Option UInt8 × HardwareSerial :=
  if s.rx.IsEmpty then (none, s)
  else (some (s.rx.cells s.rx.readIndex), { s.touchRx s.rx.readIndex with rx := s.rx.skip })

-- while the buffer is full only the transmit interrupt can make room
def awaitSpace (s : HardwareSerial) : Option HardwareSerial :=
  if s.tx.IsFull then s.primeTransmit.bind fun s => if s.tx.IsFull then none else some s else some s

/-- none: write() does not return. -/
def write (s : HardwareSerial) (c : UInt8) : Option (ℕ × HardwareSerial) :=
  s.awaitSpace.bind fun s =>
    let s := { s.touchTx s.tx.writeIndex with tx := s.tx.put c }
    (if s.tx.IsEmpty then some s else s.primeTransmit).map fun s => (1, s)

def dataByte (lChar : UInt32) : UInt8 := (lChar &&& 0xFF).toUInt8

def receiveChar (s : HardwareSerial) (lChar : UInt32) : Option HardwareSerial :=
  if s.rx.IsFull then none
  else some { s.touchRx s.rx.writeIndex with rx := s.rx.put (dataByte lChar) }

-- the character that finds the buffer full has left the FIFO; those behind it stay there
def receiveLoop : List UInt32 → HardwareSerial → List UInt32 × HardwareSerial
  | [], s => ([], s)
  | lChar :: fifo, s =>
    match s.receiveChar lChar with
    | none => (fifo, s)
    | some s => receiveLoop fifo s

def uartIntHandler (s : HardwareSerial) (txInt rxInt : Bool) (fifo : List UInt32) :
    Option (List UInt32 × HardwareSerial) :=
  (if txInt then s.primeTransmit else some s).bind fun s =>
    if rxInt then (receiveLoop fifo s).2.primeTransmit.map fun s' => ((receiveLoop fifo s).1, s')
    else some (fifo, s)

end HardwareSerial

end LogoCore.Serial
