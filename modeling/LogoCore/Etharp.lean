import LogoCore.EventMachine
import Mathlib.Logic.Function.Basic

namespace LogoCore.Arp

inductive EtharpState where
  | empty
  | pending
  | stable
  | stableRerequesting
deriving DecidableEq

/-- A packet with the address of the next hop, for which a hardware address is needed. -/
structure Packet where
  id : ℕ
  dst : UInt32
deriving DecidableEq

/-- `struct etharp_entry`; the hardware address is its 48 bits. -/
structure EtharpEntry where
  state : EtharpState
  ipaddr : UInt32
  ethaddr : UInt64
  ctime : UInt8
  q : Option Packet
deriving DecidableEq

def arpTableSize : ℕ := 10

def arpMaxage : UInt8 := 240

def arpMaxpending : UInt8 := 2

def arpAgeRerequestUsed : UInt8 := arpMaxage - 12

abbrev Table := ℕ → EtharpEntry

def EtharpState.isStable (state : EtharpState) : Bool := state = .stable || state = .stableRerequesting

/-- `etharp_free_entry`: the address stays in the entry. -/
def EtharpEntry.free (e : EtharpEntry) : EtharpEntry := { e with state := .empty, q := none }

/-- One entry in `etharp_tmr`. -/
def EtharpEntry.tick (e : EtharpEntry) : EtharpEntry :=
  if e.state = .empty then e
  else
    let e := { e with ctime := e.ctime + 1 }
    if arpMaxage ≤ e.ctime ∨ e.state = .pending ∧ arpMaxpending ≤ e.ctime then e.free
    else if e.state = .stableRerequesting then { e with state := .stable }
    else e

structure Candidates where
  empty : Option ℕ
  oldStable : Option ℕ
  oldPending : Option ℕ
  oldQueue : Option ℕ
  ageStable : UInt8
  agePending : UInt8
  ageQueue : UInt8

def Candidates.note (c : Candidates) (i : ℕ) (e : EtharpEntry) : Candidates :=
  match e.state with
  | .empty => if c.empty.isNone then { c with empty := some i } else c
  | .pending =>
    if e.q.isSome then
      if c.ageQueue ≤ e.ctime then { c with oldQueue := some i, ageQueue := e.ctime } else c
    else if c.agePending ≤ e.ctime then { c with oldPending := some i, agePending := e.ctime } else c
  | .stable | .stableRerequesting =>
    if c.ageStable ≤ e.ctime then { c with oldStable := some i, ageStable := e.ctime } else c

inductive Search where
  | hit (i : ℕ)
  | miss (c : Candidates)

/-- The loop of `etharp_find_entry` over `n` entries from `i` on. -/
def search (t : Table) (ipaddr : UInt32) : ℕ → ℕ → Candidates → Search
  | 0, _, c => .miss c
  | n + 1, i, c =>
    if (t i).state ≠ .empty ∧ (t i).ipaddr = ipaddr then .hit i else search t ipaddr n (i + 1) (c.note i (t i))

def Candidates.choose (c : Candidates) : Option ℕ :=
  c.empty.or (c.oldStable.or (c.oldPending.or c.oldQueue))

structure Entry where
  table : Table
  i : Option ℕ

/-- `etharp_find_entry`, with the flag to try hard or else the one to find only. -/
def etharpFindEntry (t : Table) (ipaddr : UInt32) (tryHard : Bool) : Entry :=
  match search t ipaddr arpTableSize 0 ⟨none, none, none, none, 0, 0, 0⟩ with
  | .hit i => ⟨t, some i⟩
  | .miss c =>
    if !tryHard then ⟨t, none⟩
    else
      match c.choose with
      | none => ⟨t, none⟩
      | some i =>
        let e := if c.empty.isSome then t i else (t i).free
        ⟨Function.update t i { e with ipaddr := ipaddr, ctime := 0 }, some i⟩

structure Sent where
  packet : Packet
  ethaddr : UInt64
  after : ℕ

/-- The ARP table and `etharp_cached_entry`. The last fields record the pairs of addresses that ARP messages claimed
and the packets that were sent, each with the number of claims before it. -/
structure ArpState where
  table : Table
  cachedEntry : ℕ
  claims : List (UInt32 × UInt64)
  sent : List Sent

namespace ArpState

variable (s : ArpState)

def send (p : Packet) (ethaddr : UInt64) : ArpState := { s with sent := s.sent ++ [⟨p, ethaddr, s.claims.length⟩] }

def etharpTmr : ArpState := { s with table := fun i => (s.table i).tick }

/-- `etharp_update_arp_entry` for a unicast address. -/
def etharpUpdateArpEntry (ipaddr : UInt32) (ethaddr : UInt64) (tryHard : Bool) : ArpState :=
  let s := { s with claims := s.claims ++ [(ipaddr, ethaddr)] }
  let f := etharpFindEntry s.table ipaddr tryHard
  match f.i with
  | none => { s with table := f.table }
  | some i =>
    let e := f.table i
    let s := { s with
      table := Function.update f.table i { e with state := .stable, ethaddr := ethaddr, ctime := 0, q := none } }
    match e.q with
    | none => s
    | some p => s.send p ethaddr

/-- `etharp_output_to_arp_index`; `ok` says whether the ARP request can be sent. -/
def etharpOutputToArpIndex (p : Packet) (i : ℕ) (ok : Bool) : ArpState :=
  let e := s.table i
  let s := if e.state = .stable ∧ arpAgeRerequestUsed ≤ e.ctime ∧ ok then
      { s with table := Function.update s.table i { e with state := .stableRerequesting } }
    else s
  s.send p e.ethaddr

/-- `etharp_query` with a packet; `copy` says whether the packet can be taken over into the queue. -/
def etharpQuery (p : Packet) (copy : Bool) : ArpState :=
  let f := etharpFindEntry s.table p.dst true
  match f.i with
  | none => { s with table := f.table }
  | some i =>
    let e := f.table i
    if e.state.isStable then { s with table := f.table, cachedEntry := i }.send p e.ethaddr
    else
      let e := { e with state := .pending }
      { s with table := Function.update f.table i (if copy then { e with q := some p } else e) }

/-- The search for a stable entry in `etharp_output`. -/
def findStable (dst : UInt32) : Option ℕ :=
  (List.range arpTableSize).find? fun i => (s.table i).state.isStable && (s.table i).ipaddr == dst

/-- `etharp_output` for a unicast address, from the next hop on. -/
def etharpOutput (p : Packet) (ok copy : Bool) : ArpState :=
  if (s.table s.cachedEntry).state.isStable ∧ (s.table s.cachedEntry).ipaddr = p.dst then
    s.etharpOutputToArpIndex p s.cachedEntry ok
  else
    match s.findStable p.dst with
    | some i => { s with cachedEntry := i }.etharpOutputToArpIndex p i ok
    | none => s.etharpQuery p copy

end ArpState

inductive ArpEvent where
  | tmr
  | arp (sipaddr : UInt32) (shwaddr : UInt64) (forUs : Bool)
  | output (p : Packet) (ok copy : Bool)

-- each call runs to its end: an interrupt with an ARP message or a tick inside `etharp_output` is not a step here
def arpStep (s : ArpState) : ArpEvent → ArpState
  | .tmr => s.etharpTmr
  | .arp sipaddr shwaddr forUs => s.etharpUpdateArpEntry sipaddr shwaddr forUs
  | .output p ok copy => s.etharpOutput p ok copy

def initArp : ArpState := ⟨fun _ => ⟨.empty, 0, 0, 0, none⟩, 0, [], []⟩

def arpMachine : Machine ArpState ArpEvent where
  enabled _ _ := True
  step := arpStep

end LogoCore.Arp
