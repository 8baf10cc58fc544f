import LogoCore.GenerationCounter
import LogoCore.Iteration

namespace LogoCore.Ethernet

/-- Where the sketch stands in `accept()`: outside it, or before the access to the slot that gives the
constructor its name. `left` are the slots the loop has yet to visit. -/
inductive AcceptPoint where
  | idle
  | port (left : List Slot)
  | claimed (i : Slot) (left : List Slot)
  | cpcb (i : Slot) (left : List Slot)
  | state (i : Slot) (left : List Slot) (cpcb : PcbPtr)
  | claim (i : Slot)
  | mode (i : Slot)
  | generation (i : Slot)
deriving DecidableEq

/-- `object` and `mem` are the storage of the handle that the call returns. `conn` numbers the
connections that `do_accept` put in the slots, and `returned` lists the handles returned so far, each
with the connection that was in its slot when the handle was complete. -/
structure Acceptor where
  world : World
  point : AcceptPoint
  object : ObjId
  mem : Client
  conn : Slot → Option ℕ
  count : ℕ
  returned : List (EthernetClient × Option ℕ)

/-- `freed` is what a control block holds as its state after lwIP has freed it. -/
inductive AcceptEvent where
  | event (e : Event)
  | call (h : ObjId) (mem : Client)
  | advance (freed : TcpState)

def Event.interrupt : Event → Bool
  | .accept _ _ | .data _ _ | .fin _ _ | .error _ | .poll _ _ | .progress _ _ _ _ _ | .reap _ => true
  | _ => false

namespace Acceptor

def initial (g : UInt16) : Acceptor := ⟨.initial g, .idle, 0, .zero, fun _ => none, 0, []⟩

def handed (x : Acceptor) : List ℕ := x.returned.filterMap Prod.snd

def clients (x : Acceptor) : Slots := x.world.server.clients

def setSlot (x : Acceptor) (i : Slot) (s : Client) : Acceptor :=
  { x with world := x.world.setClients (Function.update x.clients i s, x.world.net) }

def finish (x : Acceptor) (e : EthernetClient) (c : Option ℕ) : Acceptor :=
  { x with
    world := { x.world with objs := Function.update x.world.objs x.object (some e) }
    point := .idle
    returned := x.returned ++ [(e, c)] }

def advance (x : Acceptor) (freed : TcpState) : Acceptor :=
  match x.point with
  | .idle => x
  | .port [] => x.finish (EthernetServer.handle x.clients x.mem none).1 none
  | .port (i :: left) =>
    if (x.clients i).port = 0 then { x with point := .port left } else { x with point := .claimed i left }
  | .claimed i left =>
    if (x.clients i).claimed then { x with point := .port left } else { x with point := .cpcb i left }
  | .cpcb i left =>
    match (x.clients i).cpcb with
    | none => { x with point := .port left }
    | some cpcb => { x with point := .state i left cpcb }
  | .state i left cpcb =>
    if (x.world.net.pcbs cpcb).elim freed Pcb.state = .established then { x with point := .claim i }
    else { x with point := .port left }
  | .claim i => { x.setSlot i { x.clients i with claimed := true } with point := .mode i }
  | .mode i => { x.setSlot i { x.clients i with mode := false } with point := .generation i }
  | .generation i => x.finish ⟨x.mem, true, .slot i, (x.clients i).generation⟩ (x.conn i)

def step (x : Acceptor) : AcceptEvent → Acceptor
  | .event e =>
    match x.world.accepted e with
    | none => { x with world := x.world.step e }
    | some i =>
      { x with
        world := x.world.step e, conn := Function.update x.conn i (some x.count), count := x.count + 1 }
  | .call h mem => { x with point := .port (List.finRange maxClients), object := h, mem := mem }
  | .advance freed => x.advance freed

/-- The callbacks run at any point. The sketch does one thing at a time, and calls `accept()` only through
its steps. -/
def Enabled (x : Acceptor) : AcceptEvent → Prop
  | .event e => x.world.Enabled e ∧ (e.interrupt ∨ x.point = .idle ∧ ∀ h mem, e ≠ .serverAccept h mem)
  | .call _ _ => x.point = .idle
  | .advance _ => True

end Acceptor

def acceptMachine : Machine Acceptor AcceptEvent := ⟨Acceptor.Enabled, Acceptor.step⟩

/-- A call of `accept()` that no callback interrupts. -/
def acceptCall (k : ObjId × Client) : List AcceptEvent :=
  .call k.1 k.2 :: List.replicate (4 * maxClients + 4) (.advance .closed)

namespace Acceptor

def Claimable (x : Acceptor) (i : Slot) : Bool :=
  !decide ((x.clients i).port = 0) && !(x.clients i).claimed &&
    EthernetServer.established x.clients x.world.net i

theorem advance_slot (x : Acceptor) (i : Slot) (left : List Slot) :
    ∃ n, 1 ≤ n ∧ n ≤ 4 ∧ (fun y => advance y .closed)^[n] { x with point := .port (i :: left) } =
      { x with point := if x.Claimable i then .claim i else .port left } := by
  by_cases hport : (x.clients i).port = 0
  · refine ⟨1, le_refl 1, by omega, ?_⟩
    simp only [clients] at hport
    simp [advance, Claimable, clients, hport]
  by_cases hclaimed : (x.clients i).claimed = true
  · refine ⟨2, by omega, by omega, ?_⟩
    simp only [clients] at hport hclaimed
    simp [advance, Claimable, clients, hport, hclaimed]
  cases hcpcb : (x.clients i).cpcb with
  | none =>
    refine ⟨3, by omega, by omega, ?_⟩
    simp only [clients] at hport hclaimed hcpcb
    simp [advance, Claimable, EthernetServer.established, clients, hport, hclaimed, hcpcb]
  | some p =>
    refine ⟨4, by omega, by omega, ?_⟩
    simp only [clients] at hport hclaimed hcpcb
    cases hb : x.world.net.pcbs p with
    | none => simp [advance, Claimable, EthernetServer.established, clients, hport, hclaimed, hcpcb, hb]
    | some b =>
      by_cases hs : b.state = .established
      · simp [advance, Claimable, EthernetServer.established, clients, hport, hclaimed, hcpcb, hb, hs]
      · simp [advance, Claimable, EthernetServer.established, clients, hport, hclaimed, hcpcb, hb, hs]

/-- What `accept()` does once the loop is over: it found slot `i`, or none. -/
def complete (x : Acceptor) : Option Slot → Acceptor
  | none => x.finish (EthernetServer.handle x.clients x.mem none).1 none
  | some i =>
    (x.setSlot i { x.clients i with claimed := true, mode := false }).finish
      ⟨x.mem, true, .slot i, (x.clients i).generation⟩ (x.conn i)

theorem advance_claim (x : Acceptor) (i : Slot) :
    (fun y => advance y .closed)^[3] { x with point := .claim i } = x.complete (some i) := by
  simp [advance, complete, finish, setSlot, clients, World.setClients]

theorem advance_loop (x : Acceptor) (left : List Slot) :
    ∃ n ≤ 4 * left.length + 4, (fun y => advance y .closed)^[n] { x with point := .port left } =
      x.complete (left.find? x.Claimable) := by
  induction left with
  | nil => exact ⟨1, by simp, rfl⟩
  | cons i left ih =>
    obtain ⟨n, -, hn, htest⟩ := advance_slot x i left
    by_cases hi : x.Claimable i = true
    · refine ⟨3 + n, by simp only [List.length_cons]; omega, ?_⟩
      rw [Function.iterate_add_apply, htest, if_pos hi, advance_claim, List.find?_cons_of_pos hi]
    · obtain ⟨m, hm, hloop⟩ := ih
      refine ⟨m + n, by simp only [List.length_cons]; omega, ?_⟩
      rw [Function.iterate_add_apply, htest, if_neg hi, hloop, List.find?_cons_of_neg hi]

theorem run_advance (x : Acceptor) (n : ℕ) :
    acceptMachine.run x (List.replicate n (.advance .closed)) = (fun y => advance y .closed)^[n] x := by
  induction n generalizing x with
  | zero => rfl
  | succ n ih => rw [List.replicate_succ, Machine.run_cons, ih]; rfl

theorem acceptCall_legal {x : Acceptor} (hx : x.point = .idle) (k : ObjId × Client) :
    acceptMachine.Legal x (acceptCall k) := by
  have hadvance (n : ℕ) (y : Acceptor) : acceptMachine.Legal y (List.replicate n (.advance .closed)) := by
    induction n generalizing y with
    | zero => trivial
    | succ n ih => exact ⟨trivial, ih _⟩
  exact ⟨hx, hadvance _ _⟩

theorem run_acceptCall (x : Acceptor) (h : ObjId) (mem : Client) :
    acceptMachine.run x (acceptCall (h, mem)) =
      { x with
        world := x.world.step (.serverAccept h mem), point := .idle, object := h, mem := mem
        returned := x.returned ++ [((x.world.server.accept x.world.net mem).1,
          (EthernetServer.unclaimed x.clients x.world.net).bind x.conn)] } := by
  have hfixed (o : Option Slot) (y : Acceptor) :
      Function.IsFixedPt (fun y => advance y .closed) (y.complete o) := by
    cases o <;> rfl
  set y : Acceptor := { x with object := h, mem := mem } with hy
  obtain ⟨n, hn, hloop⟩ := advance_loop y (List.finRange maxClients)
  have hcall : acceptMachine.run x (acceptCall (h, mem)) =
      y.complete (EthernetServer.unclaimed x.clients x.world.net) := by
    rw [acceptCall, Machine.run_cons, run_advance]
    change (fun y => advance y .closed)^[_] { y with point := .port (List.finRange maxClients) } = _
    rw [Iteration.iterate_eq_of_fixed (hloop ▸ hfixed _ y) (by simpa using hn), hloop]
    rfl
  rw [hcall]
  simp only [World.step, EthernetServer.accept, clients]
  cases hu : EthernetServer.unclaimed x.world.server.clients x.world.net with
  | none => rfl
  | some i =>
    simp only [complete, finish, setSlot, clients, EthernetServer.handle, World.setClients, hy,
      Function.update_self, Function.update_idem, Option.bind_some]

end Acceptor

end LogoCore.Ethernet
