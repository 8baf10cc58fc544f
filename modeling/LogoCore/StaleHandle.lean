import LogoCore.ServerRuns

namespace LogoCore.Ethernet

def ClientOp.closedValue : ClientOp → Value
  | .available => .int 0
  | .availableForWrite => .int 0
  | .port => .int 0
  | .read => .int (-1)
  | .readBuf _ => .buf (-1) []
  | .peek => .int (-1)
  | .write _ _ => .size (some 0)
  | .writeBuf _ _ => .size (some 0)
  | .flush => .unit
  | .connected => .bool false
  | .status => .state .closed
  | .toBool => .bool false
  | .stop _ => .unit

def ClientOp.isStop : ClientOp → Bool
  | .stop _ => true
  | _ => false

namespace Conn

theorem available_stale {c : Conn} (h : c.stale = true) : c.available = 0 := by simp [available, h]

theorem status_stale {c : Conn} (h : c.stale = true) : c.status = .closed := by simp [status, h]

theorem perform_stale {c : Conn} (h : c.stale = true) (op : ClientOp) :
    c.perform op = (op.closedValue, if op.isStop then c.setConnected false else c) := by
  have ha := available_stale h
  have hs := status_stale h
  cases op <;> simp [perform, ClientOp.closedValue, ClientOp.isStop, availableForWrite, port, read,
    readLocked, readBuf, peek, write, flush, connected, toBool, stop, h, ha, hs]

end Conn

namespace World

def calls (w : World) (k : ObjId) : List ClientOp → List Value × World
  | [] => ([], w)
  | op :: ops =>
    match w.objs k with
    | none => ([], w)
    | some e =>
      let r := (w.conn e).perform op
      let rest := (w.put k r.2).calls k ops
      (r.1 :: rest.1, rest.2)

theorem calls_run (w : World) (k : ObjId) (ops : List ClientOp) :
    (w.calls k ops).2 = serverMachine.run w (ops.map (.call k)) := by
  induction ops generalizing w with
  | nil => rfl
  | cons op ops ih =>
    cases h : w.objs k with
    | none =>
      have hstep : w.step (.call k op) = w := by simp [step, h]
      rw [List.map_cons, Machine.run_cons]
      change _ = serverMachine.run (w.step (.call k op)) _
      rw [hstep, ← ih]
      cases ops <;> simp [calls, h]
    | some e =>
      rw [List.map_cons, Machine.run_cons]
      change _ = serverMachine.run (w.step (.call k op)) _
      simp [calls, step, h, ih]

theorem calls_stale (w : World) (k : ObjId) (e : EthernetClient) (he : w.objs k = some e)
    (hs : (w.conn e).stale = true) (ops : List ClientOp) :
    (w.calls k ops).1 = ops.map ClientOp.closedValue ∧
      (w.calls k ops).2.server = w.server ∧ (w.calls k ops).2.net = w.net ∧
      (w.calls k ops).2.objs =
        Function.update w.objs k (some { e with connected := e.connected && !ops.any ClientOp.isStop }) := by
  induction ops generalizing w e with
  | nil =>
    refine ⟨rfl, rfl, rfl, ?_⟩
    simp only [calls, List.any_nil, Bool.not_false, Bool.and_true]
    rw [← he, Function.update_eq_self]
  | cons op ops ih =>
    let e' : EthernetClient := { e with connected := e.connected && !op.isStop }
    have hput : w.put k ((w.conn e).perform op).2 =
        { w with objs := Function.update w.objs k (some e') } := by
      rw [Conn.perform_stale hs]
      cases op <;> simp [ClientOp.isStop, e', put, conn, setClients, Conn.setConnected]
    obtain ⟨hv, hsrv, hnet, hobj⟩ := ih { w with objs := Function.update w.objs k (some e') } e' (by simp) hs
    have hval : ((w.conn e).perform op).1 = op.closedValue := by rw [Conn.perform_stale hs]
    simp only [calls, he, hput, hval, hv, hsrv, hnet, hobj]
    simp [e', Bool.and_assoc]

theorem stale_handle_closed (w : World) (k : ObjId) (e : EthernetClient) (he : w.objs k = some e)
    (hs : (w.conn e).stale = true) (ops : List ClientOp) :
    let w' := serverMachine.run w (ops.map (.call k))
    (w.calls k ops).1 = ops.map ClientOp.closedValue ∧ w'.server = w.server ∧ w'.net = w.net ∧
      w'.objs =
        Function.update w.objs k (some { e with connected := e.connected && !ops.any ClientOp.isStop }) := by
  intro w'
  have hw : w' = (w.calls k ops).2 := (calls_run w k ops).symm
  rw [hw]
  exact calls_stale w k e he hs ops

theorem stale_handle_closed_recycled :
    let w := serverMachine.run (.initial 0)
      [.accept 7 50000, .serverAccept 0 .zero, .error 7, .accept 9 50001]
    (w.calls 0 [.read, .stop .ok, .connected]).1 = [.int (-1), .unit, .bool false] :=
  (stale_handle_closed _ 0 ⟨.zero, true, .slot 0, 1⟩ rfl (by decide) [.read, .stop .ok, .connected]).1

end World

end LogoCore.Ethernet
