import LogoCore.GenerationCounter

namespace LogoCore.Ethernet

def ClaimsKept (c d : Slots) : Prop := ∀ i, (d i).claimed = (c i).claimed

theorem ClaimsKept.refl (c : Slots) : ClaimsKept c c := fun _ => rfl

theorem ClaimsKept.trans {c d e : Slots} (h : ClaimsKept c d) (h' : ClaimsKept d e) : ClaimsKept c e :=
  fun i => (h' i).trans (h i)

theorem claimsKept_update (c : Slots) (i : Slot) (s : Client) (hs : s.claimed = (c i).claimed) :
    ClaimsKept c (Function.update c i s) := by
  intro j
  by_cases hj : j = i
  · subst j; rw [Function.update_self, hs]
  · rw [Function.update_of_ne hj]

namespace Conn

theorem claimsKept_setCs (c : Conn) (s : Client) (hs : s.claimed = c.cs.claimed) :
    ClaimsKept c.clients (c.setCs s).clients := by
  cases h : c.self.cs with
  | own => simp [setCs, h, ClaimsKept.refl]
  | slot i =>
    simp only [cs, h] at hs
    simpa only [setCs, h] using claimsKept_update c.clients i s hs

theorem claimsKept_read (c : Conn) : ClaimsKept c.clients c.read.2.clients := by
  unfold read readLocked
  split_ifs
  · exact .refl _
  · obtain ⟨r, q, hs, -, -⟩ := takeByte_keeps c.cs c.net
    exact claimsKept_setCs c _ (by rw [hs])

theorem claimsKept_readLoop (left : ℕ) (c : Conn) : ClaimsKept c.clients (c.readLoop left).2.clients := by
  induction left generalizing c with
  | zero => exact .refl _
  | succ left ih =>
    unfold readLoop
    dsimp only
    split_ifs
    · exact claimsKept_read c
    · exact (claimsKept_read c).trans (ih _)

theorem claimsKept_flush (c : Conn) : ClaimsKept c.clients c.flush.clients := by
  have h := claimsKept_setCs c { c.cs with read := Chain.totLen c.cs.p } rfl
  unfold flush
  split_ifs
  · dsimp only
    split
    · exact h
    · exact h
  · exact .refl _

theorem write_clients (c : Conn) (buf : List UInt8) (outcomes : List Err) :
    (c.write buf outcomes).2.clients = c.clients := by
  unfold write
  split_ifs
  · rfl
  · split
    · rfl
    · split <;> rfl

theorem claimsKept_stop (c : Conn) (fin : Err) : ClaimsKept c.clients (c.stop fin).clients := by
  have h := claimsKept_setCs c { c.cs with cpcb := none, p := [], port := 0 } rfl
  unfold stop
  split_ifs
  · exact .refl _
  · dsimp only
    split
    · exact h
    · exact h

theorem claimsKept_perform (c : Conn) (op : ClientOp) : ClaimsKept c.clients (c.perform op).2.clients := by
  cases op with
  | read => exact claimsKept_read c
  | readBuf size =>
    simp only [perform, readBuf]
    split_ifs
    · exact .refl _
    · exact claimsKept_readLoop size c
  | write b outcomes => rw [perform, write_clients]; exact .refl _
  | writeBuf buf outcomes => rw [perform, write_clients]; exact .refl _
  | flush => exact claimsKept_flush c
  | stop fin => exact claimsKept_stop c fin
  | _ => exact .refl _

end Conn

namespace EthernetServer

theorem claimsKept_doClose (c : Slots) (n : Net) (arg : CallbackArg) (p : PcbPtr) (fin : Err) :
    ClaimsKept c (doClose c n arg p fin).1 := by
  unfold doClose
  dsimp only
  split
  · split
    · exact .refl _
    · exact claimsKept_update _ _ _ rfl
  · exact .refl _

theorem claimsKept_doRecv (c : Slots) (n : Net) (arg : CallbackArg) (p : PcbPtr) (q : Chain) (fin : Err) :
    ClaimsKept c (doRecv c n arg p q fin).2.1 := by
  unfold doRecv
  split_ifs
  · exact claimsKept_doClose c n arg p fin
  · split
    · dsimp only
      split_ifs
      · exact .refl _
      · exact claimsKept_update _ _ _ rfl
      · exact claimsKept_update _ _ _ rfl
    · exact .refl _

theorem claimsKept_doErr (c : Slots) (n : Net) (arg : CallbackArg) : ClaimsKept c (doErr c n arg).1 := by
  unfold doErr
  split
  · exact claimsKept_update _ _ _ rfl
  · exact .refl _

theorem claimsKept_handle (c : Slots) (mem : Client) (o : Option Slot) : ClaimsKept c (handle c mem o).2 := by
  cases o with
  | none => exact .refl _
  | some i => exact claimsKept_update _ _ _ rfl

theorem claimsKept_writeSlots (buf : List UInt8) (outcomes : Slot → List Err) (is : List Slot) (k : ℕ)
    (c : Slots) (n : Net) : ClaimsKept c (writeSlots buf outcomes is k c n).2.1 := by
  induction is generalizing k c n with
  | nil => exact .refl _
  | cons i is ih =>
    unfold writeSlots
    split_ifs
    · have hh := claimsKept_handle c .zero (some i)
      have hw := Conn.write_clients ⟨(handle c .zero (some i)).1, (handle c .zero (some i)).2, n⟩ buf (outcomes i)
      dsimp only
      split <;> rename_i he <;> rw [he] at hw <;> dsimp only at hw
      · rw [hw]; exact hh
      · rw [hw]; exact hh.trans (ih _ _ _)
    · exact ih k c n

end EthernetServer

theorem World.step_claimsKept {w : World} {e : Event} (h : w.accepted e = none)
    (hne : ∀ k mem, e ≠ .serverAccept k mem) :
    ClaimsKept w.server.clients (w.step e).server.clients := by
  cases e with
  | accept p port =>
    have hf : EthernetServer.freeSlot w.server.clients = none := h
    simp [step, accept, EthernetServer.doAccept, hf, ClaimsKept.refl]
  | data p c =>
    cases hb : w.net.pcbs p with
    | none => simp [step, hb, ClaimsKept.refl]
    | some b =>
      have hd := EthernetServer.claimsKept_doRecv w.server.clients (w.net.receive p (Chain.totLen c))
        b.callbackArg p c .ok
      simp only [step, hb, Option.elim_some, data]
      split <;> rename_i hr <;> rw [hr] at hd <;> exact hd
  | fin p err =>
    cases hb : w.net.pcbs p with
    | none => simp [step, hb, ClaimsKept.refl]
    | some b =>
      simp only [step, hb, Option.elim_some, fin]
      exact EthernetServer.claimsKept_doRecv _ _ _ _ _ _
  | error p =>
    cases hb : w.net.pcbs p with
    | none => simp [step, hb, ClaimsKept.refl]
    | some b =>
      simp only [step, hb, Option.elim_some, error]
      exact EthernetServer.claimsKept_doErr _ _ _
  | poll p err =>
    cases hb : w.net.pcbs p with
    | none => simp [step, hb, ClaimsKept.refl]
    | some b =>
      simp only [step, hb, Option.elim_some, poll]
      split_ifs <;> exact .refl _
  | progress p state refused rcvWnd sndBuf => exact .refl _
  | reap p => exact .refl _
  | serverAccept k mem => exact absurd rfl (hne k mem)
  | serverAvailable k mem => exact EthernetServer.claimsKept_handle _ _ _
  | serverWrite buf outcomes => exact EthernetServer.claimsKept_writeSlots _ _ _ _ _ _
  | call k op =>
    cases hk : w.objs k with
    | none => simp [step, hk, ClaimsKept.refl]
    | some e =>
      simp only [step, hk, Option.elim_some]
      exact Conn.claimsKept_perform (w.conn e) op
  | copy k k' => cases hk : w.objs k <;> simp [step, hk, ClaimsKept.refl]
  | destroy k => exact .refl _

end LogoCore.Ethernet
