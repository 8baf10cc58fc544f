import LogoCore.WriteAccesses

namespace LogoCore.Ethernet

namespace WriteCall

variable {x : WriteCall} {p : PcbPtr}

structure Frame (x y : WriteCall) : Prop where
  self : y.conn.self = x.conn.self
  clients : y.conn.clients = x.conn.clients
  buf : y.buf = x.buf
  live : ∀ p, y.live p = x.live p

theorem frame_advance (x : WriteCall) (err : Err) : Frame x (x.advance err) := by
  have hwrite (q : PcbPtr) (i : ℕ) (err : Err) (pt : WritePoint) : Frame x (x.tcpWrite q i err pt) :=
    ⟨rfl, rfl, rfl, fun p => live_tcpWrite _ _ _ _ p⟩
  have houtput (q : PcbPtr) (pt : WritePoint) : Frame x (x.tcpOutput q pt) := ⟨rfl, rfl, rfl, fun _ => rfl⟩
  have hmove (pt : WritePoint) : Frame x { x with point := pt } := ⟨rfl, rfl, rfl, fun _ => rfl⟩
  unfold advance
  split
  · exact hmove _
  · exact hmove _
  · split_ifs
    · exact hwrite _ _ _ _
    · exact hwrite _ _ _ _
    · exact hwrite _ _ _ _
    · exact houtput _ _
    · exact hmove _
  · exact houtput _ _
  · exact hmove _
  · exact hmove _

theorem Frame.cs {y : WriteCall} (h : Frame x y) : y.conn.cs = x.conn.cs := by
  simp only [Conn.cs, h.self, h.clients]

inductive Moves (x y : WriteCall) : Prop
  | early (hx : x.point.early = true) (hu : y.uses = x.uses) (hy : y.point.early = true)
  | refused (hx : x.point.early = true) (hu : y.uses = x.uses) (hown : x.conn.self.cs = .own → x.conn.cs.cpcb = none)
      (hy : y.point.copy = none ∧ y.point.early = false)
  | loaded (p : PcbPtr) (hx : x.point.early = true) (hu : y.uses = x.uses) (hp : x.conn.cs.cpcb = some p)
      (hy : y.point.copy = some p ∧ y.point.early = false)
  | used (p : PcbPtr) (hx : x.point.copy = some p ∧ x.point.early = false) (hu : y.uses = x.uses ++ [(p, x.live p)])
      (hy : y.point.early = false ∧ (y.point.copy = some p ∨ y.point.copy = none))
  | waited (p : PcbPtr) (hx : x.point.copy = some p ∧ x.point.early = false) (hu : y.uses = x.uses)
      (hy : y.point.copy = some p ∧ y.point.early = false)
  | done (hx : x.point.copy = none ∧ x.point.early = false) (hu : y.uses = x.uses)
      (hy : y.point.copy = none ∧ y.point.early = false)

/-- The flag `stuffed_buffer` is set only while there is something left to write. -/
def Unfinished (x : WriteCall) : Prop :=
  match x.point with
  | .loop _ i stuffed => stuffed = true → i < x.buf.length
  | .output _ i | .delay _ i => i < x.buf.length
  | _ => True

theorem unfinished_advance (h : x.Unfinished) (err : Err) : (x.advance err).Unfinished := by
  obtain ⟨conn, buf, point, uses⟩ := x
  cases point with
  | entry =>
    simp only [advance, Unfinished]
    split_ifs <;> trivial
  | load =>
    simp only [advance, Unfinished]
    cases conn.cs.cpcb <;> simp
  | loop cpcb i stuffed =>
    simp only [advance]
    split_ifs with hi <;> simp [tcpWrite, tcpOutput, call, Unfinished, hi]
  | output cpcb i => exact fun _ => h
  | delay cpcb i => exact fun _ => h
  | returned n => trivial

theorem moves_advance (h : x.Unfinished) (err : Err) : Moves x (x.advance err) := by
  obtain ⟨conn, buf, point, uses⟩ := x
  cases point with
  | entry =>
    by_cases hs : conn.stale = true
    · refine .refused rfl rfl (fun hown => ?_) ?_
      · simp [Conn.stale, show conn.self.cs = .own from hown] at hs
      · simp [advance, hs, WritePoint.copy, WritePoint.early]
    · refine .early rfl rfl ?_
      simp [advance, hs, WritePoint.early]
  | load =>
    cases hc : conn.cs.cpcb with
    | none =>
      refine .refused rfl rfl (fun _ => hc) ?_
      simp [advance, hc, WritePoint.copy, WritePoint.early]
    | some p =>
      refine .loaded p rfl rfl hc ?_
      simp [advance, hc, WritePoint.copy, WritePoint.early]
  | loop cpcb i stuffed =>
    have hx : (WritePoint.loop cpcb i stuffed).copy = some cpcb ∧ (WritePoint.loop cpcb i stuffed).early = false :=
      ⟨rfl, rfl⟩
    simp only [advance]
    split_ifs with hi herr hst hst
    · exact .used cpcb hx rfl ⟨rfl, .inl rfl⟩
    · exact .used cpcb hx rfl ⟨rfl, .inl rfl⟩
    · exact .used cpcb hx rfl ⟨rfl, .inl rfl⟩
    · exact .used cpcb hx rfl ⟨rfl, .inr rfl⟩
    · refine absurd (h ?_) hi
      simpa using hst
  | output cpcb i => exact .used cpcb ⟨rfl, rfl⟩ rfl ⟨rfl, .inl rfl⟩
  | delay cpcb i => exact .waited cpcb ⟨rfl, rfl⟩ rfl ⟨rfl, rfl⟩
  | returned n => exact .done ⟨rfl, rfl⟩ rfl ⟨rfl, rfl⟩

/-- The call has used only control blocks in use, and the one it works on, or will work on, is in use. -/
structure Sound (x : WriteCall) : Prop where
  uses : ∀ u ∈ x.uses, u.2 = true
  copy : ∀ p, x.point.copy = some p → x.conn.cs.cpcb = some p ∧ x.live p = true
  early : x.point.early = true → ∀ p, x.conn.cs.cpcb = some p → x.live p = true

def Doomed (x : WriteCall) : Prop :=
  (∃ u ∈ x.uses, u.2 = false) ∨
    ∃ p, x.live p = false ∧
      (x.point.copy = some p ∨ x.point.early = true ∧ x.conn.self.cs = .own ∧ x.conn.cs.cpcb = some p)

theorem sound_advance (h : x.Sound) (hu : x.Unfinished) (err : Err) : (x.advance err).Sound := by
  have hf := x.frame_advance err
  cases moves_advance hu err with
  | early hx huses hy =>
    refine ⟨by rw [huses]; exact h.uses, by simp [WritePoint.copy_of_early hy], fun _ p hp => ?_⟩
    rw [hf.cs] at hp
    rw [hf.live]
    exact h.early hx p hp
  | refused hx huses _ hy => exact ⟨by rw [huses]; exact h.uses, by simp [hy.1], by simp [hy.2]⟩
  | loaded p hx huses hp hy =>
    refine ⟨by rw [huses]; exact h.uses, fun q hq => ?_, by simp [hy.2]⟩
    obtain rfl := Option.some.inj (hy.1.symm.trans hq)
    rw [hf.cs, hf.live]
    exact ⟨hp, h.early hx p hp⟩
  | used p hx huses hy =>
    refine ⟨fun u hmem => ?_, fun q hq => ?_, by simp [hy.1]⟩
    · rw [huses, List.mem_append, List.mem_singleton] at hmem
      obtain hmem | rfl := hmem
      · exact h.uses u hmem
      · exact (h.copy p hx.1).2
    · obtain hc | hc := hy.2
      · obtain rfl := Option.some.inj (hc.symm.trans hq)
        rw [hf.cs, hf.live]
        exact h.copy p hx.1
      · exact absurd (hc.symm.trans hq) (by simp)
  | waited p hx huses hy =>
    refine ⟨by rw [huses]; exact h.uses, fun q hq => ?_, by simp [hy.2]⟩
    obtain rfl := Option.some.inj (hy.1.symm.trans hq)
    rw [hf.cs, hf.live]
    exact h.copy p hx.1
  | done hx huses hy => exact ⟨by rw [huses]; exact h.uses, by simp [hy.1], by simp [hy.2]⟩

theorem doomed_advance (h : x.Doomed) (hu : x.Unfinished) (err : Err) : (x.advance err).Doomed := by
  have hf := x.frame_advance err
  obtain ⟨u, hmem, hfalse⟩ | ⟨p, hp, hcur⟩ := h
  · refine .inl ⟨u, ?_, hfalse⟩
    cases moves_advance hu err with
    | used p _ huses _ => rw [huses]; exact List.mem_append_left _ hmem
    | _ => simp_all
  · cases moves_advance hu err with
    | early hx huses hy =>
      obtain hcopy | ⟨_, hown, hc⟩ := hcur
      · exact absurd ((WritePoint.copy_of_early hx).symm.trans hcopy) (by simp)
      · exact .inr ⟨p, by rw [hf.live, hp], .inr ⟨hy, by rw [hf.self, hown], by rw [hf.cs, hc]⟩⟩
    | refused hx _ hown _ =>
      obtain hcopy | ⟨_, ho, hc⟩ := hcur
      · exact absurd ((WritePoint.copy_of_early hx).symm.trans hcopy) (by simp)
      · exact absurd (hc.symm.trans (hown ho)) (by simp)
    | loaded q hx _ hq hy =>
      obtain hcopy | ⟨_, _, hc⟩ := hcur
      · exact absurd ((WritePoint.copy_of_early hx).symm.trans hcopy) (by simp)
      · obtain rfl := Option.some.inj (hc.symm.trans hq)
        exact .inr ⟨p, by rw [hf.live, hp], .inl hy.1⟩
    | used q hx huses _ =>
      obtain hcopy | ⟨hearly, _⟩ := hcur
      · obtain rfl := Option.some.inj (hx.1.symm.trans hcopy)
        exact .inl ⟨(q, x.live q), by rw [huses]; simp, hp⟩
      · exact absurd (hx.2.symm.trans hearly) (by simp)
    | waited q hx _ hy =>
      obtain hcopy | ⟨hearly, _⟩ := hcur
      · obtain rfl := Option.some.inj (hx.1.symm.trans hcopy)
        exact .inr ⟨q, by rw [hf.live, hp], .inl hy.1⟩
      · exact absurd (hx.2.symm.trans hearly) (by simp)
    | done hx _ _ =>
      obtain hcopy | ⟨hearly, _⟩ := hcur
      · exact absurd (hx.1.symm.trans hcopy) (by simp)
      · exact absurd (hx.2.symm.trans hearly) (by simp)

theorem sound_error (h : x.Sound) (hx : ¬ x.Exposed) (p : PcbPtr) : (x.step (.error p)).Sound := by
  obtain ⟨hcopy, hown⟩ := not_or.mp hx
  refine ⟨h.uses, fun q hq => ?_, fun hearly q hq => ?_⟩
  · exact absurd ((not_not.mp hcopy).symm.trans hq) (by simp)
  · have hslot : x.conn.self.cs ≠ .own := fun ho => hown ⟨hearly, ho⟩
    have hnone : (x.conn.lose p).cs.cpcb = none := Conn.lose_slot hslot
    exact absurd (hnone.symm.trans hq) (by simp)

theorem doomed_of_exposed (h : x.Sound) (he : x.Enabled (.error p)) (hx : x.Exposed) :
    (x.step (.error p)).Doomed := by
  have hdead : (x.step (.error p)).live p = false := by
    rw [live, step, Conn.lose_pcbs, if_pos rfl]
  refine .inr ⟨p, hdead, ?_⟩
  obtain hcopy | ⟨hearly, hown⟩ := hx
  · obtain ⟨q, hq⟩ := Option.ne_none_iff_exists'.mp hcopy
    obtain rfl := Option.some.inj (he.1.symm.trans (h.copy q hq).1)
    exact .inl hq
  · exact .inr ⟨hearly, (x.conn.lose_ptr p).trans hown, (Conn.lose_own hown).trans he.1⟩

theorem doomed_error (h : x.Doomed) (p : PcbPtr) : (x.step (.error p)).Doomed := by
  obtain huse | ⟨q, hq, hcur⟩ := h
  · exact .inl huse
  · refine .inr ⟨q, ?_, ?_⟩
    · rw [live, step, Conn.lose_pcbs]
      split_ifs
      · rfl
      · exact hq
    · obtain hcopy | ⟨hearly, hown, hc⟩ := hcur
      · exact .inl hcopy
      · exact .inr ⟨hearly, (x.conn.lose_ptr p).trans hown, (Conn.lose_own hown).trans hc⟩

theorem unfinished_step (h : x.Unfinished) (e : WriteEvent) : (x.step e).Unfinished := by
  cases e with
  | advance err => exact unfinished_advance h err
  | error p => exact h

theorem doomed_step (h : x.Doomed ∧ x.Unfinished) (e : WriteEvent) : (x.step e).Doomed ∧ (x.step e).Unfinished := by
  refine ⟨?_, unfinished_step h.2 e⟩
  cases e with
  | advance err => exact doomed_advance h.1 h.2 err
  | error p => exact doomed_error h.1 p

theorem settled_step (h : (x.Sound ∨ x.Doomed) ∧ x.Unfinished) {e : WriteEvent} (he : x.Enabled e) :
    ((x.step e).Sound ∨ (x.step e).Doomed) ∧ (x.step e).Unfinished := by
  refine ⟨?_, unfinished_step h.2 e⟩
  obtain hs | hd := h.1
  · cases e with
    | advance err => exact .inl (sound_advance hs h.2 err)
    | error p =>
      by_cases hx : x.Exposed
      · exact .inr (doomed_of_exposed hs he hx)
      · exact .inl (sound_error hs hx p)
  · exact .inr (doomed_step ⟨hd, h.2⟩ e).1

theorem sound_start {c : Conn} (hc : ∀ p, c.cs.cpcb = some p → (c.net.pcbs p).isSome) (buf : List UInt8) :
    (start c buf).Sound ∧ (start c buf).Unfinished :=
  ⟨⟨by simp [start], by simp [start, WritePoint.copy], fun _ p hp => hc p hp⟩, trivial⟩

theorem uses_of_doomed {n : ℕ} (h : x.Doomed) (hret : x.point = .returned n) : ∃ u ∈ x.uses, u.2 = false := by
  obtain huse | ⟨p, -, hcur⟩ := h
  · exact huse
  · simp [hret, WritePoint.copy, WritePoint.early] at hcur

end WriteCall

/-- A call of `write` that returns has passed no freed control block to lwIP exactly when the connection was
not lost while the call held, or was going to take, a pointer that the error callback does not clear. -/
theorem write_survives_error_iff (c : Conn) (buf : List UInt8)
    (hc : ∀ p, c.cs.cpcb = some p → (c.net.pcbs p).isSome) (es : List WriteEvent)
    (hl : writeMachine.Legal (.start c buf) es) (n : ℕ)
    (hret : (writeMachine.run (.start c buf) es).point = .returned n) :
    (∀ u ∈ (writeMachine.run (.start c buf) es).uses, u.2 = true) ↔
      ∀ fs p gs, es = fs ++ .error p :: gs → ¬ (writeMachine.run (.start c buf) fs).Exposed := by
  obtain ⟨hsound, hunf⟩ := WriteCall.sound_start hc buf
  constructor
  · rintro hall fs p gs rfl hx
    obtain ⟨hfs, he, hgs⟩ := (writeMachine.legal_append _ _ _).mp hl
    obtain ⟨hset, hunf'⟩ := Machine.invariant (M := writeMachine)
      (I := fun x => (x.Sound ∨ x.Doomed) ∧ x.Unfinished) (fun _ _ he h => WriteCall.settled_step h he)
      ⟨.inl hsound, hunf⟩ hfs
    have hdoomed : ((writeMachine.run (.start c buf) fs).step (.error p)).Doomed := by
      obtain hs | hd := hset
      · exact WriteCall.doomed_of_exposed hs he hx
      · exact WriteCall.doomed_error hd p
    have hend := Machine.invariant (M := writeMachine) (I := fun x => x.Doomed ∧ x.Unfinished)
      (fun _ e _ h => WriteCall.doomed_step h e) ⟨hdoomed, WriteCall.unfinished_step hunf' (.error p)⟩ hgs
    rw [Machine.run_append, Machine.run_cons] at hall hret
    obtain ⟨u, hu, hfalse⟩ := WriteCall.uses_of_doomed hend.1 hret
    exact absurd (hall u hu) (by rw [hfalse]; simp)
  · intro hsafe
    have hmeets : (Machine.mk (fun x e => ∀ p, e = .error p → ¬ x.Exposed) writeMachine.step).Legal
        (.start c buf) es :=
      Machine.legal_iff_splits.mpr fun fs e gs hes p he => hsafe fs p gs (by rw [hes, he])
    have hend := Machine.invariant_under (M := writeMachine) (I := fun x => x.Sound ∧ x.Unfinished)
      (fun x e he hp h => ?_) ⟨hsound, hunf⟩ hl hmeets
    · exact hend.1.uses
    · refine ⟨?_, WriteCall.unfinished_step h.2 e⟩
      cases e with
      | advance err => exact WriteCall.sound_advance h.1 h.2 err
      | error p => exact WriteCall.sound_error h.1 (hp p rfl) p

def Conn.established : Conn :=
  { Conn.accepted with
    net := ⟨fun p => if p = 7 then some (acceptedPcb 50000) else none, []⟩ }

theorem Conn.established_live (p : PcbPtr) (h : Conn.established.cs.cpcb = some p) :
    (Conn.established.net.pcbs p).isSome := by
  obtain rfl : 7 = p := Option.some.inj h
  decide

theorem write_survives_early_error :
    let es : List WriteEvent := [.advance .ok, .error 7, .advance .ok]
    ∀ u ∈ (writeMachine.run (.start .established [1]) es).uses, u.2 = true := by
  intro es
  refine (write_survives_error_iff .established [1] Conn.established_live es (by decide) 0 (by decide)).mpr ?_
  have hsplit : ∀ fs p gs, es = fs ++ .error p :: gs → fs = [.advance .ok] := by
    rintro (_ | ⟨a, _ | ⟨b, _ | ⟨d, fs⟩⟩⟩) p gs h <;> simp_all [es]
  intro fs p gs h
  rw [hsplit fs p gs h]
  decide

/-- The connection is lost after a `tcp_write` that returned `ERR_MEM`; the next one gets the freed
control block. -/
theorem write_uses_freed_pcb :
    let es : List WriteEvent := [.advance .ok, .advance .ok, .advance .mem, .advance .ok, .error 7, .advance .ok,
      .advance .ok]
    writeMachine.Legal (.start .established [1]) es ∧
      (writeMachine.run (.start .established [1]) es).point = .returned 1 ∧
      (writeMachine.run (.start .established [1]) es).uses = [(7, true), (7, true), (7, false), (7, false)] := by
  refine ⟨by decide, by decide, by decide⟩

end LogoCore.Ethernet
