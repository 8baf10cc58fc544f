import LogoCore.FinDelivery

namespace LogoCore.Ethernet

/-- What happens to a connection: calls and deliveries, a reported error, and the periodic poll. -/
inductive LinkEvent where
  | conn (e : ConnEvent)
  | error
  | poll (expired : Bool) (fin : Err)

namespace Conn

def fail (c : Conn) : Conn :=
  match c.self.cs with
  | .own => c.doErr
  | .slot i =>
    let r := EthernetServer.doErr c.clients c.net (.slot i)
    { c with clients := r.1, net := r.2 }

def polled (pcb : PcbPtr) (c : Conn) (expired : Bool) (fin : Err) : Conn :=
  match c.self.cs with
  | .own => c.doPoll pcb expired fin
  | .slot _ => { c with net := (EthernetServer.doPoll c.net pcb fin).2 }

def linkStep (pcb : PcbPtr) (c : Conn) : LinkEvent → Conn
  | .conn e => (c.step pcb e).2
  | .error => c.fail
  | .poll expired fin => c.polled pcb expired fin

/-- lwIP delivers chains with consistent lengths, among them ones with trimmed pbufs. `flush` is not
called, and `read(buf, n)` is the sequence of its `read` calls. -/
def LinkEnabled (pcb : PcbPtr) (c : Conn) : LinkEvent → Prop
  | .conn (.recv q) => c.cs.cpcb = some pcb ∧ q ≠ [] ∧ Chain.Linked q ∧ Chain.totLen c.cs.p + Chain.totLen q < 65536
  | .conn (.call .flush) | .conn (.call (.readBuf _)) => False
  | .conn (.call _) => True
  | .conn (.fin _) | .error | .poll _ _ => c.cs.cpcb = some pcb

instance (pcb : PcbPtr) (c : Conn) : (e : LinkEvent) → Decidable (c.LinkEnabled pcb e)
  | .conn (.recv _) => inferInstanceAs (Decidable (_ ∧ _ ∧ _ ∧ _))
  | .conn (.fin _) | .error | .poll _ _ => inferInstanceAs (Decidable (c.cs.cpcb = some pcb))
  | .conn (.call op) => match op with
    | .flush | .readBuf _ => isFalse id
    | .available | .availableForWrite | .port | .read | .peek | .write _ _ | .writeBuf _ _ | .connected | .status
    | .toBool | .stop _ => isTrue trivial

end Conn

def cursorMachine (pcb : PcbPtr) : Machine Conn LinkEvent := ⟨Conn.LinkEnabled pcb, Conn.linkStep pcb⟩

instance (pcb : PcbPtr) (c : Conn) (e : LinkEvent) : Decidable ((cursorMachine pcb).enabled c e) :=
  inferInstanceAs (Decidable (c.LinkEnabled pcb e))

namespace Conn

variable {pcb : PcbPtr} {c : Conn}

/-- The index that `readLocked` and `peek` use is inside the head pbuf. -/
def CursorInside (c : Conn) : Prop := 0 < c.available → ∃ p ∈ c.cs.p.head?, c.cs.read < p.len

/-- The event does not bring a pbuf of length 0 to the front while there is data behind it. -/
def FrontFilled (c : Conn) : LinkEvent → Prop
  | .conn (.recv d) => Chain.totLen d = 0 ∨ ∀ p ∈ (c.cs.p ++ d).head?, 0 < p.len
  | .conn (.call .read) => ∀ p ∈ c.cs.p.head?, c.cs.read + 1 = p.len →
      Chain.totLen c.cs.p.tail = 0 ∨ ∀ r ∈ c.cs.p.tail.head?, 0 < r.len
  | _ => True

structure Placed (pcb : PcbPtr) (c : Conn) : Prop where
  current : c.stale = false
  linked : Chain.Linked c.cs.p
  bound : Chain.totLen c.cs.p < 65536
  cursor : ∀ p ∈ c.cs.p.head?, c.cs.read < p.len ∨ c.cs.read = 0 ∧ Chain.totLen c.cs.p = 0
  empty : c.cs.cpcb = some pcb → c.cs.p = [] → c.cs.read = 0

theorem Fresh.placed (h : Fresh pcb c) : Placed pcb c := by
  refine ⟨h.current, ?_, ?_, ?_, fun _ _ => h.read⟩ <;> simp [h.p, Chain.Linked, Chain.totLen]

theorem Placed.available_eq (h : Placed pcb c) {p : Pbuf} {next : Chain} (hp : c.cs.p = p :: next) :
    c.available = (Chain.totLen c.cs.p : ℤ) - c.cs.read := by
  simp [available, h.current, hp]

theorem Placed.inside (h : Placed pcb c) : c.CursorInside := by
  intro ha
  cases hp : c.cs.p with
  | nil => simp [available, hp] at ha
  | cons p next =>
    refine ⟨p, by simp, ?_⟩
    obtain hlt | ⟨hread, htot⟩ := h.cursor p (by simp [hp])
    · exact hlt
    · rw [h.available_eq hp, hread, htot] at ha
      exact absurd ha (by simp)

theorem Placed.frame (h : Placed pcb c) {d : Conn} (hs : d.stale = c.stale) (hp : d.cs.p = c.cs.p)
    (hr : d.cs.read = c.cs.read) (hc : d.cs.cpcb = some pcb → c.cs.cpcb = some pcb) : Placed pcb d := by
  refine ⟨hs.trans h.current, hp ▸ h.linked, hp ▸ h.bound, ?_, fun hd hnil => ?_⟩
  · rw [hp, hr]
    exact h.cursor
  · rw [hr]
    exact h.empty (hc hd) (hp ▸ hnil)

theorem placed_of_empty (hs : c.stale = false) (hp : c.cs.p = []) (hr : c.cs.cpcb = some pcb → c.cs.read = 0) :
    Placed pcb c := by
  refine ⟨hs, ?_, ?_, ?_, fun hc _ => hr hc⟩ <;> simp [hp, Chain.Linked, Chain.totLen]

theorem recv_cs (hc : c.cs.cpcb = some pcb) {d : Chain} (hd : d ≠ []) :
    (c.step pcb (.recv d)).2.cs = { c.cs with p := c.cs.p.map (Pbuf.grow (Chain.totLen d)) ++ d } := by
  rw [(recv_spec hc hd).1]
  split_ifs with hp
  · simp [hp]
  · rw [pbufCat_eq hp]

theorem front_of_inside (hs : c.stale = false) (hr : c.cs.read = 0) (h : c.CursorInside) :
    Chain.totLen c.cs.p = 0 ∨ ∀ p ∈ c.cs.p.head?, 0 < p.len := by
  by_cases htot : Chain.totLen c.cs.p = 0
  · exact .inl htot
  · right
    intro p hp
    have hne : c.cs.p ≠ [] := fun hnil => by simp [hnil] at hp
    obtain ⟨r, hmem, hlt⟩ := h (by simp [available, hs, hne, hr]; omega)
    obtain rfl : p = r := Option.mem_unique hp hmem
    omega

theorem Placed.recv_front (h : Placed pcb c) {d : Chain} (he : c.LinkEnabled pcb (.conn (.recv d)))
    (hin : (c.step pcb (.recv d)).2.CursorInside) : c.FrontFilled (.conn (.recv d)) := by
  obtain ⟨hc, hne, hl, hb⟩ := he
  have hcs := recv_cs hc hne
  by_cases hr : c.cs.read = 0
  · have hfront := front_of_inside ((recv_spec hc hne).2.1.trans h.current) (by rw [hcs]; exact hr) hin
    rw [hcs, (h.linked.append hl hb).2] at hfront
    obtain htot | hpos := hfront
    · exact .inl (by omega)
    · right
      cases hp : c.cs.p with
      | nil => simpa [hp] using hpos
      | cons p next => simpa [hp, Pbuf.grow] using hpos
  · right
    cases hp : c.cs.p with
    | nil => exact absurd (h.empty hc hp) hr
    | cons p next =>
      obtain hlt | ⟨hzero, -⟩ := h.cursor p (by simp [hp])
      · simp only [List.cons_append, List.head?_cons, Option.mem_def, Option.some.injEq, forall_eq']
        omega
      · exact absurd hzero hr

theorem Placed.recv (h : Placed pcb c) {d : Chain} (he : c.LinkEnabled pcb (.conn (.recv d)))
    (hf : c.FrontFilled (.conn (.recv d))) : Placed pcb (c.step pcb (.recv d)).2 := by
  obtain ⟨hc, hne, hl, hb⟩ := he
  have hcs := recv_cs hc hne
  have hp' : (c.step pcb (.recv d)).2.cs.p = c.cs.p.map (Pbuf.grow (Chain.totLen d)) ++ d := by rw [hcs]
  have hr' : (c.step pcb (.recv d)).2.cs.read = c.cs.read := by rw [hcs]
  obtain ⟨hlinked, htot⟩ := h.linked.append hl hb
  refine ⟨(recv_spec hc hne).2.1.trans h.current, hp' ▸ hlinked, ?_, ?_, fun _ hnil => ?_⟩
  · rw [hp', htot]
    exact hb
  · rw [hp', hr', htot]
    intro r hr
    cases hp : c.cs.p with
    | nil =>
      have hread := h.empty hc hp
      rw [hp] at hr
      obtain hzero | hpos := hf
      · exact .inr ⟨hread, by rw [hzero]; rfl⟩
      · left
        rw [hread]
        exact hpos r (by simpa [hp] using hr)
    | cons p next =>
      rw [hp] at hr
      obtain rfl : p.grow (Chain.totLen d) = r := by simpa using hr
      have hcur := h.cursor p (by simp [hp])
      rw [hp] at hcur
      obtain hlt | ⟨hread, hnone⟩ := hcur
      · exact .inl hlt
      · obtain hzero | hpos := hf
        · exact .inr ⟨hread, by omega⟩
        · left
          rw [hread]
          exact hpos p (by simp [hp])
  · simp [hp', hne] at hnil

theorem read_state {s : Client} (ha : c.available ≠ 0) (hs : (takeByte c.cs c.net).2.1 = s)
    (hg : s.generation = c.cs.generation) : c.read.2.cs = s ∧ c.read.2.stale = c.stale := by
  simp only [Conn.read, readLocked, ha, ↓reduceIte, hs]
  exact ⟨cs_setCs c s, stale_setCs c s hg⟩

theorem Placed.read (h : Placed pcb c) :
    (c.read.2.CursorInside → c.FrontFilled (.conn (.call .read))) ∧
      (c.FrontFilled (.conn (.call .read)) → Placed pcb c.read.2) := by
  cases hp : c.cs.p with
  | nil =>
    have ha : c.available = 0 := by simp [available, hp]
    have hr : c.read.2 = c := by simp [Conn.read, readLocked, ha]
    rw [hr]
    exact ⟨fun _ p hmem => by simp [hp] at hmem, fun _ => h⟩
  | cons p next =>
    have hl := hp ▸ h.linked
    have hb := h.bound
    have htot : Chain.totLen c.cs.p = p.len + Chain.totLen next := by
      rw [hp]
      exact hl.2.2.1
    have ha := h.available_eq hp
    have hhead : ∀ r ∈ c.cs.p.head?, p = r := fun r hr => by simpa [hp] using hr
    obtain hlt | ⟨hzero, hnone⟩ := h.cursor p (by simp [hp])
    · have ha' : c.available ≠ 0 := by omega
      by_cases hlast : c.cs.read + 1 = p.len
      · obtain ⟨hcs, hstale⟩ := read_state ha' (takeByte_last hp hl hlast (by omega) c.net).2.1 rfl
        have hp' : c.read.2.cs.p = next := by rw [hcs]
        have hr' : c.read.2.cs.read = 0 := by rw [hcs]
        constructor
        · intro hin r hmem heq
          have hfront := front_of_inside (hstale.trans h.current) hr' hin
          rw [hp'] at hfront
          rwa [hp]
        · intro hf
          have hfront := hf p (by simp [hp]) hlast
          rw [hp] at hfront
          refine ⟨hstale.trans h.current, hp' ▸ hl.2.2.2, by rw [hp']; omega, ?_, fun _ _ => hr'⟩
          rw [hp', hr']
          intro r hmem
          obtain hzero | hpos := hfront
          · exact .inr ⟨rfl, hzero⟩
          · exact .inl (hpos r hmem)
      · have hmid := takeByte_middle hp (show c.cs.read + 1 < p.len by omega) (by omega) c.net
        obtain ⟨hcs, hstale⟩ := read_state (s := { c.cs with read := c.cs.read + 1 }) ha' (by rw [hmid]) rfl
        have hp' : c.read.2.cs.p = c.cs.p := by rw [hcs]
        have hr' : c.read.2.cs.read = c.cs.read + 1 := by rw [hcs]
        constructor
        · intro _ r hmem heq
          obtain rfl := hhead r hmem
          exact absurd heq hlast
        · intro _
          refine ⟨hstale.trans h.current, hp' ▸ h.linked, hp' ▸ hb, ?_, fun _ hnil => ?_⟩
          · rw [hp', hr']
            intro r hmem
            obtain rfl := hhead r hmem
            exact .inl (by omega)
          · simp [hp', hp] at hnil
    · have hr : c.read.2 = c := by simp [Conn.read, readLocked, ha, hzero, hnone]
      rw [hr]
      refine ⟨fun _ r hmem heq => ?_, fun _ => h⟩
      obtain rfl := hhead r hmem
      omega

theorem stop_state (h : c.stale = false) (fin : Err) :
    (c.stop fin).cs = { c.cs with cpcb := none, p := [], port := 0 } ∧ (c.stop fin).stale = false := by
  have hcs := cs_setCs c { c.cs with cpcb := none, p := [], port := 0 }
  have hstale := (stale_setCs c { c.cs with cpcb := none, p := [], port := 0 } rfl).trans h
  rw [Conn.stop, if_neg (by simp [h])]
  cases c.cs.cpcb <;> exact ⟨hcs, hstale⟩

theorem Placed.setConnected (h : Placed pcb c) (b : Bool) : Placed pcb (c.setConnected b) := h.frame rfl rfl rfl id

theorem Placed.doErr (h : Placed pcb c) : Placed pcb c.doErr := by
  unfold Conn.doErr
  split_ifs
  · exact h.setConnected false
  · exact h.setConnected true

theorem Placed.forget (h : Placed pcb c) : Placed pcb (c.forget pcb) := by
  unfold Conn.forget
  split_ifs with hc
  · have hcs := cs_setCs c { c.cs with port := 0, cpcb := none }
    have hp : (c.setCs { c.cs with port := 0, cpcb := none }).cs.p = c.cs.p := by rw [hcs]
    have hr : (c.setCs { c.cs with port := 0, cpcb := none }).cs.read = c.cs.read := by rw [hcs]
    exact h.frame (stale_setCs c { c.cs with port := 0, cpcb := none } rfl) hp hr fun _ => hc
  · exact h

theorem Placed.polled (h : Placed pcb c) (expired : Bool) (fin : Err) : Placed pcb (c.polled pcb expired fin) := by
  have hnet (n : Net) : Placed pcb { c with net := n } := h.frame rfl rfl rfl id
  unfold Conn.polled
  cases c.self.cs with
  | own =>
    unfold Conn.doPoll
    split_ifs
    · exact (hnet _).doErr.forget
    · exact h
    · exact (hnet _).forget
  | slot i => exact hnet _

theorem Placed.fail (h : Placed pcb c) : Placed pcb c.fail := by
  unfold Conn.fail
  cases hi : c.self.cs with
  | own => exact h.doErr
  | slot i =>
    have hs := h.current
    refine placed_of_empty ?_ ?_ fun _ => ?_
    · simpa [stale, cs, hi, EthernetServer.doErr] using hs
    · simp [cs, hi, EthernetServer.doErr]
    · simp [cs, hi, EthernetServer.doErr]

theorem Placed.fin (h : Placed pcb c) (hc : c.cs.cpcb = some pcb) (err : Err) :
    Placed pcb (c.step pcb (.fin err)).2 := by
  cases hi : c.self.cs with
  | own =>
    rw [fin_own hi]
    exact (h.frame (d := { c with net := c.net.receiveFin pcb }) rfl rfl rfl id).setConnected false
  | slot i =>
    obtain ⟨n, hn⟩ := fin_slot hc hi err
    have hcs := cs_setCs c { c.cs with read := 0, port := 0, p := [], cpcb := none }
    rw [hn]
    refine placed_of_empty ?_ (congrArg Client.p hcs) fun _ => congrArg Client.read hcs
    exact (stale_setCs c { c.cs with read := 0, port := 0, p := [], cpcb := none } rfl).trans h.current

theorem Placed.write (h : Placed pcb c) (buf : List UInt8) (outcomes : List Err) :
    Placed pcb (c.write buf outcomes).2 := by
  have hnet (n : Net) : Placed pcb { c with net := n } := h.frame rfl rfl rfl id
  unfold Conn.write
  split_ifs
  · exact h
  · split
    · exact h
    · split <;> exact hnet _

theorem Placed.step_front (h : Placed pcb c) {e : LinkEvent} (he : c.LinkEnabled pcb e)
    (hin : (c.linkStep pcb e).CursorInside) : c.FrontFilled e := by
  cases e with
  | conn e =>
    cases e with
    | recv d => exact h.recv_front he hin
    | fin err => trivial
    | call op =>
      cases op with
      | read => exact h.read.1 hin
      | _ => trivial
  | error => trivial
  | poll expired fin => trivial

theorem Placed.step (h : Placed pcb c) {e : LinkEvent} (he : c.LinkEnabled pcb e) (hf : c.FrontFilled e) :
    Placed pcb (c.linkStep pcb e) := by
  cases e with
  | conn e =>
    cases e with
    | recv d => exact h.recv he hf
    | fin err => exact h.fin he err
    | call op =>
      cases op with
      | read => exact h.read.2 hf
      | stop fin =>
        obtain ⟨hcs, hstale⟩ := stop_state h.current fin
        have hp : (c.stop fin).cs.p = [] := by rw [hcs]
        have hc : (c.stop fin).cs.cpcb = none := by rw [hcs]
        exact placed_of_empty hstale hp fun hc' => absurd (hc.symm.trans hc') (by simp)
      | write b outcomes => exact h.write [b] outcomes
      | writeBuf buf outcomes => exact h.write buf outcomes
      | flush => exact he.elim
      | readBuf size => exact he.elim
      | _ => exact h
  | error => exact h.fail
  | poll expired fin => exact h.polled expired fin

theorem readLoop_run (n : ℕ) (c : Conn) :
    (c.readLoop n).2 = (cursorMachine pcb).run c (List.replicate n (.conn (.call .read))) := by
  induction n generalizing c with
  | zero => rfl
  | succ n ih =>
    rw [List.replicate_succ, Machine.run_cons]
    by_cases ha : c.available = 0
    · have hr : c.read.2 = c := by simp [Conn.read, readLocked, ha]
      have hstep : (cursorMachine pcb).step c (.conn (.call .read)) = c := hr
      rw [hstep, ← ih c, readLoop_of_empty ha, readLoop_of_empty ha]
    · have hb : c.read.1 ≠ -1 := by
        simp only [Conn.read, readLocked, ha, ↓reduceIte]
        omega
      have hr : (c.readLoop (n + 1)).2 = (c.read.2.readLoop n).2 := by simp only [readLoop, hb, ↓reduceIte]
      rw [hr, ih]
      rfl

end Conn

/-- The cursor stays inside the head pbuf exactly when no pbuf of length 0 comes to the front of data. -/
theorem read_cursor_inside_iff (pcb : PcbPtr) (c : Conn) (hc : c.Fresh pcb) (es : List LinkEvent)
    (hl : (cursorMachine pcb).Legal c es) :
    (∀ fs gs, es = fs ++ gs → ((cursorMachine pcb).run c fs).CursorInside) ↔
      (Machine.mk Conn.FrontFilled (cursorMachine pcb).step).Legal c es :=
  Machine.always_iff (M := cursorMachine pcb) (I := Conn.Placed pcb) (fun _ h => h.inside)
    (fun _ _ h he hin => h.step_front he hin) (fun _ _ h he hf => h.step he hf) hc.placed hl

theorem read_cursor_inside_two_pbufs :
    let es : List LinkEvent := [.conn (.recv [⟨20, [1], 1, 2, 1⟩, ⟨21, [2], 1, 1, 1⟩]), .conn (.call .read),
      .conn (.call .peek), .conn (.call .read)]
    (cursorMachine 7).Legal .accepted es ∧
      ∀ fs gs, es = fs ++ gs → ((cursorMachine 7).run .accepted fs).CursorInside := by
  intro es
  have hl : (cursorMachine 7).Legal .accepted es := by decide
  refine ⟨hl, (read_cursor_inside_iff 7 .accepted Conn.accepted_fresh es hl).mpr ⟨?_, ?_, trivial, ?_, trivial⟩⟩
  · exact .inr (by decide)
  · exact fun p hp _ => .inr (by decide)
  · exact fun p hp _ => .inl (by decide)

/-- A segment whose first pbuf was trimmed away: `peek` returns the memory byte 9 instead of 5. -/
theorem read_cursor_outside_trimmed :
    let es : List LinkEvent := [.conn (.recv [⟨20, [9], 0, 1, 1⟩, ⟨21, [5], 1, 1, 1⟩])]
    let c := (cursorMachine 7).run .accepted es
    (cursorMachine 7).Legal .accepted es ∧ c.available = 1 ∧ c.peek = 9 ∧ ¬ c.CursorInside := by
  intro es c
  refine ⟨by decide, by decide, by decide, fun h => ?_⟩
  obtain ⟨p, hp, hlt⟩ := h (by decide)
  obtain rfl : (⟨20, [9], 0, 1, 1⟩ : Pbuf) = p := Option.some.inj hp
  exact absurd hlt (by decide)

end LogoCore.Ethernet
