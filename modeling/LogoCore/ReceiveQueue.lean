import LogoCore.ConnectionRuns
import LogoCore.FifoQueue

namespace LogoCore.Ethernet

def Call.credit (pcb : PcbPtr) : Call → ℕ
  | .tcpRecved p len => if p = some pcb then len else 0
  | _ => 0

def Call.freed : Call → List ℕ
  | .pbufFree deallocated => deallocated
  | _ => []

namespace Net

def credited (n : Net) (pcb : PcbPtr) : ℕ := (n.log.map (Call.credit pcb)).sum

def freed (n : Net) : List ℕ := n.log.flatMap Call.freed

@[simp] theorem credited_record (n : Net) (c : Call) (pcb : PcbPtr) :
    (n.record c).credited pcb = n.credited pcb + c.credit pcb := by simp [credited, record]

@[simp] theorem freed_record (n : Net) (c : Call) : (n.record c).freed = n.freed ++ c.freed := by
  simp [freed, record]

@[simp] theorem credited_modify (n : Net) (p : PcbPtr) (f : Pcb → Pcb) (pcb : PcbPtr) :
    (n.modify p f).credited pcb = n.credited pcb := rfl

@[simp] theorem credited_tcpArg (n : Net) (p : PcbPtr) (a : CallbackArg) (pcb : PcbPtr) :
    (n.tcpArg p a).credited pcb = n.credited pcb := by simp [tcpArg, Call.credit]

@[simp] theorem credited_tcpRecv (n : Net) (p : PcbPtr) (f : Option Callback) (pcb : PcbPtr) :
    (n.tcpRecv p f).credited pcb = n.credited pcb := by simp [tcpRecv, Call.credit]

@[simp] theorem credited_tcpSent (n : Net) (p : PcbPtr) (f : Option Callback) (pcb : PcbPtr) :
    (n.tcpSent p f).credited pcb = n.credited pcb := by simp [tcpSent, Call.credit]

@[simp] theorem credited_tcpErr (n : Net) (p : PcbPtr) (f : Option Callback) (pcb : PcbPtr) :
    (n.tcpErr p f).credited pcb = n.credited pcb := by simp [tcpErr, Call.credit]

@[simp] theorem credited_tcpPoll (n : Net) (p : PcbPtr) (f : Option Callback) (pcb : PcbPtr) :
    (n.tcpPoll p f).credited pcb = n.credited pcb := by simp [tcpPoll, Call.credit]

@[simp] theorem credited_tcpRecved (n : Net) (pcb : PcbPtr) (len : ℕ) :
    (n.tcpRecved pcb len).credited pcb = n.credited pcb + len := by simp [tcpRecved, Call.credit]

@[simp] theorem credited_pbufFree (n : Net) (c : Chain) (pcb : PcbPtr) :
    (n.pbufFree c).credited pcb = n.credited pcb := by simp [pbufFree, Call.credit]

@[simp] theorem credited_tcpClose (n : Net) (p : PcbPtr) (fin : Err) (pcb : PcbPtr) :
    (n.tcpClose p fin).2.credited pcb = n.credited pcb := by
  obtain h | h | ⟨s, h⟩ := tcpClose_cases n p fin <;> rw [h]
  · simp [Call.credit]
  · exact (credited_record _ _ _).trans (by simp [Call.credit])
  · simp [Call.credit]

@[simp] theorem freed_modify (n : Net) (p : PcbPtr) (f : Pcb → Pcb) : (n.modify p f).freed = n.freed := rfl

end Net

def Pbuf.items (p : Pbuf) : List (UInt8 × Option ℕ) := tagLast p.addr p.bytes

theorem Pbuf.length_bytes {p : Pbuf} (h : p.len ≤ p.payload.length) : p.bytes.length = p.len := by
  simp [bytes, h]

theorem Pbuf.bytes_ne_nil {p : Pbuf} (hpos : 0 < p.len) (h : p.len ≤ p.payload.length) : p.bytes ≠ [] := by
  rw [← List.length_pos_iff, length_bytes h]
  exact hpos

theorem Pbuf.length_items {p : Pbuf} (h : p.len ≤ p.payload.length) : p.items.length = p.len := by
  simp [items, length_bytes h]

theorem Pbuf.totLen_grow (p : Pbuf) (n : ℕ) : (p.grow n).totLen = (p.totLen + n) % 65536 := rfl

namespace Chain

def items (c : Chain) : List (UInt8 × Option ℕ) := c.flatMap Pbuf.items

theorem totLen_cons (p : Pbuf) (c : Chain) : totLen (p :: c) = p.totLen := rfl

@[simp] theorem items_nil : items [] = [] := rfl

@[simp] theorem items_cons (p : Pbuf) (c : Chain) : items (p :: c) = p.items ++ items c := rfl

@[simp] theorem items_append (c d : Chain) : items (c ++ d) = items c ++ items d := by simp [items]

theorem items_map_grow (c : Chain) (n : ℕ) : items (c.map (Pbuf.grow n)) = items c := by
  simp only [items, List.flatMap_map]
  rfl

theorem map_fst_items (c : Chain) : (items c).map Prod.fst = bytes c := by
  induction c with
  | nil => rfl
  | cons p c ih => simp [bytes, Pbuf.items, map_fst_tagLast, ih]

def Sized (c : Chain) : Prop := ∀ p ∈ c, 0 < p.len ∧ p.len ≤ p.payload.length

theorem WellFormed.sized {c : Chain} (h : c.WellFormed) : c.Sized := by
  induction c with
  | nil => simp [Sized]
  | cons p c ih =>
    obtain ⟨-, hpos, hle, -, hc⟩ := h
    exact List.forall_mem_cons.mpr ⟨⟨hpos, hle⟩, ih hc⟩

def released : ℕ → Chain → List ℕ
  | _, [] => []
  | n, p :: c => if p.len ≤ n then p.addr :: released (n - p.len) c else []

theorem released_eq {c : Chain} (h : c.Sized) (n : ℕ) :
    released n c = ((items c).take n).filterMap Prod.snd := by
  induction c generalizing n with
  | nil => simp [released]
  | cons p c ih =>
    obtain ⟨⟨hpos, hle⟩, hc⟩ := List.forall_mem_cons.mp h
    have hlen := Pbuf.length_bytes hle
    rw [items_cons, List.take_append, List.filterMap_append, Pbuf.length_items hle, released]
    split_ifs with hn
    · have hall : p.items.take n = p.items := List.take_of_length_le (by rw [Pbuf.length_items hle]; exact hn)
      rw [ih hc, hall, Pbuf.items, filterMap_snd_tagLast _ (Pbuf.bytes_ne_nil hpos hle)]
      rfl
    · rw [Pbuf.items, filterMap_snd_take_tagLast _ (by omega), show n - p.len = 0 by omega]
      simp

theorem filterMap_snd_items {c : Chain} (h : c.Sized) : (items c).filterMap Prod.snd = c.map Pbuf.addr := by
  induction c with
  | nil => rfl
  | cons p c ih =>
    obtain ⟨⟨hpos, hle⟩, hc⟩ := List.forall_mem_cons.mp h
    rw [items_cons, List.filterMap_append, ih hc, Pbuf.items,
      filterMap_snd_tagLast _ (Pbuf.bytes_ne_nil hpos hle)]
    rfl

theorem length_items {c : Chain} (h : c.WellFormed) : (items c).length = totLen c := by
  induction c with
  | nil => rfl
  | cons p c ih =>
    obtain ⟨-, -, hle, htot, hc⟩ := h
    rw [items_cons, List.length_append, Pbuf.length_items hle, ih hc]
    exact htot.symm

def Linked : Chain → Prop
  | [] => True
  | p :: c => p.ref = 1 ∧ p.len ≤ p.payload.length ∧ p.totLen = p.len + totLen c ∧ Linked c

instance decidableLinked (c : Chain) : Decidable c.Linked :=
  match c with
  | [] => isTrue trivial
  | _ :: c => @instDecidableAnd _ _ _ (@instDecidableAnd _ _ _ (@instDecidableAnd _ _ _ (decidableLinked c)))

theorem wellFormed_iff {c : Chain} : c.WellFormed ↔ c.Linked ∧ ∀ p ∈ c, 0 < p.len := by
  induction c with
  | nil => simp [WellFormed, Linked]
  | cons p c ih =>
    rw [WellFormed, Linked, ih, List.forall_mem_cons]
    tauto

theorem WellFormed.linked {c : Chain} (h : c.WellFormed) : c.Linked := (wellFormed_iff.mp h).1

theorem Linked.append {c d : Chain} (hc : c.Linked) (hd : d.Linked) (hb : totLen c + totLen d < 65536) :
    Linked (c.map (Pbuf.grow (totLen d)) ++ d) ∧
      totLen (c.map (Pbuf.grow (totLen d)) ++ d) = totLen c + totLen d := by
  induction c with
  | nil => exact ⟨hd, by simp [totLen]⟩
  | cons p c ih =>
    obtain ⟨href, hle, htot, hc⟩ := hc
    rw [totLen_cons] at hb
    obtain ⟨hw, ht⟩ := ih hc (by omega)
    have hgrow : (p.grow (totLen d)).totLen = p.totLen + totLen d := by
      rw [Pbuf.totLen_grow, Nat.mod_eq_of_lt hb]
    rw [List.map_cons, List.cons_append, totLen_cons, totLen_cons]
    refine ⟨⟨href, hle, ?_, hw⟩, hgrow⟩
    rw [hgrow, ht, htot]
    exact Nat.add_assoc _ _ _

theorem WellFormed.append {c d : Chain} (hc : c.WellFormed) (hd : d.WellFormed)
    (hb : totLen c + totLen d < 65536) :
    WellFormed (c.map (Pbuf.grow (totLen d)) ++ d) ∧
      totLen (c.map (Pbuf.grow (totLen d)) ++ d) = totLen c + totLen d := by
  obtain ⟨hlc, hpc⟩ := wellFormed_iff.mp hc
  obtain ⟨hld, hpd⟩ := wellFormed_iff.mp hd
  obtain ⟨hl, ht⟩ := hlc.append hld hb
  refine ⟨wellFormed_iff.mpr ⟨hl, fun p hp => ?_⟩, ht⟩
  obtain hp | hp := List.mem_append.mp hp
  · obtain ⟨r, hr, rfl⟩ := List.mem_map.mp hp
    exact hpc r hr
  · exact hpd p hp

end Chain

theorem pbufCat_eq {c : Chain} (h : c ≠ []) (d : Chain) :
    pbufCat c d = c.map (Pbuf.grow (Chain.totLen d)) ++ d := by
  induction c with
  | nil => exact absurd rfl h
  | cons p c ih =>
    cases c with
    | nil => rfl
    | cons q c => simp [pbufCat, ih]

theorem advanceHead_eq {p : Pbuf} {next : Chain} (h : Chain.Linked (p :: next)) :
    advanceHead p next = ([p.addr], next) := by
  obtain ⟨href, -, -, hn⟩ := h
  have hlast : p.decRef.ref = 0 := by simp [Pbuf.decRef, href]
  cases next with
  | nil =>
    rw [advanceHead, pbufRef, pbufFree_last hlast]
    rfl
  | cons q next =>
    have hq : q.incRef.decRef = q := by
      obtain ⟨hq, -⟩ := hn
      cases q
      simp_all [Pbuf.incRef, Pbuf.decRef]
    have hshared : q.incRef.decRef.ref ≠ 0 := by
      rw [hq, hn.1]
      decide
    rw [advanceHead, pbufRef, pbufFree_last hlast, pbufFree_shared hshared, hq]
    rfl

theorem takeByte_middle {cs : Client} {p : Pbuf} {next : Chain} (hp : cs.p = p :: next)
    (hin : cs.read + 1 < p.len) (hlen : p.len < 65536) (n : Net) :
    takeByte cs n = (p.load cs.read, { cs with read := cs.read + 1 },
      cs.cpcb.elim n fun pcb => n.tcpRecved pcb (cs.read + 1)) := by
  have hmod : (cs.read + 1) % 65536 = cs.read + 1 := Nat.mod_eq_of_lt (by omega)
  simp only [takeByte, hp, hmod, hin.ne, false_and, ↓reduceIte]

theorem takeByte_last {cs : Client} {p : Pbuf} {next : Chain} (hp : cs.p = p :: next)
    (hl : Chain.Linked (p :: next)) (hlast : cs.read + 1 = p.len) (hlen : p.len < 65536) (n : Net) :
    (takeByte cs n).1 = p.load cs.read ∧ (takeByte cs n).2.1 = { cs with read := 0, p := next } ∧
      (takeByte cs n).2.2.freed = n.freed ++ [p.addr] ∧
      ∀ pcb, (takeByte cs n).2.2.credited pcb =
        (cs.cpcb.elim n fun pcb => n.tcpRecved pcb (cs.read + 1)).credited pcb := by
  have hmod : p.len % 65536 = p.len := Nat.mod_eq_of_lt hlen
  have hfreed (m : ℕ) : (cs.cpcb.elim n fun pcb => n.tcpRecved pcb m).freed = n.freed := by
    cases cs.cpcb <;> simp [Net.tcpRecved, Call.freed]
  have hadv := advanceHead_eq hl
  cases next with
  | nil =>
    have hone : pbufFree [p] = ([p.addr], []) := by
      rw [pbufFree_last (by simp [Pbuf.decRef, hl.1])]
      rfl
    simp [takeByte, hp, hmod, hlast, Net.pbufFree, hone, Call.freed, Call.credit, hfreed]
  | cons q next => simp [takeByte, hp, hmod, hlast, hadv, Call.freed, Call.credit, hfreed]

structure Client.Holds (cs : Client) (q : List (UInt8 × Option ℕ)) : Prop where
  shape : Chain.WellFormed cs.p
  bound : Chain.totLen cs.p < 65536
  inside : ∀ p ∈ cs.p.head?, cs.read < p.len
  empty : cs.p = [] → cs.read = 0
  queue : q = (Chain.items cs.p).drop cs.read

namespace Client.Holds

variable {cs : Client} {q : List (UInt8 × Option ℕ)}

theorem length_eq (h : cs.Holds q) : q.length + cs.read = Chain.totLen cs.p := by
  rw [h.queue, List.length_drop, Chain.length_items h.shape]
  cases hp : cs.p with
  | nil => simp [h.empty hp, Chain.totLen]
  | cons p c =>
    have hr := h.inside p (by simp [hp])
    have ht := (hp ▸ h.shape).2.2.2.1
    simp only [Chain.totLen]
    omega

theorem eq_nil_iff (h : cs.Holds q) : q = [] ↔ cs.p = [] := by
  constructor
  · intro hq
    cases hp : cs.p with
    | nil => rfl
    | cons p c =>
      have hr := h.inside p (by simp [hp])
      have ht := (hp ▸ h.shape).2.2.2.1
      have hl := h.length_eq
      simp only [hq, hp, Chain.totLen, List.length_nil] at hl
      omega
  · intro hp
    rw [h.queue, hp]
    simp

theorem filterMap_snd (h : cs.Holds q) : q.filterMap Prod.snd = cs.p.map Pbuf.addr := by
  have hstarted : ((Chain.items cs.p).take cs.read).filterMap Prod.snd = [] := by
    rw [← Chain.released_eq h.shape.sized]
    cases hp : cs.p with
    | nil => rfl
    | cons p c => exact if_neg (Nat.not_le.mpr (h.inside p (by simp [hp])))
  rw [← Chain.filterMap_snd_items h.shape.sized, ← List.take_append_drop cs.read (Chain.items cs.p),
    List.filterMap_append, hstarted, ← h.queue]
  rfl

theorem head (h : cs.Holds q) {p : Pbuf} {next : Chain} (hp : cs.p = p :: next) :
    q = (p.load cs.read, if cs.read + 1 = p.len then some p.addr else none) ::
      (Chain.items cs.p).drop (cs.read + 1) := by
  have hr := h.inside p (by simp [hp])
  obtain ⟨-, -, hle, -, -⟩ := hp ▸ h.shape
  have hlen := Pbuf.length_bytes hle
  have hbytes : cs.read < p.bytes.length := by omega
  have hpay : cs.read < p.payload.length := by omega
  have hget : p.bytes[cs.read] = p.load cs.read := by simp [Pbuf.bytes, Pbuf.load, hpay]
  rw [h.queue, hp, Chain.items_cons, List.drop_append_of_le_length (by simp [Pbuf.items]; omega), Pbuf.items,
    drop_tagLast hbytes, List.drop_append_of_le_length (by simp; omega), hlen, hget]
  rfl

theorem bound_len (h : cs.Holds q) {p : Pbuf} {next : Chain} (hp : cs.p = p :: next) : p.len < 65536 := by
  have hb := h.bound
  have ht := (hp ▸ h.shape).2.2.2.1
  rw [hp, Chain.totLen_cons] at hb
  omega

theorem takeByte_middle (h : cs.Holds q) {p : Pbuf} {next : Chain} (hp : cs.p = p :: next)
    (hlast : cs.read + 1 ≠ p.len) (n : Net) :
    takeByte cs n = (p.load cs.read, { cs with read := cs.read + 1 },
      cs.cpcb.elim n fun pcb => n.tcpRecved pcb (cs.read + 1)) := by
  have hr := h.inside p (by simp [hp])
  exact Ethernet.takeByte_middle hp (by omega) (h.bound_len hp) n

theorem takeByte_last (h : cs.Holds q) {p : Pbuf} {next : Chain} (hp : cs.p = p :: next)
    (hlast : cs.read + 1 = p.len) (n : Net) :
    (takeByte cs n).1 = p.load cs.read ∧ (takeByte cs n).2.1 = { cs with read := 0, p := next } ∧
      (takeByte cs n).2.2.freed = n.freed ++ [p.addr] ∧
      ∀ pcb, (takeByte cs n).2.2.credited pcb =
        (cs.cpcb.elim n fun pcb => n.tcpRecved pcb (cs.read + 1)).credited pcb :=
  Ethernet.takeByte_last hp (hp ▸ h.shape).linked hlast (h.bound_len hp) n

theorem append (h : cs.Holds q) {d : Chain} (hne : d ≠ []) (hd : d.WellFormed)
    (hb : Chain.totLen cs.p + Chain.totLen d < 65536) :
    ({ cs with p := if cs.p = [] then d else pbufCat cs.p d } : Client).Holds (q ++ d.items) := by
  have hcat : (if cs.p = [] then d else pbufCat cs.p d) = cs.p.map (Pbuf.grow (Chain.totLen d)) ++ d := by
    split_ifs with hp
    · simp [hp]
    · exact pbufCat_eq hp d
  obtain ⟨hw, ht⟩ := h.shape.append hd hb
  have hlen := h.length_eq
  rw [hcat]
  refine ⟨hw, ht ▸ hb, ?_, fun hnil => absurd hnil (by simp [hne]), ?_⟩
  · intro p hp
    cases hc : cs.p with
    | nil =>
      cases d with
      | nil => exact absurd rfl hne
      | cons r d =>
        obtain rfl : r = p := by simpa [hc] using hp
        exact (h.empty hc).symm ▸ hd.2.1
    | cons r c =>
      obtain rfl : r.grow (Chain.totLen d) = p := by simpa [hc] using hp
      exact h.inside r (by simp [hc])
  · have hle : cs.read ≤ (Chain.items cs.p).length := by
      rw [Chain.length_items h.shape]
      omega
    rw [Chain.items_append, Chain.items_map_grow, h.queue]
    exact (List.drop_append_of_le_length hle).symm

theorem exists_head {x : UInt8 × Option ℕ} (h : cs.Holds (x :: q)) :
    ∃ p next, cs.p = p :: next ∧ x = (p.load cs.read, if cs.read + 1 = p.len then some p.addr else none) ∧
      q = (Chain.items cs.p).drop (cs.read + 1) := by
  cases hp : cs.p with
  | nil => exact absurd (h.eq_nil_iff.mpr hp) (by simp)
  | cons p next =>
    obtain ⟨hx, hq⟩ := List.cons.inj (h.head hp)
    exact ⟨p, next, rfl, hx, hp ▸ hq⟩

theorem advance (h : cs.Holds q) {p : Pbuf} {next : Chain} (hp : cs.p = p :: next) :
    ({ cs with read := 0, p := next } : Client).Holds (Chain.items next) := by
  obtain ⟨-, -, -, htot, hnext⟩ := hp ▸ h.shape
  have hb := h.bound
  rw [hp, Chain.totLen_cons] at hb
  refine ⟨hnext, show Chain.totLen next < 65536 by omega, ?_, fun _ => rfl, rfl⟩
  intro r hr
  cases next with
  | nil => simp at hr
  | cons r' next =>
    obtain rfl : r' = r := by simpa using hr
    exact hnext.2.1

theorem takeByte {x : UInt8 × Option ℕ} (h : cs.Holds (x :: q)) (n : Net) :
    ∃ r p', ({ cs with read := r, p := p' } : Client).Holds q ∧
      (takeByte cs n).1 = x.1 ∧ (takeByte cs n).2.1 = { cs with read := r, p := p' } ∧
      (takeByte cs n).2.2.freed = n.freed ++ x.2.toList ∧
      ∀ pcb, cs.cpcb = some pcb → (takeByte cs n).2.2.credited pcb = n.credited pcb + (cs.read + 1) := by
  obtain ⟨p, next, hp, rfl, hq⟩ := h.exists_head
  obtain ⟨-, -, hle, -, -⟩ := hp ▸ h.shape
  have hin := h.inside p (by simp [hp])
  by_cases hlast : cs.read + 1 = p.len
  · obtain ⟨hbyte, hcs, hfreed, hcred⟩ := h.takeByte_last hp hlast n
    have hskip : q = Chain.items next := by
      rw [hq, hp, hlast, Chain.items_cons, List.drop_left' (Pbuf.length_items hle)]
    refine ⟨0, next, hskip ▸ h.advance hp, hbyte, hcs, ?_, fun pcb hpcb => ?_⟩
    · rw [hfreed, if_pos hlast]
      rfl
    · rw [hcred, hpcb]
      simp [Net.tcpRecved, Call.credit]
  · rw [h.takeByte_middle hp hlast]
    refine ⟨cs.read + 1, cs.p, ⟨h.shape, h.bound, ?_, ?_, hq⟩, rfl, rfl, ?_, fun pcb hpcb => ?_⟩
    · intro r hr
      obtain rfl : p = r := by simpa [hp] using hr
      exact show cs.read + 1 < p.len by omega
    · intro hnil
      simp [hp] at hnil
    · cases cs.cpcb <;> simp [hlast, Net.tcpRecved, Call.freed]
    · simp [hpcb, Net.tcpRecved, Call.credit]

end Client.Holds

end LogoCore.Ethernet
