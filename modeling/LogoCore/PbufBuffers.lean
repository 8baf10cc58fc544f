import LogoCore.PbufChain

namespace LogoCore.Ethernet

abbrev pbufPoolBufsize : ℕ := 512

abbrev transportOffset : ℕ := 16 + 20 + 20

/-- A free buffer of the pool, with whatever its memory holds. -/
structure PoolBlock where
  addr : ℕ
  mem : List UInt8
  size : mem.length = pbufPoolBufsize

/-- The loop of `pbuf_alloc` that adds pbufs for the length that is left. -/
def allocTail : ℕ → List PoolBlock → Option Chain
  | 0, _ => some []
  | _ + 1, [] => none
  | left + 1, b :: pool =>
    (allocTail (left + 1 - min (left + 1) pbufPoolBufsize) pool).map
      (⟨b.addr, b.mem, min (left + 1) pbufPoolBufsize, left + 1, 1⟩ :: ·)

/-- `pbuf_alloc` from the pool, for the layer that leaves `offset` bytes of the first pbuf free. -/
def pbufAlloc (offset length : ℕ) : List PoolBlock → Option Chain
  | [] => none
  | b :: pool =>
    (allocTail (length - min length (pbufPoolBufsize - offset)) pool).map
      (⟨b.addr, b.mem.drop offset, min length (pbufPoolBufsize - offset), length, 1⟩ :: ·)

def copyIn : Chain → List UInt8 → Chain
  | [], _ => []
  | p :: c, data =>
    if data.length = 0 then p :: c
    else { p with payload := data.take p.len ++ p.payload.drop (min data.length p.len) } :: copyIn c (data.drop p.len)

def pbufTake (c : Chain) (data : List UInt8) : Chain := if Chain.totLen c < data.length then c else copyIn c data

/-- The part of `pbuf_realloc` that keeps `left` bytes and takes `cut` off the total lengths. -/
def shrink (cut : ℕ) : ℕ → Chain → Chain
  | _, [] => []
  | left, p :: c =>
    if left > p.len then { p with totLen := (p.totLen + 65536 - cut) % 65536 } :: shrink cut (left - p.len) c
    else [{ p with len := left, totLen := left }]

def pbufRealloc (c : Chain) (newLen : ℕ) : Chain :=
  if newLen ≥ Chain.totLen c then c else shrink (Chain.totLen c - newLen) newLen c

structure Chain.Holds (c : Chain) (n : ℕ) : Prop where
  backed : ∀ p ∈ c, p.len ≤ p.payload.length
  length : (Chain.bytes c).length = n
  totLen : Chain.totLen c = n

namespace Chain

theorem bytes_cons (p : Pbuf) (c : Chain) : bytes (p :: c) = p.bytes ++ bytes c := rfl

variable {c : Chain} {data : List UInt8} {n : ℕ}

theorem backed_copyIn (h : ∀ p ∈ c, p.len ≤ p.payload.length) (data : List UInt8) :
    ∀ p ∈ copyIn c data, p.len ≤ p.payload.length := by
  induction c generalizing data with
  | nil => exact h
  | cons p c ih =>
    have hp := h p (by simp)
    rw [copyIn]
    split_ifs
    · exact h
    · intro q hq
      obtain rfl | hq := List.mem_cons.mp hq
      · simp only [List.length_append, List.length_take, List.length_drop]
        omega
      · exact ih (fun r hr => h r (by simp [hr])) _ q hq

theorem take_copied (data payload : List UInt8) (len : ℕ) :
    (data.take len ++ payload.drop (min data.length len)).take len =
      data.take len ++ (payload.take len).drop data.length := by
  by_cases hfit : data.length ≤ len
  · rw [Nat.min_eq_left hfit, List.take_of_length_le hfit, List.take_append, List.take_of_length_le hfit,
      List.drop_take]
  · have hnil : (payload.take len).drop data.length = [] :=
      List.drop_eq_nil_of_le ((List.length_take_le _ _).trans (by omega))
    rw [hnil, List.append_nil, List.take_left' (List.length_take_of_le (by omega))]

theorem bytes_copyIn (h : ∀ p ∈ c, p.len ≤ p.payload.length) (hlen : data.length ≤ (bytes c).length) :
    bytes (copyIn c data) = data ++ (bytes c).drop data.length := by
  induction c generalizing data with
  | nil =>
    rw [List.eq_nil_of_length_eq_zero (Nat.le_zero.mp hlen)]
    rfl
  | cons p c ih =>
    have hp := h p (by simp)
    rw [bytes_cons, List.length_append, Pbuf.bytes, List.length_take_of_le hp] at hlen
    rw [copyIn]
    split_ifs with hd
    · rw [List.eq_nil_of_length_eq_zero hd]
      rfl
    · have hrest := ih (fun r hr => h r (by simp [hr]))
        (show (data.drop p.len).length ≤ (bytes c).length by rw [List.length_drop]; omega)
      rw [bytes_cons, bytes_cons, hrest, Pbuf.bytes, Pbuf.bytes, take_copied, List.drop_append,
        List.length_take_of_le hp, List.length_drop]
      by_cases hfit : data.length ≤ p.len
      · rw [List.take_of_length_le hfit, List.drop_eq_nil_of_le hfit, List.nil_append, List.append_assoc]
      · have hnil : (p.payload.take p.len).drop data.length = [] :=
          List.drop_eq_nil_of_le ((List.length_take_le _ _).trans (by omega))
        rw [hnil, List.append_nil, List.nil_append, ← List.append_assoc, List.take_append_drop]

theorem totLen_copyIn (c : Chain) (data : List UInt8) : totLen (copyIn c data) = totLen c := by
  cases c with
  | nil => rfl
  | cons p c =>
    rw [copyIn]
    split_ifs <;> rfl

theorem Holds.take (h : c.Holds n) (hlen : data.length ≤ n) :
    (pbufTake c data).Holds n ∧ bytes (pbufTake c data) = data ++ (bytes c).drop data.length := by
  have hbytes := bytes_copyIn h.backed (show data.length ≤ (bytes c).length by rw [h.length]; exact hlen)
  rw [pbufTake, if_neg (by rw [h.totLen]; omega)]
  refine ⟨⟨backed_copyIn h.backed data, ?_, ?_⟩, hbytes⟩
  · rw [hbytes, List.length_append, List.length_drop, h.length]
    omega
  · rw [totLen_copyIn, h.totLen]

theorem bytes_shrink (h : ∀ p ∈ c, p.len ≤ p.payload.length) (cut left : ℕ) :
    bytes (shrink cut left c) = (bytes c).take left := by
  induction c generalizing left with
  | nil => exact List.take_nil.symm
  | cons p c ih =>
    have hp := h p (by simp)
    rw [shrink, bytes_cons, List.take_append, Pbuf.bytes, List.length_take_of_le hp]
    split_ifs with hleft
    · rw [bytes_cons, ih (fun r hr => h r (by simp [hr])), List.take_take, Nat.min_eq_right (by omega)]
      rfl
    · rw [show left - p.len = 0 by omega, List.take_zero, List.append_nil, List.take_take, Nat.min_eq_left (by omega)]
      exact List.append_nil _

theorem Holds.realloc (h : c.Holds n) (newLen : ℕ) : bytes (pbufRealloc c newLen) = (bytes c).take newLen := by
  rw [pbufRealloc]
  split_ifs with hge
  · rw [List.take_of_length_le]
    rw [h.length, ← h.totLen]
    exact hge
  · exact bytes_shrink h.backed _ _

theorem holds_allocTail {left : ℕ} {pool : List PoolBlock} (h : allocTail left pool = some c) : c.Holds left := by
  induction pool generalizing left c with
  | nil =>
    cases left with
    | zero =>
      obtain rfl := Option.some.inj h
      exact ⟨by simp, rfl, rfl⟩
    | succ left => simp [allocTail] at h
  | cons b pool ih =>
    cases left with
    | zero =>
      obtain rfl := Option.some.inj h
      exact ⟨by simp, rfl, rfl⟩
    | succ left =>
      rw [allocTail, Option.map_eq_some_iff] at h
      obtain ⟨t, ht, rfl⟩ := h
      have htail := ih ht
      have hsize := b.size
      refine ⟨?_, ?_, rfl⟩
      · intro p hp
        obtain rfl | hp := List.mem_cons.mp hp
        · rw [hsize]
          exact Nat.min_le_right _ _
        · exact htail.backed p hp
      · rw [bytes_cons, List.length_append, htail.length, Pbuf.bytes, List.length_take, hsize]
        dsimp only
        omega

theorem holds_pbufAlloc {offset length : ℕ} {pool : List PoolBlock} (h : pbufAlloc offset length pool = some c) :
    c.Holds length := by
  cases pool with
  | nil => simp [pbufAlloc] at h
  | cons b pool =>
    rw [pbufAlloc, Option.map_eq_some_iff] at h
    obtain ⟨t, ht, rfl⟩ := h
    have htail := holds_allocTail ht
    have hsize := b.size
    refine ⟨?_, ?_, rfl⟩
    · intro p hp
      obtain rfl | hp := List.mem_cons.mp hp
      · rw [List.length_drop, hsize]
        exact Nat.min_le_right _ _
      · exact htail.backed p hp
    · rw [bytes_cons, List.length_append, htail.length, Pbuf.bytes, List.length_take, List.length_drop, hsize]
      dsimp only
      omega

end Chain

end LogoCore.Ethernet
