import LogoCore.ByteMemory
import LogoCore.EventMachine

namespace LogoCore.Lwip

open ByteMemory

/-- `MEM_SIZE_ALIGNED`, the offset of `ram_end`. -/
def memSizeAligned : UInt32 := 65536

/-- `SIZEOF_STRUCT_MEM` -/
def sizeofStructMem : UInt32 := 12

def minSizeAligned : UInt32 := 12

/-- `LWIP_MEM_ALIGN_SIZE` -/
def lwipMemAlignSize (size : UInt32) : UInt32 := (size + 3) &&& ~~~3

/-- The heap of `mem.c`. A `struct mem *` is its offset in `ram`, the header is stored in `ram` itself. -/
structure Heap where
  ram : Memory
  lfree : UInt32

namespace Heap

variable (h : Heap) (mem : UInt32)

def next : UInt32 := load32 h.ram mem.toNat

def prev : UInt32 := load32 h.ram (mem.toNat + 4)

def used : Bool := h.ram (mem.toNat + 8) != 0

def setNext (v : UInt32) : Heap := { h with ram := store32 h.ram mem.toNat v }

def setPrev (v : UInt32) : Heap := { h with ram := store32 h.ram (mem.toNat + 4) v }

def setUsed (v : UInt8) : Heap := { h with ram := store8 h.ram (mem.toNat + 8) v }

/-- `mem_init` -/
def memInit (ram : Memory) : Heap :=
  let h : Heap := ⟨ram, 0⟩
  let h := ((h.setNext 0 memSizeAligned).setPrev 0 0).setUsed 0 0
  ((h.setUsed memSizeAligned 1).setNext memSizeAligned memSizeAligned).setPrev memSizeAligned memSizeAligned

/-- Unlinks `nmem`, the block behind `mem`: both become one block. -/
def join (nmem : UInt32) : Heap :=
  let h := if h.lfree = nmem then { h with lfree := mem } else h
  let h := h.setNext mem (h.next nmem)
  h.setPrev (h.next nmem) mem

def plugForward : Heap :=
  let nmem := h.next mem
  if mem ≠ nmem ∧ h.used nmem = false ∧ nmem ≠ memSizeAligned then h.join mem nmem else h

def plugBackward : Heap :=
  let pmem := h.prev mem
  if pmem ≠ mem ∧ h.used pmem = false then h.join pmem mem else h

/-- `plug_holes` -/
def plugHoles : Heap := (h.plugForward mem).plugBackward mem

/-- `mem_free`. A pointer is its distance from `ram`, which is beyond `ram_end` for a pointer below `ram`. -/
def memFree (rmem : Option UInt32) : Heap :=
  match rmem with
  | none => h
  | some rmem =>
    if memSizeAligned ≤ rmem then h
    else
      let mem := rmem - sizeofStructMem
      let h := h.setUsed mem 0
      let h := if mem < h.lfree then { h with lfree := mem } else h
      h.plugHoles mem

/-- Links a free block at `ptr2` between `mem` and `next`. -/
def insertFree (ptr2 next : UInt32) : Heap :=
  let h := (((h.setUsed ptr2 0).setNext ptr2 next).setPrev ptr2 mem).setNext mem ptr2
  if h.next ptr2 ≠ memSizeAligned then h.setPrev (h.next ptr2) ptr2 else h

structure Trimmed where
  heap : Heap
  rmem : Option UInt32

/-- `mem_trim` -/
def memTrim (rmem newsize : UInt32) : Trimmed :=
  let newsize := lwipMemAlignSize newsize
  let newsize := if newsize < minSizeAligned then minSizeAligned else newsize
  if memSizeAligned < newsize then ⟨h, none⟩
  else if memSizeAligned ≤ rmem then ⟨h, some rmem⟩
  else
    let mem := rmem - sizeofStructMem
    let size := h.next mem - mem - sizeofStructMem
    if size < newsize then ⟨h, none⟩
    else if newsize = size then ⟨h, some rmem⟩
    else
      let mem2 := h.next mem
      let ptr2 := mem + sizeofStructMem + newsize
      if h.used mem2 = false then
        let next := h.next mem2
        let h := if h.lfree = mem2 then { h with lfree := ptr2 } else h
        ⟨h.insertFree mem ptr2 next, some rmem⟩
      else if newsize + sizeofStructMem + minSizeAligned ≤ size then
        let h := if ptr2 < h.lfree then { h with lfree := ptr2 } else h
        ⟨h.insertFree mem ptr2 (h.next mem), some rmem⟩
      else ⟨h, some rmem⟩

inductive Scan where
  | found (mem : UInt32)
  | full
  | unended

/-- The search of `mem_malloc` for a free block that is big enough. -/
def scan (size : UInt32) : ℕ → UInt32 → Scan
  | 0, _ => .unended
  | fuel + 1, ptr =>
    if ptr < memSizeAligned - size then
      if h.used ptr = false ∧ size ≤ h.next ptr - (ptr + sizeofStructMem) then .found ptr
      else scan size fuel (h.next ptr)
    else .full

/-- The search for the next free block after `lfree` was taken. -/
def lowestFree : ℕ → UInt32 → Option UInt32
  | 0, _ => none
  | fuel + 1, cur =>
    if h.used cur = true ∧ cur ≠ memSizeAligned then lowestFree fuel (h.next cur) else some cur

/-- Takes the free block at `mem`, and splits it where the rest is big enough for a block of its own. -/
def take (size : UInt32) : Heap :=
  if size + sizeofStructMem + minSizeAligned ≤ h.next mem - (mem + sizeofStructMem) then
    (h.insertFree mem (mem + sizeofStructMem + size) (h.next mem)).setUsed mem 1
  else h.setUsed mem 1

structure Allocated where
  heap : Heap
  rmem : Option UInt32

/-- The search and what `mem_malloc` does with the block it found, `none` if a loop did not end in `fuel` rounds. -/
def allocate (size : UInt32) (fuel : ℕ) : Option Allocated :=
  match h.scan size fuel h.lfree with
  | .unended => none
  | .full => some ⟨h, none⟩
  | .found mem =>
    let h := h.take mem size
    if mem = h.lfree then
      (h.lowestFree fuel h.lfree).map fun cur => ⟨{ h with lfree := cur }, some (mem + sizeofStructMem)⟩
    else some ⟨h, some (mem + sizeofStructMem)⟩

/-- `mem_malloc`. The heap has far less blocks than bytes. -/
def memMalloc (size : UInt32) : Option Allocated :=
  if size = 0 then some ⟨h, none⟩
  else
    let size := lwipMemAlignSize size
    let size := if size < minSizeAligned then minSizeAligned else size
    if memSizeAligned < size then some ⟨h, none⟩ else h.allocate size memSizeAligned.toNat

end Heap

end LogoCore.Lwip
