import PenelopeOS.Limine.MemoryMap
import PenelopeOS.Machine.Fault

/-!
# The free list of physical memory and its allocator

The definitions of `memorylist.cpp`. A free block starts with its own header: the address of the
next free block, then its length. `head.next` is the only state outside the managed memory.

Every access through a block pointer faults when the pointer is null. The two walks only read, so a
walk that takes `walkBound` steps has met some block twice and never ends; that is `divergence`.
`round`, `allocHeap`, `allocStack` and `free` keep the machine's wrapping 64-bit arithmetic.
-/

namespace PenelopeOS.Memory

open Machine Limine

/-- Physical memory as mapped, and `memory::list::head.next`. -/
structure BlockList where
  memory : Memory
  head : Word

/-- `sizeof(memoryBlock)` -/
def blockSize : Word := 16

def nextOf (memory : Memory) (block : Word) : Word := load64 memory block

def lengthOf (memory : Memory) (block : Word) : Word := load64 memory (block + 8)

namespace BlockList

/-- `block->next` -/
def readNext (list : BlockList) (block : Word) : Except Fault Word :=
  if block = 0 then .error .nullDereference else .ok (nextOf list.memory block)

/-- `block->length` -/
def readLength (list : BlockList) (block : Word) : Except Fault Word :=
  if block = 0 then .error .nullDereference else .ok (lengthOf list.memory block)

/-- `block->next = value` -/
def writeNext (list : BlockList) (block value : Word) : Except Fault BlockList :=
  if block = 0 then .error .nullDereference
  else .ok { list with memory := store64 list.memory block value }

/-- `block->length = value` -/
def writeLength (list : BlockList) (block value : Word) : Except Fault BlockList :=
  if block = 0 then .error .nullDereference
  else .ok { list with memory := store64 list.memory (block + 8) value }

def getHead (list : BlockList) : Word := list.head

def setHead (list : BlockList) (block : Word) : BlockList := { list with head := block }

end BlockList

/-! ## `InitialiseHeaders` -/

/-- `memoryEntry` -/
structure MemoryEntry where
  base : Word
  length : Word
  deriving DecidableEq, Repr

/-- `std::array<memoryEntry, 20>` -/
abbrev EntryBuffer := Vector MemoryEntry 20

def EntryBuffer.read (buffer : EntryBuffer) (index : ℕ) : Except Fault MemoryEntry :=
  if h : index < 20 then .ok buffer[index] else .error .outOfBounds

def EntryBuffer.write (buffer : EntryBuffer) (index : ℕ) (entry : MemoryEntry) :
    Except Fault EntryBuffer :=
  if h : index < 20 then .ok (buffer.set index entry) else .error .outOfBounds

/-- The first loop: collect the usable entries, counting them in `index`. -/
def populate : List MemmapEntry → ℕ → EntryBuffer → Except Fault (ℕ × EntryBuffer)
  | [], index, buffer => .ok (index, buffer)
  | entry :: entries, index, buffer =>
    if entry.type = memmapUsable then do
      let buffer ← buffer.write index ⟨entry.base, entry.length⟩
      populate entries (index + 1) buffer
    else populate entries index buffer

/-- The second loop, from index `i` with the given number of rounds left. -/
def linkHeaders (hhdm : Word) (buffer : EntryBuffer) (index : ℕ) :
    ℕ → ℕ → BlockList → Except Fault BlockList
  | 0, _, list => .ok list
  | remaining + 1, i, list => do
    let entry ← buffer.read i
    let nextEntry ← buffer.read (i + 1)
    let pmblk := paddrToVaddr hhdm entry.base
    let list ← list.writeLength pmblk entry.length
    let list ← list.writeNext pmblk
      (if i = index - 1 then 0 else paddrToVaddr hhdm nextEntry.base)
    linkHeaders hhdm buffer index remaining (i + 1) list

/-- `uninitialised` is what the stack happens to hold where the buffer lives. -/
def initialiseHeaders (hhdm : Word) (entries : List MemmapEntry) (uninitialised : EntryBuffer)
    (list : BlockList) : Except Fault BlockList := do
  let (index, buffer) ← populate entries 0 uninitialised
  let list ← linkHeaders hhdm buffer index index 0 list
  let first ← buffer.read 0
  return list.setHead (paddrToVaddr hhdm first.base)

/-! ## `pmm` -/

def round (src : Word) (multiple : BitVec 8) : Word :=
  (src + (multiple / 2).setWidth 64) / multiple.setWidth 64 * multiple.setWidth 64

/-- More steps than there are addresses. -/
def walkBound : ℕ := 2 ^ 64

/-- `reinterpret_cast<void*>(-1)` -/
def allocFailed : Word := -1

/-- Cut `nbytes` off the low end of the block `mptr`. -/
def takeFrom (nbytes mptr next prev index : Word) (list : BlockList) :
    Except Fault (Word × BlockList) := do
  let length ← list.readLength mptr
  let allocated := mptr
  let mptr := mptr + nbytes
  let list ← list.writeNext allocated mptr
  let list ← list.writeLength allocated nbytes
  let list ← if prev = 0 then .ok list else list.writeNext prev mptr
  let list ← list.writeNext mptr next
  let list ← list.writeLength mptr (length - nbytes)
  let list := if index = 0 then list.setHead mptr else list
  return (allocated + blockSize, list)

/-- The `while` loop of `allocHeap`. -/
def allocWalk (nbytes : Word) :
    ℕ → Word → Word → Word → Word → BlockList → Except Fault (Word × BlockList)
  | 0, _, _, _, _, _ => .error .divergence
  | fuel + 1, mptr, next, prev, index, list =>
    if mptr = 0 then .ok (allocFailed, list)
    else do
      let length ← list.readLength mptr
      if nbytes < length then takeFrom nbytes mptr next prev index list
      else
        let prev := mptr
        let mptr ← list.readNext mptr
        let next ← list.readNext mptr
        allocWalk nbytes fuel mptr next prev (index + 1) list

/-- The size of the chunk that `allocHeap` cuts for a request. -/
def roundedSize (nbytes : Word) : Word :=
  round (if nbytes < 16 then 16 + nbytes else nbytes) 16

def allocHeap (nbytes : Word) (list : BlockList) : Except Fault (Word × BlockList) :=
  if nbytes ≤ 0 then .ok (allocFailed, list)
  else do
    let mptr := list.getHead
    let next ← list.readNext mptr
    allocWalk (roundedSize nbytes) walkBound mptr next 0 0 list

/-- The `while` loop of `allocStack`, which ends at the last block. -/
def lastWalk : ℕ → Word → Word → BlockList → Except Fault Word
  | 0, _, _, _ => .error .divergence
  | fuel + 1, mptr, next, list =>
    if next = 0 then .ok mptr
    else do
      let mptr ← list.readNext mptr
      let next ← list.readNext mptr
      lastWalk fuel mptr next list

/-- The size of the chunk that `allocStack` cuts for a request. -/
def stackSize (nbytes : Word) : Word := if nbytes < 16 then 32 + nbytes else nbytes

/-- The chunk is taken from below the last block, whatever lies there. -/
def allocStack (nbytes : Word) (list : BlockList) : Except Fault (Word × BlockList) :=
  if nbytes ≤ 0 then .ok (allocFailed, list)
  else do
    let mptr := list.getHead
    let next ← list.readNext mptr
    let mptr ← lastWalk walkBound mptr next list
    let allocsize := stackSize nbytes
    let allocated := mptr - allocsize
    let list ← list.writeNext allocated 0
    let list ← list.writeLength allocated allocsize
    let length ← list.readLength mptr
    let list ← list.writeLength mptr (length - allocsize)
    return (allocated + blockSize, list)

/-- The `while` loop of `free`, which ends with the two blocks to insert between. -/
def freeWalk (mptr : Word) : ℕ → Word → BlockList → Except Fault (Word × Word)
  | 0, _, _ => .error .divergence
  | fuel + 1, next, list => do
    let current := next
    let next ← list.readNext current
    if mptr ≤ current ∧ mptr ≤ next then .ok (current, next) else freeWalk mptr fuel next list

/-- The tail of `free`: put `mptr` after `current`, coalescing it with `next` when they touch. -/
def insertBetween (mptr current next : Word) (list : BlockList) : Except Fault BlockList := do
  let length ← list.readLength mptr
  if mptr + length = next then
    let nextLength ← list.readLength next
    let list ← list.writeLength mptr (length + nextLength)
    let nextNext ← list.readNext next
    let list ← list.writeNext mptr nextNext
    list.writeNext current mptr
  else
    let list ← list.writeNext current mptr
    list.writeNext mptr next

/-- The test for the head of the list names the function `list::getHead` without calling it, so it
compares with the address of that function's code. -/
def free (getHeadAddress base : Word) (list : BlockList) : Except Fault BlockList := do
  let mptr := base - blockSize
  let length ← list.readLength mptr
  if mptr + length = getHeadAddress then
    let headLength ← list.readLength list.getHead
    let list ← list.writeLength mptr (length + headLength)
    let headNext ← list.readNext list.getHead
    let list ← list.writeNext mptr headNext
    return list.setHead mptr
  else
    let current := list.getHead
    let next ← list.readNext current
    if mptr < current then
      let list ← list.writeNext mptr list.getHead
      return list.setHead mptr
    else if current ≤ mptr ∧ mptr ≤ next then insertBetween mptr current next list
    else
      let (current, next) ← freeWalk mptr walkBound next list
      insertBetween mptr current next list

end PenelopeOS.Memory
