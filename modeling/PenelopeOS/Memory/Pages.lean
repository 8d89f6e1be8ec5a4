import PenelopeOS.Limine.MemoryMap
import PenelopeOS.Machine.Fault

/-!
# Page frames

The definitions of `pages.cpp` and `pages.hpp`, and of `printPageFrames` in `memory.cpp`. The number
of frames that are tracked is a parameter of the table and `availablePages` in the code.
`InitialisePageFrames` leaves both its loops as soon as the table is full, so `startOfRam` is assigned
only after a usable entry that did not fill it. The index it compares with is kept in eight bits, with
zero for none yet.
-/

namespace PenelopeOS.Memory

open Machine Limine

/-- `page` -/
structure Page where
  base : Word
  flags : Word
  count : BitVec 32
  deriving DecidableEq, Repr

structure PageFrames (size : ℕ) where
  frameMap : Vector Page size
  startOfRam : Word

def availablePages : ℕ := 0x1fc000

namespace PageFrames

variable {size : ℕ}

/-- The table before its first use. -/
def zero (size : ℕ) : PageFrames size where
  frameMap := Vector.replicate _ ⟨0, 0, 0⟩
  startOfRam := 0

/-- `frameMap[frameIndex] = frame` -/
def write (frames : PageFrames size) (frameIndex : ℕ) (frame : Page) :
    Except Fault (PageFrames size) :=
  if h : frameIndex < size then
    .ok { frames with frameMap := frames.frameMap.set frameIndex frame }
  else .error .outOfBounds

/-- The loop over the pages of one entry, up to `stop`. It ends with whether it filled the table. -/
def archivePages (stop : Word) :
    ℕ → Word → ℕ → PageFrames size → Except Fault (Bool × ℕ × PageFrames size)
  | 0, _, _, _ => .error .divergence
  | fuel + 1, paddr, frameIndex, frames =>
    if paddr < stop then do
      let frames ← frames.write frameIndex ⟨paddr, 0, -1⟩
      let frameIndex := frameIndex + 1
      if frameIndex = size then return (true, frameIndex, frames)
      else archivePages stop fuel (paddr + 0x1000) frameIndex frames
    else return (false, frameIndex, frames)

/-- The loop over the entries, from index `i` on. Each round of the inner loop fills a frame. -/
def archiveEntries : List MemmapEntry → ℕ → BitVec 8 → ℕ → PageFrames size →
    Except Fault (PageFrames size)
  | [], _, _, _, frames => .ok frames
  | entry :: entries, i, initialBlockIndex, frameIndex, frames =>
    if entry.type = memmapUsable then do
      let initialBlockIndex :=
        if initialBlockIndex = 0 then BitVec.ofNat 8 i else initialBlockIndex
      let (finished, frameIndex, frames) ←
        archivePages (entry.base + entry.length) (size + 1) entry.base frameIndex frames
      if finished then return frames
      else
        let frames :=
          if i = initialBlockIndex.toNat then { frames with startOfRam := entry.base } else frames
        archiveEntries entries (i + 1) initialBlockIndex frameIndex frames
    else archiveEntries entries (i + 1) initialBlockIndex frameIndex frames

/-- `InitialisePageFrames` -/
def initialise (entries : List MemmapEntry) (frames : PageFrames size) :
    Except Fault (PageFrames size) :=
  archiveEntries entries 0 0 0 frames

/-- `PageAddress` -/
def pageAddress (frames : PageFrames size) (frameNumber : ℕ) : Except Fault Word :=
  if h : frameNumber < size then .ok frames.frameMap[frameNumber].base else .error .outOfBounds

/-- `PhysicalToPageN` -/
def physicalToPageN (frames : PageFrames size) (paddr : Word) : Word :=
  (paddr - frames.startOfRam) / 0x1000

end PageFrames

/-- The inner loop of `printPageFrames`, which prints the pages of an entry up to `stop`. -/
def printPages (stop : Word) : ℕ → Word → Except Fault (List Word)
  | 0, _ => .error .divergence
  | fuel + 1, paddr =>
    if paddr < stop then do
      let rest ← printPages stop fuel (paddr + 0x1000)
      return paddr :: rest
    else return []

/-- `printPageFrames`, the same two loops without a table to fill: the pages that they visit. The
inner one ends before it has seen every address, or never. -/
def printPageFrames : List MemmapEntry → Except Fault (List Word)
  | [] => .ok []
  | entry :: entries =>
    if entry.type = memmapUsable then do
      let pages ← printPages (entry.base + entry.length) (2 ^ 64) entry.base
      let rest ← printPageFrames entries
      return pages ++ rest
    else printPageFrames entries

/-- The number of pages of an entry. -/
def pagesOf (entry : MemmapEntry) : ℕ := entry.length.toNat / 0x1000

/-- The loop of `GetBootPages`. -/
def countBootPages (entries : List MemmapEntry) : Word :=
  sumUsable (fun entry ↦ entry.length / 0x1000) entries

/-- `GetBootPages`, whose sum does not wrap (`toNat_countBootPages`). -/
def getBootPages (entries : List MemmapEntry) : ℕ := ((usable entries).map pagesOf).sum

/-- `CheckBootPages` does not halt. -/
def CheckBootPages (size : ℕ) (entries : List MemmapEntry) : Prop := ¬ size > getBootPages entries

end PenelopeOS.Memory
