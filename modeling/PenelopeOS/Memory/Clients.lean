import PenelopeOS.Foundation.ObjectStore
import PenelopeOS.Memory.ByteStrings
import PenelopeOS.Memory.HeapTiling

/-!
# What the heap is to its clients

`operator new` and `operator delete` are `allocHeap` and `free`. In between, clients fill, copy,
compare and read the bytes of their payloads with the functions of `string.h`. To them the heap is a
store of objects: no request, no release and no write of one client changes a byte of another, so
every byte that is read is the one that its owner wrote last.
-/

namespace PenelopeOS.Memory

open Machine Foundation Extent Limine

/-- `operator new` -/
def operatorNew (n : Word) (list : BlockList) : Except Fault (Word × BlockList) := allocHeap n list

/-- `operator delete`, with or without the size, which is only printed. -/
def operatorDelete (getHeadAddress vaddr : Word) (list : BlockList) : Except Fault BlockList :=
  free getHeadAddress vaddr list

/-- What a client does, and what it is told. -/
inductive ClientEvent where
  | new (n ptr : Word)
  | delete (vaddr : Word)
  | memset (s : Word) (first : ℕ) (c : BitVec 32) (n : Word)
  | memcpy (dest : Word) (first : ℕ) (src : Word) (start : ℕ) (n : Word)
  | memmove (dest : Word) (first : ℕ) (src : Word) (start : ℕ) (n : Word)
  | memcmp (s1 : Word) (first : ℕ) (s2 : Word) (start : ℕ) (n : Word) (answer : Ordering)
  | load (base : Word) (index : ℕ) (value : BitVec 8)

namespace HeapState

/-- The bytes from `first` on lie in the payload behind a held pointer. -/
def Owns (state : HeapState) (base : Word) (first count : ℕ) : Prop :=
  base ∈ state.live ∧ first + count ≤ (payloadAt state.list.memory base).length

def withMemory (state : HeapState) (memory : Memory) : HeapState :=
  ⟨⟨memory, state.list.head⟩, state.live⟩

end HeapState

/-- The steps that complete. Clients keep to their payloads, and do not use `memcpy` to move bytes up
within an overlap. -/
inductive ClientStep (getHeadAddress : Word) : HeapState → ClientEvent → HeapState → Prop
  | new {state : HeapState} {n ptr : Word} {list : BlockList}
      (hrun : operatorNew n state.list = .ok (ptr, list)) :
      ClientStep getHeadAddress state (.new n ptr)
        ⟨list, if ptr = allocFailed then state.live else ptr :: state.live⟩
  | delete {state : HeapState} {vaddr : Word} {list : BlockList} (hlive : vaddr ∈ state.live)
      (hrun : operatorDelete getHeadAddress vaddr state.list = .ok list) :
      ClientStep getHeadAddress state (.delete vaddr) ⟨list, state.live.erase vaddr⟩
  | memset {state : HeapState} {s n ptr : Word} {first : ℕ} {c : BitVec 32} {memory : Memory}
      (howns : state.Owns s first n.toNat)
      (hrun : Memory.memset (byteAt s first) c n state.list.memory = .ok (ptr, memory)) :
      ClientStep getHeadAddress state (.memset s first c n) (state.withMemory memory)
  | memcpy {state : HeapState} {dest src n ptr : Word} {first start : ℕ} {memory : Memory}
      (howns : state.Owns dest first n.toNat) (hreads : state.Owns src start n.toNat)
      (hup : dest = src → first ≤ start ∨ start + n.toNat ≤ first)
      (hrun : Memory.memcpy (byteAt dest first) (byteAt src start) n state.list.memory =
        .ok (ptr, memory)) :
      ClientStep getHeadAddress state (.memcpy dest first src start n) (state.withMemory memory)
  | memmove {state : HeapState} {dest src n ptr : Word} {first start : ℕ} {memory : Memory}
      (howns : state.Owns dest first n.toNat) (hreads : state.Owns src start n.toNat)
      (hrun : Memory.memmove (byteAt dest first) (byteAt src start) n state.list.memory =
        .ok (ptr, memory)) :
      ClientStep getHeadAddress state (.memmove dest first src start n) (state.withMemory memory)
  | memcmp {state : HeapState} {s1 s2 n : Word} {first start : ℕ} {answer : Ordering}
      (hreads : state.Owns s1 first n.toNat) (hreads' : state.Owns s2 start n.toNat)
      (hrun : Memory.memcmp (byteAt s1 first) (byteAt s2 start) n state.list.memory =
        .ok (signOf answer)) :
      ClientStep getHeadAddress state (.memcmp s1 first s2 start n answer) state
  | load {state : HeapState} {base : Word} {index : ℕ} (hreads : state.Owns base index 1) :
      ClientStep getHeadAddress state
        (.load base index (state.list.memory (byteAt base index))) state

abbrev ClientRun (getHeadAddress : Word) :
    HeapState → List (HeapState × ClientEvent) → HeapState → Prop :=
  Run (ClientStep getHeadAddress)

/-- The size of a request survives the rounding. -/
def ClientEvent.Fits : ClientEvent → Prop
  | .new n _ => n.toNat + 8 < 2 ^ 64
  | _ => True

/-- What an event is to the store of objects. -/
def ClientEvent.action : ClientEvent → Option (ObjectAction Word (BitVec 8))
  | .new n ptr => if ptr = allocFailed then none else some (.create ptr (chunkSize n.toNat - 16))
  | .delete vaddr => some (.destroy vaddr)
  | .memset s first c n => some (.fill s first n.toNat (c.setWidth 8))
  | .memcpy dest first src start n => some (.copy dest first src start n.toNat)
  | .memmove dest first src start n => some (.copy dest first src start n.toNat)
  | .memcmp s1 first s2 start n answer => some (.compare s1 first s2 start n.toNat answer)
  | .load base index value => some (.read base index value)

/-- The objects are the payloads of the held pointers, and memory holds their bytes. -/
structure Implements (layout : Layout) (state : HeapState)
    (store : ObjectStore Word (BitVec 8)) : Prop where
  arena : ∃ arena : Arena layout, Represents state arena
  live : ∀ base, (store base).isSome ↔ base ∈ state.live
  size : ∀ base object, store base = some object →
    object.size = (payloadAt state.list.memory base).length
  holds : Holds byteAt state.list.memory store

variable {layout : Layout} {state state' : HeapState} {arena : Arena layout} {memory memory' : Memory}
  {base other ptr n : Word} {list' : BlockList} {store : ObjectStore Word (BitVec 8)}
  {extents : List Extent} {index first count : ℕ}

/-! ## What is left alone -/

theorem chunkAt_injective (h : chunkAt memory base = chunkAt memory other) : base = other := by
  have hbase : base - blockSize = other - blockSize := BitVec.eq_of_toNat_eq (congrArg Extent.base h)
  exact sub_left_injective hbase

namespace Represents

variable (h : Represents state arena)

include h

theorem toNat_payload (hlive : base ∈ state.live)
    (hindex : index < (payloadAt state.list.memory base).length) :
    (byteAt base index).toNat = (payloadAt state.list.memory base).base + index := by
  have hbound := (h.granular hlive).stop_le
  have hvalue : ((base - blockSize) + blockSize).toNat = ((base - blockSize).toNat + 16) % 2 ^ 64 := by
    rw [BitVec.toNat_add]
    rfl
  rw [sub_add_cancel] at hvalue
  simp only [payloadAt, chunkAt, stop, upper_base, upper_length] at hindex hbound ⊢
  rw [byteAt, BitVec.toNat_add, BitVec.toNat_ofNat]
  omega

theorem byteAt_mem (hlive : base ∈ state.live)
    (hindex : index < (payloadAt state.list.memory base).length) :
    (byteAt base index).toNat ∈ (chunkAt state.list.memory base).bytes := by
  apply h.payload_subset hlive
  rw [mem_bytes, h.toNat_payload hlive hindex]
  simp only [stop]
  omega

theorem disjoint_chunks (hlive : base ∈ state.live) (hother : other ∈ state.live)
    (hne : base ≠ other) : Disjoint (chunkAt state.list.memory base).bytes
      (chunkAt state.list.memory other).bytes :=
  h.tiles.disjoint_of_ne (List.mem_append_right _ (List.mem_map_of_mem hlive))
    (List.mem_append_right _ (List.mem_map_of_mem hother)) fun heq ↦ hne (chunkAt_injective heq)

theorem nodup_live : state.live.Nodup := by
  have hnodup := h.tiles.nodup fun extent hextent ↦
    bytes_nonempty (arena.granular extent (h.live ▸ hextent)).length_pos
  exact (List.nodup_append.mp hnodup).2.1.of_map _

/-- A held chunk apart from all changes keeps its header and its payload. -/
theorem kept (hlive : base ∈ state.live) (hagree : AgreeOutside extents state.list.memory memory')
    (hdisjoint : ∀ changed ∈ extents,
      Disjoint changed.bytes (chunkAt state.list.memory base).bytes) :
    chunkAt memory' base = chunkAt state.list.memory base ∧
      ∀ index < (payloadAt state.list.memory base).length,
        memory' (byteAt base index) = state.list.memory (byteAt base index) := by
  constructor
  · apply chunkAt_frame hagree (h.granular hlive)
    intro changed hchanged
    exact (hdisjoint changed hchanged).mono_right (h.header_subset hlive)
  · intro index hindex
    apply hagree
    intro changed hchanged
    exact Set.disjoint_right.mp (hdisjoint changed hchanged) (h.byteAt_mem hlive hindex)

/-- A request changes nothing but free blocks. -/
theorem agreeOutside_allocHeap (hne : n ≠ 0)
    (hrun : Memory.allocHeap n state.list = .ok (ptr, list')) :
    AgreeOutside arena.free state.list.memory list'.memory := by
  by_cases hlong : ∃ block ∈ arena.free, (roundedSize n).toNat < block.length
  · obtain ⟨before, block, after, hfree, hbefore, hblock⟩ := exists_firstFit hlong
    obtain ⟨mptr, list'', hok, -, -, -, hagree, -⟩ :=
      allocHeap_ok (hfree ▸ h.wellFormed) hne hbefore hblock
    obtain ⟨-, rfl⟩ := ok_pair_inj hrun hok
    rwa [hfree]
  · have hshort : ∀ block ∈ arena.free, block.length ≤ (roundedSize n).toNat := by
      intro block hmem
      exact not_lt.mp fun hblock ↦ hlong ⟨block, hmem, hblock⟩
    rw [allocHeap_error h.wellFormed hne hshort] at hrun
    cases hrun

/-- A release changes nothing but the chunk and free blocks. -/
theorem agreeOutside_free (hlive : base ∈ state.live)
    (hrun : Memory.free layout.getHeadAddress base state.list = .ok list') :
    AgreeOutside (chunkAt state.list.memory base :: arena.free) state.list.memory list'.memory := by
  have hmem := h.mem_live hlive
  have hcode := arena.add_ne_code (List.mem_append_right _ hmem) stores_chunkAt
  have hspec := free_spec h.wellFormed stores_chunkAt (h.granular hlive)
    (fun block hblock ↦ arena.disjoint_of_live hmem hblock) hcode
  rw [sub_add_cancel] at hspec
  rcases hspec with ⟨-, herror⟩ | ⟨free', list'', -, hok, -, hagree⟩
  · rw [herror] at hrun
    cases hrun
  · rw [hok] at hrun
    obtain rfl := Except.ok.inj hrun
    exact hagree

/-- Bytes that a client owns do not go around the end of the address space. -/
theorem owned_le (howns : state.Owns base first n.toNat) :
    (byteAt base first).toNat + n.toNat ≤ 2 ^ 64 := by
  obtain ⟨hlive, hfits⟩ := howns
  have hbound := (h.granular hlive).stop_le
  have hsixteen := (h.granular hlive).sixteen_le
  have hword := (byteAt base first).isLt
  by_cases hzero : n.toNat = 0
  · omega
  · rw [h.toNat_payload hlive (by omega)]
    simp only [payloadAt, chunkAt, stop, upper_base, upper_length] at hfits hbound hsixteen ⊢
    omega

/-- A change of the bytes from `first` on is one of that part of the payload. -/
theorem agreeOutside_owned (howns : state.Owns base first n.toNat)
    (hunchanged : ∀ location : Word, ¬ ((byteAt base first).toNat ≤ location.toNat ∧
      location.toNat < (byteAt base first).toNat + n.toNat) →
        memory' location = state.list.memory location) :
    AgreeOutside [⟨(payloadAt state.list.memory base).base + first, n.toNat⟩] state.list.memory
      memory' := by
  intro location houtside
  obtain ⟨hlive, hfits⟩ := howns
  apply hunchanged
  by_cases hzero : n.toNat = 0
  · omega
  · rw [List.forall_mem_singleton] at houtside
    rwa [h.toNat_payload hlive (by omega)]

/-- Ranges of different payloads lie apart. -/
theorem owned_apart (howns : state.Owns base first n.toNat) (howns' : state.Owns other index n.toNat)
    (hne : base ≠ other) : (byteAt base first).toNat ≤ (byteAt other index).toNat ∨
      (byteAt other index).toNat + n.toNat ≤ (byteAt base first).toNat := by
  have hapart := (disjoint_iff (h.granular howns.1).length_pos (h.granular howns'.1).length_pos).mp
    (h.disjoint_chunks howns.1 howns'.1 hne)
  obtain ⟨hlive, hfits⟩ := howns
  obtain ⟨hlive', hfits'⟩ := howns'
  by_cases hzero : n.toNat = 0
  · omega
  · rw [h.toNat_payload hlive (by omega), h.toNat_payload hlive' (by omega)]
    simp only [payloadAt, stop, upper_base, upper_length] at hapart hfits hfits' ⊢
    omega

end Represents

theorem byteAt_byteAt : byteAt (byteAt base first) index = byteAt base (first + index) := by
  simp only [byteAt, BitVec.ofNat_add, add_assoc]

theorem signOf_injective {order order' : Ordering} (h : signOf order = signOf order') :
    order = order' := by
  cases order <;> cases order' <;> first | rfl | cases h

/-! ## Steps -/

namespace Implements

variable (h : Implements layout state store)

include h

theorem exists_object (hlive : base ∈ state.live) : ∃ object, store base = some object :=
  Option.isSome_iff_exists.mp ((h.live base).mpr hlive)

theorem mem_live {object : Object (BitVec 8)} (hobject : store base = some object) :
    base ∈ state.live :=
  (h.live base).mp (Option.isSome_iff_exists.mpr ⟨object, hobject⟩)

/-- Memory that changes only apart from the held chunks holds the same objects. -/
theorem holds_of_agree (hagree : AgreeOutside extents state.list.memory memory')
    (hdisjoint : ∀ base ∈ state.live, ∀ changed ∈ extents,
      Disjoint changed.bytes (chunkAt state.list.memory base).bytes) :
    Holds byteAt memory' store := by
  obtain ⟨arena, hrep⟩ := h.arena
  refine h.holds.frame fun base object hobject index hindex ↦ ?_
  have hlive := h.mem_live hobject
  rw [h.size base object hobject] at hindex
  exact (hrep.kept hlive hagree (hdisjoint base hlive)).2 index hindex

theorem new (hfits : n.toNat + 8 < 2 ^ 64) (hrun : operatorNew n state.list = .ok (ptr, list')) :
    ∃ store', (ClientEvent.new n ptr).action.elim (some store) store.apply = some store' ∧
      Implements layout ⟨list', if ptr = allocFailed then state.live else ptr :: state.live⟩
        store' := by
  obtain ⟨arena, hrep⟩ := h.arena
  rw [operatorNew] at hrun
  by_cases hne : n = 0
  · -- nothing is handed out
    subst hne
    rw [allocHeap_zero] at hrun
    obtain ⟨rfl, rfl⟩ := Prod.mk.inj (Except.ok.inj hrun)
    exact ⟨store, rfl, h⟩
  · rcases hrep.allocHeap hne hfits with ⟨-, herror⟩ |
      ⟨before, block, after, ptr', list'', hfree, hpos, hsize, -, hok, hfailed, hchunk, hnew⟩
    · rw [herror] at hrun
      cases hrun
    · have hagree := hrep.agreeOutside_allocHeap hne hrun
      obtain ⟨rfl, rfl⟩ := ok_pair_inj hrun hok
      have hdisjoint (base : Word) (hlive : base ∈ state.live) (changed : Extent)
          (hchanged : changed ∈ arena.free) :
          Disjoint changed.bytes (chunkAt state.list.memory base).bytes :=
        arena.disjoint_of_live (hrep.mem_live hlive) hchanged
      have hfresh : ptr ∉ state.live := (List.nodup_cons.mp hnew.nodup_live).1
      have hnone : store ptr = none := by
        by_contra hsome
        exact hfresh ((h.live ptr).mp (Option.isSome_iff_ne_none.mpr hsome))
      simp only [ClientEvent.action, if_neg hfailed, Option.elim_some, ObjectStore.apply, hnone,
        Option.isNone_none, if_true]
      refine ⟨_, rfl, ⟨_, hnew⟩, fun base ↦ ?_, fun base object hobject ↦ ?_,
        (h.holds_of_agree hagree hdisjoint).create _⟩
      · by_cases hbase : base = ptr
        · subst hbase
          simp
        · rw [Function.update_of_ne hbase, h.live, List.mem_cons, or_iff_right hbase]
      · by_cases hbase : base = ptr
        · subst hbase
          rw [Function.update_self] at hobject
          obtain rfl := Option.some.inj hobject
          simp only [payloadAt, hchunk]
          rfl
        · rw [Function.update_of_ne hbase] at hobject
          have hlive := h.mem_live hobject
          have hkept := (hrep.kept hlive hagree (hdisjoint base hlive)).1
          rw [h.size base object hobject, payloadAt, payloadAt, hkept]

theorem delete (hlive : base ∈ state.live)
    (hrun : operatorDelete layout.getHeadAddress base state.list = .ok list') :
    ∃ store', store.apply (.destroy base) = some store' ∧
      Implements layout ⟨list', state.live.erase base⟩ store' := by
  obtain ⟨arena, hrep⟩ := h.arena
  obtain ⟨object, hobject⟩ := h.exists_object hlive
  rw [operatorDelete] at hrun
  have hagree := hrep.agreeOutside_free hlive hrun
  have hnodup := hrep.nodup_live
  have hdisjoint (other : Word) (hother : other ∈ state.live) (hne : other ≠ base)
      (changed : Extent) (hchanged : changed ∈ chunkAt state.list.memory base :: arena.free) :
      Disjoint changed.bytes (chunkAt state.list.memory other).bytes := by
    rcases List.mem_cons.mp hchanged with rfl | hchanged
    · exact hrep.disjoint_chunks hlive hother hne.symm
    · exact arena.disjoint_of_live (hrep.mem_live hother) hchanged
  refine ⟨Function.update store base none, by rw [ObjectStore.apply, hobject]; rfl, ?_, fun other ↦ ?_,
    fun other object hother ↦ ?_, ?_⟩
  · rcases hrep.free hlive with ⟨-, herror⟩ | ⟨free', list'', hrelease, hok, hnew⟩
    · rw [herror] at hrun
      cases hrun
    · rw [hok] at hrun
      obtain rfl := Except.ok.inj hrun
      exact ⟨_, hnew⟩
  · rw [hnodup.mem_erase_iff]
    by_cases hother : other = base
    · subst hother
      simp
    · rw [Function.update_of_ne hother, h.live]
      simp [hother]
  · by_cases hne : other = base
    · subst hne
      rw [Function.update_self] at hother
      cases hother
    · rw [Function.update_of_ne hne] at hother
      have hotherLive := h.mem_live hother
      have hkept := (hrep.kept hotherLive hagree (hdisjoint other hotherLive hne)).1
      rw [h.size other object hother, payloadAt, payloadAt, hkept]
  · refine h.holds.destroy.frame fun other object hother index hindex ↦ ?_
    by_cases hne : other = base
    · subst hne
      rw [Function.update_self] at hother
      cases hother
    · rw [Function.update_of_ne hne] at hother
      have hotherLive := h.mem_live hother
      rw [h.size other object hother] at hindex
      exact (hrep.kept hotherLive hagree (hdisjoint other hotherLive hne)).2 index hindex

/-- A change of some bytes of one payload is a `put` of its object. -/
theorem put (values : ℕ → Option (BitVec 8)) (howns : state.Owns base first count)
    (hagree : AgreeOutside [⟨(payloadAt state.list.memory base).base + first, count⟩]
      state.list.memory memory')
    (hvalues : ∀ index < count, ∀ value ∈ values index,
      memory' (byteAt base (first + index)) = value) :
    ∃ object, store base = some object ∧ first + count ≤ object.size ∧
      Implements layout (state.withMemory memory')
        (Function.update store base (some (object.put first count values))) := by
  obtain ⟨arena, hrep⟩ := h.arena
  obtain ⟨hlive, hfits⟩ := howns
  obtain ⟨object, hobject⟩ := h.exists_object hlive
  have hsize := h.size base object hobject
  have hpayload : AgreeOutside (state.live.map (payloadAt state.list.memory)) state.list.memory
      memory' := by
    intro location houtside
    apply hagree
    rw [List.forall_mem_singleton]
    have hout := houtside _ (List.mem_map_of_mem hlive)
    simp only [mem_bytes, stop] at hout ⊢
    omega
  have hwrite := hrep.write hpayload
  have hchunk : ∀ other ∈ state.live, chunkAt memory' other = chunkAt state.list.memory other :=
    List.map_inj_left.mp (hwrite.live.symm.trans hrep.live)
  refine ⟨object, hobject, hsize ▸ hfits, ⟨arena, hwrite⟩, fun other ↦ ?_,
    fun other object' hother ↦ ?_, h.holds.put hobject hvalues fun other object' hother index hindex
      hrow ↦ ?_⟩
  · by_cases hne : other = base
    · subst hne
      simp [HeapState.withMemory, hlive]
    · rw [Function.update_of_ne hne]
      exact h.live other
  · by_cases hne : other = base
    · subst hne
      rw [Function.update_self] at hother
      obtain rfl := Option.some.inj hother
      rw [Object.put_size, hsize, payloadAt, payloadAt]
      exact congrArg (fun extent ↦ (upper extent 16).length) (hchunk other hlive).symm
    · rw [Function.update_of_ne hne] at hother
      rw [h.size other object' hother, payloadAt, payloadAt]
      exact congrArg (fun extent ↦ (upper extent 16).length) (hchunk other (h.mem_live hother)).symm
  · have hotherLive := h.mem_live hother
    rw [h.size other object' hother] at hindex
    by_cases hne : other = base
    · subst hne
      apply hagree
      rw [List.forall_mem_singleton, mem_bytes, hrep.toNat_payload hotherLive hindex]
      have hrow := hrow rfl
      simp only [stop]
      omega
    · refine (hrep.kept hotherLive hagree ?_).2 index hindex
      rw [List.forall_mem_singleton]
      refine (hrep.disjoint_chunks hlive hotherLive (Ne.symm hne)).mono_left ?_
      refine Set.Subset.trans ?_ (hrep.payload_subset hlive)
      intro location hlocation
      simp only [mem_bytes, stop] at hlocation ⊢
      omega

theorem memset {s : Word} {c : BitVec 32} (howns : state.Owns s first n.toNat)
    (hrun : Memory.memset (byteAt s first) c n state.list.memory = .ok (ptr, memory')) :
    ∃ store', store.apply (.fill s first n.toNat (c.setWidth 8)) = some store' ∧
      Implements layout (state.withMemory memory') store' := by
  obtain ⟨arena, hrep⟩ := h.arena
  rw [memset_eq] at hrun
  obtain ⟨-, rfl⟩ := Prod.mk.inj (Except.ok.inj hrun)
  have hbound := hrep.owned_le howns
  have hagree : AgreeOutside [⟨(payloadAt state.list.memory s).base + first, n.toNat⟩]
      state.list.memory (fun location ↦
        if location - byteAt s first < n then c.setWidth 8 else state.list.memory location) := by
    refine hrep.agreeOutside_owned howns fun location houtside ↦ if_neg fun hinside ↦ houtside ?_
    have hrange := location.isLt
    rw [BitVec.lt_def, BitVec.toNat_sub] at hinside
    omega
  have hvalues : ∀ index < n.toNat, ∀ value ∈ some (c.setWidth 8),
      (if byteAt s (first + index) - byteAt s first < n then c.setWidth 8
        else state.list.memory (byteAt s (first + index))) = value := by
    intro index hindex value hvalue
    rw [← Option.some.inj hvalue, ← byteAt_byteAt, byteAt, add_sub_cancel_left, if_pos]
    rw [BitVec.lt_def, BitVec.toNat_ofNat]
    omega
  obtain ⟨object, hobject, hfits, himplements⟩ :=
    h.put (fun _ ↦ some (c.setWidth 8)) howns hagree hvalues
  refine ⟨_, ?_, himplements⟩
  rw [ObjectStore.apply, hobject, Option.bind_some, if_pos hfits]

theorem copy {dest src : Word} {start : ℕ} (howns : state.Owns dest first n.toNat)
    (hreads : state.Owns src start n.toNat)
    (hmoved : Moved (byteAt dest first) (byteAt src start) n state.list.memory memory') :
    ∃ store', store.apply (.copy dest first src start n.toNat) = some store' ∧
      Implements layout (state.withMemory memory') store' := by
  obtain ⟨arena, hrep⟩ := h.arena
  obtain ⟨origin, horigin⟩ := h.exists_object hreads.1
  have hstart : start + n.toNat ≤ origin.size := h.size src origin horigin ▸ hreads.2
  have hvalues : ∀ index < n.toNat, ∀ value ∈ origin.cells (start + index),
      memory' (byteAt dest (first + index)) = value := by
    intro index hindex value hvalue
    have hlt : BitVec.ofNat 64 index < n := by
      rw [BitVec.lt_def, BitVec.toNat_ofNat]
      omega
    have hcopied := hmoved.copied (BitVec.ofNat 64 index) hlt
    change memory' (byteAt (byteAt dest first) index) =
      state.list.memory (byteAt (byteAt src start) index) at hcopied
    rw [byteAt_byteAt, byteAt_byteAt] at hcopied
    exact hcopied.trans (h.holds src origin horigin (start + index) (by omega) value hvalue)
  obtain ⟨object, hobject, hfits, himplements⟩ :=
    h.put (fun index ↦ origin.cells (start + index)) howns
      (hrep.agreeOutside_owned howns hmoved.unchanged) hvalues
  refine ⟨_, ?_, himplements⟩
  rw [ObjectStore.apply, hobject, horigin, Option.bind_some, Option.bind_some,
    if_pos ⟨hfits, hstart⟩]

theorem compare {s1 s2 : Word} {start : ℕ} {answer : Ordering} (hreads : state.Owns s1 first n.toNat)
    (hreads' : state.Owns s2 start n.toNat)
    (hrun : Memory.memcmp (byteAt s1 first) (byteAt s2 start) n state.list.memory =
      .ok (signOf answer)) :
    store.apply (.compare s1 first s2 start n.toNat answer) = some store := by
  obtain ⟨object, hobject⟩ := h.exists_object hreads.1
  obtain ⟨object', hobject'⟩ := h.exists_object hreads'.1
  have hfits : first + n.toNat ≤ object.size := h.size s1 object hobject ▸ hreads.2
  have hfits' : start + n.toNat ≤ object'.size := h.size s2 object' hobject' ▸ hreads'.2
  rw [memcmp_eq] at hrun
  have hanswer := signOf_injective (Except.ok.inj hrun)
  have hrows : ∀ row ∈ object.row first n.toNat, ∀ row' ∈ object'.row start n.toNat,
      answer = Ord.compare row row' := by
    intro row hrow row' hrow'
    rw [← hanswer, h.holds.row hobject hfits hrow, h.holds.row hobject' hfits' hrow']
    simp only [bytesFrom, byteAt_byteAt]
  rw [ObjectStore.apply, hobject, hobject', Option.bind_some, Option.bind_some,
    if_pos ⟨hfits, hfits', hrows⟩]

/-- A step of the clients is an action on the store. -/
theorem step {event : ClientEvent} (hfits : event.Fits)
    (hstep : ClientStep layout.getHeadAddress state event state') :
    ∃ store', event.action.elim (some store) store.apply = some store' ∧
      Implements layout state' store' := by
  obtain ⟨arena, hrep⟩ := h.arena
  cases hstep with
  | new hrun => exact h.new hfits hrun
  | delete hlive hrun => exact h.delete hlive hrun
  | memset howns hrun => exact h.memset howns hrun
  | @memcpy dest src n ptr first start memory' howns hreads hup hrun =>
    have hdest := hrep.owned_le howns
    have hsrc := hrep.owned_le hreads
    have hdir : (byteAt dest first).toNat ≤ (byteAt src start).toNat ∨
        (byteAt src start).toNat + n.toNat ≤ (byteAt dest first).toNat := by
      by_cases hsame : dest = src
      · subst hsame
        have hfits := howns.2
        have hfits' := hreads.2
        by_cases hzero : n.toNat = 0
        · omega
        · rw [hrep.toNat_payload howns.1 (by omega), hrep.toNat_payload hreads.1 (by omega)]
          have hoffsets := hup rfl
          omega
      · exact hrep.owned_apart howns hreads hsame
    obtain ⟨memory'', hok, hmoved⟩ := memcpy_moved state.list.memory hdest hsrc hdir
    obtain ⟨-, rfl⟩ := ok_pair_inj hrun hok
    exact h.copy howns hreads hmoved
  | memmove howns hreads hrun =>
    obtain ⟨memory'', hok, hmoved⟩ := memmove_moved state.list.memory (hrep.owned_le howns)
      (hrep.owned_le hreads)
    obtain ⟨-, rfl⟩ := ok_pair_inj hrun hok
    exact h.copy howns hreads hmoved
  | memcmp hreads hreads' hrun => exact ⟨store, h.compare hreads hreads' hrun, h⟩
  | @load base index hreads =>
    obtain ⟨object, hobject⟩ := h.exists_object hreads.1
    have hindex : index < object.size := h.size base object hobject ▸ hreads.2
    have hknown : ∀ known ∈ object.cells index, known = state.list.memory (byteAt base index) :=
      fun known hmem ↦ (h.holds base object hobject index hindex known hmem).symm
    refine ⟨store, ?_, h⟩
    change (store base).bind _ = _
    rw [hobject, Option.bind_some, if_pos ⟨hindex, hknown⟩]

end Implements

/-! ## Runs -/

theorem ClientRun.implements {start : HeapState} {moves : List (HeapState × ClientEvent)}
    (hrun : ClientRun layout.getHeadAddress start moves state) (h : Implements layout start store)
    (hfits : ∀ move ∈ moves, move.2.Fits) :
    ∃ store', (moves.filterMap fun move ↦ move.2.action).foldlM ObjectStore.apply store =
        some store' ∧ Implements layout state store' := by
  induction hrun with
  | nil => exact ⟨store, rfl, h⟩
  | @snoc moves state state' event run hstep ih =>
    rw [List.forall_mem_append, List.forall_mem_singleton] at hfits
    obtain ⟨hmoves, hlast⟩ := hfits
    obtain ⟨middle, hmiddle, himplements⟩ := ih hmoves
    obtain ⟨store', happly, himplements'⟩ := himplements.step hlast hstep
    refine ⟨store', ?_, himplements'⟩
    rw [List.filterMap_append, List.foldlM_append, hmiddle]
    cases haction : event.action with
    | none =>
      rw [haction] at happly
      simpa [haction] using happly
    | some action =>
      rw [haction] at happly
      simpa [haction] using happly

/-- An answered request hands its chunk to the client. -/
theorem ClientStep.new_of_ne {getHeadAddress n ptr : Word} {list list' : BlockList}
    {live : List Word} (hrun : operatorNew n list = .ok (ptr, list')) (hne : ptr ≠ allocFailed) :
    ClientStep getHeadAddress ⟨list, live⟩ (.new n ptr) ⟨list', ptr :: live⟩ := by
  have hstep : ClientStep getHeadAddress ⟨list, live⟩ (.new n ptr) _ := .new hrun
  rwa [if_neg hne] at hstep

end PenelopeOS.Memory
