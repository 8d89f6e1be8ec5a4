import Mathlib.Data.List.Basic

/-!
# Singly linked list segments

A node is a position of some type. `next` follows its link and `stores` says which item it holds.
A segment from one position to another spells a list of items. Segments are the unit in which a
linked list is walked, cut at a node and put back together after the node has been rewritten.
-/

namespace PenelopeOS.Foundation

variable {α β : Type*}

/-- The nodes from `start`, followed along `next`, store `items` in order and lead to `final`. -/
def Segment (next : α → α) (stores : α → β → Prop) : α → List β → α → Prop
  | start, [], final => start = final
  | start, item :: items, final => stores start item ∧ Segment next stores (next start) items final

namespace Segment

variable {next next' : α → α} {stores stores' : α → β → Prop} {start final final' : α}
  {item : β} {items items' : List β}

@[simp]
theorem nil_iff : Segment next stores start [] final ↔ start = final := Iff.rfl

@[simp]
theorem cons_iff : Segment next stores start (item :: items) final ↔
    stores start item ∧ Segment next stores (next start) items final := Iff.rfl

theorem append_iff : Segment next stores start (items ++ items') final ↔
    ∃ middle, Segment next stores start items middle ∧
      Segment next stores middle items' final := by
  induction items generalizing start with
  | nil => simp
  | cons item items ih => simp only [List.cons_append, cons_iff, ih, and_assoc, exists_and_left]

/-- A segment survives any change that leaves its own nodes alone. -/
theorem frame (h : Segment next stores start items final)
    (hframe : ∀ position item, item ∈ items → stores position item →
      next' position = next position ∧ stores' position item) :
    Segment next' stores' start items final := by
  induction items generalizing start with
  | nil => exact h
  | cons item items ih =>
    obtain ⟨hitem, hitems⟩ := h
    obtain ⟨hnext, hstores⟩ := hframe start item List.mem_cons_self hitem
    refine ⟨hstores, ?_⟩
    rw [hnext]
    exact ih hitems fun position item hmem ↦ hframe position item (List.mem_cons_of_mem _ hmem)

/-- Redirecting the link of its last node moves the end of a segment. -/
theorem redirect (h : Segment next stores start (items ++ [item]) final)
    (hframe : ∀ position item, item ∈ items → stores position item →
      next' position = next position ∧ stores' position item)
    (hlast : ∀ position, stores position item →
      next' position = final' ∧ stores' position item) :
    Segment next' stores' start (items ++ [item]) final' := by
  obtain ⟨middle, hitems, hitem, -⟩ := append_iff.mp h
  obtain ⟨hnext, hstores⟩ := hlast middle hitem
  exact append_iff.mpr ⟨middle, hitems.frame hframe, hstores, hnext⟩

theorem map_iff {γ : Type*} {stored : α → γ → Prop} {view : β → γ} :
    Segment next stored start (items.map view) final ↔
      Segment next (fun position item ↦ stored position (view item)) start items final := by
  induction items generalizing start with
  | nil => exact Iff.rfl
  | cons item items ih => rw [List.map_cons, cons_iff, cons_iff, ih]

/-- A position that holds none of the items ends a segment in one place only. -/
theorem length_unique (h : Segment next stores start items final)
    (h' : Segment next stores start items' final) (hitems : ∀ item ∈ items, ¬ stores final item)
    (hitems' : ∀ item ∈ items', ¬ stores final item) : items.length = items'.length := by
  induction items generalizing start items' with
  | nil =>
    cases items' with
    | nil => rfl
    | cons item items' =>
      obtain rfl := nil_iff.mp h
      exact absurd h'.1 (hitems' item List.mem_cons_self)
  | cons item items ih =>
    cases items' with
    | nil =>
      obtain rfl := nil_iff.mp h'
      exact absurd h.1 (hitems item List.mem_cons_self)
    | cons item' items' =>
      rw [List.length_cons, List.length_cons]
      exact congrArg (· + 1) (ih h.2 h'.2
        (fun item hitem ↦ hitems item (List.mem_cons_of_mem _ hitem))
        fun item hitem ↦ hitems' item (List.mem_cons_of_mem _ hitem))

/-- A segment that ends outside its nodes passes no position twice. -/
theorem nodup_positions (h : Segment next stores start items final)
    (hitems : ∀ item ∈ items, ¬ stores final item) {position : β → α}
    (hposition : ∀ start item, stores start item → start = position item) :
    (items.map position).Nodup := by
  induction items generalizing start with
  | nil => exact List.nodup_nil
  | cons item items ih =>
    have htail : ∀ item ∈ items, ¬ stores final item :=
      fun item hitem ↦ hitems item (List.mem_cons_of_mem _ hitem)
    rw [List.map_cons, List.nodup_cons]
    refine ⟨fun hmem ↦ ?_, ih h.2 htail⟩
    obtain ⟨other, hother, hsame⟩ := List.mem_map.mp hmem
    obtain ⟨before, after, rfl⟩ := List.append_of_mem hother
    obtain ⟨middle, -, hmiddle⟩ := append_iff.mp h.2
    rw [hposition middle other hmiddle.1, hsame, ← hposition start item h.1] at hmiddle
    have hlength := length_unique h hmiddle hitems fun item hitem ↦
      htail item (List.mem_append_right _ hitem)
    simp only [List.length_cons, List.length_append] at hlength
    omega

/-- The position at which a segment starts holds its first item. -/
theorem stores_head (h : Segment next stores start (item :: items) final) : stores start item :=
  h.1

end Segment

end PenelopeOS.Foundation
