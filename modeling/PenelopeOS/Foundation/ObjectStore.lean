import Mathlib.Data.Option.Basic
import Mathlib.Logic.Function.Basic
import Mathlib.Data.List.Basic

/-!
# A store of objects over one flat memory

Each object is a row of cells with a name. It is made with unknown contents, its owner writes and
copies rows of cells, and it is destroyed. Nothing that happens to one object shows in another.

`Holds` lays the objects out in one flat contents. The known cells of every object are there, so a
change of the contents that is confined to some cells of one object is a `put` of that object.
-/

namespace PenelopeOS.Foundation

variable {ι κ β : Type*}

/-- The cells that nobody has written yet are `none`. -/
structure Object (β : Type*) where
  size : ℕ
  cells : ℕ → Option β

namespace Object

def fresh (size : ℕ) : Object β := ⟨size, fun _ ↦ none⟩

/-- New values for a row of cells. -/
def put (object : Object β) (first count : ℕ) (values : ℕ → Option β) : Object β where
  size := object.size
  cells index :=
    if first ≤ index ∧ index < first + count then values (index - first) else object.cells index

/-- The values of a row of cells, when all of them are known. -/
def row (object : Object β) (first count : ℕ) : Option (List β) :=
  (List.range count).mapM fun index ↦ object.cells (first + index)

@[simp]
theorem put_size (object : Object β) (first count : ℕ) (values : ℕ → Option β) :
    (object.put first count values).size = object.size := rfl

end Object

abbrev ObjectStore (ι β : Type*) := ι → Option (Object β)

inductive ObjectAction (ι β : Type*) where
  | create (name : ι) (size : ℕ)
  | destroy (name : ι)
  | fill (name : ι) (first count : ℕ) (value : β)
  | copy (target : ι) (first : ℕ) (source : ι) (start count : ℕ)
  | read (name : ι) (index : ℕ) (value : β)
  | compare (name : ι) (first : ℕ) (other : ι) (start count : ℕ) (answer : Ordering)

section Apply

variable [DecidableEq ι] [DecidableEq β] [Ord β]

/-- The store after an action. An action on an object that is not there, or on cells that it does not
have, has no effect that could be described, and neither has one that sees something else than what
was written. -/
def ObjectStore.apply (store : ObjectStore ι β) : ObjectAction ι β → Option (ObjectStore ι β)
  | .create name size =>
    if (store name).isNone then some (Function.update store name (some (.fresh size))) else none
  | .destroy name => (store name).map fun _ ↦ Function.update store name none
  | .fill name first count value =>
    (store name).bind fun object ↦
      if first + count ≤ object.size then
        some (Function.update store name (some (object.put first count fun _ ↦ some value)))
      else none
  | .copy target first source start count =>
    (store target).bind fun object ↦
      (store source).bind fun origin ↦
        if first + count ≤ object.size ∧ start + count ≤ origin.size then
          some (Function.update store target
            (some (object.put first count fun index ↦ origin.cells (start + index))))
        else none
  | .read name index value =>
    (store name).bind fun object ↦
      if index < object.size ∧ ∀ known ∈ object.cells index, known = value then some store else none
  | .compare name first other start count answer =>
    (store name).bind fun object ↦
      (store other).bind fun object' ↦
        if first + count ≤ object.size ∧ start + count ≤ object'.size ∧
            ∀ row ∈ object.row first count, ∀ row' ∈ object'.row start count,
              answer = Ord.compare row row' then
          some store
        else none

end Apply

/-! ## Objects in one contents -/

theorem eq_map_of_mapM {α : Type*} {list : List α} {known : α → Option β} {reads : α → β}
    {values : List β} (hvalues : values ∈ list.mapM known)
    (hreads : ∀ element ∈ list, ∀ value ∈ known element, reads element = value) :
    values = list.map reads := by
  induction list generalizing values with
  | nil => exact (Option.some.inj hvalues).symm
  | cons element list ih =>
    rw [List.mapM_cons] at hvalues
    obtain ⟨value, hvalue, hrest⟩ := Option.bind_eq_some_iff.mp hvalues
    obtain ⟨rest, hmapM, hcons⟩ := Option.bind_eq_some_iff.mp hrest
    obtain ⟨hhead, htail⟩ := List.forall_mem_cons.mp hreads
    obtain rfl := Option.some.inj hcons
    rw [List.map_cons, hhead value hvalue, ← ih hmapM htail]

/-- Every known cell of every object is at its place. -/
def Holds (place : ι → ℕ → κ) (contents : κ → β) (store : ObjectStore ι β) : Prop :=
  ∀ name object, store name = some object → ∀ index < object.size,
    ∀ value ∈ object.cells index, contents (place name index) = value

namespace Holds

variable {place : ι → ℕ → κ} {contents contents' : κ → β} {store : ObjectStore ι β} {name : ι}
  {object : Object β}

theorem empty : Holds place contents (fun _ ↦ none : ObjectStore ι β) := by
  intro name object hobject
  cases hobject

/-- A contents that agrees on the objects holds them too. -/
theorem frame (h : Holds place contents store)
    (hframe : ∀ name object, store name = some object → ∀ index < object.size,
      contents' (place name index) = contents (place name index)) :
    Holds place contents' store := by
  intro name object hobject index hindex value hvalue
  rw [hframe name object hobject index hindex]
  exact h name object hobject index hindex value hvalue

/-- A row of known cells reads the same in the contents. -/
theorem row (h : Holds place contents store) (hobject : store name = some object) {first count : ℕ}
    (hfits : first + count ≤ object.size) {values : List β}
    (hvalues : values ∈ object.row first count) :
    values = (List.range count).map fun index ↦ contents (place name (first + index)) := by
  refine eq_map_of_mapM hvalues fun index hindex value hvalue ↦ ?_
  have hlt := List.mem_range.mp hindex
  exact h name object hobject (first + index) (by omega) value hvalue

variable [DecidableEq ι]

theorem create (h : Holds place contents store) (size : ℕ) :
    Holds place contents (Function.update store name (some (.fresh size))) := by
  intro other object hobject index hindex value hvalue
  by_cases hother : other = name
  · subst hother
    rw [Function.update_self] at hobject
    obtain rfl := Option.some.inj hobject
    cases hvalue
  · rw [Function.update_of_ne hother] at hobject
    exact h other object hobject index hindex value hvalue

theorem destroy (h : Holds place contents store) :
    Holds place contents (Function.update store name none) := by
  intro other object hobject
  by_cases hother : other = name
  · subst hother
    rw [Function.update_self] at hobject
    cases hobject
  · rw [Function.update_of_ne hother] at hobject
    exact h other object hobject

/-- A change that is confined to a row of one object is a `put`. -/
theorem put (h : Holds place contents store) (hobject : store name = some object) {first count : ℕ}
    {values : ℕ → Option β}
    (hvalues : ∀ index < count, ∀ value ∈ values index, contents' (place name (first + index)) = value)
    (hframe : ∀ other object, store other = some object → ∀ index < object.size,
      (other = name → ¬ (first ≤ index ∧ index < first + count)) →
        contents' (place other index) = contents (place other index)) :
    Holds place contents' (Function.update store name (some (object.put first count values))) := by
  intro other object' hobject' index hindex value hvalue
  by_cases hother : other = name
  · subst hother
    rw [Function.update_self] at hobject'
    obtain rfl := Option.some.inj hobject'
    by_cases hrow : first ≤ index ∧ index < first + count
    · simp only [Object.put, if_pos hrow] at hvalue
      have hplace := hvalues (index - first) (by omega) value hvalue
      rwa [Nat.add_sub_of_le hrow.1] at hplace
    · simp only [Object.put, if_neg hrow] at hvalue
      rw [hframe other object hobject index hindex fun _ ↦ hrow]
      exact h other object hobject index hindex value hvalue
  · rw [Function.update_of_ne hother] at hobject'
    rw [hframe other object' hobject' index hindex fun heq ↦ absurd heq hother]
    exact h other object' hobject' index hindex value hvalue

end Holds

end PenelopeOS.Foundation
