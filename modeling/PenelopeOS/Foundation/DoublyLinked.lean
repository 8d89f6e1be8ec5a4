import Mathlib.Data.List.Chain

/-!
# Doubly linked lists

Two partial maps give the successor and the predecessor of a node. A list of nodes is linked when
each node and the one after it point at each other. Putting a node in before the last one and taking
out the node after the first one keep a list linked, provided only the links that change are written.
-/

namespace PenelopeOS.Foundation

variable {α : Type*}

def Linked (next prev : α → Option α) (nodes : List α) : Prop :=
  nodes.IsChain fun node successor ↦ next node = some successor ∧ prev successor = some node

namespace Linked

variable {next next' prev prev' : α → Option α} {nodes front rest : List α}
  {head first second last new final : α}

/-- Following the successors visits the nodes in order. -/
theorem forward (h : Linked next prev nodes) :
    nodes.IsChain fun node successor ↦ next node = some successor :=
  h.imp fun _ _ hlink ↦ hlink.1

/-- Following the predecessors visits the nodes in reverse. -/
theorem backward (h : Linked next prev nodes) :
    nodes.reverse.IsChain fun node predecessor ↦ prev node = some predecessor :=
  List.isChain_reverse.mpr (h.imp fun _ _ hlink ↦ hlink.2)

/-- Only the successors of nodes before the last and the predecessors of nodes after the first count. -/
theorem frame (h : Linked next prev nodes) (hnext : ∀ node ∈ nodes.dropLast, next' node = next node)
    (hprev : ∀ node ∈ nodes.tail, prev' node = prev node) : Linked next' prev' nodes := by
  induction nodes with
  | nil => exact List.isChain_nil
  | cons node nodes ih =>
    cases nodes with
    | nil => exact List.isChain_singleton node
    | cons successor nodes =>
      obtain ⟨⟨hlinkNext, hlinkPrev⟩, hrest⟩ := List.isChain_cons_cons.mp h
      rw [List.dropLast_cons_of_ne_nil (by simp), List.forall_mem_cons] at hnext
      rw [List.tail_cons, List.forall_mem_cons] at hprev
      refine List.isChain_cons_cons.mpr ⟨⟨?_, ?_⟩, ih hrest hnext.2 hprev.2⟩
      · rw [hnext.1, hlinkNext]
      · rw [hprev.1, hlinkPrev]

theorem insert_before_last (h : Linked next prev (front ++ [last, final]))
    (hnext : ∀ node ∈ front, next' node = next node)
    (hprev : ∀ node ∈ (front ++ [last]).tail, prev' node = prev node)
    (hlast : next' last = some new) (hnewPrev : prev' new = some last)
    (hnew : next' new = some final) (hfinal : prev' final = some new) :
    Linked next' prev' (front ++ [last, new, final]) := by
  obtain ⟨hfront, -, -⟩ := List.isChain_append_cons_cons.mp h
  refine List.isChain_append_cons_cons.mpr ⟨?_, ⟨hlast, hnewPrev⟩, ?_⟩
  · exact frame hfront (by simpa using hnext) hprev
  · exact List.isChain_pair.mpr ⟨hnew, hfinal⟩

theorem remove_second (h : Linked next prev (head :: first :: second :: rest))
    (hnext : ∀ node ∈ (second :: rest).dropLast, next' node = next node)
    (hprev : ∀ node ∈ rest, prev' node = prev node)
    (hhead : next' head = some second) (hsecond : prev' second = some head) :
    Linked next' prev' (head :: second :: rest) := by
  have hrest : Linked next prev (second :: rest) := h.tail.tail
  exact List.isChain_cons_cons.mpr ⟨⟨hhead, hsecond⟩, hrest.frame hnext hprev⟩

end Linked

end PenelopeOS.Foundation
