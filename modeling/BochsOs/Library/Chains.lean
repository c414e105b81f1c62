import Mathlib.Data.List.Chain
import Mathlib.Data.List.Nodup
import Mathlib.Logic.Function.Basic
import Mathlib.Tactic

/-!
# Doubly linked chains

Nodes with a pointer to the next and one to the previous node.  `Linked` says that the pointers lead
along a sequence of nodes, forth and back.  A node is put between two neighbours (`Spliced`) or taken
out from between them (`Unlinked`) by changing the pointers of these nodes only, and the rest of the
chain, like every chain without these nodes, stays linked.

The nodes are of any type, and there are no ends: a list with sentinels is a chain whose first and last
node are not counted.
-/

namespace Chains

/-- The two pointers of every node. -/
structure Links (α : Type*) where
  prev : α → α
  next : α → α

namespace Links

variable {α : Type*} {g g' : Links α} {a b e : α} {ns us vs : List α}

/-- The pointers lead along the nodes, forth and back. -/
def Linked (g : Links α) (ns : List α) : Prop := ns.IsChain fun a b => g.next a = b ∧ g.prev b = a

/-- The node `e` has been put between `a` and `b`. -/
structure Spliced (g : Links α) (a b e : α) (g' : Links α) : Prop where
  next_left : g'.next a = e
  prev_new : g'.prev e = a
  next_new : g'.next e = b
  prev_right : g'.prev b = e
  next_of : ∀ x, x ≠ a → x ≠ e → g'.next x = g.next x
  prev_of : ∀ x, x ≠ b → x ≠ e → g'.prev x = g.prev x

/-- What stood between `a` and `b` has been taken out. -/
structure Unlinked (g : Links α) (a b : α) (g' : Links α) : Prop where
  next_left : g'.next a = b
  prev_right : g'.prev b = a
  next_of : ∀ x, x ≠ a → g'.next x = g.next x
  prev_of : ∀ x, x ≠ b → g'.prev x = g.prev x

/-- A chain depends on the forward pointers of all nodes but the last and on the backward pointers of
all nodes but the first. -/
theorem Linked.congr (h : g.Linked ns) (hnext : ∀ x ∈ ns.dropLast, g'.next x = g.next x)
    (hprev : ∀ x ∈ ns.tail, g'.prev x = g.prev x) : g'.Linked ns := by
  induction ns with
  | nil => exact .nil
  | cons a ns ih =>
      cases ns with
      | nil => exact .singleton a
      | cons b ns =>
          obtain ⟨hab, hrest⟩ := List.isChain_cons_cons.mp h
          rw [List.dropLast_cons_cons, List.forall_mem_cons] at hnext
          refine List.isChain_cons_cons.mpr ⟨⟨?_, ?_⟩, ih hrest hnext.2 fun x hx => ?_⟩
          · rw [hnext.1, hab.1]
          · rw [hprev b List.mem_cons_self, hab.2]
          · exact hprev x (List.mem_cons_of_mem b hx)

/-- Neighbours point to each other. -/
theorem Linked.neighbours (h : g.Linked (us ++ a :: b :: vs)) : g.next a = b ∧ g.prev b = a :=
  (List.isChain_append_cons_cons.mp h).2.1

theorem Linked.left (h : g.Linked (us ++ [a])) (hnext : ∀ x ∈ us, g'.next x = g.next x)
    (hprev : ∀ x ∈ us ++ [a], g'.prev x = g.prev x) : g'.Linked (us ++ [a]) := by
  refine Linked.congr h (fun x hx => hnext x ?_) fun x hx => hprev x (List.mem_of_mem_tail hx)
  rwa [List.dropLast_concat] at hx

theorem Linked.right (h : g.Linked (b :: vs)) (hnext : ∀ x ∈ b :: vs, g'.next x = g.next x)
    (hprev : ∀ x ∈ vs, g'.prev x = g.prev x) : g'.Linked (b :: vs) :=
  Linked.congr h (fun x hx => hnext x (List.mem_of_mem_dropLast hx)) hprev

/-- The neighbours `a` and `b` occur nowhere else in the chain. -/
theorem apart_of_nodup (h : (us ++ a :: b :: vs).Nodup) :
    (∀ x ∈ us, x ≠ a) ∧ (∀ x ∈ us ++ [a], x ≠ b) ∧ (∀ x ∈ b :: vs, x ≠ a) ∧ ∀ x ∈ vs, x ≠ b := by
  rw [List.nodup_append'] at h
  obtain ⟨-, hright, hdisj⟩ := h
  obtain ⟨ha, hb⟩ := List.nodup_cons.mp hright
  refine ⟨?_, ?_, ?_, ?_⟩
  · rintro x hx rfl
    exact hdisj hx List.mem_cons_self
  · rintro x hx rfl
    rcases List.mem_append.mp hx with hx | hx
    · exact hdisj hx (List.mem_cons_of_mem a List.mem_cons_self)
    · exact ha (List.mem_singleton.mp hx ▸ List.mem_cons_self)
  · rintro x hx rfl
    exact ha hx
  · rintro x hx rfl
    exact (List.nodup_cons.mp hb).1 hx

theorem Linked.splice (h : g.Linked (us ++ a :: b :: vs)) (hnodup : (us ++ a :: b :: vs).Nodup)
    (he : e ∉ us ++ a :: b :: vs) (hs : g.Spliced a b e g') : g'.Linked (us ++ a :: e :: b :: vs) := by
  have hne : ∀ x ∈ us ++ a :: b :: vs, x ≠ e := fun x hx heq => he (heq ▸ hx)
  obtain ⟨hus, husa, hbvs, hvs⟩ := apart_of_nodup hnodup
  obtain ⟨hleft, -, hright⟩ := List.isChain_append_cons_cons.mp h
  refine List.isChain_append_cons_cons.mpr ⟨?_, ⟨hs.next_left, hs.prev_new⟩,
    List.isChain_cons_cons.mpr ⟨⟨hs.next_new, hs.prev_right⟩, ?_⟩⟩
  · refine Linked.left hleft (fun x hx => hs.next_of x (hus x hx) (hne x (by simp [hx]))) fun x hx => ?_
    refine hs.prev_of x (husa x hx) (hne x ?_)
    rcases List.mem_append.mp hx with hx | hx
    · exact List.mem_append_left _ hx
    · rw [List.mem_singleton.mp hx]
      exact List.mem_append_right us List.mem_cons_self
  · refine Linked.right hright (fun x hx => ?_) fun x hx => hs.prev_of x (hvs x hx) (hne x (by simp [hx]))
    exact hs.next_of x (hbvs x hx) (hne x (List.mem_append_right us (List.mem_cons_of_mem a hx)))

theorem Linked.unlink (h : g.Linked (us ++ a :: e :: b :: vs)) (hnodup : (us ++ a :: e :: b :: vs).Nodup)
    (hs : g.Unlinked a b g') : g'.Linked (us ++ a :: b :: vs) := by
  have hsub : (us ++ a :: b :: vs).Sublist (us ++ a :: e :: b :: vs) :=
    ((List.sublist_cons_self e (b :: vs)).cons_cons a).append_left us
  obtain ⟨hus, husa, hbvs, hvs⟩ := apart_of_nodup (hnodup.sublist hsub)
  obtain ⟨hleft, -, hrest⟩ := List.isChain_append_cons_cons.mp h
  obtain ⟨-, hright⟩ := List.isChain_cons_cons.mp hrest
  refine List.isChain_append_cons_cons.mpr ⟨?_, ⟨hs.next_left, hs.prev_right⟩, ?_⟩
  · exact Linked.left hleft (fun x hx => hs.next_of x (hus x hx)) fun x hx => hs.prev_of x (husa x hx)
  · exact Linked.right hright (fun x hx => hs.next_of x (hbvs x hx)) fun x hx => hs.prev_of x (hvs x hx)

end Links

end Chains
