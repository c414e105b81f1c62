import Mathlib.Tactic

/-!
# Trees of named nodes

In a `NameTree` every node except the root is the child of one other node, under one
name.  The tree is given by what a program can ask for: the child of a node under a name,
and the parent of a node.  Its laws concern the nodes that are reached from the root,
since what such a program finds at other nodes is anybody's guess.

A path is read in two ways.  `moves` follows it from node to node, where a step may also
stay (`here`) or go to the parent (`up`).  `clean` looks at the path alone: it drops the
steps that stay, and lets every step up take back the last name.  `moves_clean` says that
both come to the same node, and `path_unique` that every node has only one clean path.
-/

namespace NameTrees

variable {ν α : Type*}

/-- Follow names downwards. -/
def walk (child : ν → α → Option ν) (n : ν) (ws : List α) : Option ν := ws.foldlM child n

section Walk

variable {child : ν → α → Option ν} {n m : ν} {w : α}

@[simp] theorem walk_nil : walk child n ([] : List α) = some n := rfl

@[simp] theorem walk_cons (ws : List α) :
    walk child n (w :: ws) = (child n w).bind fun m => walk child m ws := rfl

@[simp] theorem walk_append (ws ws' : List α) :
    walk child n (ws ++ ws') = (walk child n ws).bind fun m => walk child m ws' := by
  induction ws generalizing n with
  | nil => rfl
  | cons w ws ih =>
      rw [List.cons_append, walk_cons, walk_cons, Option.bind_assoc]
      congr 1
      funext m
      exact ih

/-- The last step of a walk. -/
theorem walk_snoc {ws : List α} :
    walk child n (ws ++ [w]) = some m ↔ ∃ p, walk child n ws = some p ∧ child p w = some m := by
  simp [Option.bind_eq_some_iff]

end Walk

/-- A tree whose nodes are found by name. -/
structure NameTree (ν α : Type*) where
  root : ν
  child : ν → α → Option ν
  parent : ν → ν
  parent_root : parent root = root
  parent_child : ∀ {ws n w m}, walk child root ws = some n → child n w = some m → parent m = n
  child_ne_root : ∀ {ws n w m}, walk child root ws = some n → child n w = some m → m ≠ root
  child_inj : ∀ {ws n w w' m}, walk child root ws = some n → child n w = some m →
    child n w' = some m → w = w'

/-- One step of a path. -/
inductive Move (α : Type*) where
  | here
  | up
  | down (w : α)

/-- A step taken from the path walked so far. -/
def push (ws : List α) : Move α → List α
  | .here => ws
  | .up => ws.dropLast
  | .down w => ws ++ [w]

/-- The names that are left of a path. -/
def clean (ms : List (Move α)) : List α := ms.foldl push []

namespace NameTree

variable (T : NameTree ν α) {n m : ν} {ws ws' : List α}

/-- The node at a path of names. -/
def at? (ws : List α) : Option ν := walk T.child T.root ws

/-- A step from node to node. -/
def move (n : ν) : Move α → Option ν
  | .here => some n
  | .up => some (T.parent n)
  | .down w => T.child n w

/-- A path from node to node. -/
def moves (n : ν) (ms : List (Move α)) : Option ν := ms.foldlM T.move n

variable {T}

/-- Where a node other than the root hangs. -/
theorem at_snoc {w : α} (hn : T.at? (ws ++ [w]) = some n) :
    T.at? ws = some (T.parent n) ∧ T.child (T.parent n) w = some n := by
  obtain ⟨p, hp, hchild⟩ := walk_snoc.mp hn
  rw [T.parent_child hp hchild]
  exact ⟨hp, hchild⟩

theorem at_parent (hn : T.at? ws = some n) : T.at? ws.dropLast = some (T.parent n) := by
  induction ws using List.reverseRecOn with
  | nil =>
      cases hn
      rw [T.parent_root]
      rfl
  | append_singleton ws w =>
      rw [List.dropLast_concat]
      exact (at_snoc hn).1

/-- Only the empty path leads to the root. -/
theorem at_root_iff : T.at? ws = some T.root ↔ ws = [] := by
  constructor
  · induction ws using List.reverseRecOn with
    | nil => exact fun _ => rfl
    | append_singleton ws w =>
        intro hroot
        obtain ⟨p, hp, hchild⟩ := walk_snoc.mp hroot
        exact absurd rfl (T.child_ne_root hp hchild)
  · rintro rfl
    rfl

/-- A node has one path: its last name is the one under which its parent has it. -/
theorem path_unique (hws : T.at? ws = some n) (hws' : T.at? ws' = some n) : ws = ws' := by
  induction ws using List.reverseRecOn generalizing n ws' with
  | nil =>
      cases hws
      exact (at_root_iff.mp hws').symm
  | append_singleton ws w ih =>
      rcases List.eq_nil_or_concat ws' with rfl | ⟨ws', w', rfl⟩
      · cases hws'
        exact at_root_iff.mp hws
      · rw [List.concat_eq_append] at hws' ⊢
        obtain ⟨hparent, hchild⟩ := at_snoc hws
        obtain ⟨hparent', hchild'⟩ := at_snoc hws'
        rw [ih hparent hparent', T.child_inj hparent hchild hchild']

/-- The step on the path goes where the step between the nodes goes. -/
theorem at_push {mv : Move α} (hn : T.at? ws = some n) (hmove : T.move n mv = some m) :
    T.at? (push ws mv) = some m := by
  cases mv with
  | here =>
      cases hmove
      exact hn
  | up =>
      cases hmove
      exact at_parent hn
  | down w => exact walk_snoc.mpr ⟨n, hn, hmove⟩

theorem moves_cons {mv : Move α} {ms : List (Move α)} :
    T.moves n (mv :: ms) = (T.move n mv).bind fun m => T.moves m ms := rfl

/-- A path followed from the node at `ws` on ends at the node of the cleaned path. -/
theorem moves_foldl {ms : List (Move α)} (hn : T.at? ws = some n) (hms : T.moves n ms = some m) :
    T.at? (ms.foldl push ws) = some m := by
  induction ms generalizing ws n with
  | nil =>
      cases hms
      exact hn
  | cons mv ms ih =>
      rw [moves_cons, Option.bind_eq_some_iff] at hms
      obtain ⟨p, hmove, hms⟩ := hms
      exact ih (at_push hn hmove) hms

/-- Cleaning a path does not change where it leads. -/
theorem moves_clean {ms : List (Move α)} (hms : T.moves T.root ms = some m) :
    T.at? (clean ms) = some m := by
  have hroot : T.at? [] = some T.root := rfl
  exact moves_foldl hroot hms

end NameTree

end NameTrees
