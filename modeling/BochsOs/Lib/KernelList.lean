import BochsOs.Library.Chains

/-!
# Intrusive lists

`lib/kernel/list.c`.  A `struct list` at `l` has its sentinel `head` at `l` and its sentinel `tail` eight
bytes behind; the nodes lie in other objects, and no two nodes overlap.  Nothing records which nodes are
in which list.

`Represents` is the invariant: from `head` to `tail` the pointers form a chain through the nodes of the
list.  Every operation changes pointers of the nodes of its list and of its argument only (`Kept`), so
lists that share no node do not notice each other, and on the sequence of the nodes it does what its name
says (`list_refines`).  The interrupts that are switched off in between are left out.
-/

namespace BochsOs.Intrusive

open Chains

/-! ## The code -/

/-- The address of a `struct list_elem` or a `struct list`. -/
abbrev Addr := UInt32

/-- `NULL`. -/
def null : Addr := 0

/-- The pointers of all nodes. -/
abbrev Heap := Links Addr

/-- `p->next = q`. -/
def setNext (h : Heap) (p q : Addr) : Heap := { h with next := Function.update h.next p q }

/-- `p->prev = q`. -/
def setPrev (h : Heap) (p q : Addr) : Heap := { h with prev := Function.update h.prev p q }

/-- `&list->tail`. -/
def tailOf (l : Addr) : Addr := l + 8

/-- `list_init`. -/
def listInit (h : Heap) (l : Addr) : Heap :=
  let h := setPrev h l null
  let h := setNext h l (tailOf l)
  let h := setPrev h (tailOf l) l
  setNext h (tailOf l) null

/-- `list_insert_before`. -/
def listInsertBefore (h : Heap) (before elem : Addr) : Heap :=
  let h := setNext h (h.prev before) elem
  let h := setPrev h elem (h.prev before)
  let h := setNext h elem before
  setPrev h before elem

/-- `list_push`. -/
def listPush (h : Heap) (l elem : Addr) : Heap := listInsertBefore h (h.next l) elem

/-- `list_append`. -/
def listAppend (h : Heap) (l elem : Addr) : Heap := listInsertBefore h (tailOf l) elem

/-- `list_remove`. -/
def listRemove (h : Heap) (elem : Addr) : Heap :=
  let h := setNext h (h.prev elem) (h.next elem)
  setPrev h (h.next elem) (h.prev elem)

/-- `list_pop`. -/
def listPop (h : Heap) (l : Addr) : Heap × Addr := (listRemove h (h.next l), h.next l)

/-- `list_empty`. -/
def listEmpty (h : Heap) (l : Addr) : ℤ := if h.next l = tailOf l then 1 else 0

/-- The loop of `elem_find`, for at most `fuel` nodes. -/
def elemFindLoop (h : Heap) (tail objElem : Addr) : (fuel : ℕ) → (elem : Addr) → Option ℤ
  | 0, _ => none
  | fuel + 1, elem =>
      if elem ≠ tail then
        if elem = objElem then some 1 else elemFindLoop h tail objElem fuel (h.next elem)
      else some 0

/-- `elem_find`. -/
def elemFind (fuel : ℕ) (h : Heap) (l objElem : Addr) : Option ℤ :=
  elemFindLoop h (tailOf l) objElem fuel (h.next l)

/-- The loop of `list_traversal`; `func` is whether the function returns something other than zero. -/
def listTraversalLoop (h : Heap) (tail : Addr) (func : Addr → Bool) : (fuel : ℕ) → (elem : Addr) → Option Addr
  | 0, _ => none
  | fuel + 1, elem =>
      if elem ≠ tail then
        if func elem then some elem else listTraversalLoop h tail func fuel (h.next elem)
      else some null

/-- `list_traversal`. -/
def listTraversal (fuel : ℕ) (h : Heap) (l : Addr) (func : Addr → Bool) : Option Addr :=
  if listEmpty h l ≠ 0 then some null else listTraversalLoop h (tailOf l) func fuel (h.next l)

/-- The loop of `list_len`. -/
def listLenLoop (h : Heap) (tail : Addr) : (fuel : ℕ) → (elem : Addr) → (length : UInt32) → Option UInt32
  | 0, _, _ => none
  | fuel + 1, elem, length =>
      if elem ≠ tail then listLenLoop h tail fuel (h.next elem) (length + 1) else some length

/-- `list_len`. -/
def listLen (fuel : ℕ) (h : Heap) (l : Addr) : Option UInt32 := listLenLoop h (tailOf l) fuel (h.next l) 0

/-! ## Lists and sequences -/

/-- The nodes of a list with its sentinels. -/
def nodes (l : Addr) (xs : List Addr) : List Addr := l :: xs ++ [tailOf l]

/-- The list at `l` has the nodes `xs`. -/
structure Represents (h : Heap) (l : Addr) (xs : List Addr) : Prop where
  nodup : (nodes l xs).Nodup
  linked : h.Linked (nodes l xs)
  head : h.prev l = null
  tail : h.next (tailOf l) = null

/-- Only pointers of the nodes `ns` have changed, and the lists without these nodes are as before. -/
structure Kept (h : Heap) (ns : List Addr) (h' : Heap) : Prop where
  pointers : ∀ n ∉ ns, h'.prev n = h.prev n ∧ h'.next n = h.next n
  others : ∀ l ys, Represents h l ys → ns.Disjoint (nodes l ys) → Represents h' l ys

section Represents

variable {h h' : Heap} {l a b e : Addr} {xs us vs ns : List Addr}

theorem tailOf_ne (l : Addr) : tailOf l ≠ l := by
  intro heq
  have hnat := congrArg UInt32.toNat heq
  rw [tailOf, UInt32.toNat_add, show (8 : UInt32).toNat = 8 from rfl] at hnat
  have := l.toNat_lt
  omega

/-- A new list is empty. -/
theorem represents_listInit (h : Heap) (l : Addr) : Represents (listInit h l) l [] := by
  have hne := tailOf_ne l
  refine ⟨?_, ?_, ?_, ?_⟩
  · exact List.nodup_cons.mpr ⟨fun hmem => hne (List.mem_singleton.mp hmem).symm, List.nodup_singleton _⟩
  · refine List.isChain_pair.mpr ⟨?_, ?_⟩
    · exact (Function.update_of_ne hne.symm _ _).trans (Function.update_self ..)
    · exact Function.update_self ..
  · exact (Function.update_of_ne hne.symm _ _).trans (Function.update_self ..)
  · exact Function.update_self ..

/-- A list is kept when the pointers of its nodes are. -/
theorem Represents.congr {ys : List Addr} (hrep : Represents h l ys)
    (hsame : ∀ n ∈ nodes l ys, h'.prev n = h.prev n ∧ h'.next n = h.next n) : Represents h' l ys := by
  have hl : l ∈ nodes l ys := List.mem_cons_self
  have ht : tailOf l ∈ nodes l ys := List.mem_append_right _ (List.mem_singleton_self _)
  refine ⟨hrep.nodup, ?_, (hsame l hl).1.trans hrep.head, (hsame _ ht).2.trans hrep.tail⟩
  exact Links.Linked.congr hrep.linked (fun x hx => (hsame x (List.mem_of_mem_dropLast hx)).2)
    fun x hx => (hsame x (List.mem_of_mem_tail hx)).1

theorem Kept.of_pointers (hsame : ∀ n ∉ ns, h'.prev n = h.prev n ∧ h'.next n = h.next n) : Kept h ns h' :=
  ⟨hsame, fun _ _ hrep hdisj => hrep.congr fun n hn => hsame n fun hmem => hdisj hmem hn⟩

theorem Kept.of_spliced (hs : h.Spliced a b e h') (ha : a ∈ ns) (hb : b ∈ ns) (he : e ∈ ns) :
    Kept h ns h' := by
  refine .of_pointers fun n hn => ⟨hs.prev_of n ?_ ?_, hs.next_of n ?_ ?_⟩ <;> rintro rfl
  · exact hn hb
  · exact hn he
  · exact hn ha
  · exact hn he

theorem Kept.of_unlinked (hs : h.Unlinked a b h') (ha : a ∈ ns) (hb : b ∈ ns) : Kept h ns h' := by
  refine .of_pointers fun n hn => ⟨hs.prev_of n ?_, hs.next_of n ?_⟩ <;> rintro rfl
  · exact hn hb
  · exact hn ha

/-- The sentinels are at the ends. -/
theorem Represents.ends (hrep : Represents h l xs) (hsplit : nodes l xs = us ++ a :: b :: vs) :
    l ≠ b ∧ tailOf l ≠ a := by
  have hnodup := hrep.nodup
  constructor
  · rintro rfl
    have hmem : l ∈ (nodes l xs).tail := by
      rw [hsplit]
      cases us <;> simp
    exact (List.nodup_cons.mp hnodup).1 hmem
  · rintro rfl
    have hmem : tailOf l ∈ (nodes l xs).dropLast := by
      rw [hsplit, List.dropLast_append_of_ne_nil (List.cons_ne_nil _ _), List.dropLast_cons_cons]
      simp
    rw [nodes, List.dropLast_concat] at hmem
    rw [nodes, List.nodup_append'] at hnodup
    exact hnodup.2.2 hmem (List.mem_singleton_self _)

/-! ## Putting a node in -/

/-- The code takes the left neighbour from the right one. -/
theorem listInsertBefore_spliced (hleft : h.prev b = a) (hea : e ≠ a) (heb : e ≠ b) :
    h.Spliced a b e (listInsertBefore h b e) := by
  subst hleft
  refine ⟨?_, ?_, ?_, ?_, fun x hxa hxe => ?_, fun x hxb hxe => ?_⟩
  · exact (Function.update_of_ne hea.symm _ _).trans (Function.update_self ..)
  · exact (Function.update_of_ne heb _ _).trans (Function.update_self ..)
  · exact Function.update_self ..
  · exact Function.update_self ..
  · exact (Function.update_of_ne hxe _ _).trans (Function.update_of_ne hxa _ _)
  · exact (Function.update_of_ne hxb _ _).trans (Function.update_of_ne hxe _ _)

/-- A node in no list is put between two neighbours of a list. -/
theorem Represents.insert {xs' : List Addr} (hrep : Represents h l xs) (he : e ∉ nodes l xs)
    (hsplit : nodes l xs = us ++ a :: b :: vs) (hnew : nodes l xs' = us ++ a :: e :: b :: vs) :
    Represents (listInsertBefore h b e) l xs' ∧ Kept h (e :: nodes l xs) (listInsertBefore h b e) := by
  obtain ⟨hlb, hta⟩ := hrep.ends hsplit
  have hl : l ∈ nodes l xs := List.mem_cons_self
  have ht : tailOf l ∈ nodes l xs := List.mem_append_right _ (List.mem_singleton_self _)
  have ha : a ∈ nodes l xs := by rw [hsplit]; simp
  have hb : b ∈ nodes l xs := by rw [hsplit]; simp
  have hlinked := hrep.linked
  have hnodup := hrep.nodup
  have hfresh := he
  rw [hsplit] at hlinked hnodup hfresh
  have hs := listInsertBefore_spliced (e := e) hlinked.neighbours.2 (fun heq => he (heq ▸ ha))
    fun heq => he (heq ▸ hb)
  refine ⟨⟨?_, ?_, ?_, ?_⟩, .of_spliced hs ?_ ?_ List.mem_cons_self⟩
  · have hperm : (us ++ a :: e :: b :: vs).Perm (e :: (us ++ a :: b :: vs)) := by
      rw [List.append_cons us a (e :: b :: vs), List.append_cons us a (b :: vs)]
      exact List.perm_middle
    rw [hnew]
    exact hperm.nodup_iff.mpr (List.nodup_cons.mpr ⟨hfresh, hnodup⟩)
  · rw [hnew]
    exact hlinked.splice hnodup hfresh hs
  · rw [hs.prev_of l hlb fun heq => he (heq ▸ hl), hrep.head]
  · rw [hs.next_of _ hta fun heq => he (heq ▸ ht), hrep.tail]
  · exact List.mem_cons_of_mem e ha
  · exact List.mem_cons_of_mem e hb

/-- The first node, or the sentinel at the end. -/
theorem exists_first (xs : List Addr) (t : Addr) : ∃ b vs, xs ++ [t] = b :: vs := by
  cases xs with
  | nil => exact ⟨t, [], rfl⟩
  | cons x xs => exact ⟨x, xs ++ [t], rfl⟩

/-- The last node, or the sentinel at the start. -/
theorem exists_last (l : Addr) (xs : List Addr) : ∃ us a, l :: xs = us ++ [a] := by
  obtain ⟨us, a, heq⟩ := List.eq_nil_or_concat (l :: xs) |>.resolve_left (List.cons_ne_nil l xs)
  exact ⟨us, a, by rw [heq, List.concat_eq_append]⟩

theorem listPush_represents (hrep : Represents h l xs) (he : e ∉ nodes l xs) :
    Represents (listPush h l e) l (e :: xs) ∧ Kept h (e :: nodes l xs) (listPush h l e) := by
  obtain ⟨b, vs, hfirst⟩ := exists_first xs (tailOf l)
  have hsplit : nodes l xs = [] ++ l :: b :: vs := by rw [nodes, List.cons_append, hfirst]; rfl
  have hlinked := hrep.linked
  rw [hsplit] at hlinked
  rw [listPush, hlinked.neighbours.1]
  refine hrep.insert he hsplit ?_
  rw [nodes, List.cons_append, List.cons_append, hfirst]
  rfl

theorem listAppend_represents (hrep : Represents h l xs) (he : e ∉ nodes l xs) :
    Represents (listAppend h l e) l (xs ++ [e]) ∧ Kept h (e :: nodes l xs) (listAppend h l e) := by
  obtain ⟨us, a, hlast⟩ := exists_last l xs
  have hsplit : nodes l xs = us ++ a :: tailOf l :: [] := by
    rw [nodes, hlast, List.append_assoc]
    rfl
  refine hrep.insert he hsplit ?_
  rw [nodes, ← List.cons_append, hlast, List.append_assoc, List.append_assoc]
  rfl

/-! ## Taking a node out -/

theorem listRemove_unlinked (hleft : h.prev e = a) (hright : h.next e = b) :
    h.Unlinked a b (listRemove h e) := by
  subst hleft hright
  have hnext : (setNext h (h.prev e) (h.next e)).next e = h.next e := by
    by_cases hself : e = h.prev e
    · exact (congrArg _ hself).trans (Function.update_self ..)
    · exact Function.update_of_ne hself _ _
  rw [listRemove, hnext]
  exact ⟨Function.update_self .., Function.update_self .., fun x hx => Function.update_of_ne hx _ _,
    fun x hx => Function.update_of_ne hx _ _⟩

theorem listRemove_represents (hrep : Represents h l (us ++ e :: vs)) :
    Represents (listRemove h e) l (us ++ vs) ∧ Kept h (nodes l (us ++ e :: vs)) (listRemove h e) := by
  obtain ⟨us', a, hlast⟩ := exists_last l us
  obtain ⟨b, vs', hfirst⟩ := exists_first vs (tailOf l)
  have hsplit : nodes l (us ++ e :: vs) = us' ++ a :: e :: b :: vs' := by
    rw [nodes, ← List.cons_append, hlast]
    simp only [List.append_assoc, List.cons_append, List.nil_append, hfirst]
  have hnew : nodes l (us ++ vs) = us' ++ a :: b :: vs' := by
    rw [nodes, ← List.cons_append, hlast, List.append_assoc, List.append_assoc, hfirst]
    rfl
  have hlinked := hrep.linked
  have hnodup := hrep.nodup
  rw [hsplit] at hlinked hnodup
  have hright : h.next e = b := by
    rw [List.append_cons us' a] at hlinked
    exact hlinked.neighbours.1
  have hs := listRemove_unlinked hlinked.neighbours.2 hright
  have hsub : (us' ++ a :: b :: vs').Sublist (us' ++ a :: e :: b :: vs') :=
    ((List.sublist_cons_self e (b :: vs')).cons_cons a).append_left us'
  have hta : tailOf l ≠ a := (hrep.ends hsplit).2
  have hlb : l ≠ b := by
    rw [List.append_cons us' a] at hsplit
    exact (hrep.ends hsplit).1
  refine ⟨⟨?_, ?_, ?_, ?_⟩, .of_unlinked hs ?_ ?_⟩
  · rw [hnew]
    exact hnodup.sublist hsub
  · rw [hnew]
    exact hlinked.unlink hnodup hs
  · rw [hs.prev_of l hlb, hrep.head]
  · rw [hs.next_of _ hta, hrep.tail]
  · rw [hsplit]
    simp
  · rw [hsplit]
    simp

end Represents

/-! ## Going through a list -/

section Walks

variable {h : Heap} {l t a objElem : Addr} {xs ys : List Addr} {fuel : ℕ} {func : Addr → Bool}

theorem next_eq_headD (hlinked : h.Linked (a :: ys ++ [t])) : h.next a = ys.headD t := by
  cases ys with
  | nil => exact (List.isChain_cons_cons.mp hlinked).1.1
  | cons y ys => exact (List.isChain_cons_cons.mp hlinked).1.1

/-- What the rest of a list is for a loop that stands at its first node. -/
theorem rest_of_linked {y : Addr} (hlinked : h.Linked (y :: ys ++ [t])) (ht : t ∉ y :: ys) :
    y ≠ t ∧ h.next y = ys.headD t ∧ h.Linked (ys ++ [t]) ∧ t ∉ ys := by
  rw [List.mem_cons, not_or] at ht
  exact ⟨Ne.symm ht.1, next_eq_headD hlinked, List.IsChain.tail hlinked, ht.2⟩

theorem elemFindLoop_eq (hlinked : h.Linked (ys ++ [t])) (ht : t ∉ ys) (hfuel : ys.length < fuel) :
    elemFindLoop h t objElem fuel (ys.headD t) = some (if objElem ∈ ys then 1 else 0) := by
  induction ys generalizing fuel with
  | nil =>
      obtain ⟨fuel, rfl⟩ := Nat.exists_eq_succ_of_ne_zero (Nat.ne_zero_of_lt hfuel)
      rw [elemFindLoop, List.headD_nil, if_neg fun hne => hne rfl, if_neg List.not_mem_nil]
  | cons y ys ih =>
      obtain ⟨fuel, rfl⟩ := Nat.exists_eq_succ_of_ne_zero (Nat.ne_zero_of_lt hfuel)
      obtain ⟨hy, hnext, hrest, ht⟩ := rest_of_linked hlinked ht
      rw [elemFindLoop, List.headD_cons, if_pos hy]
      by_cases hobj : y = objElem
      · rw [if_pos hobj, if_pos (List.mem_cons.mpr (Or.inl hobj.symm))]
      · rw [if_neg hobj, hnext, ih hrest ht (Nat.lt_of_succ_lt_succ hfuel)]
        exact congrArg some (if_congr (List.mem_cons.trans (or_iff_right (Ne.symm hobj))).symm rfl rfl)

theorem listTraversalLoop_eq (hlinked : h.Linked (ys ++ [t])) (ht : t ∉ ys) (hfuel : ys.length < fuel) :
    listTraversalLoop h t func fuel (ys.headD t) = some ((ys.find? func).getD null) := by
  induction ys generalizing fuel with
  | nil =>
      obtain ⟨fuel, rfl⟩ := Nat.exists_eq_succ_of_ne_zero (Nat.ne_zero_of_lt hfuel)
      rw [listTraversalLoop, List.headD_nil, if_neg fun hne => hne rfl]
      rfl
  | cons y ys ih =>
      obtain ⟨fuel, rfl⟩ := Nat.exists_eq_succ_of_ne_zero (Nat.ne_zero_of_lt hfuel)
      obtain ⟨hy, hnext, hrest, ht⟩ := rest_of_linked hlinked ht
      rw [listTraversalLoop, List.headD_cons, if_pos hy]
      by_cases hfunc : func y = true
      · rw [if_pos hfunc, List.find?_cons_of_pos hfunc]
        rfl
      · rw [if_neg hfunc, hnext, ih hrest ht (Nat.lt_of_succ_lt_succ hfuel),
          List.find?_cons_of_neg hfunc]

theorem listLenLoop_eq {length : UInt32} (hlinked : h.Linked (ys ++ [t])) (ht : t ∉ ys)
    (hfuel : ys.length < fuel) :
    listLenLoop h t fuel (ys.headD t) length = some (length + UInt32.ofNat ys.length) := by
  induction ys generalizing fuel length with
  | nil =>
      obtain ⟨fuel, rfl⟩ := Nat.exists_eq_succ_of_ne_zero (Nat.ne_zero_of_lt hfuel)
      rw [listLenLoop, List.headD_nil, if_neg fun hne => hne rfl]
      simp
  | cons y ys ih =>
      obtain ⟨fuel, rfl⟩ := Nat.exists_eq_succ_of_ne_zero (Nat.ne_zero_of_lt hfuel)
      obtain ⟨hy, hnext, hrest, ht⟩ := rest_of_linked hlinked ht
      rw [listLenLoop, List.headD_cons, if_pos hy, hnext, ih hrest ht (Nat.lt_of_succ_lt_succ hfuel),
        List.length_cons, UInt32.ofNat_add, UInt32.add_assoc, UInt32.add_comm 1]
      rfl

/-- There are not as many nodes as addresses, so the counter does not wrap around. -/
theorem Represents.length_lt (hrep : Represents h l xs) : xs.length < 2 ^ 32 := by
  have hnodup : ((nodes l xs).map UInt32.toFin).Nodup :=
    hrep.nodup.map fun x y hxy => UInt32.toFin_inj.mp hxy
  have hle := hnodup.length_le_card
  rw [List.length_map, nodes, Fintype.card_fin, List.length_append, List.length_cons] at hle
  have hsize : UInt32.size = 2 ^ 32 := rfl
  omega

/-- What a loop over the list starts from. -/
theorem Represents.walk (hrep : Represents h l xs) :
    h.next l = xs.headD (tailOf l) ∧ h.Linked (xs ++ [tailOf l]) ∧ tailOf l ∉ xs := by
  have hnodup := (List.nodup_cons.mp hrep.nodup).2
  refine ⟨next_eq_headD hrep.linked, List.IsChain.tail hrep.linked, fun hmem => ?_⟩
  exact (List.nodup_append'.mp hnodup).2.2 hmem (List.mem_singleton_self _)

theorem listEmpty_eq (hrep : Represents h l xs) : listEmpty h l = if xs = [] then 1 else 0 := by
  obtain ⟨hnext, -, ht⟩ := hrep.walk
  rw [listEmpty, hnext]
  cases xs with
  | nil => rw [List.headD_nil, if_pos rfl, if_pos rfl]
  | cons x xs =>
      have hx : x ≠ tailOf l := fun heq => ht (List.mem_cons.mpr (Or.inl heq.symm))
      rw [List.headD_cons, if_neg hx, if_neg (List.cons_ne_nil x xs)]

theorem elemFind_eq (hrep : Represents h l xs) (hfuel : xs.length < fuel) :
    elemFind fuel h l objElem = some (if objElem ∈ xs then 1 else 0) := by
  obtain ⟨hnext, hlinked, ht⟩ := hrep.walk
  rw [elemFind, hnext, elemFindLoop_eq hlinked ht hfuel]

theorem listTraversal_eq (hrep : Represents h l xs) (hfuel : xs.length < fuel) :
    listTraversal fuel h l func = some ((xs.find? func).getD null) := by
  obtain ⟨hnext, hlinked, ht⟩ := hrep.walk
  rw [listTraversal, listEmpty_eq hrep]
  by_cases hnil : xs = []
  · rw [if_pos hnil, if_pos one_ne_zero, hnil]
    rfl
  · rw [if_neg hnil, if_neg fun hne => hne rfl, hnext, listTraversalLoop_eq hlinked ht hfuel]

theorem listLen_eq (hrep : Represents h l xs) (hfuel : xs.length < fuel) :
    ∃ n, listLen fuel h l = some n ∧ n.toNat = xs.length := by
  obtain ⟨hnext, hlinked, ht⟩ := hrep.walk
  refine ⟨_, ?_, UInt32.toNat_ofNat_of_lt' hrep.length_lt⟩
  rw [listLen, hnext, listLenLoop_eq hlinked ht hfuel, UInt32.zero_add]

end Walks

/-- The list at `l` with the nodes `xs`: every operation does to the sequence what its name says, and
nothing to the lists that share no node with it. -/
theorem list_refines {h : Heap} {l : Addr} {xs : List Addr} (hrep : Represents h l xs) :
    (∀ e ∉ nodes l xs,
      (Represents (listPush h l e) l (e :: xs) ∧ Kept h (e :: nodes l xs) (listPush h l e)) ∧
      Represents (listAppend h l e) l (xs ++ [e]) ∧ Kept h (e :: nodes l xs) (listAppend h l e)) ∧
    (∀ e ∈ xs, Represents (listRemove h e) l (xs.erase e) ∧ Kept h (nodes l xs) (listRemove h e)) ∧
    (∀ x rest, xs = x :: rest → (listPop h l).2 = x ∧ Represents (listPop h l).1 l rest ∧
      Kept h (nodes l xs) (listPop h l).1) ∧
    (∀ fuel, xs.length < fuel →
      (∀ objElem, elemFind fuel h l objElem = some (if objElem ∈ xs then 1 else 0)) ∧
      (∃ n, listLen fuel h l = some n ∧ n.toNat = xs.length) ∧
      ∀ func, listTraversal fuel h l func = some ((xs.find? func).getD null)) ∧
    listEmpty h l = if xs = [] then 1 else 0 := by
  refine ⟨fun e he => ⟨listPush_represents hrep he, listAppend_represents hrep he⟩, fun e he => ?_,
    fun x rest hxs => ?_, fun fuel hfuel => ⟨fun _ => elemFind_eq hrep hfuel, listLen_eq hrep hfuel,
    fun _ => listTraversal_eq hrep hfuel⟩, listEmpty_eq hrep⟩
  · obtain ⟨us, vs, rfl, hus⟩ := List.eq_append_cons_of_mem he
    rw [List.erase_append_right _ hus, List.erase_cons_head]
    exact listRemove_represents hrep
  · subst hxs
    have hnext : h.next l = x := hrep.walk.1
    rw [listPop, hnext]
    exact ⟨rfl, listRemove_represents (show Represents h l ([] ++ x :: rest) from hrep)⟩

/-- Two nodes put into a list that `list_init` has made, one at each end. -/
theorem represents_pushed :
    Represents (listAppend (listPush (listInit ⟨fun _ => null, fun _ => null⟩ 16) 16 64) 16 96) 16
      [64, 96] := by
  have hinit := represents_listInit ⟨fun _ => null, fun _ => null⟩ 16
  have hpush := (listPush_represents hinit (e := 64) (by decide)).1
  exact (listAppend_represents hpush (e := 96) (by decide)).1

/-- In the list of the two nodes, a third one is pushed, the last one is removed, the first one is
popped, one is searched for and all are counted. -/
theorem list_refines_two :
    let h := listAppend (listPush (listInit ⟨fun _ => null, fun _ => null⟩ 16) 16 64) 16 96
    Represents (listPush h 16 128) 16 [128, 64, 96] ∧ Represents (listRemove h 96) 16 [64] ∧
      ((listPop h 16).2 = 64 ∧ Represents (listPop h 16).1 16 [96]) ∧
      elemFind 3 h 16 96 = some 1 ∧ (∃ n, listLen 3 h 16 = some n ∧ n.toNat = 2) ∧
      listEmpty h 16 = 0 := by
  obtain ⟨hadd, hremove, hpop, hwalk, hempty⟩ := list_refines represents_pushed
  obtain ⟨hfirst, hrest, -⟩ := hpop 64 [96] rfl
  obtain ⟨hfind, hlen, -⟩ := hwalk 3 (by decide)
  exact ⟨(hadd 128 (by decide)).1.1, (hremove 96 (by decide)).1, ⟨hfirst, hrest⟩, hfind 96, hlen,
    hempty⟩

end BochsOs.Intrusive
