import BochsOs.Fs.DirAdd

/-!
# What a removal does to a directory

In a state of a run, `delete_dir_entry` returns and takes just one entry away if and only if
the first block with an entry of the number is a direct one, has just one of them, and holds
no stray `..` that would go with it (`removesEntry_iff`).  A block behind the indirect table
is never given back: the call does not return (`not_removesEntry_indirect`).

The size of a directory is that of `.` and `..` only if it holds nothing else
(`dirIsEmpty_sound`).
-/

namespace BochsOs

open ByteMemory Suspend Suspend.Prog Shelves

/-! ## The entries of a block -/

/-- The entry is called `.` or `..`. -/
def IsDots (x : List UInt8 × ℕ × FileType) : Prop := x.1 = dotName ∨ x.1 = dotDotName

instance : DecidablePred IsDots := fun _ => inferInstanceAs (Decidable (_ ∨ _))

/-- An entry of the number `n` other than `.` and `..`. -/
def IsEntry (n : ℕ) (x : List UInt8 × ℕ × FileType) : Prop := ¬ IsDots x ∧ x.2.1 = n

instance (n : ℕ) : DecidablePred (IsEntry n) := fun _ => inferInstanceAs (Decidable (_ ∧ _))

theorem DirEntry.dotted_iff (e : DirEntry) : e.dotted = true ↔ IsDots e.shown := by
  rw [DirEntry.dotted, Bool.or_eq_true, DirEntry.named_shown (by decide) (by decide),
    DirEntry.named_shown (by decide) (by decide)]
  exact Iff.rfl

theorem DirEntry.isNo_shown {n : ℕ} {e : DirEntry} : e.isNo n = true ↔ IsEntry n e.shown := by
  rw [DirEntry.isNo_iff, IsEntry, ← DirEntry.dotted_iff, Bool.not_eq_true]
  exact Iff.rfl

section View

variable {k : Kernel} {d : ℕ} {ptr : ℕ → ℕ} {s : BoxRow DirEntry} (h : k.HoldsDir d ptr s)

include h

/-- A block shows an entry of the number just if its box has one. -/
theorem Kernel.HoldsDir.exists_entry {i n : ℕ} (hi : i < flattenPtrs) :
    (∃ x ∈ k.blockView d i, IsEntry n x) ↔ ∃ b ∈ s i, ¬ LacksNo n b := by
  rw [h.blockView hi]
  constructor
  · rintro ⟨x, hx, hentry⟩
    obtain ⟨e, he, rfl⟩ := List.mem_map.mp hx
    rcases hs : s i with _ | b
    · rw [hs] at he
      exact absurd he List.not_mem_nil
    · rw [hs, boxItems_some] at he
      refine ⟨b, rfl, fun hlacks => ?_⟩
      have hno := hlacks e he
      rw [DirEntry.isNo_shown.mpr hentry] at hno
      cases hno
  · rintro ⟨b, hb, hsome⟩
    obtain ⟨l₁, x, l₂, rfl, -, hx⟩ := exists_first_no hsome
    refine ⟨x.shown, List.mem_map.mpr ⟨x, ?_, rfl⟩, DirEntry.isNo_shown.mp hx⟩
    rw [Option.mem_def.mp hb, boxItems_some, List.reduceOption_append, List.reduceOption_cons_of_some]
    exact List.mem_append_right _ List.mem_cons_self

end View

/-! ## The claim of a removal -/

/-- A block is free in the block bitmap. -/
def Kernel.BlockFree (k : Kernel) (lba : ℕ) : Prop := k.part.Marked false lba

/-- Just the entry `x` of the block of pointer `i` is taken away. -/
structure Removed (k : Kernel) (d n : ℕ) (k' : Kernel) (i : ℕ)
    (before : List (List UInt8 × ℕ × FileType)) (x : List UInt8 × ℕ × FileType)
    (after : List (List UInt8 × ℕ × FileType)) : Prop where
  small : i < flattenPtrs
  block : k.blockView d i = before ++ x :: after
  entry : IsEntry n x
  taken : k'.blockView d i = before ++ after
  others : ∀ j < flattenPtrs, j ≠ i → k'.blockView d j = k.blockView d j
  size : (k'.dirInode d).iSize + k.part.sb.dirEntrySize = (k.dirInode d).iSize
  /-- The block is freed exactly when it became empty; the one with `.` never does. -/
  freed : k'.BlockFree (k.dirPtr d i) ↔ before ++ after = []
  unlinked : k'.dirPtr d i = 0 ↔ before ++ after = []
  /-- The indirect table is freed exactly when its last block goes. -/
  table : (k.dirInode d).iSectors directPtrs ≠ 0 →
    (k'.BlockFree ((k.dirInode d).iSectors directPtrs) ↔ directPtrs ≤ i ∧ before ++ after = [] ∧
      ∀ j, directPtrs ≤ j → j < flattenPtrs → j ≠ i → k.dirPtr d j = 0)

/-- `delete_dir_entry` returns, and it returns true just if there is an entry of the number,
which is then taken away. -/
def RemovesEntry (t : Transfer) (k : Kernel) (d n : ℕ) : Prop :=
  (deleteDirEntry t d n).succeeds (fun r k' =>
    (r = true ↔ ∃ i < flattenPtrs, ∃ x ∈ k.blockView d i, IsEntry n x) ∧
    (r = true → ∃ i before x after, Removed k d n k' i before x after)) k

/-- The first block with an entry of the number is a direct one, it has one such entry, and
no `..` goes with it. -/
def Removable (k : Kernel) (d n : ℕ) : Prop :=
  ∀ i < flattenPtrs, (∀ j < i, ∀ x ∈ k.blockView d j, ¬ IsEntry n x) →
    (∃ x ∈ k.blockView d i, IsEntry n x) →
    i < directPtrs ∧ (k.blockView d i).countP (fun x => IsEntry n x) = 1 ∧
      ((k.blockView d i).countP (fun x => ¬ IsDots x) = 1 →
        (∀ x ∈ k.blockView d i, x.1 ≠ dotName) → (k.blockView d i).length = 1)

/-! ## Blocks and boxes -/

theorem decide_isEntry (n : ℕ) (e : DirEntry) : decide (IsEntry n e.shown) = e.isNo n := by
  rw [Bool.eq_iff_iff, decide_eq_true_iff, DirEntry.isNo_shown]

theorem decide_not_isDots (e : DirEntry) : decide (¬ IsDots e.shown) = !e.dotted := by
  rw [Bool.eq_iff_iff, decide_eq_true_iff, Bool.not_eq_true', ← DirEntry.dotted_iff, Bool.not_eq_true]

/-- What a box shows is counted as its entries are. -/
theorem countP_shown (n : ℕ) (b : Box DirEntry) :
    (b.reduceOption.map DirEntry.shown).countP (fun x => IsEntry n x) = b.reduceOption.countP (·.isNo n) ∧
      (b.reduceOption.map DirEntry.shown).countP (fun x => ¬ IsDots x) = countOthers b := by
  rw [List.countP_map, List.countP_map]
  constructor
  · exact List.countP_congr fun e _ => by
      change decide (IsEntry n e.shown) = true ↔ _
      rw [decide_isEntry]
  · exact List.countP_congr fun e _ => by
      change decide (¬ IsDots e.shown) = true ↔ _
      rw [decide_not_isDots]

theorem hasDot_shown (b : Box DirEntry) :
    hasDot b = false ↔ ∀ x ∈ b.reduceOption.map DirEntry.shown, x.1 ≠ dotName := by
  rw [hasDot, List.any_eq_false]
  constructor
  · intro h x hx
    obtain ⟨e, he, rfl⟩ := List.mem_map.mp hx
    exact fun heq => h e he ((DirEntry.named_shown (by decide) (by decide)).mpr heq)
  · intro h e he hnamed
    exact h e.shown (List.mem_map.mpr ⟨e, he, rfl⟩)
      ((DirEntry.named_shown (by decide) (by decide)).mp hnamed)

/-- A box with one entry of the number. -/
theorem countP_isNo {n : ℕ} {l₁ l₂ : Box DirEntry} {x : DirEntry} (hl : LacksNo n l₁)
    (hx : x.isNo n = true) :
    (l₁ ++ some x :: l₂).reduceOption.countP (·.isNo n) = 1 ↔ LacksNo n l₂ := by
  have hlow : l₁.reduceOption.countP (·.isNo n) = 0 := by
    rw [List.countP_eq_zero]
    exact fun e he hno => by
      rw [hl e he] at hno
      cases hno
  rw [List.reduceOption_append, List.reduceOption_cons_of_some, List.countP_append, hlow,
    List.countP_cons_of_pos hx, Nat.zero_add, Nat.add_eq_right, List.countP_eq_zero]
  exact forall₂_congr fun e _ => by rw [Bool.not_eq_true]

section DeletesAt

variable {n i : ℕ} {s : BoxRow DirEntry} {l₁ l₂ : Box DirEntry} {x : DirEntry}

theorem DeletesAt.not_lacksNo (hat : DeletesAt n s i l₁ x l₂) : ¬ LacksNo n (l₁ ++ some x :: l₂) := by
  intro hlacks
  have hno := hlacks x (by
    rw [List.reduceOption_append, List.reduceOption_cons_of_some]
    exact List.mem_append_right _ List.mem_cons_self)
  rw [hat.isNo] at hno
  cases hno

/-- There is one first block with an entry of the number. -/
theorem DeletesAt.unique (hat : DeletesAt n s i l₁ x l₂) {i' : ℕ} {l₁' l₂' : Box DirEntry}
    {x' : DirEntry} (hat' : DeletesAt n s i' l₁' x' l₂') : i = i' := by
  rcases Nat.lt_trichotomy i i' with hlt | heq | hgt
  · exact absurd (hat'.before i hlt _ hat.place) hat.not_lacksNo
  · exact heq
  · exact absurd (hat.before i' hgt _ hat'.place) hat'.not_lacksNo

end DeletesAt

section Removed

variable {k k' : Kernel} {d n : ℕ} {ptr : ℕ → ℕ} {s : BoxRow DirEntry} {lost : ℕ}
  (h : k.DirInv d ptr s lost)

include h

/-- The first block that shows an entry of the number. -/
theorem Kernel.DirInv.deletesAt {i : ℕ} (hi : i < flattenPtrs)
    (hfirst : ∀ j < i, ∀ x ∈ k.blockView d j, ¬ IsEntry n x)
    (hsome : ∃ x ∈ k.blockView d i, IsEntry n x) : ∃ l₁ x l₂, DeletesAt n s i l₁ x l₂ := by
  obtain ⟨b, hb, hlacks⟩ := (h.holds.exists_entry hi).mp hsome
  obtain ⟨l₁, x, l₂, rfl, hl, hx⟩ := exists_first_no hlacks
  refine ⟨l₁, x, l₂, hi, hb, hx, fun j hj b' hb' => ?_, hl⟩
  by_contra hlacks'
  obtain ⟨y, hy, hentry⟩ := (h.holds.exists_entry (hj.trans hi)).mpr ⟨b', hb', hlacks'⟩
  exact hfirst j hj y hy hentry

variable {i : ℕ} {l₁ l₂ : Box DirEntry} {x : DirEntry} (hat : DeletesAt n s i l₁ x l₂)

include hat

theorem Kernel.DirInv.first_entry : (∀ j < i, ∀ y ∈ k.blockView d j, ¬ IsEntry n y) ∧
    ∃ y ∈ k.blockView d i, IsEntry n y := by
  refine ⟨fun j hj y hy hentry => ?_, ?_⟩
  · obtain ⟨b, hb, hlacks⟩ := (h.holds.exists_entry (hj.trans hat.small)).mp ⟨y, hy, hentry⟩
    exact hlacks (hat.before j hj b hb)
  · exact (h.holds.exists_entry hat.small).mpr ⟨_, hat.place, hat.not_lacksNo⟩

/-- The block of the entry. -/
theorem Kernel.DirInv.blockView_deletesAt :
    k.blockView d i = (l₁ ++ some x :: l₂).reduceOption.map DirEntry.shown := by
  rw [h.holds.blockView hat.small, hat.place, boxItems_some]

/-- The block of the entry is in use. -/
theorem Kernel.DirInv.not_free : k.part.Taken (ptr i) ∧ k.dirPtr d i = ptr i ∧ ptr i ≠ 0 :=
  ⟨(DirInv.found h hat).1, h.holds.dirPtr hat.small, h.dir.ptr_ne hat.small hat.place⟩

/-- What a cleared entry leaves. -/
theorem Removed.of_cleared (hkeep : ¬ Emptied (l₁ ++ some x :: l₂)) (hpart : k'.part = k.part)
    (hinode : k'.dirInode d = { k.dirInode d with iSize := (k.dirInode d).iSize - direntSize })
    (h' : k'.DirInv d ptr (Function.update s i (some (l₁ ++ none :: l₂))) lost) :
    Removed k d n k' i (l₁.reduceOption.map DirEntry.shown) x.shown
      (l₂.reduceOption.map DirEntry.shown) := by
  obtain ⟨htaken, hptr, hne⟩ := h.not_free hat
  have hused : ¬ l₁.reduceOption.map DirEntry.shown ++ l₂.reduceOption.map DirEntry.shown = [] := by
    rw [← List.map_append, List.map_eq_nil_iff]
    have hitems := hat.items_ne_nil hkeep
    rwa [List.reduceOption_append, List.reduceOption_cons_of_none] at hitems
  refine ⟨hat.small, ?_, DirEntry.isNo_shown.mp hat.isNo, ?_, fun j hj hne => ?_, ?_, ?_, ?_, fun htable => ?_⟩
  · rw [h.blockView_deletesAt hat, List.reduceOption_append, List.reduceOption_cons_of_some,
      List.map_append, List.map_cons]
  · rw [h'.holds.blockView hat.small, Function.update_self, boxItems_some, List.reduceOption_append,
      List.reduceOption_cons_of_none, List.map_append]
  · rw [h'.holds.blockView hj, h.holds.blockView hj, Function.update_of_ne hne]
  · rw [hinode, h.layout.entrySize]
    exact Nat.sub_add_cancel (DirInv.found h hat).2
  · rw [hptr, Kernel.BlockFree, hpart]
    exact iff_of_false (fun hfree => htaken.ne hfree rfl) hused
  · rw [h'.holds.dirPtr hat.small]
    exact iff_of_false hne hused
  · rw [Kernel.BlockFree, hpart]
    exact iff_of_false (fun hfree => (h.dir.tableTaken htable).ne hfree rfl) fun hall => hused hall.2.1

/-- What a block that is given back leaves. -/
theorem Removed.of_released (hi : i < directPtrs) (hnone : (l₁ ++ l₂).reduceOption = [])
    (hpart : k'.part = k.part.mark (ptr i) false)
    (hinode : k'.dirInode d =
      { (k.dirInode d).setSector i 0 with iSize := (k.dirInode d).iSize - direntSize })
    {more : ℕ} (h' : k'.DirInv d (Function.update ptr i 0) (Function.update s i none) more) :
    Removed k d n k' i [] x.shown [] := by
  obtain ⟨htaken, hptr, hne⟩ := h.not_free hat
  rw [List.reduceOption_append, List.append_eq_nil_iff] at hnone
  refine ⟨hat.small, ?_, DirEntry.isNo_shown.mp hat.isNo, ?_, fun j hj hne => ?_, ?_, ?_, ?_, fun htable => ?_⟩
  · rw [h.blockView_deletesAt hat, List.reduceOption_append, List.reduceOption_cons_of_some, hnone.1,
      hnone.2]
    rfl
  · rw [h'.holds.blockView hat.small, Function.update_self]
    rfl
  · rw [h'.holds.blockView hj, h.holds.blockView hj, Function.update_of_ne hne]
  · rw [hinode, h.layout.entrySize]
    exact Nat.sub_add_cancel (DirInv.found h hat).2
  · rw [hptr, Kernel.BlockFree, hpart]
    exact iff_of_true (htaken.toMarked.self false) rfl
  · rw [h'.holds.dirPtr hat.small, Function.update_self]
    exact iff_of_true rfl rfl
  · have htab := h.dir.tableTaken htable
    have hapart := h.dir.tableApart htable i hat.small
    have hkept : (k.part.mark (ptr i) false).Taken ((k.dirInode d).iSectors directPtrs) :=
      htab.other htaken.low hapart.symm
    rw [Kernel.BlockFree, hpart]
    exact iff_of_false (fun hfree => hkept.ne hfree rfl) fun hall => absurd hall.1 (by omega)

end Removed

section Removable

variable {t : Transfer} {k : Kernel} {d n : ℕ} {ptr : ℕ → ℕ} {s : BoxRow DirEntry} {lost : ℕ}
  (h : k.DirInv d ptr s lost)

include h

/-- What the condition says of the box with the first entry of the number. -/
theorem Removable.deletesAt (hremovable : Removable k d n) {i : ℕ} {l₁ l₂ : Box DirEntry}
    {x : DirEntry} (hat : DeletesAt n s i l₁ x l₂) : i < directPtrs ∧ LacksNo n l₂ ∧
      (Emptied (l₁ ++ some x :: l₂) → (l₁ ++ l₂).reduceOption = []) := by
  obtain ⟨hfirst, hsome⟩ := h.first_entry hat
  obtain ⟨hsmall, hcount, hstray⟩ := hremovable i hat.small hfirst hsome
  rw [h.blockView_deletesAt hat] at hcount hstray
  rw [(countP_shown n _).1, countP_isNo hat.low hat.isNo] at hcount
  refine ⟨hsmall, hcount, fun hempty => ?_⟩
  have hlen := hstray ((countP_shown n _).2.trans hempty.1) ((hasDot_shown _).mp hempty.2)
  rw [List.length_map, List.reduceOption_append, List.reduceOption_cons_of_some, List.length_append,
    List.length_cons] at hlen
  rw [← List.length_eq_zero_iff, List.reduceOption_append, List.length_append]
  omega

/-- What is deleted under the condition is removed. -/
theorem Removable.removesEntry (hremovable : Removable k d n) : RemovesEntry t k d n := by
  have hdel : Deletable n s := fun i l₁ x l₂ hat =>
    ⟨(hremovable.deletesAt h hat).1, (hremovable.deletesAt h hat).2.1⟩
  refine succeeds_of_ensures (ensures_mono (ensures_deleteDirEntry h (Or.inr hdel)) ?_)
  rintro r k' hresult
  cases hresult with
  | absent hnone =>
      refine ⟨iff_of_false Bool.false_ne_true ?_, fun hfalse => by cases hfalse⟩
      rintro ⟨i, hi, hsome⟩
      obtain ⟨b, hb, hlacks⟩ := (h.holds.exists_entry hi).mp hsome
      exact hlacks (hnone i hi b hb)
  | cleared hat _ _ hkeep hpart hinode hinv =>
      exact ⟨iff_of_true rfl ⟨_, hat.small, (h.first_entry hat).2⟩,
        fun _ => ⟨_, _, _, _, Removed.of_cleared h hat hkeep hpart hinode hinv⟩⟩
  | released hat hsmall _ hempty hpart hinode hinv =>
      have hnone := (hremovable.deletesAt h hat).2.2 hempty
      exact ⟨iff_of_true rfl ⟨_, hat.small, (h.first_entry hat).2⟩,
        fun _ => ⟨_, _, _, _, Removed.of_released h hat hsmall hnone hpart hinode hinv⟩⟩

/-- A call that removes an entry met the condition. -/
theorem RemovesEntry.removable (hremoves : RemovesEntry t k d n) : Removable k d n := by
  intro i hi hfirst hsome
  obtain ⟨l₁, x, l₂, hat⟩ := h.deletesAt hi hfirst hsome
  obtain ⟨r, k', hret, htrue, hremoved⟩ := returns_of_succeeds hremoves
  have hdelete : (deleteDirEntry t d n).ensures .any (DeleteResult k d ptr s lost n) k :=
    ensures_deleteDirEntry h (Or.inl trivial)
  rw [h.blockView_deletesAt hat, (countP_shown n _).1, (countP_shown n _).2, ← hasDot_shown]
  cases wp_iff_returns.mp (wp_of_ensures hdelete) r k' hret with
  | absent hnone => exact absurd (hnone i hi _ hat.place) hat.not_lacksNo
  | cleared hat' hsmall hone hkeep _ _ _ =>
      obtain rfl := hat.unique hat'
      have hbox := Option.some.inj (hat.place.symm.trans hat'.place)
      rw [hbox]
      exact ⟨hsmall, (countP_isNo hat'.low hat'.isNo).mpr hone,
        fun hcount hdot => absurd ⟨hcount, hdot⟩ hkeep⟩
  | released hat' hsmall hone _ _ _ hinv =>
      obtain rfl := hat.unique hat'
      have hbox := Option.some.inj (hat.place.symm.trans hat'.place)
      obtain ⟨j, before, y, after, hrem⟩ := hremoved rfl
      have hgone : k'.blockView d i = [] := by
        rw [hinv.holds.blockView hi, Function.update_self]
        rfl
      have hij : i = j := by
        by_contra hne
        obtain ⟨z, hz, -⟩ := hsome
        rw [← hrem.others i hi hne, hgone] at hz
        exact List.not_mem_nil hz
      have hlen : (k.blockView d i).length = 1 := by
        have htaken := hrem.taken
        rw [← hij, hgone, eq_comm, List.append_eq_nil_iff] at htaken
        rw [hij, hrem.block, htaken.1, htaken.2]
        rfl
      rw [h.blockView_deletesAt hat] at hlen
      rw [hbox] at hlen ⊢
      exact ⟨hsmall, (countP_isNo hat'.low hat'.isNo).mpr hone, fun _ _ => hlen⟩

end Removable

section One

variable {t : Transfer} {k : Kernel} {ptr : ℕ → ℕ} {s : BoxRow DirEntry} (hplaces : ∀ i ≠ 0, s i = none)

include hplaces

theorem items_of_places : items s flattenPtrs 0 = boxItems (s 0) := by
  have hgen : ∀ left first, 0 < first → items s left first = [] := by
    intro left
    induction left with
    | zero => exact fun _ _ => rfl
    | succ left ih =>
        intro first hpos
        rw [items, hplaces first (by omega), boxItems_none, ih (first + 1) (Nat.succ_pos _)]
        rfl
  have hitems : items s flattenPtrs 0 = boxItems (s 0) ++ items s 139 1 := rfl
  rw [hitems, hgen 139 1 one_pos, List.append_nil]

theorem DeletesAt.eq_zero {n i : ℕ} {l₁ l₂ : Box DirEntry} {x : DirEntry} (hat : DeletesAt n s i l₁ x l₂) :
    i = 0 := by
  by_contra hne
  have hplace := hat.place
  rw [hplaces i hne] at hplace
  cases hplace

variable (h : Filled t 1 k ptr s)

include h

/-- The entry of the number 1 can be removed. -/
theorem Filled.deletable : Deletable 1 s := by
  intro i l₁ x l₂ hat
  have hi := hat.eq_zero hplaces
  refine ⟨hi ▸ by decide, (countP_isNo hat.low hat.isNo).mp ?_⟩
  have hone := h.single 1
  have hplace := hat.place
  rw [items_of_places hplaces, ← hi, hplace, boxItems_some] at hone
  have hpos : 0 < (l₁ ++ some x :: l₂).reduceOption.countP (·.isNo 1) := by
    rw [List.countP_pos_iff, List.reduceOption_append, List.reduceOption_cons_of_some]
    exact ⟨x, List.mem_append_right _ List.mem_cons_self, hat.isNo⟩
  omega

theorem Filled.first_one : numbered 0 ∈ boxItems (s 0) ∧ hasDot ((s 0).getD []) = true := by
  constructor
  · rw [← items_of_places hplaces]
    exact h.perm.mem_iff.mpr List.mem_cons_self
  · obtain ⟨own, parent, b, hfirst⟩ := h.inv.sound.first
    rw [hfirst]
    rfl

/-- The entry of the number 1 meets the condition. -/
theorem Filled.removable : Removable k madeDir 1 := by
  intro i hi _ ⟨x, hx, hentry⟩
  rw [h.inv.holds.blockView hi] at hx ⊢
  have hzero : i = 0 := by
    by_contra hne
    rw [hplaces i hne] at hx
    exact List.not_mem_nil hx
  obtain ⟨own, parent, b, hfirst⟩ := h.inv.sound.first
  have hdot := (h.first_one hplaces).2
  have hone := h.single 1
  rw [items_of_places hplaces] at hone
  rw [hzero, hfirst, boxItems_some] at hx ⊢
  rw [hfirst, boxItems_some] at hone
  rw [hfirst, Option.getD_some] at hdot
  rw [(countP_shown 1 _).1]
  refine ⟨by decide, le_antisymm hone (List.countP_pos_iff.mpr ?_), fun _ hnone => ?_⟩
  · obtain ⟨e, he, rfl⟩ := List.mem_map.mp hx
    exact ⟨e, he, DirEntry.isNo_shown.mpr hentry⟩
  · rw [(hasDot_shown _).mpr hnone] at hdot
    cases hdot

end One

/-- A directory to which an entry was added and from which it was removed again. -/
structure EmptiedDir (t : Transfer) (k : Kernel) (ptr : ℕ → ℕ) (s : BoxRow DirEntry) : Prop where
  reached : DirReached t madeDir k
  inv : k.DirInv madeDir ptr s 0
  places : ∀ i ≠ 0, s i = none
  length : (items s flattenPtrs 0).length = 2
  dirPos : (k.dirs madeDir).dirPos = 0

theorem exists_emptied (t : Transfer) : ∃ k ptr s, EmptiedDir t k ptr s := by
  obtain ⟨k, ptr, s, h, hplaces⟩ := exists_one t
  obtain ⟨r, k', hexec, hresult⟩ :=
    exec_of_ensures (ensures_deleteDirEntry (t := t) h.inv (Or.inr (h.deletable hplaces)))
  have hret := returns_of_exec hexec
  have hreached : DirReached t madeDir k' := .next (i := .delete 1) h.reached trivial ⟨r, hret⟩
  have hpos : (k'.dirs madeDir).dirPos = 0 := by
    rw [DirCall.sameDirs (.delete 1) hret]
    exact h.dirPos
  obtain ⟨hmem, hdot⟩ := h.first_one hplaces
  cases hresult with
  | absent hnone =>
      rcases hs : s 0 with _ | b
      · rw [hs] at hmem
        exact absurd hmem List.not_mem_nil
      · rw [hs, boxItems_some] at hmem
        cases hnone 0 (by decide) b hs _ hmem
  | released hat _ _ hempty =>
      have hplace := hat.place
      rw [hat.eq_zero hplaces] at hplace
      rw [hplace, Option.getD_some, hempty.2] at hdot
      cases hdot
  | @cleared _ i l₁ l₂ x hat _ _ _ _ _ hinv =>
      obtain rfl := hat.eq_zero hplaces
      have hbox := hat.place
      have hins : Inserted x (l₁ ++ none :: l₂).reduceOption (l₁ ++ some x :: l₂).reduceOption := by
        refine ⟨l₁.reduceOption, l₂.reduceOption, ?_, ?_⟩
        · rw [List.reduceOption_append, List.reduceOption_cons_of_none]
        · rw [List.reduceOption_append, List.reduceOption_cons_of_some]
      have hitems : Inserted x (items (Function.update s 0 (some (l₁ ++ none :: l₂))) flattenPtrs 0)
          (items s flattenPtrs 0) := removed_of_place (by decide) (by rwa [hbox])
      have hlen := hitems.length
      rw [h.length] at hlen
      exact ⟨k', _, _, hreached, hinv, fun i hi => (Function.update_of_ne hi _ _).trans (hplaces i hi),
        by omega, hpos⟩

/-- The open directory `d` holds nothing but `.` and `..`, in one block. -/
structure Kernel.OnlyDots (k : Kernel) (d : ℕ) : Prop where
  entries : ∀ x ∈ k.dirView d, IsDots x
  sectors : ∀ i, 0 < i → i ≤ directPtrs → (k.dirInode d).iSectors i = 0

/-- A shelf whose size is that of two entries has no other. -/
theorem Kernel.DirInv.onlyDots {k : Kernel} {d : ℕ} {ptr : ℕ → ℕ} {s : BoxRow DirEntry} {lost : ℕ}
    (h : k.DirInv d ptr s lost) (hsize : (k.dirInode d).iSize = k.part.sb.dirEntrySize * 2) :
    k.OnlyDots d := by
  obtain ⟨own, parent, b, hfirst⟩ := h.sound.first
  have hitems : items s flattenPtrs 0 = boxItems (s 0) ++ items s 139 1 := rfl
  rw [hfirst, boxItems_some, List.reduceOption_cons_of_some, List.reduceOption_cons_of_some] at hitems
  have hlen : (items s flattenPtrs 0).length + lost = 2 := by
    rw [h.size, h.layout.entrySize] at hsize
    exact Nat.eq_of_mul_eq_mul_left (by decide) hsize
  rw [hitems, List.length_append, List.length_cons, List.length_cons] at hlen
  have hb : b.reduceOption = [] := List.length_eq_zero_iff.mp (by omega)
  have hrest : items s 139 1 = [] := List.length_eq_zero_iff.mp (by omega)
  have hnone : ∀ i, 0 < i → i < flattenPtrs → s i = none := fun i hlow hhigh =>
    h.sound.used i (items_eq_nil hrest i hlow (by unfold flattenPtrs at hhigh; omega))
  refine ⟨fun x hx => ?_, fun i hlow hhigh => ?_⟩
  · rw [h.holds.view, hitems, hb, hrest] at hx
    obtain ⟨e, he, rfl⟩ := List.mem_map.mp hx
    rw [List.append_nil, List.mem_cons, List.mem_singleton] at he
    rcases he with rfl | rfl
    · exact Or.inl rfl
    · exact Or.inr rfl
  · rcases Nat.eq_or_lt_of_le hhigh with rfl | hlt
    · by_contra htable
      exact h.tableUsed htable (hnone _ (by decide) (by decide))
    · have hin : i < flattenPtrs := hlt.trans (by decide)
      rw [← h.dir.direct i hlt]
      exact (h.dir.empty i hin).mpr (hnone i hlow hin)

/-- In every state of a run: a directory that is empty by its size holds nothing but `.` and
`..`, and the assertion of `dir_remove` holds for it. -/
theorem dirIsEmpty_sound {t : Transfer} {d : ℕ} {k : Kernel} (hk : DirReached t d k) :
    (dirIsEmpty d).succeeds (fun r k' => k' = k ∧ (r = true → k.OnlyDots d ∧
      ((List.range' 1 (totalPtrs - 1)).all fun blkI => (k.dirInode d).iSectors blkI = 0) = true)) k := by
  obtain ⟨ptr, s, lost, h⟩ := hk.inv
  rw [dirIsEmpty, succeeds_bind, succeeds_read, succeeds_pure]
  refine ⟨rfl, fun hempty => ?_⟩
  have honly := h.onlyDots (of_decide_eq_true hempty)
  refine ⟨honly, List.all_eq_true.mpr fun blkI hmem => decide_eq_true ?_⟩
  obtain ⟨hlow, hhigh⟩ := List.mem_range'_1.mp hmem
  exact honly.sectors blkI hlow (by unfold totalPtrs at hhigh; unfold directPtrs; omega)

/-- A directory from which the only entry has been removed again is empty. -/
theorem dirIsEmpty_emptied : ∃ k ptr s, EmptiedDir .repeated k ptr s ∧
    (k.dirInode madeDir).iSize = k.part.sb.dirEntrySize * 2 ∧
    (dirIsEmpty madeDir).succeeds (fun r k' => k' = k ∧ (r = true → k.OnlyDots madeDir ∧
      ((List.range' 1 (totalPtrs - 1)).all fun blkI => (k.dirInode madeDir).iSectors blkI = 0) = true)) k := by
  obtain ⟨k, ptr, s, h⟩ := exists_emptied .repeated
  refine ⟨k, ptr, s, h, ?_, dirIsEmpty_sound h.reached⟩
  rw [h.inv.size, h.length, h.inv.layout.entrySize]

end BochsOs
