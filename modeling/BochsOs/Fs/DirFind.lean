import BochsOs.Fs.DirAdd

/-!
# Names of new entries

An entry that `create_dir_entry` builds and `sync_dir_entry` stores is found under its name,
and under no other, if and only if the name leaves room for its terminator or the lowest
byte of the inode number stands in for it (`retrieved_iff`).
-/

namespace BochsOs

open ByteMemory Suspend Suspend.Prog Shelves

/-- `create_dir_entry` and `sync_dir_entry`, as `file_create` and `sys_mkdir` call them. -/
def storeEntry (t : Transfer) (d : ℕ) (filename : List UInt8) (inodeNo : ℕ) (fileType : FileType) :
    Prog Kernel Bool := do
  let e ← createDirEntry filename inodeNo fileType
  syncDirEntry t d e

/-- The slot that a search for `w` ends at. -/
def Kernel.foundSlot (k : Kernel) (d : ℕ) (w : List UInt8) : Option Slot :=
  (k.slotsOf (k.dirInode d).iSectors).find? (·.hasName w)

/-- The bytes of the entry stand in the slot. -/
def Slot.Holds (s : Slot) (e : DirEntry) : Prop := ∀ j < direntSize, s.buf (s.pos + j) = e.image j

/-- The entry is found under its name, and the slot that is found under another name is not
that of the entry. -/
structure Retrieved (t : Transfer) (d : ℕ) (e : DirEntry) (k : Kernel) : Prop where
  found : k.searched t d e.filename = some (some (e.iNo, e.fType))
  others : ∀ w, (0 : UInt8) ∉ w → w ≠ e.filename →
    k.searched t d w = some ((k.foundSlot d w).map fun s => (s.iNo, s.fType)) ∧
      ∀ s ∈ k.foundSlot d w, ¬ s.Holds e

/-! ## The stored entry -/

section Stored

variable {t : Transfer} {k k' : Kernel} {d lost : ℕ} {ptr : ℕ → ℕ} {s : BoxRow DirEntry} {e : DirEntry}

/-- A search shows the slot it ends at. -/
theorem Kernel.HoldsDir.searched_foundSlot (h : k.HoldsDir d ptr s) {w : List UInt8}
    (hw : (0 : UInt8) ∉ w) :
    k.searched t d w = some ((k.foundSlot d w).map fun s => (s.iNo, s.fType)) := by
  have hrow : List.Forall₂ Slot.Shows (dirSlots k.disk 21 ptr flattenPtrs 0) (row s flattenPtrs 0) :=
    h.dir.forall₂ (by omega)
  rw [h.searched_row hw, Kernel.foundSlot, h.slotsOf, find?_of_forall₂ hrow hw]

/-- A slot of the entry answers to the name of the entry alone. -/
theorem Slot.Holds.eq_filename {x : Slot} (h : x.Holds e) (he : e.Fits) (hends : e.Ends)
    (hzero : (0 : UInt8) ∉ e.filename) (hlen : e.filename.length ≤ maxFileNameLen) {w : List UInt8}
    (hw : (0 : UInt8) ∉ w) (hname : x.hasName w = true) : w = e.filename := by
  have hsame : x.hasName w = e.named w :=
    strEq_congr hw (fun j hj => by rw [h j hj, Nat.zero_add])
      ⟨21, by decide, (h 21 (by decide)).trans he.image_zero⟩
  exact (hends.named_iff hzero hlen hw).mp (hsame.symm.trans hname)

/-- What a successful call leaves: the entry stands in the first free slot, and the others
were there before. -/
theorem SyncResult.placed (hres : SyncResult k d s lost e true k') :
    ∃ ptr' s', k'.HoldsDir d ptr' s' ∧
      PlacedFirst e (row s flattenPtrs 0) (row s' flattenPtrs 0) ∧
      ∀ x ∈ items s' flattenPtrs 0, x = e ∨ x ∈ items s flattenPtrs 0 := by
  have hdir : directPtrs < flattenPtrs := by decide
  have hfull (hneed : shelfNeeds s directPtrs 0 = 2) (i : ℕ) (hi : i < directPtrs) :
      none ∉ (s i).getD [] := (shelfNeeds_eq_two.mp hneed i (Nat.zero_le _) (by omega)).notMem
  cases hres with
  | added _ hinv hins _ _ _ hfirst => exact ⟨_, _, hinv.holds, hfirst, fun x hx => hins.mem_iff.mp hx⟩
  | tableAdded hneed hnone hinv =>
      refine ⟨_, _, hinv.holds, placedFirst_of_place hdir (fun i hi => Function.update_of_ne (by omega) _ _)
        (hfull hneed) ?_, fun x hx => (inserted_newBox hnone e).mem_iff.mp hx⟩
      rw [Function.update_self]
      exact placedFirst_newBox _ e
  | replaced hneed _ _ hinv =>
      have hnone : dropIndirect s directPtrs = none := dropIndirect_of_le le_rfl
      refine ⟨_, _, hinv.holds, placedFirst_of_place hdir (fun i hi => ?_) (hfull hneed) ?_,
        fun x hx => ((inserted_newBox hnone e).mem_iff.mp hx).imp_right fun hold => ?_⟩
      · rw [Function.update_of_ne (by omega), dropIndirect_of_lt hi]
      · rw [Function.update_self]
        exact placedFirst_newBox _ e
      · obtain ⟨i, hi, hmem⟩ := mem_items.mp hold
        refine mem_items.mpr ⟨i, hi, ?_⟩
        rcases Nat.lt_or_ge i directPtrs with hlt | hge
        · rwa [dropIndirect_of_lt hlt] at hmem
        · rw [dropIndirect_of_le hge] at hmem
          exact absurd hmem List.not_mem_nil

/-- A name that finds no entry is not on the shelf. -/
theorem Kernel.HoldsDir.noItem (h : k.HoldsDir d ptr s) {w : List UInt8} (hw : (0 : UInt8) ∉ w)
    (habsent : ∀ r, k.searched t d w = some (some r) → r.2 = .unknown) (x : DirEntry) :
    (row s flattenPtrs 0).find? (answers w) ≠ some (some x) := by
  intro hfind
  have hx : x ∈ items s flattenPtrs 0 := by
    rw [← reduceOption_row, List.reduceOption_mem_iff]
    exact List.mem_of_find?_eq_some hfind
  have hfits := h.fits hx
  have hunknown : x.fType = .unknown := habsent (x.iNo, x.fType) (by
    rw [h.searched_row hw, hfind, Option.map_some, hfits.slotResult])
  rcases hfits.fType with htype | htype <;> rw [hunknown] at htype <;> cases htype

/-- What a call that stores an entry leaves. -/
structure Stored (d : ℕ) (e : DirEntry) (k' : Kernel) (s' : BoxRow DirEntry) :
    Prop where
  holds : ∃ ptr', k'.HoldsDir d ptr' s'
  length : e.filename.length ≤ maxFileNameLen
  fits : e.Fits
  noZero : (0 : UInt8) ∉ e.filename
  /-- The entry is the first one that answers to its name, if it does. -/
  first : e.named e.filename = true → (row s' flattenPtrs 0).find? (answers e.filename) = some (some e)
  /-- No other entry answers to the name. -/
  alone : e.filename ≠ [] → ∀ x ∈ items s' flattenPtrs 0, x.named e.filename = true → x = e

theorem stored_of_returns (h : k.DirInv d ptr s lost) (hzero : (0 : UInt8) ∉ e.filename) (hfits : e.Fits)
    (habsent : ∀ r, k.searched t d e.filename = some (some r) → r.2 = .unknown)
    (hstore : (storeEntry t d e.filename e.iNo e.fType).Returns k true k') : ∃ s', Stored d e k' s' := by
  have hwp : (storeEntry t d e.filename e.iNo e.fType).wp (fun r k₁ => r = true →
      e.filename.length ≤ maxFileNameLen ∧ SyncResult k d s lost e true k₁) k := by
    rw [storeEntry, wp_bind, createDirEntry, wp_bind, wp_assert]
    intro hlen
    rw [wp_pure]
    refine wp_mono (wp_of_ensures (ensures_syncDirEntry h hfits (Or.inl trivial))) ?_
    rintro r k₁ hres rfl
    exact ⟨of_decide_eq_true hlen, hres⟩
  obtain ⟨hlen, hres⟩ := wp_iff_returns.mp hwp _ _ hstore rfl
  obtain ⟨ptr', s', hholds, hfirst, hold⟩ := hres.placed
  have hnoitem := h.holds.noItem hzero habsent
  refine ⟨s', ⟨ptr', hholds⟩, hlen, hfits, hzero, fun hself => hfirst.find? hself hnoitem,
    fun hne x hx hnamed => (hold x hx).resolve_right fun hmem => ?_⟩
  have hfree : answers e.filename none = false := strEq_zeroBuf hzero hne
  obtain ⟨y, hy⟩ := Option.isSome_iff_exists.mp
    (List.find?_isSome (p := fun x : DirEntry => x.named e.filename) |>.mpr ⟨x, hmem, hnamed⟩)
  refine hnoitem y ?_
  rw [find?_reduceOption hfree, reduceOption_row]
  exact congrArg (Option.map some) hy

/-- An entry whose name ends is found under it. -/
theorem Stored.retrieved {s' : BoxRow DirEntry} (h : Stored d e k' s') (hends : e.Ends) :
    Retrieved t d e k' := by
  obtain ⟨ptr', hholds⟩ := h.holds
  have hself : e.named e.filename = true := (hends.named_iff h.noZero h.length h.noZero).mpr rfl
  refine ⟨?_, fun w hw hne => ⟨hholds.searched_foundSlot hw, fun x hx hx' => hne ?_⟩⟩
  · rw [hholds.searched_row h.noZero, h.first hself, Option.map_some, h.fits.slotResult]
  · exact hx'.eq_filename h.fits hends h.noZero h.length hw
      (List.find?_some (p := fun x : Slot => x.hasName w) hx)

/-- An entry whose name does not end is lost. -/
theorem Stored.ends {s' : BoxRow DirEntry} (h : Stored d e k' s') (hret : Retrieved t d e k') :
    e.Ends := by
  obtain ⟨ptr', hholds⟩ := h.holds
  by_contra hends
  have hself : e.named e.filename = false := DirEntry.named_self h.length hends
  have hne : e.filename ≠ [] := fun hnil => hends (Or.inl (by rw [hnil]; decide))
  have hsearch := hholds.searched (t := t) h.noZero hne
  rw [hret.found] at hsearch
  obtain ⟨x, hfind, -⟩ := Option.map_eq_some_iff.mp (Option.some.inj hsearch).symm
  have hnamed := List.find?_some hfind
  rw [h.alone hne x (List.mem_of_find?_eq_some hfind) hnamed, hself] at hnamed
  cases hnamed

end Stored

/-- A stored entry is found under its name, and under no other, just if its name ends. -/
theorem retrieved_iff {t : Transfer} {d : ℕ} {k : Kernel} (hk : DirReached t d k)
    {filename : List UInt8} (hzero : (0 : UInt8) ∉ filename) {inodeNo : ℕ} (hno : inodeNo < 2 ^ 32)
    {fileType : FileType} (htype : fileType = .regular ∨ fileType = .directory)
    (habsent : ∀ r, k.searched t d filename = some (some r) → r.2 = .unknown) {k' : Kernel}
    (hstore : (storeEntry t d filename inodeNo fileType).Returns k true k') :
    Retrieved t d ⟨filename, inodeNo, fileType⟩ k' ↔
      filename.length < maxFileNameLen ∨ inodeNo % 256 = 0 := by
  obtain ⟨ptr, s, lost, h⟩ := hk.inv
  have hfits : DirEntry.Fits ⟨filename, inodeNo, fileType⟩ := ⟨hno, htype⟩
  obtain ⟨s', hstored⟩ := stored_of_returns h hzero hfits habsent hstore
  exact ⟨hstored.ends, hstored.retrieved⟩

/-- The first addition to a directory that `sys_mkdir` has made. -/
theorem storeEntry_first (filename : List UInt8) (hlen : filename.length ≤ maxFileNameLen) :
    ∃ k', (storeEntry .repeated madeDir filename 1 .regular).Returns mkdirMachine true k' := by
  have hinv := mkdirMachine_newDir.inv
  have hneeds : shelfNeeds (newShelf 1 0) directPtrs 0 = 0 := rfl
  have hroom : mkdirMachine.part.HasFree (shelfNeeds (newShelf 1 0) directPtrs 0) →
      mkdirMachine.part.HasFreeOnDisk (shelfNeeds (newShelf 1 0) directPtrs 0) := fun _ => by
    rw [hneeds]
    exact Partition.hasFreeOnDisk_zero _
  have hfits : DirEntry.Fits ⟨filename, 1, .regular⟩ :=
    ⟨Nat.one_lt_two_pow (by decide), Or.inl rfl⟩
  have hens : (storeEntry .repeated madeDir filename 1 .regular).ensures .zero (fun r _ => r = true)
      mkdirMachine := by
    rw [storeEntry, ensures_bind, createDirEntry, ensures_bind, ensures_assert (decide_eq_true hlen),
      ensures_pure]
    refine ensures_mono (ensures_syncDirEntry hinv hfits (Or.inr hroom)) ?_
    rintro r k' hres
    cases hres with
    | added => rfl
    | tableAdded => rfl
    | replaced => rfl
    | noBlock hlack =>
        rw [hneeds] at hlack
        exact absurd ⟨∅, rfl, fun lba hlba => absurd hlba (Finset.notMem_empty lba)⟩ hlack
    | oneBlock hneed => cases hneeds.symm.trans hneed
  obtain ⟨_, k', hexec, rfl⟩ := exec_of_ensures hens
  exact ⟨k', returns_of_exec hexec⟩

theorem searched_first (filename : List UInt8) (hzero : (0 : UInt8) ∉ filename) (hne : filename ≠ [])
    (hdots : filename ≠ dotName ∧ filename ≠ dotDotName) :
    mkdirMachine.searched .repeated madeDir filename = some none := by
  rw [mkdirMachine_newDir.inv.holds.searched hzero hne, items_newShelf]
  have hdot : ¬ (dotEntry 1).named filename = true := fun h =>
    hdots.1 ((DirEntry.named_iff (by decide) (by decide) hzero).mp h)
  have hdotdot : ¬ (dotDotEntry 0).named filename = true := fun h =>
    hdots.2 ((DirEntry.named_iff (by decide) (by decide) hzero).mp h)
  rw [List.find?_cons_of_neg (p := fun e : DirEntry => e.named filename) hdot,
    List.find?_cons_of_neg (p := fun e : DirEntry => e.named filename) hdotdot]
  rfl

/-- A file called `a` in a directory that `sys_mkdir` has made. -/
theorem retrieved_first : ∃ k', (storeEntry .repeated madeDir [97] 1 .regular).Returns
    mkdirMachine true k' ∧ Retrieved .repeated madeDir ⟨[97], 1, .regular⟩ k' := by
  have habsent := searched_first [97] (by decide) (by decide) (by decide)
  obtain ⟨k', hstore⟩ := storeEntry_first [97] (by decide)
  refine ⟨k', hstore, (retrieved_iff (.start ⟨1, 0, mkdirMachine_newDir⟩) (by decide) (by decide)
    (Or.inl rfl) (fun r hr => ?_) hstore).mpr (Or.inl (by decide))⟩
  rw [habsent] at hr
  cases hr

/-- A name of sixteen characters runs into the inode number 1. -/
theorem not_retrieved_long : ¬ ∀ (t : Transfer) (d : ℕ) (k : Kernel), DirReached t d k →
    ∀ filename : List UInt8, (0 : UInt8) ∉ filename → ∀ inodeNo < 2 ^ 32, ∀ fileType,
      (fileType = .regular ∨ fileType = .directory) →
      (∀ r, k.searched t d filename = some (some r) → r.2 = .unknown) → ∀ k',
        (storeEntry t d filename inodeNo fileType).Returns k true k' →
        Retrieved t d ⟨filename, inodeNo, fileType⟩ k' := by
  intro hall
  have hinv := mkdirMachine_newDir
  have hlong : (0 : UInt8) ∉ List.replicate 16 97 := by decide
  have habsent := searched_first (List.replicate 16 97) hlong (by decide) (by decide)
  obtain ⟨k', hstore⟩ := storeEntry_first (List.replicate 16 97) (by decide)
  have hreached : DirReached .repeated madeDir mkdirMachine := .start ⟨1, 0, hinv⟩
  have hnone : ∀ r, mkdirMachine.searched .repeated madeDir (List.replicate 16 97) =
      some (some r) → r.2 = .unknown := fun r hr => by
    rw [habsent] at hr
    cases hr
  have hret := hall _ _ _ hreached _ hlong 1 (by decide) _ (Or.inl rfl) hnone _ hstore
  obtain ⟨s', hstored⟩ := stored_of_returns (e := ⟨List.replicate 16 97, 1, .regular⟩) hinv.inv hlong
    ⟨Nat.one_lt_two_pow (by decide), Or.inl rfl⟩ hnone hstore
  rcases hstored.ends hret with hshort | hlow
  · exact absurd hshort (by decide)
  · exact absurd hlow (by decide)

end BochsOs
