import BochsOs.Fs.DirRuns

/-!
# What an addition does to a directory

In every state of a run, `sync_dir_entry` returns, its entry is found under its name and
every other name finds what it found before, except in three cases (`addsEntry_iff`): a name of 16
characters runs into the number of the entry; a free block lies past the end of the disk; and
when all direct blocks are full, an indirect table is there already and two blocks are free, the
old table is thrown away with the entry behind it (`not_addsEntry_full`).
-/

namespace BochsOs

open ByteMemory Suspend Suspend.Prog Shelves

/-! ## Blocks that an addition needs -/

/-- The block has a free slot. -/
def Kernel.slotFree (k : Kernel) (lba : ℕ) : Bool :=
  (blockSlots k.disk k.entriesPerSec lba).any fun s => s.fType = .unknown

/-- The number of blocks that one more entry takes, seen from direct pointer `i` on: none where
a block has a free slot, one where a pointer is empty, and two when all blocks are full. -/
def Kernel.blocksNeeded (k : Kernel) (iSectors : ℕ → ℕ) : (left i : ℕ) → ℕ
  | 0, _ => 2
  | left + 1, i =>
      if iSectors i = 0 then 1
      else if k.slotFree (iSectors i) then 0
      else k.blocksNeeded iSectors left (i + 1)

/-- The number of blocks that one more entry in the open directory `d` takes. -/
def Kernel.needs (k : Kernel) (d : ℕ) : ℕ := k.blocksNeeded (k.dirInode d).iSectors directPtrs 0

/-- A row of slots has a free one if its box has. -/
theorem any_of_forall₂ {l : List Slot} {b : Box DirEntry} (h : List.Forall₂ Slot.Shows l b) :
    (l.any fun s => s.fType = .unknown) = hasFreeSlot b := by
  induction h with
  | nil => rfl
  | @cons s o l b hs _ ih =>
      have hslot : decide (s.fType = .unknown) = o.isNone := by
        rw [decide_eq_decide.mpr hs.fType_eq_unknown]
        cases o <;> rfl
      rw [List.any_cons, ih, hslot]
      rfl

theorem Kernel.HoldsDir.blocksNeeded {k : Kernel} {d : ℕ} {ptr : ℕ → ℕ} {s : BoxRow DirEntry}
    (h : k.HoldsDir d ptr s) {left i : ℕ} (hle : i + left ≤ directPtrs) :
    k.blocksNeeded (k.dirInode d).iSectors left i = shelfNeeds s left i := by
  induction left generalizing i with
  | zero => rfl
  | succ left ih =>
      have hi : i < directPtrs := by omega
      have hin : i < flattenPtrs := hi.trans (by decide)
      rw [Kernel.blocksNeeded, shelfNeeds, ← h.dir.direct i hi]
      by_cases hptr : ptr i = 0
      · rw [if_pos hptr, (h.dir.empty i hin).mp hptr]
      · obtain ⟨b, hb⟩ := Option.ne_none_iff_exists'.mp fun hnone =>
          hptr ((h.dir.empty i hin).mpr hnone)
        have hany := any_of_forall₂ (h.dir.box i hin b hb).forall₂
        rw [if_neg hptr, Kernel.slotFree, h.entriesPerSec, hany, ih (by omega), hb]

theorem Kernel.HoldsDir.needs {k : Kernel} {d : ℕ} {ptr : ℕ → ℕ} {s : BoxRow DirEntry}
    (h : k.HoldsDir d ptr s) : k.needs d = shelfNeeds s directPtrs 0 := h.blocksNeeded le_rfl

/-! ## The entries of a block -/

/-- The block that pointer `i` of the open directory `d` names. -/
def Kernel.dirPtr (k : Kernel) (d i : ℕ) : ℕ := k.blocks (k.dirInode d).iSectors i

/-- The entries in the block of pointer `i`: name, number and type of each. -/
def Kernel.blockView (k : Kernel) (d i : ℕ) : List (List UInt8 × ℕ × FileType) :=
  if k.dirPtr d i = 0 then []
  else ((blockSlots k.disk k.entriesPerSec (k.dirPtr d i)).filter fun s => s.fType ≠ .unknown).map
    Slot.shown

/-! ## Names of entries -/

/-- A short name is compared by the characters that are shown of it. -/
theorem DirEntry.named_shown {e : DirEntry} {w : List UInt8} (hw : (0 : UInt8) ∉ w)
    (hshort : w.length < sectorSize) : e.named w = true ↔ e.shown.1 = w := by
  constructor
  · intro hnamed
    exact (stringAt_of_strEq hw hnamed).trans (List.take_of_length_le hshort.le)
  · rintro rfl
    exact strEq_stringAt hshort


/-- A comparison with the string that stands in memory. -/
theorem strEq_iff {m : Bytes} {a : ℕ} {l w : List UInt8} (hl : (0 : UInt8) ∉ l) (hw : (0 : UInt8) ∉ w)
    (hm : ∀ j ≤ l.length, m (a + j) = l.getD j 0) : strEq m a w = true ↔ w = l := by
  induction l generalizing a w with
  | nil =>
      have hzero := hm 0 le_rfl
      rw [Nat.add_zero, List.getD_nil] at hzero
      cases w with
      | nil => exact iff_of_true (decide_eq_true hzero) rfl
      | cons c w =>
          have hc : ¬ m a = c := fun heq => hw (hzero.symm.trans heq ▸ List.mem_cons_self)
          rw [strEq, decide_eq_false hc, Bool.false_and]
          exact iff_of_false Bool.false_ne_true (List.cons_ne_nil c w)
  | cons x l ih =>
      have hfirst := hm 0 (Nat.zero_le _)
      rw [Nat.add_zero, List.getD_cons_zero] at hfirst
      have hx : x ≠ 0 := fun hzero => hl (hzero ▸ List.mem_cons_self)
      cases w with
      | nil =>
          rw [strEq, hfirst, decide_eq_false hx]
          exact iff_of_false Bool.false_ne_true (List.cons_ne_nil x l).symm
      | cons c w =>
          have hrest := @ih (a + 1) w (fun hmem => hl (List.mem_cons_of_mem x hmem))
            (fun hmem => hw (List.mem_cons_of_mem c hmem)) fun j hj => by
              have hnext := hm (j + 1) (Nat.succ_le_succ hj)
              rwa [List.getD_cons_succ, ← Nat.add_assoc, Nat.add_right_comm] at hnext
          rw [strEq, hfirst, Bool.and_eq_true, decide_eq_true_iff, hrest, List.cons.injEq, eq_comm]

/-- An entry answers to its own name and to no other. -/
theorem DirEntry.named_iff {e : DirEntry} (hzero : (0 : UInt8) ∉ e.filename)
    (hshort : e.filename.length < maxFileNameLen) {w : List UInt8} (hw : (0 : UInt8) ∉ w) :
    e.named w = true ↔ w = e.filename := by
  refine strEq_iff hzero hw fun j hj => ?_
  have hlow : j < 16 := lt_of_le_of_lt hj hshort
  unfold DirEntry.image writeU32
  rw [Nat.zero_add, if_neg (by omega), if_neg (by omega)]

/-- A string that is found in memory ends before the first zero byte. -/
theorem length_le_of_strEq {m : Bytes} {a n : ℕ} {w : List UInt8} (hw : (0 : UInt8) ∉ w)
    (hzero : m (a + n) = 0) (heq : strEq m a w = true) : w.length ≤ n := by
  induction w generalizing a n with
  | nil => exact Nat.zero_le _
  | cons c w ih =>
      rw [strEq, Bool.and_eq_true, decide_eq_true_iff] at heq
      cases n with
      | zero => exact absurd (hzero.symm.trans heq.1 ▸ List.mem_cons_self) hw
      | succ n =>
          rw [show a + (n + 1) = a + 1 + n by omega] at hzero
          exact Nat.succ_le_succ (ih (fun hmem => hw (List.mem_cons_of_mem c hmem)) hzero heq.2)

theorem stringAt_length_le {m : Bytes} {fuel a n : ℕ} (hzero : m (a + n) = 0) :
    (stringAt m fuel a).length ≤ n := by
  induction fuel generalizing a n with
  | zero => exact Nat.zero_le _
  | succ fuel ih =>
      rw [stringAt]
      split
      next => exact Nat.zero_le _
      next hne =>
        cases n with
        | zero => exact absurd hzero hne
        | succ n =>
            rw [show a + (n + 1) = a + 1 + n by omega] at hzero
            exact Nat.succ_le_succ (ih hzero)

theorem zero_notMem_stringAt (m : Bytes) (fuel a : ℕ) : (0 : UInt8) ∉ stringAt m fuel a := by
  induction fuel generalizing a with
  | zero => exact List.not_mem_nil
  | succ fuel ih =>
      rw [stringAt]
      split
      next => exact List.not_mem_nil
      next hne => exact fun hmem => (List.mem_cons.mp hmem).elim (fun h => hne h.symm) (ih (a + 1))

/-- An entry is called what is shown of its name. -/
theorem DirEntry.Fits.named_iff {e : DirEntry} (he : e.Fits) {w : List UInt8} (hw : (0 : UInt8) ∉ w) :
    e.named w = true ↔ e.shown.1 = w := by
  have hsector : sectorSize = 512 := rfl
  have hend : e.image (0 + 21) = 0 := he.image_zero
  constructor
  · intro hnamed
    have hshort := length_le_of_strEq hw hend hnamed
    exact (DirEntry.named_shown hw (by omega)).mp hnamed
  · intro hshown
    have hshort : e.shown.1.length ≤ 21 := stringAt_length_le hend
    rw [hshown] at hshort
    exact (DirEntry.named_shown hw (by omega)).mpr hshown

/-- A zero byte follows the name of the entry. -/
def DirEntry.Ends (e : DirEntry) : Prop := e.filename.length < maxFileNameLen ∨ e.iNo % 256 = 0

section Image

variable {e : DirEntry}

theorem DirEntry.image_low {j : ℕ} (hj : j < maxFileNameLen) : e.image j = e.filename.getD j 0 := by
  unfold maxFileNameLen at hj
  unfold DirEntry.image writeU32
  rw [if_neg (by omega), if_neg (by omega)]

/-- The byte behind the name field is the lowest one of the inode number. -/
theorem DirEntry.image_iNo : e.image maxFileNameLen = UInt8.ofNat e.iNo := by
  unfold DirEntry.image writeU32 maxFileNameLen
  rw [if_neg (by omega), if_pos (by omega), Nat.sub_self, Nat.pow_zero, Nat.div_one]

/-- An entry whose name ends answers to its own name and to no other. -/
theorem DirEntry.Ends.named_iff (h : e.Ends) (hzero : (0 : UInt8) ∉ e.filename)
    (hlen : e.filename.length ≤ maxFileNameLen) {w : List UInt8} (hw : (0 : UInt8) ∉ w) :
    e.named w = true ↔ w = e.filename := by
  rcases Nat.lt_or_ge e.filename.length maxFileNameLen with hshort | hlong
  · exact DirEntry.named_iff hzero hshort hw
  · refine strEq_iff hzero hw fun j hj => ?_
    rw [Nat.zero_add]
    rcases Nat.lt_or_ge j maxFileNameLen with hlow | hhigh
    · exact DirEntry.image_low hlow
    · obtain rfl : j = maxFileNameLen := by omega
      have hlast : UInt8.ofNat e.iNo = 0 :=
        UInt8.toNat.inj (UInt8.toNat_ofNat'.trans (h.resolve_left (Nat.not_lt.mpr hlong)))
      rw [DirEntry.image_iNo, hlast, List.getD_eq_getElem?_getD, List.getElem?_eq_none hlen]
      rfl

/-- A name that runs into the inode number is not read back. -/
theorem DirEntry.named_self (hlen : e.filename.length ≤ maxFileNameLen) (h : ¬ e.Ends) :
    e.named e.filename = false := by
  obtain ⟨hlong, hlow⟩ := not_or.mp h
  have hgen : ∀ l : List UInt8, ∀ a, a + l.length = maxFileNameLen → e.filename.drop a = l →
      strEq e.image a l = false := by
    intro l
    induction l with
    | nil =>
        rintro a ha -
        have hbyte : ¬ e.image a = 0 := by
          rw [show a = maxFileNameLen by simpa using ha, DirEntry.image_iNo]
          intro heq
          exact hlow (UInt8.toNat_ofNat'.symm.trans (congrArg UInt8.toNat heq))
        rw [strEq, decide_eq_false hbyte]
    | cons c l ih =>
        intro a ha hdrop
        rw [List.length_cons] at ha
        have hrest : strEq e.image (a + 1) l = false :=
          ih (a + 1) (by omega) (by rw [← List.drop_drop, hdrop]; rfl)
        rw [strEq, hrest, Bool.and_false]
  refine hgen e.filename 0 ?_ rfl
  omega

end Image

/-! ## The claim of an addition -/

/-- The entry is found under its name, and nothing is lost. -/
structure Added (t : Transfer) (k : Kernel) (d : ℕ) (e : DirEntry) (k' : Kernel) : Prop where
  found : k'.searched t d e.filename = some (some (e.iNo, e.fType))
  others : ∀ w, (0 : UInt8) ∉ w → w ≠ [] → w ≠ e.filename → k'.searched t d w = k.searched t d w
  size : (k'.dirInode d).iSize = (k.dirInode d).iSize + k.part.sb.dirEntrySize

/-- `sync_dir_entry` returns; it adds the entry, or there are too few free blocks. -/
def AddsEntry (t : Transfer) (k : Kernel) (d : ℕ) (e : DirEntry) : Prop :=
  (syncDirEntry t d e).succeeds (fun r k' =>
    (r = true → Added t k d e k') ∧ (r = false → ¬ k.part.HasFree (k.needs d))) k

/-- The name of an entry is new to the directory and fits into the entry. -/
structure NewName (t : Transfer) (k : Kernel) (d : ℕ) (e : DirEntry) : Prop where
  fits : e.Fits
  ne_nil : e.filename ≠ []
  noZero : (0 : UInt8) ∉ e.filename
  length : e.filename.length ≤ maxFileNameLen
  absent : k.searched t d e.filename = some none

/-- Every name behind the indirect table of the open directory `d` is found in a direct block
as well. -/
def Kernel.TableSpared (k : Kernel) (d : ℕ) : Prop :=
  ∀ i, directPtrs ≤ i → i < flattenPtrs → ∀ x ∈ k.blockView d i, x.1 ≠ [] →
    ∃ j < directPtrs, ∃ y ∈ k.blockView d j, y.1 = x.1

/-- What an addition needs where enough blocks are free: as many lie on the disk, a zero byte
follows the name, and an old table can be spared. -/
structure Addable (k : Kernel) (d : ℕ) (e : DirEntry) : Prop where
  onDisk : k.part.HasFreeOnDisk (k.needs d)
  ends : e.Ends
  spared : k.needs d = 2 → k.TableSpared d

section View

variable {k : Kernel} {d : ℕ} {ptr : ℕ → ℕ} {s : BoxRow DirEntry} (h : k.HoldsDir d ptr s)

include h

theorem Kernel.HoldsDir.dirPtr {i : ℕ} (hi : i < flattenPtrs) : k.dirPtr d i = ptr i :=
  h.dir.flattenBlocks_eq hi

theorem Kernel.HoldsDir.blockView {i : ℕ} (hi : i < flattenPtrs) :
    k.blockView d i = (boxItems (s i)).map DirEntry.shown := by
  rw [Kernel.blockView, h.dirPtr hi, h.entriesPerSec]
  by_cases hptr : ptr i = 0
  · rw [if_pos hptr, (h.dir.empty i hi).mp hptr]
    rfl
  · obtain ⟨b, hb⟩ := Option.ne_none_iff_exists'.mp fun hnone => hptr ((h.dir.empty i hi).mpr hnone)
    rw [if_neg hptr, shown_of_forall₂ (h.dir.box i hi b hb).forall₂, hb, boxItems_some]

end View

section Added

variable {t : Transfer} {k k' : Kernel} {d lost : ℕ} {ptr ptr' : ℕ → ℕ} {s s' : BoxRow DirEntry}
  {e : DirEntry} {s₀ : BoxRow DirEntry} {lost' : ℕ} (h : k.DirInv d ptr s lost)
  (hnew : NewName t k d e)

include h hnew

theorem NewName.find?_eq_none : (items s flattenPtrs 0).find? (·.named e.filename) = none := by
  have habsent := hnew.absent
  rw [h.holds.searched hnew.noZero hnew.ne_nil, Option.some.injEq, Option.map_eq_none_iff] at habsent
  exact habsent

/-- An entry that is put on the shelf is added. -/
theorem Added.of_inserted (hends : e.Ends) (h' : k'.DirInv d ptr' s' lost)
    (hins : Inserted e (items s flattenPtrs 0) (items s' flattenPtrs 0)) : Added t k d e k' where
  found := by
    have hnamed : e.named e.filename = true :=
      (hends.named_iff hnew.noZero hnew.length hnew.noZero).mpr rfl
    rw [h'.holds.searched hnew.noZero hnew.ne_nil, hins.find?_of_pos hnamed (hnew.find?_eq_none h)]
    rfl
  others w hw hne hother := by
    have hnamed : ¬ e.named w = true := fun hw' =>
      hother ((hends.named_iff hnew.noZero hnew.length hw).mp hw')
    rw [h'.holds.searched hw hne, h.holds.searched hw hne, hins.find?_of_neg hnamed]
  size := by
    rw [h.layout.entrySize]
    exact h'.size.trans (by rw [hins.length, h.size]; ring)

/-- An entry that is found under its name has a name that ends. -/
theorem Added.ends (hadded : Added t k d e k') (h' : k'.DirInv d ptr' s' lost')
    (hins : Inserted e (items s₀ flattenPtrs 0) (items s' flattenPtrs 0))
    (hsub : ∀ x ∈ items s₀ flattenPtrs 0, x ∈ items s flattenPtrs 0) : e.Ends := by
  by_contra hnot
  have hself := DirEntry.named_self hnew.length hnot
  have hfound := hadded.found
  have hnone : (items s' flattenPtrs 0).find? (·.named e.filename) = none := by
    rw [hins.find?_of_neg (by rw [hself]; exact Bool.false_ne_true), List.find?_eq_none]
    exact fun x hx => List.find?_eq_none.mp (hnew.find?_eq_none h) x (hsub x hx)
  rw [h'.holds.searched hnew.noZero hnew.ne_nil, hnone] at hfound
  cases hfound

end Added

section Spared

variable {k : Kernel} {d lost : ℕ} {ptr : ℕ → ℕ} {s : BoxRow DirEntry} {x : DirEntry}

/-- The entries before the table are those of the direct blocks. -/
theorem mem_items_dropIndirect {y : DirEntry} : y ∈ items (dropIndirect s) flattenPtrs 0 ↔
    ∃ j < directPtrs, y ∈ boxItems (s j) := by
  rw [mem_items]
  constructor
  · rintro ⟨j, -, hmem⟩
    rcases Nat.lt_or_ge j directPtrs with hlt | hge
    · rw [dropIndirect_of_lt hlt] at hmem
      exact ⟨j, hlt, hmem⟩
    · rw [dropIndirect_of_le hge] at hmem
      exact absurd hmem List.not_mem_nil
  · rintro ⟨j, hj, hmem⟩
    refine ⟨j, hj.trans (by decide), ?_⟩
    rwa [dropIndirect_of_lt hj]

/-- The table can be spared just if no name is found by the entry behind it alone. -/
theorem Kernel.DirInv.tableSpared_iff (h : k.DirInv d ptr s lost)
    (hx : s directPtrs = some (newBox x)) :
    k.TableSpared d ↔ ∀ w, (0 : UInt8) ∉ w → w ≠ [] →
      (∀ y ∈ items (dropIndirect s) flattenPtrs 0, ¬ y.named w = true) → ¬ x.named w = true := by
  have hdir : directPtrs < flattenPtrs := by decide
  have hview : k.blockView d directPtrs = [x.shown] := by
    rw [h.holds.blockView hdir, hx, boxItems_some, reduceOption_newBox]
    rfl
  have hitems : items s flattenPtrs 0 = items (dropIndirect s) flattenPtrs 0 ++ [x] := by
    rw [h.sound.items_eq, hx, boxItems_some, reduceOption_newBox]
  have hfits : x.Fits := h.holds.fits (hitems ▸ List.mem_append_right _ (List.mem_singleton_self x))
  have hfitsDrop {y : DirEntry} (hy : y ∈ items (dropIndirect s) flattenPtrs 0) : y.Fits :=
    h.holds.fits (hitems ▸ List.mem_append_left _ hy)
  constructor
  · intro hspared w hw hne hnone hnamed
    have hshown := (hfits.named_iff hw).mp hnamed
    obtain ⟨j, hj, y, hy, hyx⟩ := hspared directPtrs le_rfl hdir x.shown
      (by rw [hview]; exact List.mem_singleton_self _) (by rw [hshown]; exact hne)
    rw [h.holds.blockView (hj.trans hdir)] at hy
    obtain ⟨z, hz, rfl⟩ := List.mem_map.mp hy
    have hzdrop := mem_items_dropIndirect.mpr ⟨j, hj, hz⟩
    exact hnone z hzdrop (((hfitsDrop hzdrop).named_iff hw).mpr (hyx.trans hshown))
  · intro hfound i hlow hhigh y hy hne
    have hi : i = directPtrs := by
      by_contra hother
      rw [h.holds.blockView hhigh, h.sound.rest i (by omega)] at hy
      exact absurd hy List.not_mem_nil
    rw [hi, hview, List.mem_singleton] at hy
    subst hy
    have hw : (0 : UInt8) ∉ x.shown.1 := zero_notMem_stringAt _ _ _
    by_contra hnone
    refine hfound x.shown.1 hw hne (fun z hz hznamed => hnone ?_) ((hfits.named_iff hw).mpr rfl)
    obtain ⟨j, hj, hmem⟩ := mem_items_dropIndirect.mp hz
    refine ⟨j, hj, z.shown, ?_, ((hfitsDrop hz).named_iff hw).mp hznamed⟩
    rw [h.holds.blockView (hj.trans hdir)]
    exact List.mem_map_of_mem hmem

end Spared

section Replaced

variable {t : Transfer} {k k' : Kernel} {d lost : ℕ} {ptr ptr' : ℕ → ℕ} {s : BoxRow DirEntry}
  {e : DirEntry} (h : k.DirInv d ptr s lost) (hnew : NewName t k d e)
  (h' : k'.DirInv d ptr' (Function.update (dropIndirect s) directPtrs (some (newBox e))) (lost + 1))

include h hnew h'

/-- Where the old table is replaced: the entry is added just if its name ends and the table can be
spared. -/
theorem added_replaced_iff (hold : s directPtrs ≠ none) :
    Added t k d e k' ↔ e.Ends ∧ k.TableSpared d := by
  obtain ⟨b, hb⟩ := Option.ne_none_iff_exists'.mp hold
  obtain ⟨x, rfl⟩ := h.sound.single b hb
  have hins := inserted_newBox (dropIndirect_of_le (s := s) (le_refl directPtrs)) e
  have hitems : items s flattenPtrs 0 = items (dropIndirect s) flattenPtrs 0 ++ [x] := by
    rw [h.sound.items_eq, hb, boxItems_some, reduceOption_newBox]
  have habsent := List.find?_eq_none.mp (hnew.find?_eq_none h)
  have hsub : ∀ y ∈ items (dropIndirect s) flattenPtrs 0, y ∈ items s flattenPtrs 0 := fun y hy =>
    hitems ▸ List.mem_append_left _ hy
  rw [h.tableSpared_iff hb]
  constructor
  · intro hadded
    have hends := hadded.ends h hnew h' hins hsub
    refine ⟨hends, fun w hw hne hnone hnamed => ?_⟩
    have hself : w ≠ e.filename := fun heq =>
      habsent x (hitems ▸ List.mem_append_right _ (List.mem_singleton_self x)) (heq ▸ hnamed)
    have hother : ¬ e.named w = true := fun hw' =>
      hself ((hends.named_iff hnew.noZero hnew.length hw).mp hw')
    have hlost := hadded.others w hw hne hself
    -- the entry behind the old table was found, and is not any more
    rw [h'.holds.searched hw hne, h.holds.searched hw hne, hins.find?_of_neg hother, hitems,
      List.find?_append, List.find?_eq_none.mpr hnone, Option.none_or,
      List.find?_cons_of_pos (p := fun e : DirEntry => e.named w) hnamed] at hlost
    cases hlost
  · rintro ⟨hends, hspared⟩
    have hnamed {w : List UInt8} (hw : (0 : UInt8) ∉ w) : e.named w = true ↔ w = e.filename :=
      hends.named_iff hnew.noZero hnew.length hw
    refine ⟨?_, fun w hw hne hself => ?_, ?_⟩
    · have hnone : (items (dropIndirect s) flattenPtrs 0).find? (·.named e.filename) = none :=
        List.find?_eq_none.mpr fun y hy => habsent y (hsub y hy)
      rw [h'.holds.searched hnew.noZero hnew.ne_nil,
        hins.find?_of_pos ((hnamed hnew.noZero).mpr rfl) hnone]
      rfl
    · rw [h'.holds.searched hw hne, h.holds.searched hw hne,
        hins.find?_of_neg fun hw' => hself ((hnamed hw).mp hw'), hitems, List.find?_append]
      cases hdrop : (items (dropIndirect s) flattenPtrs 0).find? (·.named w) with
      | some z => rw [Option.some_or]
      | none =>
          have hx := hspared w hw hne fun y hy => List.find?_eq_none.mp hdrop y hy
          rw [List.find?_cons_of_neg (p := fun e : DirEntry => e.named w) hx, List.find?_nil,
            Option.or_none]
    · rw [h.layout.entrySize]
      refine h'.size.trans ?_
      rw [hins.length, h.size, hitems, List.length_append, List.length_singleton]
      ring

end Replaced

/-- The `j`-th of some file entries with different names. -/
def numbered (j : ℕ) : DirEntry := ⟨[UInt8.ofNat (65 + j / 16), UInt8.ofNat (65 + j % 16)], j + 1, .regular⟩

theorem numbered_inj {i j : ℕ} (hi : i < 256) (hj : j < 256)
    (h : (numbered i).filename = (numbered j).filename) : i = j := by
  unfold numbered at h
  obtain ⟨hhigh, hrest⟩ := List.cons.inj h
  obtain ⟨hlow, -⟩ := List.cons.inj hrest
  have hhigh' := congrArg UInt8.toNat hhigh
  have hlow' := congrArg UInt8.toNat hlow
  rw [UInt8.toNat_ofNat', UInt8.toNat_ofNat'] at hhigh' hlow'
  omega

theorem length_numbered (j : ℕ) : (numbered j).filename.length < maxFileNameLen := by
  change 2 < 16
  decide

theorem zero_notMem_numbered {j : ℕ} (hj : j < 256) : (0 : UInt8) ∉ (numbered j).filename := by
  intro hmem
  unfold numbered at hmem
  simp only [List.mem_cons, List.not_mem_nil, or_false] at hmem
  rcases hmem with h | h
  · have h' := congrArg UInt8.toNat h
    rw [UInt8.toNat_ofNat'] at h'
    change 0 = _ at h'
    omega
  · have h' := congrArg UInt8.toNat h
    rw [UInt8.toNat_ofNat'] at h'
    change 0 = _ at h'
    omega

/-- An entry with one of the numbered names is the numbered one. -/
theorem numbered_named {i j : ℕ} (hi : i < 256) (hj : j < 256) :
    (numbered i).named (numbered j).filename = true ↔ j = i := by
  rw [DirEntry.named_iff (zero_notMem_numbered hi) (length_numbered i) (zero_notMem_numbered hj)]
  exact ⟨numbered_inj hj hi, fun heq => heq ▸ rfl⟩

/-- No numbered entry begins with a dot. -/
theorem numbered_first {j : ℕ} (hj : j < 256) : UInt8.ofNat (65 + j / 16) ≠ dotChar := by
  intro heq
  have heq' := congrArg UInt8.toNat heq
  rw [UInt8.toNat_ofNat'] at heq'
  change _ = 46 at heq'
  omega

theorem numbered_not_dotted {j : ℕ} (hj : j < 256) : (numbered j).dotted = false := by
  have hzero := zero_notMem_numbered hj
  rw [← Bool.not_eq_true, DirEntry.dotted, Bool.or_eq_true,
    DirEntry.named_iff hzero (length_numbered j) (by decide),
    DirEntry.named_iff hzero (length_numbered j) (by decide)]
  rintro (heq | heq)
  · exact numbered_first hj (List.cons.inj heq).1.symm
  · exact numbered_first hj (List.cons.inj heq).1.symm

theorem dots_not_named {j : ℕ} (hj : j < 256) :
    ¬ (dotEntry 1).named (numbered j).filename = true ∧
      ¬ (dotDotEntry 0).named (numbered j).filename = true := by
  have hzero := zero_notMem_numbered hj
  constructor
  · rw [DirEntry.named_iff (by decide) (by decide) hzero]
    exact fun heq => numbered_first hj (List.cons.inj heq).1
  · rw [DirEntry.named_iff (by decide) (by decide) hzero]
    exact fun heq => numbered_first hj (List.cons.inj heq).1

/-- A directory with the entries `.`, `..` and the first `m` numbered ones. -/
structure Filled (t : Transfer) (m : ℕ) (k : Kernel) (ptr : ℕ → ℕ) (s : BoxRow DirEntry) : Prop where
  reached : DirReached t madeDir k
  inv : k.DirInv madeDir ptr s 0
  perm : (items s flattenPtrs 0).Perm
    ((List.range m).map numbered ++ [dotEntry 1, dotDotEntry 0])
  free : ∃ blocks : Finset ℕ, 510 ≤ blocks.card + 2 * m ∧
    ∀ lba ∈ blocks, k.part.Marked false lba ∧ lba ≤ maxLba
  dirPos : (k.dirs madeDir).dirPos = 0

section Filled

variable {t : Transfer} {m : ℕ} {k : Kernel} {ptr : ℕ → ℕ} {s : BoxRow DirEntry}

theorem filled_zero (t : Transfer) : ∃ ptr s, Filled t 0 mkdirMachine ptr s ∧
    (∀ i ≠ 0, s i = none) ∧ shelfNeeds s directPtrs 0 = 0 := by
  have hnew := mkdirMachine_newDir
  refine ⟨_, newShelf 1 0, ⟨.start ⟨1, 0, hnew⟩, hnew.inv, ?_,
    ⟨(Finset.Ico 8 600).image (smallMachine.newFs.part.sb.dataStartLba + ·), ?_, fun lba hlba => ?_⟩,
    rfl⟩, fun i hi => Function.update_of_ne hi _ _, rfl⟩
  · rw [items_newShelf]
    exact List.Perm.refl _
  · rw [Finset.card_image_of_injective _ (add_right_injective _), Nat.card_Ico]
    omega
  · obtain ⟨i, hi, rfl⟩ := Finset.mem_image.mp hlba
    obtain ⟨hlow, hhigh⟩ := Finset.mem_Ico.mp hi
    obtain ⟨hfree, hlast⟩ := marked_newFs (i := i) (by omega) hhigh
    have hne : smallMachine.newFs.part.sb.dataStartLba + i ≠ madeLba := by
      rw [madeLba_eq]
      omega
    exact ⟨hfree.other (by rw [madeLba_eq]; exact Nat.le_add_right _ 1) hne, hlast⟩

variable (h : Filled t m k ptr s)

include h

theorem Filled.length : (items s flattenPtrs 0).length = m + 2 := by
  rw [h.perm.length_eq, List.length_append, List.length_map, List.length_range]
  rfl

theorem Filled.entry {x : DirEntry} (hx : x ∈ items s flattenPtrs 0) :
    (∃ j < m, x = numbered j) ∨ x = dotEntry 1 ∨ x = dotDotEntry 0 := by
  have hmem := h.perm.mem_iff.mp hx
  rw [List.mem_append, List.mem_map, List.mem_cons, List.mem_singleton] at hmem
  exact hmem.imp_left fun ⟨j, hj, heq⟩ => ⟨j, List.mem_range.mp hj, heq.symm⟩

theorem Filled.hasFreeOnDisk (hm : m ≤ 252) {n : ℕ} (hn : n ≤ 2) : k.part.HasFreeOnDisk n := by
  obtain ⟨blocks, hcard, hblocks⟩ := h.free
  obtain ⟨some, hsub, hsome⟩ := Finset.exists_subset_card_eq (show n ≤ blocks.card by omega)
  exact ⟨some, hsome, fun lba hlba => hblocks lba (hsub hlba)⟩

theorem Filled.hasFree (hm : m ≤ 252) {n : ℕ} (hn : n ≤ 2) : k.part.HasFree n := by
  obtain ⟨blocks, hcard, hblocks⟩ := h.hasFreeOnDisk hm hn
  exact ⟨blocks, hcard, fun lba hlba => (hblocks lba hlba).1⟩

/-- The later numbered entries are not in the directory. -/
theorem Filled.find?_eq_none {j : ℕ} (hj : m ≤ j) (hj' : j < 256) :
    (items s flattenPtrs 0).find? (·.named (numbered j).filename) = none := by
  rw [List.find?_eq_none]
  intro x hx
  obtain ⟨hdot, hdotdot⟩ := dots_not_named hj'
  rcases h.entry hx with ⟨i, hi, rfl⟩ | rfl | rfl
  · rw [numbered_named (by omega) hj']
    omega
  · exact hdot
  · exact hdotdot

/-- The next numbered name is new. -/
theorem Filled.newName (hm : m ≤ 252) : NewName t k madeDir (numbered m) where
  fits := by
    refine ⟨?_, Or.inl rfl⟩
    change m + 1 < 2 ^ 32
    omega
  ne_nil := List.cons_ne_nil _ _
  noZero := zero_notMem_numbered (by omega)
  length := (length_numbered m).le
  absent := by
    rw [h.inv.holds.searched (zero_notMem_numbered (by omega)) (List.cons_ne_nil _ _),
      h.find?_eq_none le_rfl (by omega)]
    rfl

/-- What the next addition does. -/
theorem Filled.exec (hm : m ≤ 252) : ∃ r k', (syncDirEntry t madeDir (numbered m)).exec [] k = some (r, k') ∧
    SyncResult k madeDir s 0 (numbered m) r k' := by
  exact exec_of_ensures (ensures_syncDirEntry h.inv (h.newName hm).fits
    (Or.inr fun _ => h.hasFreeOnDisk hm (shelfNeeds_le s _ _)))

/-- A directory with one more entry. -/
theorem Filled.next {k' : Kernel} {ptr' : ℕ → ℕ} {s' : BoxRow DirEntry} {r : Bool} (hm : m ≤ 252)
    (hexec : (syncDirEntry t madeDir (numbered m)).exec [] k = some (r, k'))
    (hinv : k'.DirInv madeDir ptr' s' 0)
    (hins : Inserted (numbered m) (items s flattenPtrs 0) (items s' flattenPtrs 0))
    (huses : k.part.Uses k'.part) : Filled t (m + 1) k' ptr' s' where
  reached := .next (i := .sync (numbered m)) h.reached (h.newName hm).fits ⟨r, returns_of_exec hexec⟩
  inv := hinv
  perm := by
    refine hins.perm.trans ((h.perm.cons _).trans ?_)
    rw [List.range_succ, List.map_append, List.append_assoc]
    exact List.perm_middle.symm
  free := by
    obtain ⟨blocks, hcard, hblocks⟩ := h.free
    obtain ⟨a, b, huses⟩ := huses
    refine ⟨(blocks.erase a).erase b, ?_, fun lba hlba => ?_⟩
    · have ha : blocks.card - 1 ≤ (blocks.erase a).card := Finset.pred_card_le_card_erase
      have hb : (blocks.erase a).card - 1 ≤ ((blocks.erase a).erase b).card :=
        Finset.pred_card_le_card_erase
      omega
    · obtain ⟨hneb, hlba⟩ := Finset.mem_erase.mp hlba
      obtain ⟨hnea, hlba⟩ := Finset.mem_erase.mp hlba
      obtain ⟨hfree, hlast⟩ := hblocks lba hlba
      exact ⟨huses lba hfree hnea hneb, hlast⟩
  dirPos := by
    have hdirs := DirCall.sameDirs (.sync (numbered m)) (returns_of_exec hexec)
    rw [hdirs]
    exact h.dirPos

/-- No two numbered entries have the same number. -/
theorem Filled.single (n : ℕ) : (items s flattenPtrs 0).countP (·.isNo n) ≤ 1 := by
  have hdots : [dotEntry 1, dotDotEntry 0].countP (·.isNo n) = 0 := rfl
  rw [h.perm.countP_eq, List.countP_append, hdots, Nat.add_zero, List.countP_map]
  refine le_trans (List.countP_mono_left (q := (· == n - 1)) fun j _ hj => ?_)
    (List.nodup_iff_count_le_one.mp List.nodup_range (n - 1))
  have hno : j + 1 = n := (DirEntry.isNo_iff.mp hj).2
  rw [← hno, Nat.add_sub_cancel]
  exact beq_self_eq_true j

/-- The direct blocks have room for 252 entries. -/
theorem Filled.length_le (hnone : s directPtrs = none) : m ≤ 250 := by
  have hlow : (items s directPtrs 0).length ≤ 21 * directPtrs := length_items_le fun i _ hi => by
    have hin : i < flattenPtrs := lt_of_lt_of_le hi (by decide)
    rcases hs : s i with _ | b
    · exact Nat.zero_le _
    · rw [boxItems_some, ← (h.inv.dir.box i hin b hs).length]
      exact List.reduceOption_length_le b
  have hhigh : (items s 128 (0 + directPtrs)).length ≤ 0 * 128 := length_items_le fun i hi _ => by
    have hempty : s i = none := by
      rcases Nat.eq_or_lt_of_le hi with heq | hlt
      · rw [← heq, Nat.zero_add, hnone]
      · exact h.inv.sound.rest i (by omega)
    rw [hempty, boxItems_none, List.length_nil]
  have hlen := h.length
  rw [show flattenPtrs = directPtrs + 128 from rfl, items_add, List.length_append] at hlen
  unfold directPtrs at *
  omega

end Filled

/-- A directory with one entry besides `.` and `..`, all in its first block. -/
theorem exists_one (t : Transfer) : ∃ k ptr s, Filled t 1 k ptr s ∧ ∀ i ≠ 0, s i = none := by
  obtain ⟨ptr, s, h, hnone, hneed⟩ := filled_zero t
  obtain ⟨r, k, hexec, hresult⟩ := h.exec (by omega)
  cases hresult with
  | added _ hinv hins _ hplaces huses =>
      exact ⟨k, _, _, h.next (by omega) hexec hinv hins huses, fun i hi =>
        (hplaces hneed i).mpr (hnone i hi)⟩
  | tableAdded htwo => omega
  | replaced htwo => omega
  | noBlock hlack => exact absurd (h.hasFree (by omega) (shelfNeeds_le s _ _)) hlack
  | oneBlock htwo => omega

/-- A directory whose direct blocks are full and that has no indirect table. -/
theorem exists_full (t : Transfer) : ∃ m k ptr s, Filled t m k ptr s ∧ m ≤ 250 ∧
    s directPtrs = none ∧ shelfNeeds s directPtrs 0 = 2 := by
  have hgen : ∀ c m k ptr s, m + c = 251 → Filled t m k ptr s → s directPtrs = none →
      ∃ m k ptr s, Filled t m k ptr s ∧ m ≤ 250 ∧ s directPtrs = none ∧ shelfNeeds s directPtrs 0 = 2 := by
    intro c
    induction c with
    | zero =>
        intro m k ptr s hm h hnone
        have hle := h.length_le hnone
        omega
    | succ c ih =>
        intro m k ptr s hm h hnone
        by_cases hneed : shelfNeeds s directPtrs 0 = 2
        · exact ⟨m, k, ptr, s, h, h.length_le hnone, hnone, hneed⟩
        · obtain ⟨r, k', hexec, hresult⟩ := h.exec (by omega)
          cases hresult with
          | added _ hinv hins hsame _ huses =>
              exact ih _ _ _ _ (by omega) (h.next (by omega) hexec hinv hins huses) (hsame.trans hnone)
          | tableAdded htwo => exact absurd htwo hneed
          | replaced htwo => exact absurd htwo hneed
          | noBlock hlack => exact absurd (h.hasFree (by omega) (shelfNeeds_le s _ _)) hlack
          | oneBlock htwo => exact absurd htwo hneed
  obtain ⟨ptr, s, h, hnone, -⟩ := filled_zero t
  exact hgen 251 0 _ ptr s rfl h (hnone _ (by decide))

/-- A directory whose direct blocks are full, before and after the addition that makes its
indirect table. -/
theorem exists_indirect (t : Transfer) : ∃ m k ptr s k₁ ptr₁, m ≤ 250 ∧ s directPtrs = none ∧
    shelfNeeds s directPtrs 0 = 2 ∧ Filled t m k ptr s ∧
    Filled t (m + 1) k₁ ptr₁ (Function.update s directPtrs (some (newBox (numbered m)))) := by
  obtain ⟨m, k, ptr, s, h, hm, hnone, hneed⟩ := exists_full t
  obtain ⟨r, k₁, hexec, hresult⟩ := h.exec (by omega)
  cases hresult with
  | added hroom => omega
  | replaced _ hold => exact absurd hnone hold
  | noBlock hlack => exact absurd (h.hasFree (by omega) (shelfNeeds_le s _ _)) hlack
  | oneBlock _ hlack => exact absurd (h.hasFree (by omega) le_rfl) hlack
  | tableAdded _ _ hinv huses =>
      exact ⟨m, k, ptr, s, k₁, _, hm, hnone, hneed, h,
        h.next (by omega) hexec hinv (inserted_newBox hnone (numbered m)) huses⟩

end BochsOs
