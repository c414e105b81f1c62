import BochsOs.Fs.DirSync

/-!
# Removing entries from a directory

`delete_dir_entry` on a directory that holds a sound shelf.  It scans one block after the
other; in the first block with an entry of the given number it clears that entry, or gives
the whole block back when nothing else is counted in it.

`ensures_deleteDirEntry` lists what can come of a call.  Two entries of the number in one
block trip the assertion of the scan, and a block behind the indirect table is never given
back: the loop that counts the indirect blocks does not end (`Deletable`).
-/

namespace BochsOs

open ByteMemory Suspend Suspend.Prog Shelves

/-! ## The scan of a block -/

/-- The entry is called `.` or `..`. -/
def DirEntry.dotted (e : DirEntry) : Bool := e.named dotName || e.named dotDotName

/-- An entry with the number `n` other than `.` and `..`. -/
def DirEntry.isNo (n : ℕ) (e : DirEntry) : Bool := !e.dotted && decide (e.iNo = n)

theorem DirEntry.isNo_iff {n : ℕ} {e : DirEntry} : e.isNo n = true ↔ e.dotted = false ∧ e.iNo = n := by
  unfold DirEntry.isNo
  rw [Bool.and_eq_true, Bool.not_eq_true', decide_eq_true_iff]

/-- The scan of the slots of a box from index `i` on; it fails at a second entry of the
number. -/
def scanBox (n : ℕ) : Box DirEntry → (i : ℕ) → BlockScan → Option BlockScan
  | [], _, scan => some scan
  | none :: b, i, scan => scanBox n b (i + 1) scan
  | some e :: b, i, scan =>
      if e.named dotName then scanBox n b (i + 1) { scan with isDirFirstBlock := true }
      else if e.named dotDotName then scanBox n b (i + 1) scan
      else if e.iNo = n then
        if scan.found.isNone then scanBox n b (i + 1) { scan with cnt := scan.cnt + 1, found := some i }
        else none
      else scanBox n b (i + 1) { scan with cnt := scan.cnt + 1 }

/-- The number of entries of a box other than `.` and `..`. -/
def countOthers (b : Box DirEntry) : ℕ := b.reduceOption.countP fun e => !e.dotted

/-- The box has an entry `.`. -/
def hasDot (b : Box DirEntry) : Bool := b.reduceOption.any (·.named dotName)

/-- No entry of the box has the number `n`. -/
def LacksNo (n : ℕ) (b : Box DirEntry) : Prop := ∀ e ∈ b.reduceOption, e.isNo n = false

theorem LacksNo.of_none_cons {n : ℕ} {b : Box DirEntry} (h : LacksNo n (none :: b)) : LacksNo n b := by
  unfold LacksNo at h
  rwa [List.reduceOption_cons_of_none] at h

theorem LacksNo.of_some_cons {n : ℕ} {e : DirEntry} {b : Box DirEntry} (h : LacksNo n (some e :: b)) :
    e.isNo n = false ∧ LacksNo n b := by
  unfold LacksNo at h
  rw [List.reduceOption_cons_of_some] at h
  exact ⟨h e List.mem_cons_self, fun x hx => h x (List.mem_cons_of_mem e hx)⟩

theorem scanBox_append {n : ℕ} {b b' : Box DirEntry} {i : ℕ} {scan : BlockScan} :
    scanBox n (b ++ b') i scan = (scanBox n b i scan).bind fun scan => scanBox n b' (i + b.length) scan := by
  induction b generalizing i scan with
  | nil => rfl
  | cons o b ih =>
      have hlen : i + 1 + b.length = i + (o :: b).length := by
        rw [List.length_cons]
        omega
      cases o with
      | none =>
          rw [List.cons_append, scanBox, scanBox, ih, hlen]
      | some e =>
          rw [List.cons_append, scanBox, scanBox]
          split
          · rw [ih, hlen]
          · split
            · rw [ih, hlen]
            · split
              · split
                · rw [ih, hlen]
                · rfl
              · rw [ih, hlen]

/-- A scan that meets no entry of the number only counts. -/
theorem scanBox_lacks {n : ℕ} {b : Box DirEntry} (h : LacksNo n b) {i : ℕ} {scan : BlockScan} :
    scanBox n b i scan = some ⟨scan.found, scan.cnt + countOthers b, scan.isDirFirstBlock || hasDot b⟩ := by
  induction b generalizing i scan with
  | nil => rw [scanBox, countOthers, hasDot, List.reduceOption_nil, List.countP_nil, List.any_nil,
      Nat.add_zero, Bool.or_false]
  | cons o b ih =>
      cases o with
      | none =>
          rw [scanBox, ih h.of_none_cons, countOthers, countOthers, hasDot, hasDot,
            List.reduceOption_cons_of_none]
      | some e =>
          obtain ⟨he, hb⟩ := h.of_some_cons
          have ih := fun {i scan} => @ih hb i scan
          rw [scanBox, countOthers, hasDot, List.reduceOption_cons_of_some, List.countP_cons, List.any_cons]
          by_cases hdot : e.named dotName = true
          · have hdotted : e.dotted = true := by rw [DirEntry.dotted, hdot, Bool.true_or]
            rw [if_pos hdot, ih, hdot, hdotted]
            simp [countOthers]
          · rw [if_neg hdot]
            rw [Bool.not_eq_true] at hdot
            by_cases hdotdot : e.named dotDotName = true
            · have hdotted : e.dotted = true := by rw [DirEntry.dotted, hdotdot, Bool.or_true]
              rw [if_pos hdotdot, ih, hdot, hdotted]
              simp [countOthers, hasDot]
            · rw [if_neg hdotdot]
              rw [Bool.not_eq_true] at hdotdot
              have hdotted : e.dotted = false := by rw [DirEntry.dotted, hdot, hdotdot, Bool.or_false]
              have hno : ¬ e.iNo = n := fun heq => by
                have := DirEntry.isNo_iff.mpr ⟨hdotted, heq⟩
                rw [he] at this
                cases this
              rw [if_neg hno, ih, hdot, hdotted]
              simp [countOthers, hasDot]
              omega

theorem scanBox_no {n : ℕ} {e : DirEntry} (he : e.isNo n = true) {b : Box DirEntry} {i : ℕ}
    {scan : BlockScan} : scanBox n (some e :: b) i scan =
      if scan.found.isNone then scanBox n b (i + 1) { scan with cnt := scan.cnt + 1, found := some i }
      else none := by
  obtain ⟨hdotted, hno⟩ := DirEntry.isNo_iff.mp he
  rw [DirEntry.dotted, Bool.or_eq_false_iff] at hdotted
  rw [scanBox, hdotted.1, hdotted.2, if_neg Bool.false_ne_true, if_neg Bool.false_ne_true, if_pos hno]

/-- The first entry of the number in a box that has one. -/
theorem exists_first_no {n : ℕ} {b : Box DirEntry} (h : ¬ LacksNo n b) :
    ∃ l₁ x l₂, b = l₁ ++ some x :: l₂ ∧ LacksNo n l₁ ∧ x.isNo n = true := by
  induction b with
  | nil => exact absurd (fun e he => absurd he List.not_mem_nil) h
  | cons o b ih =>
      cases o with
      | none =>
          obtain ⟨l₁, x, l₂, rfl, hl, hx⟩ := ih fun hb => h (by
            unfold LacksNo
            rwa [List.reduceOption_cons_of_none])
          refine ⟨none :: l₁, x, l₂, rfl, ?_, hx⟩
          unfold LacksNo
          rwa [List.reduceOption_cons_of_none]
      | some e =>
          by_cases he : e.isNo n = true
          · exact ⟨[], e, b, rfl, fun e he => absurd he List.not_mem_nil, he⟩
          · have hcons : ∀ {l}, LacksNo n l → LacksNo n (some e :: l) := fun {l} hl => by
              unfold LacksNo
              rw [List.reduceOption_cons_of_some]
              rintro y hy
              rcases List.mem_cons.mp hy with rfl | hmem
              · exact Bool.not_eq_true _ ▸ he
              · exact hl y hmem
            obtain ⟨l₁, x, l₂, rfl, hl, hx⟩ := ih fun hb => h (hcons hb)
            exact ⟨some e :: l₁, x, l₂, rfl, hcons hl, hx⟩

theorem countOthers_append (b b' : Box DirEntry) :
    countOthers (b ++ b') = countOthers b + countOthers b' := by
  rw [countOthers, List.reduceOption_append, List.countP_append, countOthers, countOthers]

theorem hasDot_append (b b' : Box DirEntry) : hasDot (b ++ b') = (hasDot b || hasDot b') := by
  rw [hasDot, List.reduceOption_append, List.any_append, hasDot, hasDot]

/-- An entry of the number is counted, and it is not `.`. -/
theorem count_no {n : ℕ} {e : DirEntry} (he : e.isNo n = true) (b : Box DirEntry) :
    countOthers (some e :: b) = countOthers b + 1 ∧ hasDot (some e :: b) = hasDot b := by
  obtain ⟨hdotted, -⟩ := DirEntry.isNo_iff.mp he
  have hdot := hdotted
  rw [DirEntry.dotted, Bool.or_eq_false_iff] at hdot
  unfold countOthers hasDot
  rw [List.reduceOption_cons_of_some, List.countP_cons, List.any_cons, hdotted, hdot.1]
  simp

/-- The scan of a box with one entry of the number, or with more. -/
theorem scanBox_found {n : ℕ} {l₁ : Box DirEntry} {x : DirEntry} (hl : LacksNo n l₁)
    (hx : x.isNo n = true) (l₂ : Box DirEntry) :
    (LacksNo n l₂ → scanBox n (l₁ ++ some x :: l₂) 0 ⟨none, 0, false⟩ =
      some ⟨some l₁.length, countOthers (l₁ ++ some x :: l₂), hasDot (l₁ ++ some x :: l₂)⟩) ∧
    (¬ LacksNo n l₂ → scanBox n (l₁ ++ some x :: l₂) 0 ⟨none, 0, false⟩ = none) := by
  obtain ⟨hcount, hdot⟩ := count_no hx l₂
  constructor
  · intro hl'
    rw [scanBox_append, scanBox_lacks hl, Option.bind_some, scanBox_no hx, Option.isNone_none,
      if_pos rfl, scanBox_lacks hl', countOthers_append, hasDot_append, hcount, hdot]
    dsimp only
    rw [Nat.zero_add, Nat.zero_add, Bool.false_or, Nat.add_assoc, Nat.add_comm 1]
  · intro hl'
    obtain ⟨l₃, y, l₄, rfl, hl₃, hy⟩ := exists_first_no hl'
    rw [scanBox_append, scanBox_lacks hl, Option.bind_some, scanBox_no hx, Option.isNone_none,
      if_pos rfl, scanBox_append, scanBox_lacks hl₃, Option.bind_some, scanBox_no hy]
    exact if_neg Bool.false_ne_true

/-- `scanEntries` on the buffer of a block. -/
theorem ensures_scanEntries {env : Env} {disk : Bytes} {lba n : ℕ} {b : Box DirEntry}
    (h : StoresBox disk lba b) {Q : BlockScan → Kernel → Prop} {k : Kernel} :
    (scanEntries (sectorOf disk lba) n 21 0 ⟨none, 0, false⟩).ensures env Q k ↔
      (scanBox n b 0 ⟨none, 0, false⟩).elim env.stops (Q · k) := by
  have hgen : ∀ (l : Box DirEntry) (i : ℕ) (scan : BlockScan), b.drop i = l →
      ((scanEntries (sectorOf disk lba) n l.length i scan).ensures env Q k ↔
        (scanBox n l i scan).elim env.stops (Q · k)) := by
    intro l
    induction l with
    | nil => exact fun i scan _ => Iff.rfl
    | cons o l ih =>
        intro i scan hdrop
        have hi : i < b.length := by
          by_contra hge
          rw [List.drop_of_length_le (by omega)] at hdrop
          cases hdrop
        have hcons := List.drop_eq_getElem_cons hi
        rw [hdrop] at hcons
        obtain ⟨ho, hl⟩ := List.cons.inj hcons
        have hslot := h.slot i hi
        rw [← ho] at hslot
        have ih := fun scan => ih (i + 1) scan hl.symm
        have htype := hslot.fType_eq_unknown
        change entryType (sectorOf disk lba) (direntSize * i) = .unknown ↔ _ at htype
        rw [List.length_cons, scanEntries, ensures_bind, scanEntry]
        cases o with
        | none => rw [if_pos (htype.mpr rfl), scanBox, ensures_pure, ih]
        | some e =>
            have hused : ¬ entryType (sectorOf disk lba) (direntSize * i) = .unknown := fun hfree => by
              cases htype.mp hfree
            have hdot : strEq (sectorOf disk lba) (direntSize * i) dotName = e.named dotName :=
              hslot.hasName (by decide)
            have hdotdot : strEq (sectorOf disk lba) (direntSize * i) dotDotName = e.named dotDotName :=
              hslot.hasName (by decide)
            have hno : entryINo (sectorOf disk lba) (direntSize * i) = e.iNo :=
              congrArg (fun x => x.2.1) hslot.shown
            rw [if_neg hused, hdot, hdotdot, hno, scanBox]
            split
            · rw [ensures_pure, ih]
            · split
              · rw [ensures_pure, ih]
              · split
                · rw [ensures_bind]
                  split
                  next hnone =>
                    rw [hnone]
                    exact ih _
                  next hsome =>
                    rw [Bool.not_eq_true] at hsome
                    rw [hsome]
                    exact Iff.rfl
                · rw [ensures_pure, ih]
  have := hgen b 0 ⟨none, 0, false⟩ rfl
  rwa [h.length] at this

/-! ## Writes before the blocks -/

section Frame

variable {t : Transfer} {env : Env} {start : ℕ}

/-- An `ide_write` to sectors before `start`. -/
theorem ensures_ideWriteLoop_before {lba left i : ℕ} {buf : Bytes} {Q : Unit → Kernel → Prop}
    {k : Kernel} (hlba : ∀ j, i ≤ j → j < i + left → t.sector lba j < start) (hstart : start ≤ maxLba + 1)
    (hQ : ∀ disk, (∀ l, start ≤ l → sectorOf disk l = sectorOf k.disk l) → Q () { k with disk := disk }) :
    (ideWriteLoop t lba buf left i).ensures env Q k := by
  refine ensures_ideWriteLoop_area (S := (· < start)) (fun j hj hj' => ⟨hlba j hj hj', ?_⟩) fun disk hdisk => ?_
  · exact Nat.le_of_lt_succ (Nat.lt_of_lt_of_le (hlba j hj hj') hstart)
  · exact hQ disk fun l hl => hdisk l (Nat.not_lt.mpr hl)

theorem Partition.Layout.tableFits {k : Kernel} (h : k.part.Layout) : k.TableFits where
  disk := h.inodeTable.trans h.last
  part := h.inodeTablePart

/-- `inode_sync` with a buffer that is large enough writes to the inode table. -/
theorem ensures_inodeSync_table {k : Kernel} (h : k.part.Layout) {inode : Inode} {bufSecs : ℕ}
    (hbuf : env.stops ∨ (inodePosition k.part.sb (inode.iNo % 256)).secs ≤ bufSecs)
    {Q : Unit → Kernel → Prop}
    (hQ : ∀ disk, (∀ l, k.part.sb.dataStartLba ≤ l → sectorOf disk l = sectorOf k.disk l) →
      Q () { k with disk := disk }) : (inodeSync t inode bufSecs).ensures env Q k := by
  have hn : inode.iNo % 256 < maxFilesPerPart := by
    unfold maxFilesPerPart
    omega
  obtain ⟨hpart, -⟩ := h.tableFits.position hn
  have htable := h.inodeTable
  rw [inodeSync, inodeLocate]
  simp only [ensures_bind]
  rw [ensures_assert (decide_eq_true hn)]
  simp only [ensures_read, ensures_pure]
  rw [ensures_assert (decide_eq_true hpart)]
  split
  next hsecs =>
    rw [ensures_stop]
    exact hbuf.resolve_right (Nat.not_le.mpr hsecs)
  next hsecs =>
    have hsecs' := (inodePosition k.part.sb (inode.iNo % 256)).secs_bounds.2
    rw [ensures_bind, ensures_ideRead (inodePosition_le h.tableFits.disk hn), ideWrite]
    refine ensures_ideWriteLoop_before (fun j _ hj => ?_) h.last hQ
    have hsector : t.sector (inodePosition k.part.sb (inode.iNo % 256)).secLba j <
        k.part.sb.inodeTableLba + inodeTableSects := inodePosition_lt hn j (by omega)
    omega

/-- `inode_sync` with a buffer of two sectors. -/
theorem ensures_inodeSync_before {k : Kernel} (h : k.part.Layout) {inode : Inode}
    {Q : Unit → Kernel → Prop}
    (hQ : ∀ disk, (∀ l, k.part.sb.dataStartLba ≤ l → sectorOf disk l = sectorOf k.disk l) →
      Q () { k with disk := disk }) : (inodeSync t inode 2).ensures env Q k :=
  ensures_inodeSync_table h (Or.inr (inodePosition k.part.sb (inode.iNo % 256)).secs_bounds.2) hQ

end Frame

/-! ## What happens to the shelf -/

/-- The first entry of the number `n`, and the slots around it. -/
structure DeletesAt (n : ℕ) (s : BoxRow DirEntry) (i : ℕ) (l₁ : Box DirEntry) (x : DirEntry)
    (l₂ : Box DirEntry) : Prop where
  small : i < flattenPtrs
  place : s i = some (l₁ ++ some x :: l₂)
  isNo : x.isNo n = true
  before : ∀ j < i, ∀ b ∈ s j, LacksNo n b
  low : LacksNo n l₁

/-- The first entry of the number is in a direct block, and the only one of it there. -/
def Deletable (n : ℕ) (s : BoxRow DirEntry) : Prop :=
  ∀ i l₁ x l₂, DeletesAt n s i l₁ x l₂ → i < directPtrs ∧ LacksNo n l₂

theorem named_dotEntry (n : ℕ) : (dotEntry n).named dotName = true := rfl

/-- Nothing but one entry is counted in the box, which is not the first of the directory. -/
def Emptied (b : Box DirEntry) : Prop := countOthers b = 1 ∧ hasDot b = false

section DirInv

variable {disk disk' : Bytes} {part : Partition} {inode : Inode} {ptr : ℕ → ℕ}
  {s : BoxRow DirEntry} {lost : ℕ} (h : DirInv disk part inode ptr s lost)

include h

/-- The directory lies in the blocks. -/
theorem DirInv.frame (hdisk : ∀ l, part.sb.dataStartLba ≤ l → sectorOf disk' l = sectorOf disk l) :
    DirInv disk' part inode ptr s lost where
  layout := h.layout
  dir :=
    { direct := h.dir.direct
      noTable := h.dir.noTable
      table := fun h0 j hj hj' => by
        rw [hdisk _ (h.dir.tableTaken h0).low]
        exact h.dir.table h0 j hj hj'
      tableTaken := h.dir.tableTaken
      tableApart := h.dir.tableApart
      empty := h.dir.empty
      box := fun j hj b hb =>
        (h.dir.box j hj b hb).congr (hdisk _ (h.dir.taken j hj (h.dir.ptr_ne hj hb)).low)
      taken := h.dir.taken
      apart := h.dir.apart }
  sound := h.sound
  tableUsed := h.tableUsed
  size := h.size

variable {n i : ℕ} {l₁ l₂ : Box DirEntry} {x : DirEntry} (hat : DeletesAt n s i l₁ x l₂)

include hat

/-- The size counts the entry. -/
theorem DirInv.size_of_removed {o : Option (Box DirEntry)} (more : ℕ)
    (hlen : (boxItems o).length + 1 + more = (boxItems (s i)).length) :
    direntSize ≤ inode.iSize ∧ inode.iSize - direntSize =
      direntSize * ((items (Function.update s i o) flattenPtrs 0).length + (lost + more)) := by
  obtain ⟨before, after, hs, hupd⟩ := exists_items s hat.small
  rw [h.size, hs, hupd]
  simp only [List.length_append]
  unfold direntSize
  omega

omit h in
/-- A box that is not given back does not become empty. -/
theorem DeletesAt.items_ne_nil (hkeep : ¬ Emptied (l₁ ++ some x :: l₂)) :
    (l₁ ++ none :: l₂).reduceOption ≠ [] := by
  intro hnil
  obtain ⟨hcount, hdot⟩ := count_no hat.isNo l₂
  rw [List.reduceOption_append, List.append_eq_nil_iff, List.reduceOption_cons_of_none] at hnil
  refine hkeep ⟨?_, ?_⟩
  · rw [countOthers_append, hcount, countOthers, countOthers, hnil.1, hnil.2]
    rfl
  · rw [hasDot_append, hdot, hasDot, hasDot, hnil.1, hnil.2]
    rfl

/-- In the first block the entry is behind `.` and `..`. -/
theorem DirInv.first_of_deletesAt (hzero : i = 0) :
    ∃ self parent b, l₁ = some (dotEntry self) :: some (dotDotEntry parent) :: b := by
  obtain ⟨hdotted, -⟩ := DirEntry.isNo_iff.mp hat.isNo
  obtain ⟨self, parent, b, hfirst⟩ := h.sound.first
  have hplace := hat.place
  rw [hzero, hfirst] at hplace
  have heq := Option.some.inj hplace
  match l₁, heq with
  | [], heq =>
      have hx := Option.some.inj (List.cons.inj heq).1
      rw [← hx] at hdotted
      cases hdotted
  | [_], heq =>
      have hx := Option.some.inj (List.cons.inj (List.cons.inj heq).2).1
      rw [← hx] at hdotted
      cases hdotted
  | o :: o' :: l₁, heq =>
      obtain ⟨ho, hrest⟩ := List.cons.inj heq
      obtain ⟨ho', -⟩ := List.cons.inj hrest
      exact ⟨self, parent, l₁, by rw [ho, ho']⟩

/-- A block behind the indirect table holds a single entry. -/
theorem DirInv.emptied_of_deletesAt (hge : directPtrs ≤ i) : Emptied (l₁ ++ some x :: l₂) := by
  have hi : i = directPtrs := by
    by_contra hne
    have hnone := h.sound.rest i (by omega)
    rw [hat.place] at hnone
    cases hnone
  have hplace := hat.place
  rw [hi] at hplace
  obtain ⟨e, he⟩ := h.sound.single _ hplace
  have hitems := reduceOption_newBox e
  rw [← he] at hitems
  have hmem : x ∈ (l₁ ++ some x :: l₂).reduceOption := by
    rw [List.reduceOption_append, List.reduceOption_cons_of_some]
    exact List.mem_append_right _ List.mem_cons_self
  rw [hitems, List.mem_singleton] at hmem
  obtain ⟨hdotted, -⟩ := DirEntry.isNo_iff.mp hat.isNo
  rw [hmem] at hdotted
  have hdot := hdotted
  rw [DirEntry.dotted, Bool.or_eq_false_iff] at hdot
  refine ⟨?_, ?_⟩
  · rw [countOthers, hitems, List.countP_singleton, hdotted]
    rfl
  · rw [hasDot, hitems, List.any_cons, hdot.1]
    rfl

/-- An entry that is cleared. -/
theorem DirInv.clear (hi : i < directPtrs) (hkeep : ¬ Emptied (l₁ ++ some x :: l₂)) :
    DirInv (copy disk (sectorSize * ptr i)
        (fill (sectorOf disk (ptr i)) (direntSize * l₁.length) direntSize 0) 0 sectorSize) part
        { inode with iSize := inode.iSize - direntSize } ptr
        (Function.update s i (some (l₁ ++ none :: l₂))) lost := by
  have hne : ptr i ≠ 0 := h.dir.ptr_ne hat.small hat.place
  have hset := (h.dir.box i hat.small _ hat.place).set (i := l₁.length) (o := none)
    (fun e he => by cases he) (fun j hj => fill_inside (by omega) (by omega)) fun a ha => fill_outside ha
  rw [List.set_append_right _ _ le_rfl, Nat.sub_self, List.set_cons_zero] at hset
  refine ⟨h.layout, h.dir.put hat.small hne (fun l _ hneq => sectorOf_copy_other hneq) hset, ?_,
    fun htable => ?_, ?_⟩
  · refine h.sound.update hi (fun hnil => absurd hnil (hat.items_ne_nil hkeep)) fun hzero => ?_
    obtain ⟨self, parent, b, rfl⟩ := h.first_of_deletesAt hat hzero
    exact ⟨self, parent, b ++ none :: l₂, rfl⟩
  · rw [Function.update_of_ne (by omega)]
    exact h.tableUsed htable
  · refine (h.size_of_removed hat 0 ?_).2
    rw [hat.place, boxItems_some, boxItems_some]
    simp only [List.reduceOption_append, List.reduceOption_cons_of_some,
      List.reduceOption_cons_of_none, List.length_append, List.length_cons]
    omega

/-- A block that is given back. -/
theorem DirInv.release (hi : i < directPtrs) (hempty : Emptied (l₁ ++ some x :: l₂))
    (hdisk : ∀ l, part.sb.dataStartLba ≤ l → sectorOf disk' l = sectorOf disk l) :
    DirInv disk' (part.mark (ptr i) false)
        { inode.setSector i 0 with iSize := inode.iSize - direntSize } (Function.update ptr i 0)
        (Function.update s i none) (lost + ((l₁ ++ l₂).reduceOption).length) := by
  have hne : ptr i ≠ 0 := h.dir.ptr_ne hat.small hat.place
  have htaken := h.dir.taken i hat.small hne
  refine ⟨h.layout.mark (ptr i) false, h.dir.detach hi hne fun l hl _ => hdisk l hl.low, ?_,
    fun htable => ?_, ?_⟩
  · refine h.sound.update hi (fun _ => rfl) fun hzero => ?_
    obtain ⟨self, parent, b, rfl⟩ := h.first_of_deletesAt hat hzero
    have hdot := hempty.2
    rw [List.cons_append, hasDot, List.reduceOption_cons_of_some, List.any_cons, named_dotEntry] at hdot
    cases hdot
  · have hold : Function.update inode.iSectors i 0 directPtrs = inode.iSectors directPtrs :=
      Function.update_of_ne (by omega) _ _
    rw [Function.update_of_ne (by omega)]
    exact h.tableUsed (hold ▸ htable)
  · refine (h.size_of_removed hat _ ?_).2
    rw [hat.place, boxItems_some, boxItems_none]
    simp only [List.reduceOption_append, List.reduceOption_cons_of_some, List.length_append,
      List.length_cons, List.length_nil]
    omega

end DirInv

/-- What `delete_dir_entry` can do to a directory that holds the shelf `s`. -/
inductive DeleteResult (k : Kernel) (d : ℕ) (ptr : ℕ → ℕ) (s : BoxRow DirEntry) (lost n : ℕ) :
    Bool → Kernel → Prop where
  /-- There is no entry of the number. -/
  | absent (hnone : ∀ i < flattenPtrs, ∀ b ∈ s i, LacksNo n b) : DeleteResult k d ptr s lost n false k
  /-- The entry is cleared. -/
  | cleared {k' : Kernel} {i : ℕ} {l₁ l₂ : Box DirEntry} {x : DirEntry}
      (hat : DeletesAt n s i l₁ x l₂) (hsmall : i < directPtrs) (hone : LacksNo n l₂)
      (hkeep : ¬ Emptied (l₁ ++ some x :: l₂)) (hpart : k'.part = k.part)
      (hinode : k'.dirInode d =
        { k.dirInode d with iSize := (k.dirInode d).iSize - direntSize })
      (hinv : k'.DirInv d ptr (Function.update s i (some (l₁ ++ none :: l₂))) lost) :
      DeleteResult k d ptr s lost n true k'
  /-- The block of the entry is given back. -/
  | released {k' : Kernel} {i : ℕ} {l₁ l₂ : Box DirEntry} {x : DirEntry}
      (hat : DeletesAt n s i l₁ x l₂) (hsmall : i < directPtrs) (hone : LacksNo n l₂)
      (hempty : Emptied (l₁ ++ some x :: l₂)) (hpart : k'.part = k.part.mark (ptr i) false)
      (hinode : k'.dirInode d =
        { (k.dirInode d).setSector i 0 with iSize := (k.dirInode d).iSize - direntSize })
      (hinv : k'.DirInv d (Function.update ptr i 0) (Function.update s i none)
        (lost + ((l₁ ++ l₂).reduceOption).length)) :
      DeleteResult k d ptr s lost n true k'

section Delete

variable {k : Kernel} {d : ℕ} {disk : Bytes} {part : Partition} {inode : Inode} {ptr : ℕ → ℕ}
  {s : BoxRow DirEntry} {lost n : ℕ} {env : Env} {t : Transfer}

/-- The end of a call, after which the directory holds the shelf `s`. -/
theorem ensures_deleteFinish (hsize : direntSize ≤ inode.iSize)
    (h : DirInv disk part { inode with iSize := inode.iSize - direntSize } ptr s lost)
    {Q : Bool → Kernel → Prop}
    (hQ : ∀ disk', DirInv disk' part { inode with iSize := inode.iSize - direntSize } ptr s lost →
      Q true (k.withDir d disk' part { inode with iSize := inode.iSize - direntSize })) :
    (deleteFinish t d).ensures env Q (k.withDir d disk part inode) := by
  rw [deleteFinish]
  simp only [ensures_bind, ensures_read, Kernel.withDir_part, Kernel.withDir_dirInode]
  rw [h.layout.entrySize, ensures_assert (decide_eq_true hsize), ensures_modifyDirInode,
    Kernel.withDir_dirInode]
  refine ensures_inodeSync_before h.layout fun disk' hdisk => ?_
  exact hQ disk' (h.frame hdisk)

variable (h : DirInv disk part inode ptr s lost)

include h

section Found

variable {i : ℕ} {l₁ l₂ : Box DirEntry} {x : DirEntry} (hat : DeletesAt n s i l₁ x l₂)
  (hone : LacksNo n l₂)

include hat

/-- The entry of the number lies in a block in use, and the size counts it. -/
theorem DirInv.found : part.Taken (ptr i) ∧ direntSize ≤ inode.iSize := by
  have hne : ptr i ≠ 0 := h.dir.ptr_ne hat.small hat.place
  refine ⟨h.dir.taken i hat.small hne, (h.size_of_removed hat (o := some (l₁ ++ none :: l₂)) 0 ?_).1⟩
  rw [hat.place, boxItems_some, boxItems_some]
  simp only [List.reduceOption_append, List.reduceOption_cons_of_some,
    List.reduceOption_cons_of_none, List.length_append, List.length_cons]
  omega

include hone

/-- The block is given back, which hangs when it is behind the indirect table. -/
theorem ensures_deleteBlock (hok : env.stops ∨ Deletable n s) (hempty : Emptied (l₁ ++ some x :: l₂)) :
    (deleteBlock t d i (ptr i) >>= fun _ => deleteFinish t d).ensures env
      (DeleteResult (k.withDir d disk part inode) d ptr s lost n) (k.withDir d disk part inode) := by
  obtain ⟨htaken, hsize⟩ := h.found hat
  have hindex : subU32 (ptr i) part.sb.dataStartLba = ptr i - part.sb.dataStartLba :=
    subU32_of_le htaken.low
  have hpart := h.layout.mark (ptr i) false
  rw [ensures_bind, deleteBlock, ensures_bind, ensures_read]
  dsimp only
  rw [Kernel.withDir_part, ensures_bind, setBlockBit, ensures_modify, ensures_bind, hindex]
  change Prog.ensures env (bitmapSync t (ptr i - part.sb.dataStartLba) .blockBitmap) _
    (k.withDir d disk (part.mark (ptr i) false) inode)
  rw [← hindex]
  refine ensures_bitmapSync_dir hpart (htaken.toMarked.self false) fun disk' hdisk => ?_
  by_cases hi : i < directPtrs
  · rw [if_pos hi, ensures_modifyDirInode]
    have hleft : DirInv disk' (part.mark (ptr i) false)
        { inode.setSector i 0 with iSize := (inode.setSector i 0).iSize - direntSize }
        (Function.update ptr i 0) (Function.update s i none) (lost + ((l₁ ++ l₂).reduceOption).length) :=
      h.release hat hi hempty hdisk
    have hsize' : direntSize ≤ (inode.setSector i 0).iSize := hsize
    refine ensures_deleteFinish hsize' hleft fun disk'' hinv => ?_
    refine .released hat hi hone hempty rfl ?_ hinv.withDir
    rw [Kernel.withDir_dirInode, Kernel.withDir_dirInode]
    rfl
  · rw [if_neg hi]
    exact hok.resolve_right fun hdel => hi (hdel _ _ _ _ hat).1

/-- The entry is cleared. -/
theorem ensures_clearEntry (hkeep : ¬ Emptied (l₁ ++ some x :: l₂)) :
    (ideWrite t (ptr i) (fill (sectorOf disk (ptr i)) (direntSize * l₁.length)
        (k.withDir d disk part inode).part.sb.dirEntrySize 0) 1 >>= fun _ => deleteFinish t d).ensures env
      (DeleteResult (k.withDir d disk part inode) d ptr s lost n) (k.withDir d disk part inode) := by
  obtain ⟨htaken, hsize⟩ := h.found hat
  have hi : i < directPtrs := by
    by_contra hge
    exact hkeep (h.emptied_of_deletesAt hat (by omega))
  rw [ensures_bind, ensures_ideWrite_dir htaken.last, Kernel.withDir_part, h.layout.entrySize]
  refine ensures_deleteFinish hsize (h.clear hat hi hkeep) fun disk' hinv => ?_
  exact .cleared hat hi hone hkeep rfl (by simp only [Kernel.withDir_dirInode]) hinv.withDir

end Found

/-- The loop on a directory whose blocks before `blkI` hold no entry of the number. -/
theorem ensures_deleteLoop {allBlocks : ℕ → ℕ} (hblocks : ∀ i < flattenPtrs, allBlocks i = ptr i)
    (hok : env.stops ∨ Deletable n s) {left blkI : ℕ} (hleft : blkI + left = flattenPtrs)
    (hbefore : ∀ j < blkI, ∀ b ∈ s j, LacksNo n b) :
    (deleteLoop t d n allBlocks left blkI).ensures env
      (DeleteResult (k.withDir d disk part inode) d ptr s lost n) (k.withDir d disk part inode) := by
  induction left generalizing blkI with
  | zero =>
      refine .absent fun i hi => hbefore i ?_
      omega
  | succ left ih =>
      have hi : blkI < flattenPtrs := by omega
      have hsucc : ∀ {P : ℕ → Prop}, (∀ j < blkI, P j) → P blkI → ∀ j < blkI + 1, P j := by
        intro P hlow hself j hj
        rcases Nat.lt_succ_iff_lt_or_eq.mp hj with hlt | rfl
        · exact hlow j hlt
        · exact hself
      rw [deleteLoop, hblocks blkI hi]
      by_cases hptr : ptr blkI = 0
      · rw [if_pos hptr]
        refine ih (by omega) (hsucc hbefore fun b hb => ?_)
        rw [(h.dir.empty blkI hi).mp hptr] at hb
        cases hb
      · obtain ⟨b, hb⟩ := Option.ne_none_iff_exists'.mp fun hnone =>
          hptr ((h.dir.empty blkI hi).mpr hnone)
        have hbox := h.dir.box blkI hi b hb
        have hper : (k.withDir d disk part inode).entriesPerSec = 21 := by
          rw [Kernel.entriesPerSec, Kernel.withDir_part, h.layout.entrySize]
          rfl
        rw [if_neg hptr, ensures_bind, ensures_ideRead_one (h.dir.ptr_le hi), ensures_bind,
          ensures_read, hper, Kernel.withDir_disk, ensures_bind, ensures_scanEntries hbox]
        by_cases hlacks : LacksNo n b
        · rw [scanBox_lacks hlacks]
          refine ih (by omega) (hsucc hbefore fun b' hb' => ?_)
          rw [hb] at hb'
          exact Option.some.inj hb' ▸ hlacks
        · obtain ⟨l₁, x, l₂, rfl, hl, hx⟩ := exists_first_no hlacks
          have hat : DeletesAt n s blkI l₁ x l₂ := ⟨hi, hb, hx, hbefore, hl⟩
          obtain ⟨hone, hmore⟩ := scanBox_found hl hx l₂
          by_cases hl' : LacksNo n l₂
          · rw [hone hl']
            by_cases hempty : Emptied (l₁ ++ some x :: l₂)
            · change Prog.ensures env (if countOthers _ = 1 ∧ hasDot _ = false then _ else _) _ _
              rw [if_pos ⟨hempty.1, hempty.2⟩]
              exact ensures_deleteBlock h hat hl' hok hempty
            · change Prog.ensures env (if countOthers _ = 1 ∧ hasDot _ = false then _ else _) _ _
              rw [if_neg fun hand => hempty ⟨hand.1, hand.2⟩]
              exact ensures_clearEntry h hat hl' hempty
          · rw [hmore hl']
            exact hok.resolve_right fun hdel => hl' (hdel _ _ _ _ hat).2

end Delete

/-- What can come of `delete_dir_entry` on a directory that holds a sound shelf. -/
theorem ensures_deleteDirEntry {k : Kernel} {d : ℕ} {ptr : ℕ → ℕ} {s : BoxRow DirEntry} {lost n : ℕ}
    {env : Env} {t : Transfer} (h : k.DirInv d ptr s lost) (hok : env.stops ∨ Deletable n s) :
    (deleteDirEntry t d n).ensures env (DeleteResult k d ptr s lost n) k := by
  rw [deleteDirEntry, ensures_bind, ensures_read]
  dsimp only
  rw [ensures_bind, ensures_readIndirect h.dir.table_le]
  have hloop : (deleteLoop t d n (flattenBlocks (k.dirInode d).iSectors
      (if (k.dirInode d).iSectors directPtrs = 0 then zeroBuf
        else sectorOf k.disk ((k.dirInode d).iSectors directPtrs))) flattenPtrs 0).ensures env
      (DeleteResult (k.withDir d k.disk k.part (k.dirInode d)) d ptr s lost n)
      (k.withDir d k.disk k.part (k.dirInode d)) :=
    ensures_deleteLoop h (fun i hi => h.dir.flattenBlocks_eq hi) hok (Nat.zero_add _)
      fun j hj => absurd hj (Nat.not_lt_zero j)
  rwa [k.withDir_self] at hloop

end BochsOs
