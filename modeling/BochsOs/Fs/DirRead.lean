import BochsOs.Fs.DirRemove

/-!
# Reading a directory entry by entry

Each call of `dir_read` counts the used slots from the first block on again, up to the one that
`dir_pos` names.  Its loop advances the index once more at an empty block pointer, so that
the block behind the pointer is passed over: a call meets the entries of `skipItems`, and the
calls together deliver these (`ensures_dirReads`).

In a state of a run, repeated calls deliver all entries in order and then nothing if and only
if the empty pointers before each used one stand in a row of even length (`readsAll_iff`).
Emptying the second block of a directory breaks this (`not_readsAll_hole`).
-/

namespace BochsOs

open ByteMemory Suspend Suspend.Prog Shelves

/-! ## The claim of a listing -/

/-- `n` calls of `dir_read`: name, number and type of each entry delivered, and nothing where
the call returns `NULL`. -/
def dirReads (t : Transfer) (d : ℕ) : ℕ → Prog Kernel (List (Option (List UInt8 × ℕ × FileType)))
  | 0 => return []
  | n + 1 => do
      let r ← dirRead t d
      let rs ← dirReads t d n
      return (r.map fun x => Slot.shown ⟨x.1, x.2⟩) :: rs

/-- Repeated calls of `dir_read` return, and deliver the entries of the directory one after the
other and then nothing. -/
def ReadsAll (t : Transfer) (k : Kernel) (d : ℕ) : Prop :=
  ∀ n, (dirReads t d n).succeeds
    (fun rs _ => rs = (List.range n).map fun i => (k.dirView d)[i]?) k

/-- Every row of empty block pointers before a used one is of even length. -/
def Kernel.EvenGaps (k : Kernel) (d : ℕ) : Prop :=
  Shelves.EvenGaps (fun i => k.dirPtr d i = 0) flattenPtrs

/-! ## One call -/

/-- What the entry loop of `dir_read` comes to on the slots of `b`, with `q` entries before them
and the `p`-th one wanted. -/
inductive ReadResult (buf : Bytes) (b : Box DirEntry) (p q : ℕ) : ℕ ⊕ ℕ → Prop where
  /-- The wanted entry is further on. -/
  | past (hle : q + b.reduceOption.length ≤ p) :
      ReadResult buf b p q (.inl (direntSize * (q + b.reduceOption.length)))
  /-- The wanted entry is in slot `j`. -/
  | here {j : ℕ} {e : DirEntry} (hget : b.reduceOption[p - q]? = some e)
      (hslot : Slot.Shows ⟨buf, direntSize * j⟩ (some e)) : ReadResult buf b p q (.inr j)

theorem ensures_readEntries {env : Env} {buf : Bytes} {b : Box DirEntry} {i p q : ℕ}
    (hslot : ∀ j (hj : j < b.length), Slot.Shows ⟨buf, direntSize * (i + j)⟩ b[j]) (hle : q ≤ p)
    {k : Kernel} : (readEntries buf direntSize (direntSize * p) b.length i (direntSize * q)).ensures
      env (fun r k' => k' = k ∧ ReadResult buf b p q r) k := by
  induction b generalizing i q with
  | nil => exact ⟨rfl, .past hle⟩
  | cons o b ih =>
      have hfirst := hslot 0 (Nat.zero_lt_succ _)
      have hrest : ∀ j (hj : j < b.length), Slot.Shows ⟨buf, direntSize * (i + 1 + j)⟩ b[j] :=
        fun j hj => by
          have hnext := hslot (j + 1) (Nat.succ_lt_succ hj)
          rwa [← Nat.add_assoc, Nat.add_right_comm] at hnext
      rw [Nat.add_zero, List.getElem_cons_zero] at hfirst
      have htype := hfirst.fType_eq_unknown
      change entryType buf (direntSize * i) = .unknown ↔ _ at htype
      rw [List.length_cons, readEntries]
      cases o with
      | none =>
          rw [if_pos (htype.mpr rfl)]
          refine ensures_mono (ih hrest hle) ?_
          rintro r k' ⟨rfl, hresult⟩
          refine ⟨rfl, ?_⟩
          cases hresult with
          | past hle' => exact .past hle'
          | here hget hshows => exact .here hget hshows
      | some e =>
          rw [if_neg fun hfree => by cases htype.mp hfree]
          by_cases hlt : q < p
          · have hpos : direntSize * q < direntSize * p := Nat.mul_lt_mul_of_pos_left hlt (by decide)
            rw [if_pos hpos, ← Nat.mul_succ]
            refine ensures_mono (ih hrest hlt) ?_
            rintro r k' ⟨rfl, hresult⟩
            refine ⟨rfl, ?_⟩
            have hlen : q + (some e :: b).reduceOption.length = q + 1 + b.reduceOption.length := by
              rw [List.reduceOption_cons_of_some, List.length_cons]
              omega
            cases hresult with
            | past hle' =>
                rw [← hlen]
                exact .past (hlen ▸ hle')
            | here hget hshows =>
                refine .here ?_ hshows
                rw [List.reduceOption_cons_of_some, show p - q = p - (q + 1) + 1 by omega,
                  List.getElem?_cons_succ]
                exact hget
          · -- the wanted entry
            obtain rfl : q = p := by omega
            rw [if_neg (lt_irrefl _), ensures_bind]
            refine (ensures_assert (decide_eq_true rfl)).mpr ⟨rfl, .here (e := e) ?_ hfirst⟩
            rw [Nat.sub_self]
            rfl

/-- The kernel with the handle `d` at the `p`-th entry. -/
def Kernel.atEntry (k : Kernel) (d p : ℕ) : Kernel :=
  { k with dirs := Function.update k.dirs d ⟨(k.dirs d).inode, direntSize * p⟩ }

/-- The number of block pointers that `dir_read` looks at. -/
def Kernel.blockCnt (k : Kernel) (d : ℕ) : ℕ :=
  if (k.dirInode d).iSectors directPtrs ≠ 0 then flattenPtrs else directPtrs

theorem Kernel.blockCnt_le (k : Kernel) (d : ℕ) : k.blockCnt d ≤ flattenPtrs := by
  unfold Kernel.blockCnt
  split
  · exact le_rfl
  · decide

@[simp] theorem Kernel.atEntry_dirs (k : Kernel) (d p : ℕ) :
    (k.atEntry d p).dirs d = ⟨(k.dirs d).inode, direntSize * p⟩ := Function.update_self _ _ _

@[simp] theorem Kernel.atEntry_dirInode (k : Kernel) (d p : ℕ) :
    (k.atEntry d p).dirInode d = k.dirInode d := by
  rw [Kernel.dirInode, Kernel.atEntry_dirs]
  rfl

theorem Kernel.atEntry_blockCnt (k : Kernel) (d p : ℕ) : (k.atEntry d p).blockCnt d = k.blockCnt d := by
  rw [Kernel.blockCnt, Kernel.atEntry_dirInode, Kernel.blockCnt]

/-- A call that wants the `p`-th entry delivers `o`, and moves the handle on if there is one. -/
structure Delivers (k : Kernel) (d p : ℕ) (o : Option DirEntry) (r : Option (Bytes × ℕ))
    (k' : Kernel) : Prop where
  shown : (r.map fun x => Slot.shown ⟨x.1, x.2⟩) = o.map DirEntry.shown
  state : k' = o.elim k fun _ => k.atEntry d (p + 1)

section DirRead

variable {env : Env} {t : Transfer} {k : Kernel} {d p lost : ℕ} {ptr : ℕ → ℕ} {s : BoxRow DirEntry}
  (h : k.DirInv d ptr s lost)

include h

theorem Kernel.DirInv.atEntry : (k.atEntry d p).DirInv d ptr s lost := by
  unfold Kernel.DirInv
  rw [Kernel.atEntry_dirInode]
  exact h

/-- The blocks that are not looked at hold nothing. -/
theorem Kernel.DirInv.items_blockCnt : items s (k.blockCnt d) 0 = items s flattenPtrs 0 := by
  unfold Kernel.blockCnt
  by_cases htable : (k.dirInode d).iSectors directPtrs = 0
  · have hhigh : (items s 128 (0 + directPtrs)).length ≤ 0 * 128 := length_items_le fun i hi hi' => by
      have hin : i < flattenPtrs := by
        unfold directPtrs at *
        unfold flattenPtrs
        omega
      rw [(h.dir.empty i hin).mp (h.dir.noTable htable i (by omega)), boxItems_none, List.length_nil]
    rw [if_neg (not_not.mpr htable), show flattenPtrs = directPtrs + 128 from rfl, items_add,
      List.length_eq_zero_iff.mp (Nat.le_zero.mp (hhigh.trans (Nat.zero_mul _).le)), List.append_nil]
  · rw [if_pos htable]

theorem ensures_readLoop (hpos : (k.dirs d).dirPos = direntSize * p) {allBlocks : ℕ → ℕ}
    (hblocks : ∀ i < flattenPtrs, allBlocks i = ptr i) {n fuel i q : ℕ} (hn : n ≤ flattenPtrs)
    (hle : q ≤ p) (hlen : q + (skipItems s n fuel i).length ≤ (items s flattenPtrs 0).length) :
    (readLoop t d allBlocks n fuel i (direntSize * q)).ensures env
      (Delivers k d p (skipItems s n fuel i)[p - q]?) k := by
  induction fuel generalizing i q with
  | zero => exact ⟨rfl, rfl⟩
  | succ fuel ih =>
      have hnone (hdone : (items s flattenPtrs 0).length ≤ p) :
          (skipItems s n (fuel + 1) i)[p - q]? = none := List.getElem?_eq_none (by omega)
      rw [skipItems] at hlen hnone ⊢
      rw [readLoop, ensures_bind, ensures_read]
      by_cases hni : n ≤ i
      · rw [if_pos hni, if_pos hni]
        exact ⟨rfl, rfl⟩
      · rw [if_neg hni] at hlen
        rw [if_neg hni, if_neg hni]
        by_cases hend : (k.dirInode d).iSize ≤ (k.dirs d).dirPos
        · -- no entry is left, not even on a block that would be passed over
          have hdone : (items s flattenPtrs 0).length ≤ p := by
            rw [h.size, hpos] at hend
            exact le_trans (Nat.le_add_right _ _) (Nat.le_of_mul_le_mul_left hend (by decide))
          rw [if_neg hni] at hnone
          rw [if_pos hend, hnone hdone]
          exact ⟨rfl, rfl⟩
        · have hin : i < flattenPtrs := by omega
          rw [if_neg hend, hblocks i hin]
          rcases hs : s i with _ | b
          · rw [hs] at hlen
            rw [if_pos ((h.dir.empty i hin).mpr hs)]
            exact ih hle hlen
          · rw [hs] at hlen
            dsimp only at hlen ⊢
            rw [List.length_append] at hlen
            rw [if_neg (h.dir.ptr_ne hin hs), ensures_bind,
              ensures_ideRead_one (h.dir.ptr_le hin), ensures_bind, ensures_read]
            have hbox := h.dir.box i hin b hs
            have hentries : (readEntries (sectorOf k.disk (ptr i)) direntSize (direntSize * p) b.length 0
                (direntSize * q)).ensures env
                (fun r k' => k' = k ∧ ReadResult (sectorOf k.disk (ptr i)) b p q r) k :=
              ensures_readEntries (fun j hj => by
                rw [Nat.zero_add]
                exact hbox.slot j hj) hle
            rw [hbox.length] at hentries
            rw [hpos, h.holds.entriesPerSec, h.layout.entrySize, ensures_bind]
            refine ensures_mono hentries ?_
            rintro r k' ⟨rfl, hresult⟩
            cases hresult with
            | past hle' =>
                rw [List.getElem?_append_right (by omega),
                  show p - q - b.reduceOption.length = p - (q + b.reduceOption.length) by omega]
                exact ih hle' (by omega)
            | here hget hshows =>
                rw [List.getElem?_append_left (List.getElem?_eq_some_iff.mp hget).1, hget]
                refine ⟨congrArg some hshows.shown, ?_⟩
                rw [Option.elim_some, Kernel.atEntry, Nat.mul_succ, ← hpos]

/-- One call of `dir_read` delivers the entry of the walk that the handle stands at. -/
theorem ensures_dirRead (hpos : (k.dirs d).dirPos = direntSize * p) : (dirRead t d).ensures env
    (Delivers k d p (skipItems s (k.blockCnt d) flattenPtrs 0)[p]?) k := by
  rw [dirRead, ensures_bind, ensures_read]
  dsimp only
  rw [ensures_bind, ensures_readIndirect h.dir.table_le]
  have hlen : 0 + (skipItems s (k.blockCnt d) flattenPtrs 0).length ≤ (items s flattenPtrs 0).length := by
    rw [Nat.zero_add, ← h.items_blockCnt]
    exact length_skipItems_le
  exact ensures_readLoop h hpos (fun i hi => h.dir.flattenBlocks_eq hi) (k.blockCnt_le d)
    (Nat.zero_le p) hlen

end DirRead

/-- Repeated calls deliver the entries of the walk. -/
theorem ensures_dirReads {env : Env} {t : Transfer} {n : ℕ} {k : Kernel} {d p lost : ℕ} {ptr : ℕ → ℕ}
    {s : BoxRow DirEntry} (h : k.DirInv d ptr s lost) (hpos : (k.dirs d).dirPos = direntSize * p) :
    (dirReads t d n).ensures env (fun rs _ => rs = (List.range n).map fun i =>
      (skipItems s (k.blockCnt d) flattenPtrs 0)[p + i]?.map DirEntry.shown) k := by
  induction n generalizing k p with
  | zero => rfl
  | succ n ih =>
      rw [dirReads, ensures_bind]
      refine ensures_mono (ensures_dirRead h hpos) ?_
      rintro r k' ⟨hshown, hstate⟩
      rw [ensures_bind, hshown]
      set walk := skipItems s (k.blockCnt d) flattenPtrs 0 with hwalk
      have hlist : ((List.range (n + 1)).map fun i => walk[p + i]?.map DirEntry.shown) =
          walk[p]?.map DirEntry.shown ::
            (List.range n).map fun i => walk[p + 1 + i]?.map DirEntry.shown := by
        rw [List.range_succ_eq_map, List.map_cons, List.map_map, Nat.add_zero]
        refine congrArg _ (List.map_congr_left fun i _ => ?_)
        rw [Function.comp_apply, show p + i.succ = p + 1 + i by omega]
      rw [hlist]
      rcases hget : walk[p]? with _ | e
      · -- past the last entry the handle stays where it is
        have hlen : walk.length ≤ p := List.getElem?_eq_none_iff.mp hget
        rw [hget, Option.elim_none] at hstate
        rw [hstate]
        refine ensures_mono (ih h hpos) fun rs k'' hrs => ?_
        rw [ensures_pure, hrs, ← hwalk]
        refine congrArg _ (List.map_congr_left fun i _ => ?_)
        rw [List.getElem?_eq_none (by omega), List.getElem?_eq_none (by omega)]
      · have hpos' : ((k.atEntry d (p + 1)).dirs d).dirPos = direntSize * (p + 1) := by
          rw [Kernel.atEntry_dirs]
        rw [hget, Option.elim_some] at hstate
        rw [hstate]
        refine ensures_mono (ih h.atEntry hpos') fun rs k'' hrs => ?_
        rw [ensures_pure, hrs, Kernel.atEntry_blockCnt]

/-! ## The claim -/

section ReadsAll

variable {t : Transfer} {k : Kernel} {d lost : ℕ} {ptr : ℕ → ℕ} {s : BoxRow DirEntry}
  (h : k.DirInv d ptr s lost)

include h

/-- The gaps in the block pointers are the gaps of the shelf. -/
theorem Kernel.DirInv.evenGaps_iff :
    k.EvenGaps d ↔ SkipsNone (fun i => s i = none) (k.blockCnt d) flattenPtrs 0 := by
  have hcnt := k.blockCnt_le d
  have hempty : ∀ i < flattenPtrs, k.dirPtr d i = 0 ↔ s i = none := fun i hi => by
    rw [h.holds.dirPtr hi]
    exact h.dir.empty i hi
  have hused : ∀ j < flattenPtrs, s j ≠ none → j < k.blockCnt d := fun j hj hne => by
    unfold Kernel.blockCnt
    by_cases htable : (k.dirInode d).iSectors directPtrs = 0
    · rw [if_neg (not_not.mpr htable)]
      by_contra hge
      exact hne ((h.dir.empty j hj).mp (h.dir.noTable htable j (by omega)))
    · rw [if_pos htable]
      exact hj
  rw [skipsNone_iff hcnt]
  constructor
  · intro hgaps i j hle hj hstart hgap hend
    refine hgaps i j hle (by omega) (hstart.imp_right fun hne hzero => ?_)
      (fun l hlow hhigh => (hempty l (by omega)).mpr (hgap l hlow hhigh))
      fun hzero => hend ((hempty j (by omega)).mp hzero)
    exact hne ((hempty (i - 1) (by omega)).mp hzero)
  · intro hgaps i j hle hj hstart hgap hend
    have hend' : ¬ s j = none := fun hnone => hend ((hempty j hj).mpr hnone)
    refine hgaps i j hle (hused j hj hend') (hstart.imp_right fun hne hnone => ?_)
      (fun l hlow hhigh => (hempty l (by omega)).mp (hgap l hlow hhigh)) hend'
    exact hne ((hempty (i - 1) (by omega)).mpr hnone)

theorem Kernel.DirInv.readsAll_iff_evenGaps (hpos : (k.dirs d).dirPos = 0) : ReadsAll t k d ↔ k.EvenGaps d := by
  have hreads {env : Env} (n : ℕ) : (dirReads t d n).ensures env (fun rs _ => rs = (List.range n).map
      fun i => (skipItems s (k.blockCnt d) flattenPtrs 0)[0 + i]?.map DirEntry.shown) k :=
    ensures_dirReads h (hpos.trans (Nat.mul_zero _).symm)
  rw [h.evenGaps_iff]
  constructor
  · intro hall
    refine skipsNone_of_length h.sound.used ?_
    rw [Nat.sub_zero, h.items_blockCnt]
    by_contra hlen
    set walk := skipItems s (k.blockCnt d) flattenPtrs 0 with hwalk
    -- the call after the last entry of the walk finds nothing, though there is one more
    obtain ⟨rs, k', hret, hrs⟩ := returns_of_succeeds (hall (walk.length + 1))
    have hrs' := wp_iff_returns.mp (wp_of_ensures (hreads (walk.length + 1))) rs k' hret
    have hget := List.map_inj_left.mp (hrs.symm.trans hrs') walk.length
      (List.mem_range.mpr (Nat.lt_succ_self _))
    rw [Nat.zero_add, List.getElem?_eq_none le_rfl, Option.map_none, List.getElem?_eq_none_iff,
      h.holds.view, List.length_map] at hget
    exact hlen hget
  · intro hskips n
    refine succeeds_of_ensures (ensures_mono (hreads n) fun rs _ hrs => hrs.trans ?_)
    rw [skipItems_eq hskips (k.blockCnt_le d), Nat.sub_zero, h.items_blockCnt, h.holds.view]
    refine List.map_congr_left fun i _ => ?_
    rw [Nat.zero_add, List.getElem?_map]

end ReadsAll

/-- In every state of a run: repeated calls of `dir_read` on a handle of the directory deliver
all its entries just if the rows of empty block pointers before the used ones are even. -/
theorem readsAll_iff {t : Transfer} {d : ℕ} {k : Kernel} (hk : DirReached t d k) {handle : ℕ}
    (hinode : (k.dirs handle).inode = (k.dirs d).inode) (hpos : (k.dirs handle).dirPos = 0) :
    ReadsAll t k handle ↔ k.EvenGaps handle := by
  obtain ⟨ptr, s, lost, h⟩ := hk.inv
  have hsame : k.dirInode handle = k.dirInode d := congrArg k.inodes hinode
  have h' : k.DirInv handle ptr s lost := by
    unfold Kernel.DirInv
    rw [hsame]
    exact h
  exact h'.readsAll_iff_evenGaps hpos

/-- A directory from which an entry has been removed again is read to its end. -/
theorem readsAll_emptied : ∃ k ptr s, EmptiedDir .repeated k ptr s ∧ ReadsAll .repeated k madeDir := by
  obtain ⟨k, ptr, s, h⟩ := exists_emptied .repeated
  refine ⟨k, ptr, s, h, (readsAll_iff h.reached rfl h.dirPos).mpr fun i j hle hj _ _ hend => ?_⟩
  have hzero : j = 0 := by
    by_contra hne
    exact hend ((h.inv.holds.dirPtr hj).trans ((h.inv.dir.empty j hj).mpr (h.places j hne)))
  rw [hzero, Nat.zero_sub]
  exact Even.zero

/-! ## A directory with a hole -/

/-- An entry that is taken out of one place is the only one of its number there is. -/
theorem lacksNo_of_single {s : BoxRow DirEntry} {n : ℕ} {l₁ l₂ : Box DirEntry} {x : DirEntry}
    (hsingle : (items s flattenPtrs 0).countP (·.isNo n) ≤ 1) (hplace : s 1 = some (l₁ ++ some x :: l₂))
    (hx : x.isNo n = true) (hl : LacksNo n l₁) : LacksNo n l₂ ∧ ∀ b ∈ s 0, LacksNo n b := by
  have hitems : items s flattenPtrs 0 = boxItems (s 0) ++ (boxItems (s 1) ++ items s 138 2) := rfl
  have hbox : 0 < (l₁ ++ some x :: l₂).reduceOption.countP (·.isNo n) := by
    rw [List.countP_pos_iff, List.reduceOption_append, List.reduceOption_cons_of_some]
    exact ⟨x, List.mem_append_right _ List.mem_cons_self, hx⟩
  rw [hitems, List.countP_append, List.countP_append, hplace, boxItems_some] at hsingle
  refine ⟨(countP_isNo hl hx).mp (by omega), fun b hb e he => ?_⟩
  have hzero : (boxItems (s 0)).countP (·.isNo n) = 0 := by omega
  rw [Option.mem_def.mp hb, boxItems_some, List.countP_eq_zero] at hzero
  exact Bool.not_eq_true _ ▸ hzero e he

/-- The second block of a directory is emptied by removals, where no other entry has one of its
numbers. -/
theorem exists_erased {t : Transfer} {k : Kernel} {ptr : ℕ → ℕ} {s : BoxRow DirEntry} {lost : ℕ}
    (hreached : DirReached t madeDir k) (h : k.DirInv madeDir ptr s lost)
    (hpos : (k.dirs madeDir).dirPos = 0)
    (hsingle : ∀ n, (items s flattenPtrs 0).countP (·.isNo n) ≤ 1)
    (hplain : ∀ e ∈ boxItems (s 1), e.dotted = false) :
    ∃ k' ptr' s' lost', DirReached t madeDir k' ∧ k'.DirInv madeDir ptr' s' lost' ∧
      (k'.dirs madeDir).dirPos = 0 ∧ s' 1 = none ∧ ∀ i ≠ 1, s' i = s i := by
  induction hc : (boxItems (s 1)).length generalizing k ptr s lost with
  | zero => exact ⟨k, ptr, s, lost, hreached, h, hpos, h.sound.used 1 (List.length_eq_zero_iff.mp hc),
      fun _ _ => rfl⟩
  | succ c ih =>
      rcases hs : s 1 with _ | b
      · rw [hs] at hc
        cases hc
      · obtain ⟨x, hx⟩ := List.exists_mem_of_length_pos (Nat.lt_of_lt_of_eq (Nat.succ_pos c) hc.symm)
        have hno : x.isNo x.iNo = true := DirEntry.isNo_iff.mpr ⟨hplain x hx, rfl⟩
        rw [hs, boxItems_some] at hx
        obtain ⟨l₁, y, l₂, rfl, hl, hy⟩ := exists_first_no (n := x.iNo) (b := b) fun hlacks => by
          rw [hlacks x hx] at hno
          cases hno
        obtain ⟨hl', hfirst⟩ := lacksNo_of_single (hsingle x.iNo) hs hy hl
        have hat : DeletesAt x.iNo s 1 l₁ y l₂ := ⟨by decide, hs, hy, fun j hj b' hb' => by
          obtain rfl : j = 0 := by omega
          exact hfirst b' hb', hl⟩
        have hdel : Deletable x.iNo s := fun i l₁' y' l₂' hat' => by
          obtain rfl := hat.unique hat'
          exact ⟨by decide, (lacksNo_of_single (hsingle x.iNo) hat'.place hat'.isNo hat'.low).1⟩
        obtain ⟨r, k', hexec, hresult⟩ := exec_of_ensures (ensures_deleteDirEntry h (Or.inr hdel))
        have hret := returns_of_exec hexec
        have hreached' : DirReached t madeDir k' :=
          .next (i := .delete x.iNo) hreached trivial ⟨r, hret⟩
        have hpos' : (k'.dirs madeDir).dirPos = 0 := by
          rw [DirCall.sameDirs (.delete x.iNo) hret]
          exact hpos
        cases hresult with
        | absent hnone => exact absurd (hnone 1 (by decide) _ hs) hat.not_lacksNo
        | released hat' _ _ _ _ _ hinv =>
            obtain rfl := hat.unique hat'
            exact ⟨k', _, _, _, hreached', hinv, hpos', Function.update_self _ _ _,
              fun i hi => Function.update_of_ne hi _ _⟩
        | @cleared _ i l₁' l₂' y' hat' _ _ _ _ _ hinv =>
            obtain rfl := hat.unique hat'
            have hins : Inserted y' (l₁' ++ none :: l₂').reduceOption (l₁' ++ some y' :: l₂').reduceOption := by
              refine ⟨l₁'.reduceOption, l₂'.reduceOption, ?_, ?_⟩
              · rw [List.reduceOption_append, List.reduceOption_cons_of_none]
              · rw [List.reduceOption_append, List.reduceOption_cons_of_some]
            have hbox := hat'.place
            have hitems : Inserted y' (items (Function.update s 1 (some (l₁' ++ none :: l₂'))) flattenPtrs 0)
                (items s flattenPtrs 0) := removed_of_place (by decide) (by rwa [hbox])
            have hsingle' : ∀ n,
                (items (Function.update s 1 (some (l₁' ++ none :: l₂'))) flattenPtrs 0).countP
                  (·.isNo n) ≤ 1 := fun n => by
              have hcount := hsingle n
              rw [hitems.perm.countP_eq, List.countP_cons] at hcount
              omega
            have hplain' : ∀ e ∈ boxItems (Function.update s 1 (some (l₁' ++ none :: l₂')) 1),
                e.dotted = false := fun e he => by
              rw [Function.update_self, boxItems_some] at he
              refine hplain e ?_
              rw [hbox, boxItems_some]
              exact hins.mem_iff.mpr (Or.inr he)
            rw [hbox, boxItems_some, hins.length] at hc
            obtain ⟨k'', ptr'', s'', lost'', hreached'', hinv'', hpos'', hnone, hsame⟩ :=
              ih hreached' hinv hpos' hsingle' hplain' (by
                rw [Function.update_self, boxItems_some]
                omega)
            exact ⟨k'', ptr'', s'', lost'', hreached'', hinv'', hpos'', hnone, fun i hi =>
              (hsame i hi).trans (Function.update_of_ne hi _ _)⟩

section Filled

variable {t : Transfer} {m : ℕ} {k : Kernel} {ptr : ℕ → ℕ} {s : BoxRow DirEntry}
  (h : Filled t m k ptr s)

include h

/-- The second block holds neither `.` nor `..`. -/
theorem Filled.plain (hm : m ≤ 256) {e : DirEntry} (he : e ∈ boxItems (s 1)) : e.dotted = false := by
  have hitems : items s flattenPtrs 0 = boxItems (s 0) ++ (boxItems (s 1) ++ items s 138 2) := rfl
  have hnumbered : ((List.range m).map numbered).countP DirEntry.dotted = 0 := by
    rw [List.countP_eq_zero]
    intro x hx
    obtain ⟨j, hj, rfl⟩ := List.mem_map.mp hx
    have hj := List.mem_range.mp hj
    rw [numbered_not_dotted (by omega)]
    exact Bool.false_ne_true
  have hcount : (items s flattenPtrs 0).countP DirEntry.dotted = 2 := by
    rw [h.perm.countP_eq, List.countP_append, hnumbered]
    rfl
  obtain ⟨own, parent, b, hfirst⟩ := h.inv.sound.first
  have htwo : 2 ≤ (boxItems (s 0)).countP DirEntry.dotted := by
    rw [hfirst, boxItems_some, List.reduceOption_cons_of_some, List.reduceOption_cons_of_some,
      List.countP_cons_of_pos rfl, List.countP_cons_of_pos rfl]
    exact Nat.le_add_left 2 _
  rw [hitems, List.countP_append, List.countP_append] at hcount
  have hzero : (boxItems (s 1)).countP DirEntry.dotted = 0 := by omega
  exact Bool.not_eq_true _ ▸ List.countP_eq_zero.mp hzero e he

end Filled

/-- When the second block of a full directory is emptied, the third is no longer read. -/
theorem not_readsAll_hole : ¬ ∀ (t : Transfer) (d : ℕ) (k : Kernel), DirReached t d k →
    ∀ handle, (k.dirs handle).inode = (k.dirs d).inode → (k.dirs handle).dirPos = 0 →
      ReadsAll t k handle := by
  intro hall
  obtain ⟨m, k, ptr, s, h, hm, -, hneed⟩ := exists_full .repeated
  obtain ⟨b, hb, -⟩ := shelfNeeds_eq_two.mp hneed 2 (by decide) (by decide)
  obtain ⟨k', ptr', s', lost', hreached, hinv, hpos, hnone, hsame⟩ :=
    exists_erased h.reached h.inv h.dirPos h.single fun e he => h.plain (by omega) he
  have hgaps := (hinv.readsAll_iff_evenGaps hpos).mp (hall .repeated madeDir k' hreached madeDir rfl hpos)
  have hempty {i : ℕ} (hi : i < flattenPtrs) : k'.dirPtr madeDir i = 0 ↔ s' i = none := by
    rw [hinv.holds.dirPtr hi]
    exact hinv.dir.empty i hi
  obtain ⟨own, parent, b', hfirst⟩ := hinv.sound.first
  have hodd : Even (2 - 1) := by
    refine hgaps 1 2 (by decide) (by decide) (Or.inr fun hzero => ?_) (fun l hlow hhigh => ?_)
      fun hzero => ?_
    · have hnone' := (hempty (by decide)).mp hzero
      rw [hfirst] at hnone'
      cases hnone'
    · obtain rfl : l = 1 := by omega
      exact (hempty (by decide)).mpr hnone
    · have hnone' := (hempty (by decide)).mp hzero
      rw [hsame 2 (by decide), hb] at hnone'
      cases hnone'
  exact absurd hodd (by decide)

end BochsOs
