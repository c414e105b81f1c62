import BochsOs.Device.Partition
import BochsOs.Library.Follows

/-!
# The scans of several disks

`ide_init` resets the two counters of `partition_scan` after every disk, but not
`ext_lba_base`.  The links of a disk are therefore followed relative to the first extended
partition of a disk scanned before it.  `leftover` says what the earlier disks leave in
`ext_lba_base`, and `sameRecords_iff` shows that nothing else of them matters.
-/

namespace BochsOs

open ByteMemory Suspend Suspend.Prog

/-- `ide_init` comes past these disks. -/
def Passes (disks : List Bytes) : Prop :=
  ∃ fuel, (ideInit fuel disks).ensures .zero (fun _ _ => True) .boot

/-- The contents of `prim_parts` and `logic_parts` of a disk.  The names in them are relative to
that of the disk. -/
def IdeState.Holds (s : IdeState) (hd : ℕ) (prim logic : ℕ → PartitionRecord) : Prop :=
  s.primParts hd = prim ∧ s.logicParts hd = logic

/-- After these disks `ide_init` records the partitions of the next one so. -/
def Records (earlier : List Bytes) (disk : Bytes) (prim logic : ℕ → PartitionRecord) : Prop :=
  ∃ fuel, (ideInit fuel (earlier ++ [disk])).ensures .zero
    (fun _ s => s.Holds earlier.length prim logic) .boot

/-- What is recorded of a disk is the same after the one and after the other disks. -/
def SameRecords (earlier earlier' : List Bytes) (disk : Bytes) : Prop :=
  ∀ prim logic, Records earlier disk prim logic ↔ Records earlier' disk prim logic

/-- The start of the first link in the first sector of a disk; `0` when there is none. -/
def firstLinkStart (disk : Bytes) : ℕ :=
  ((List.range 4).find? fun i => (entryOn disk 0 i).IsLink).elim 0 fun i =>
    (entryOn disk 0 i).startLba

/-- What is left in `ext_lba_base`: the start of the first link in the first sector of the first
disk that has one. -/
def leftover : List Bytes → ℕ
  | [] => 0
  | disk :: disks => if firstLinkStart disk ≠ 0 then firstLinkStart disk else leftover disks

/-! ## More fuel, and another place -/

/-- A relation between two states in which the scans of the disks `hd` and `hd'` do the same.  The base
counts only if there are links. -/
structure ScanRelation (links : Prop) (hd hd' : ℕ) (R : IdeState → IdeState → Prop) : Prop where
  base : links → ∀ {s t}, R s t → s.extLbaBase = t.extLbaBase
  logic : ∀ {s t}, R s t → s.lCnt = t.lCnt
  prim : ∀ {s t}, R s t → s.pCnt = t.pCnt
  setBase : ∀ {s t} b, R s t → R { s with extLbaBase := b } { t with extLbaBase := b }
  storePrim : ∀ lba p, Follows .zero R (storePrim hd lba p) (storePrim hd' lba p)
  storeLogic : ∀ lba p, Follows .zero R (storeLogic hd lba p) (storeLogic hd' lba p)

section Scans

variable {links : Prop} {disk : Bytes} {hd hd' fuel fuel' lba : ℕ} {R : IdeState → IdeState → Prop}

theorem zero_stops : ¬ Env.zero.stops := fun h => h

theorem follows_scanTable (hrel : ScanRelation links hd hd' R) {scan scan' : ℕ → Prog IdeState Unit}
    (hscan : links → ∀ lba, Follows .zero R (scan lba) (scan' lba)) (bs : Bytes) (left i : ℕ)
    (hlinks : ∀ j, i ≤ j → j < i + left → (partitionTable bs j).IsLink → links) :
    Follows .zero R (scanTable hd scan lba bs left i) (scanTable hd' scan' lba bs left i) := by
  induction left generalizing i with
  | zero => exact .pure ()
  | succ left ih =>
      have ih := ih (i + 1) fun j hle hlt => hlinks j (by omega) (by omega)
      rw [scanTable, scanTable]
      by_cases hlink : (partitionTable bs i).IsLink
      · have hl := hlinks i le_rfl (by omega) hlink
        dsimp only
        rw [if_pos hlink, if_pos hlink]
        refine .read_bind fun s t hst => ?_
        rw [hrel.base hl hst]
        by_cases hbase : t.extLbaBase ≠ 0
        · rw [if_pos hbase, if_pos hbase]
          exact (hscan hl _).bind fun _ => ih
        · rw [if_neg hbase, if_neg hbase]
          exact (Follows.write (hrel.setBase _ hst)).bind fun _ => (hscan hl _).bind fun _ => ih
      · dsimp only
        rw [if_neg hlink, if_neg hlink]
        by_cases htype : (partitionTable bs i).fsType ≠ 0
        · rw [if_pos htype, if_pos htype]
          by_cases hlba : lba = 0
          · rw [if_pos hlba, if_pos hlba]
            refine (hrel.storePrim _ _).bind fun _ => .read_bind fun s t hst => ?_
            rw [hrel.prim hst]
            exact (Follows.assert zero_stops id).bind fun _ => ih
          · rw [if_neg hlba, if_neg hlba]
            refine (hrel.storeLogic _ _).bind fun _ => .read_bind fun s t hst => ?_
            rw [hrel.logic hst]
            by_cases hfull : 8 ≤ t.lCnt
            · rw [if_pos hfull, if_pos hfull]
              exact .pure ()
            · rw [if_neg hfull, if_neg hfull]
              exact ih
        · rw [if_neg htype, if_neg htype]
          exact ih

/-- A scan that comes to its end is followed by one with more fuel. -/
theorem follows_partitionScan (hrel : ScanRelation links hd hd' R) (hfuel : fuel ≤ fuel') (lba : ℕ)
    (hlinks : (∀ j < 4, ¬ (entryOn disk lba j).IsLink) ∨ links) :
    Follows .zero R (partitionScan disk hd fuel lba) (partitionScan disk hd' fuel' lba) := by
  induction fuel generalizing fuel' lba with
  | zero => exact .stop zero_stops _ _
  | succ fuel ih =>
      obtain ⟨fuel', rfl⟩ : ∃ n, fuel' = n + 1 := ⟨fuel' - 1, by omega⟩
      refine .arbitrary_bind fun n => ?_
      by_cases hn : n ≠ 0
      · rw [if_pos hn, if_pos hn]
        exact .stop zero_stops _ _
      · rw [if_neg hn, if_neg hn]
        exact (Follows.assert zero_stops id).bind fun _ =>
          follows_scanTable hrel (fun hl lba => ih (Nat.le_of_succ_le_succ hfuel) lba (Or.inr hl)) _ _ _
            fun j _ hj hlink => hlinks.resolve_left fun hnone => hnone j (by omega) hlink

/-- Equal states. -/
theorem ScanRelation.eq (hd : ℕ) : ScanRelation True hd hd Eq where
  base _ _ _ := congrArg _
  logic := congrArg _
  prim := congrArg _
  setBase b h := by rw [h]
  storePrim lba p := .self _
  storeLogic lba p := .self _

/-- The variables of the scan and the records of one disk in each state. -/
structure SameScan (links : Prop) (hd hd' : ℕ) (s t : IdeState) : Prop where
  base : links → s.extLbaBase = t.extLbaBase
  prim : s.pCnt = t.pCnt
  logic : s.lCnt = t.lCnt
  primParts : s.primParts hd = t.primParts hd'
  logicParts : s.logicParts hd = t.logicParts hd'

theorem setRecord_congr {parts parts' : ℕ → ℕ → PartitionRecord} (h : parts hd = parts' hd') (i : ℕ)
    (r : PartitionRecord) : setRecord parts hd i r hd = setRecord parts' hd' i r hd' := by
  rw [setRecord, setRecord, Function.update_self, Function.update_self, h]

theorem ScanRelation.sameScan (links : Prop) (hd hd' : ℕ) :
    ScanRelation links hd hd' (SameScan links hd hd') where
  base hl _ _ h := h.base hl
  logic h := h.logic
  prim h := h.prim
  setBase b h := ⟨fun _ => rfl, h.prim, h.logic, h.primParts, h.logicParts⟩
  storePrim lba p := by
    refine .read_bind fun s t h => ?_
    rw [h.prim]
    by_cases hlow : t.pCnt < 4
    · rw [if_pos hlow, if_pos hlow]
      exact .write ⟨h.base, rfl, h.logic, setRecord_congr h.primParts _ _, h.logicParts⟩
    · rw [if_neg hlow]
      exact .stop zero_stops _ _
  storeLogic lba p := by
    refine .read_bind fun s t h => ?_
    rw [h.logic]
    by_cases hlow : t.lCnt < 8
    · rw [if_pos hlow, if_pos hlow]
      exact .write ⟨h.base, h.prim, rfl, h.primParts, setRecord_congr h.logicParts _ _⟩
    · rw [if_neg hlow]
      exact .stop zero_stops _ _

end Scans

/-! ## What the earlier disks leave -/

theorem ensures_ideInitLoop_append {e : Env} {fuel hd : ℕ} {disks disks' : List Bytes}
    {Q : Unit → IdeState → Prop} {s : IdeState} :
    (ideInitLoop fuel (disks ++ disks') hd).ensures e Q s ↔
      (ideInitLoop fuel disks hd).ensures e
        (fun _ t => (ideInitLoop fuel disks' (hd + disks.length)).ensures e Q t) s := by
  induction disks generalizing hd s with
  | nil => exact Iff.rfl
  | cons disk disks ih =>
      rw [List.cons_append, ideInitLoop, ideInitLoop]
      simp only [ensures_bind, ensures_modify, ih, List.length_cons, Nat.add_right_comm hd 1,
        Nat.add_assoc]

/-- The scans of all disks with more fuel. -/
theorem ideInitLoop_mono {fuel fuel' hd : ℕ} {disks : List Bytes} {Q : Unit → IdeState → Prop}
    {s : IdeState} (hfuel : fuel ≤ fuel') (h : (ideInitLoop fuel disks hd).ensures .zero Q s) :
    (ideInitLoop fuel' disks hd).ensures .zero Q s := by
  induction disks generalizing hd s with
  | nil => exact h
  | cons disk disks ih =>
      rw [ideInitLoop] at h ⊢
      rw [ensures_bind] at h ⊢
      refine follows_partitionScan (.eq hd) hfuel 0 (Or.inr trivial) rfl (fun _ t t' htt' h => ?_) h
      rw [← htt']
      rw [ensures_bind, ensures_modify] at h ⊢
      exact ih h

theorem PartitionTables.base_of_first {disk : Bytes} {lba i j : ℕ} {m m' : Met}
    (h : PartitionTables disk lba i m m') (hlba : lba = 0) (hbase : m.base = 0)
    (hj : FirstLink disk j) (hle : i ≤ j) : m'.base = (entryOn disk 0 j).startLba := by
  have hne := h.start_ne hlba hbase hj hle
  induction h with
  | done => exact absurd hj.lt (by omega)
  | @empty lba i _ _ _ htype _ ih =>
      subst hlba
      refine ih rfl hbase (Nat.lt_of_le_of_ne hle fun heq => ?_)
      have hlink := hj.link
      rw [← heq, PartitionTableEntry.IsLink, htype] at hlink
      cases hlink
  | @primary i _ _ _ htype _ _ ih =>
      exact ih rfl hbase (Nat.lt_of_le_of_ne hle fun heq => htype.1 (heq ▸ hj.link))
  | logical _ _ hzero => exact absurd hlba hzero
  | eighth _ _ hzero => exact absurd hlba hzero
  | @first lba i m m₁ _ _ hlink _ _ htable hrest _ _ =>
      subst hlba
      obtain rfl : i = j := by
        by_contra hij
        exact hj.first i (Nat.lt_of_le_of_ne hle hij) hlink
      have hbase₁ : m₁.base = (entryOn disk 0 i).startLba := htable.base_eq hne
      rw [hrest.base_eq (hbase₁ ▸ hne), hbase₁]
  | next _ _ hzero => exact absurd hbase hzero

theorem PartitionTables.base_of_none {disk : Bytes} {lba i : ℕ} {m m' : Met}
    (h : PartitionTables disk lba i m m') (hlba : lba = 0)
    (hnone : ∀ j < 4, ¬ (entryOn disk 0 j).IsLink) : m'.base = m.base := by
  induction h with
  | done => rfl
  | empty _ _ _ ih => exact ih hlba
  | primary _ _ _ _ ih => exact ih rfl
  | logical _ _ hne => exact absurd hlba hne
  | eighth _ _ hne => exact absurd hlba hne
  | first hi hlink => exact absurd (hlba ▸ hlink) (hnone _ hi)
  | next hi hlink => exact absurd (hlba ▸ hlink) (hnone _ hi)

/-- The first scan of a disk with a link sets `ext_lba_base`. -/
theorem PartitionTables.base_firstLinkStart {disk : Bytes} {m m' : Met}
    (h : PartitionTables disk 0 0 m m') :
    m'.base = if m.base ≠ 0 then m.base else firstLinkStart disk := by
  by_cases hbase : m.base = 0
  · rw [if_neg (not_not.mpr hbase), firstLinkStart]
    cases hfind : (List.range 4).find? fun i => (entryOn disk 0 i).IsLink with
    | none =>
        rw [List.find?_eq_none] at hfind
        rw [h.base_of_none rfl fun j hj => by simpa using hfind j (List.mem_range.mpr hj), hbase]
        rfl
    | some i =>
        rw [List.find?_range_eq_some] at hfind
        obtain ⟨hlink, hi, hfirst⟩ := hfind
        refine h.base_of_first rfl hbase ⟨List.mem_range.mp hi, of_decide_eq_true hlink, ?_⟩ (Nat.zero_le i)
        exact fun j hj => by simpa using hfirst j hj
  · rw [if_pos hbase]
    exact h.base_eq hbase

/-- When `ide_init` comes past some disks, it has changed no records of others, the counters are
`0`, and only the first link of the first disk that has one matters. -/
theorem exists_after {fuel hd : ℕ} {disks : List Bytes} {Q : Unit → IdeState → Prop} {s : IdeState}
    (hcnt : s.pCnt = 0 ∧ s.lCnt = 0) (h : (ideInitLoop fuel disks hd).ensures .zero Q s) :
    ∃ t, t.met = ⟨if s.extLbaBase ≠ 0 then s.extLbaBase else leftover disks, 0, 0⟩ ∧
      (∀ n ≥ hd + disks.length, t.primParts n = s.primParts n ∧ t.logicParts n = s.logicParts n) ∧
      Q () t := by
  induction disks generalizing hd s with
  | nil =>
      refine ⟨s, ?_, fun _ _ => ⟨rfl, rfl⟩, h⟩
      rw [leftover, IdeState.met, hcnt.1, hcnt.2]
      by_cases hzero : s.extLbaBase = 0
      · rw [if_neg (not_not.mpr hzero), hzero]
      · rw [if_pos hzero]
  | cons disk disks ih =>
      rw [ideInitLoop, ensures_bind] at h
      obtain ⟨_, s₁, ⟨htables, hkept⟩, h⟩ := readToEnd_of_partitionScan h
      rw [ensures_bind, ensures_modify] at h
      obtain ⟨t, hmet, hrest, hQ⟩ := ih ⟨rfl, rfl⟩ h
      refine ⟨t, hmet.trans ?_, fun n hn => ?_, hQ⟩
      · have hbase : s₁.extLbaBase = if s.extLbaBase ≠ 0 then s.extLbaBase else firstLinkStart disk :=
          htables.base_firstLinkStart
        dsimp only
        rw [hbase, leftover]
        by_cases hzero : s.extLbaBase = 0
        · rw [if_neg (not_not.mpr hzero), if_neg (not_not.mpr hzero)]
        · rw [if_pos hzero, if_pos hzero, if_pos hzero]
      · rw [List.length_cons] at hn
        obtain ⟨hprim, hlogic⟩ := hrest n (by omega)
        obtain ⟨hprim', hlogic'⟩ := hkept n (by omega)
        exact ⟨hprim.trans hprim', hlogic.trans hlogic'⟩

/-- The state in which the scan of the disk after these begins. -/
structure StartsFrom (earlier : List Bytes) (s : IdeState) : Prop where
  met : s.met = ⟨leftover earlier, 0, 0⟩
  prim : s.primParts earlier.length = fun _ => ⟨0, 0, 0⟩
  logic : s.logicParts earlier.length = fun _ => ⟨0, 0, 0⟩

theorem exists_startsFrom {earlier : List Bytes} {fuel : ℕ} {Q : Unit → IdeState → Prop}
    (h : (ideInit fuel earlier).ensures .zero Q .boot) : ∃ s, StartsFrom earlier s ∧ Q () s := by
  obtain ⟨s, hmet, hkept, hQ⟩ := exists_after ⟨rfl, rfl⟩ h
  obtain ⟨hprim, hlogic⟩ := hkept earlier.length (by omega)
  exact ⟨s, ⟨hmet, hprim, hlogic⟩, hQ⟩

theorem StartsFrom.sameScan {earlier earlier' : List Bytes} {s t : IdeState}
    (hs : StartsFrom earlier s) (ht : StartsFrom earlier' t) :
    SameScan (leftover earlier = leftover earlier') earlier.length earlier'.length s t where
  base h := by
    have hmet : s.met = t.met := by rw [hs.met, ht.met, h]
    exact congrArg Met.base hmet
  prim := (congrArg Met.prim hs.met).trans (congrArg Met.prim ht.met).symm
  logic := (congrArg Met.logic hs.met).trans (congrArg Met.logic ht.met).symm
  primParts := hs.prim.trans ht.prim.symm
  logicParts := hs.logic.trans ht.logic.symm

/-- Past the earlier disks, the scan of the next one begins in a state in which only their
`leftover` is seen. -/
theorem Passes.exists_start {earlier : List Bytes} (h : Passes earlier) :
    ∃ s, StartsFrom earlier s ∧ ∀ disk prim logic, Records earlier disk prim logic ↔
      ∃ fuel, (partitionScan disk earlier.length fuel 0).ensures .zero
        (fun _ t => t.Holds earlier.length prim logic) s := by
  obtain ⟨least, h⟩ := h
  obtain ⟨a, s, hout⟩ := exists_outcome h
  have hstays : ∀ fuel ≥ least, ∀ Q, (ideInit fuel earlier).ensures .zero Q .boot ↔ Q () s := by
    intro fuel hfuel Q
    have hend := ideInitLoop_mono hfuel ((hout fun _ t => t = s).mpr rfl)
    obtain ⟨a', s', hout'⟩ := exists_outcome hend
    obtain rfl : s' = s := (hout' _).mp hend
    exact hout' Q
  have hstart : StartsFrom earlier s := by
    obtain ⟨_, hs, rfl⟩ := exists_startsFrom ((hout fun _ t => t = s).mpr rfl)
    exact hs
  have hsplit : ∀ fuel ≥ least, ∀ disk prim logic,
      (ideInit fuel (earlier ++ [disk])).ensures .zero (fun _ t => t.Holds earlier.length prim logic)
        .boot ↔ (partitionScan disk earlier.length fuel 0).ensures .zero
          (fun _ t => t.Holds earlier.length prim logic) s := by
    intro fuel hfuel disk prim logic
    rw [ideInit, ensures_ideInitLoop_append]
    refine (hstays fuel hfuel _).trans ?_
    rw [Nat.zero_add, ideInitLoop, ensures_bind]
    exact Iff.rfl
  refine ⟨s, hstart, fun disk prim logic => ⟨fun ⟨fuel, h⟩ => ?_, fun ⟨fuel, h⟩ => ?_⟩⟩
  · refine ⟨max fuel least, (hsplit _ (le_max_right _ _) _ _ _).mp ?_⟩
    exact ideInitLoop_mono (le_max_left _ _) h
  · refine ⟨max fuel least, (hsplit _ (le_max_right _ _) _ _ _).mpr ?_⟩
    exact follows_partitionScan (.eq _) (le_max_left _ _) 0 (Or.inr trivial) rfl
      (fun _ t t' htt' h => htt' ▸ h) h

/-- Only the `leftover` of the earlier disks matters, and that only for a disk with links. -/
theorem sameRecords_of_leftover {earlier earlier' : List Bytes} (h : Passes earlier)
    (h' : Passes earlier') {disk : Bytes}
    (hsame : (∀ i < 4, ¬ (entryOn disk 0 i).IsLink) ∨ leftover earlier = leftover earlier') :
    SameRecords earlier earlier' disk := by
  obtain ⟨s, hs, hrec⟩ := h.exists_start
  obtain ⟨t, ht, hrec'⟩ := h'.exists_start
  intro prim logic
  rw [hrec, hrec']
  refine ⟨fun ⟨fuel, h⟩ => ⟨fuel, ?_⟩, fun ⟨fuel, h⟩ => ⟨fuel, ?_⟩⟩
  · refine follows_partitionScan (.sameScan _ _ _) le_rfl 0 hsame (hs.sameScan ht) ?_ h
    exact fun _ s' t' hst hs' => ⟨hst.primParts ▸ hs'.1, hst.logicParts ▸ hs'.2⟩
  · refine follows_partitionScan (.sameScan _ _ _) le_rfl 0 (hsame.imp_right Eq.symm) (ht.sameScan hs) ?_ h
    exact fun _ t' s' hts ht' => ⟨hts.primParts ▸ ht'.1, hts.logicParts ▸ ht'.2⟩

/-- What is recorded of a disk without links is the same after any disks. -/
theorem sameRecords_unlinked {earlier earlier' : List Bytes} (h : Passes earlier)
    (h' : Passes earlier') {disk : Bytes} (hnone : ∀ i < 4, ¬ (entryOn disk 0 i).IsLink) :
    SameRecords earlier earlier' disk :=
  sameRecords_of_leftover h h' (Or.inl hnone)

/-! ## A disk that shows the difference -/

/-- A disk with a link to `start` as its only entry, and the table of one logical partition in
sector 1. -/
def linkedDisk (start : ℕ) : Bytes :=
  writeU32 (fun a => if a = 450 then 5 else if a = 962 then 131 else 0) 454 start

section Linked

variable {start lba i : ℕ}

theorem linkedDisk_link : (entryOn (linkedDisk start) 0 0).IsLink := by
  change (sectorOf (linkedDisk start) 0 450).toNat = 5
  rw [sectorOf_apply (by decide), linkedDisk, writeU32_outside (by decide)]
  rfl

theorem linkedDisk_start (hstart : start < 2 ^ 32) :
    (entryOn (linkedDisk start) 0 0).startLba = start := by
  have hsame : ∀ i < 4, sectorOf (linkedDisk start) 0 (454 + i) = linkedDisk start (454 + i) := by
    intro i hi
    rw [sectorOf_apply (show 454 + i < 512 by omega), Nat.mul_zero, Nat.zero_add]
  change readU32 (sectorOf (linkedDisk start) 0) 454 = start
  rw [readU32_congr hsame, linkedDisk, readU32_writeU32, Nat.mod_eq_of_lt hstart]

theorem linkedDisk_logical : (entryOn (linkedDisk start) 1 0).IsPart := by
  have htype : (entryOn (linkedDisk start) 1 0).fsType = 131 := by
    change (sectorOf (linkedDisk start) 1 450).toNat = 131
    rw [sectorOf_apply (by decide), linkedDisk, writeU32_outside (by decide)]
    rfl
  constructor
  · rw [htype]
    decide
  · rw [htype]
    decide

/-- All other entries are empty. -/
theorem linkedDisk_empty (hi : i < 4) (h : 0 < i ∨ 2 ≤ lba) :
    (entryOn (linkedDisk start) lba i).fsType = 0 := by
  have haddr : 450 < 512 * lba + (446 + 16 * i + 4) ∧ 458 ≤ 512 * lba + (446 + 16 * i + 4) ∧
      512 * lba + (446 + 16 * i + 4) ≠ 962 := by omega
  change (sectorOf (linkedDisk start) lba (446 + 16 * i + 4)).toNat = 0
  rw [sectorOf_apply (show 446 + 16 * i + 4 < 512 by omega), linkedDisk, sectorSize,
    writeU32_outside (Or.inr haddr.2.1), if_neg haddr.1.ne', if_neg haddr.2.2]
  rfl

/-- Empty entries up to the end of a table. -/
theorem ensures_scanFrom_tail {disk : Bytes} {e : Env} {hd fuel left : ℕ} {Q : Unit → IdeState → Prop}
    {s : IdeState} (hleft : i + left = 4) (hempty : ∀ j, i ≤ j → j < 4 → (entryOn disk lba j).fsType = 0) :
    (scanFrom disk hd fuel lba i).ensures e Q s ↔ Q () s := by
  induction left generalizing i with
  | zero =>
      obtain rfl : i = 4 := hleft
      exact Iff.rfl
  | succ left ih =>
      rw [ensures_scanFrom_empty (by omega) (hempty i le_rfl (by omega))]
      exact ih (by omega) fun j hj => hempty j (by omega)

variable {hd fuel : ℕ} {s : IdeState} {Q : Unit → IdeState → Prop}

theorem linkedDisk_tail :
    (scanFrom (linkedDisk start) hd fuel lba (0 + 1)).ensures .zero Q s ↔ Q () s :=
  ensures_scanFrom_tail (show 0 + 1 + 3 = 4 from rfl) fun _ hj hj' => linkedDisk_empty hj' (Or.inl hj)

/-- The other tables are empty. -/
theorem linkedDisk_other (hlba : 2 ≤ lba) :
    (scanFrom (linkedDisk start) hd fuel lba 0).ensures .zero Q s ↔ Q () s :=
  ensures_scanFrom_tail (show 0 + 4 = 4 from rfl) fun _ _ hj => linkedDisk_empty hj (Or.inr hlba)

/-- The scan follows the only link. -/
theorem scan_linkedDisk : (partitionScan (linkedDisk start) hd (fuel + 1) 0).ensures .zero Q s ↔
    (partitionScan (linkedDisk start) hd fuel (linkTarget (linkedDisk start) s.extLbaBase 0 0)).ensures
      .zero Q (if s.extLbaBase = 0 then
        { s with extLbaBase := (entryOn (linkedDisk start) 0 0).startLba } else s) := by
  rw [ensures_partitionScan, ensures_scanFrom_link (by decide) linkedDisk_link]
  simp only [linkedDisk_tail]
  exact and_iff_right (Nat.zero_le _)

/-- A link to sector 1 leads to the logical partition. -/
theorem scan_linkedDisk_one (hcnt : s.lCnt = 0)
    (htarget : linkTarget (linkedDisk start) s.extLbaBase 0 0 = 1) :
    (partitionScan (linkedDisk start) hd 2 0).ensures .zero
      (fun _ t => (t.logicParts hd 0).nameNo = 5) s := by
  rw [scan_linkedDisk, htarget, ensures_partitionScan]
  refine ⟨by decide, (ensures_scanFrom_logical (by decide) linkedDisk_logical one_ne_zero).mpr ?_⟩
  generalize hs₁ : (if s.extLbaBase = 0 then
    { s with extLbaBase := (entryOn (linkedDisk start) 0 0).startLba } else s) = s₁
  have hcnt₁ : s₁.lCnt = 0 := by
    rw [← hs₁]
    split <;> exact hcnt
  rw [storeLogic, ensures_bind, ensures_read, hcnt₁, if_pos (by decide), ensures_write,
    if_neg (show ¬ 8 ≤ 0 + 1 by decide), linkedDisk_tail]
  dsimp only
  rw [setRecord_self]

/-- A link elsewhere leads to no partition. -/
theorem not_scan_linkedDisk (hnone : (s.logicParts hd 0).nameNo ≠ 5)
    (htarget : linkTarget (linkedDisk start) s.extLbaBase 0 0 ≠ 1) :
    ¬ (partitionScan (linkedDisk start) hd fuel 0).ensures .zero
      (fun _ t => (t.logicParts hd 0).nameNo = 5) s := by
  induction fuel generalizing s with
  | zero => exact fun h => h
  | succ fuel ih =>
      rw [scan_linkedDisk]
      generalize hs₁ : (if s.extLbaBase = 0 then
        { s with extLbaBase := (entryOn (linkedDisk start) 0 0).startLba } else s) = s₁
      have hnone₁ : (s₁.logicParts hd 0).nameNo ≠ 5 := by
        rw [← hs₁]
        split <;> exact hnone
      by_cases hzero : linkTarget (linkedDisk start) s.extLbaBase 0 0 = 0
      · rw [hzero]
        refine ih hnone₁ ?_
        by_cases hbase : s.extLbaBase = 0
        · rw [linkTarget, if_pos hbase] at hzero
          rw [← hs₁, if_pos hbase, hzero, linkTarget, if_pos rfl, hzero]
          exact zero_ne_one
        · rw [← hs₁, if_neg hbase]
          exact htarget
      · cases fuel with
        | zero => exact fun h => h
        | succ fuel =>
            rw [ensures_partitionScan, linkedDisk_other (by omega)]
            exact fun h => hnone₁ h.2

end Linked

/-- Two different bases are told apart by a link that leads to sector 1 from the one. -/
theorem exists_linkTarget {base base' : ℕ} (hbase : base < 2 ^ 32) (hbase' : base' < 2 ^ 32)
    (hne : base ≠ base') : ∃ start, linkTarget (linkedDisk start) base 0 0 = 1 ∧
      linkTarget (linkedDisk start) base' 0 0 ≠ 1 := by
  by_cases hzero : base = 0
  · refine ⟨1, ?_, ?_⟩
    · rw [linkTarget, if_pos hzero, linkedDisk_start (by decide)]
    · rw [linkTarget, if_neg (by omega), linkedDisk_start (by decide), addU32]
      omega
  · have hlow : (2 ^ 32 + 1 - base) % 2 ^ 32 < 2 ^ 32 := Nat.mod_lt _ (by decide)
    refine ⟨(2 ^ 32 + 1 - base) % 2 ^ 32, ?_, ?_⟩
    · rw [linkTarget, if_neg hzero, linkedDisk_start hlow, addU32]
      omega
    · rw [linkTarget, linkedDisk_start hlow, addU32]
      split <;> omega

theorem leftover_lt (disks : List Bytes) : leftover disks < 2 ^ 32 := by
  induction disks with
  | nil => decide
  | cons disk disks ih =>
      have hstart : firstLinkStart disk < 2 ^ 32 := by
        rw [firstLinkStart]
        cases (List.range 4).find? fun i => (entryOn disk 0 i).IsLink with
        | none => exact Nat.two_pow_pos 32
        | some i => exact readU32_lt _ _
      rw [leftover]
      split
      · exact hstart
      · exact ih

/-- A link that leads to sector 1 after the one disks and elsewhere after the others. -/
theorem not_sameRecords_linkedDisk {earlier earlier' : List Bytes} {start : ℕ} (h : Passes earlier)
    (h' : Passes earlier') (htarget : linkTarget (linkedDisk start) (leftover earlier) 0 0 = 1)
    (htarget' : linkTarget (linkedDisk start) (leftover earlier') 0 0 ≠ 1) :
    ¬ SameRecords earlier earlier' (linkedDisk start) := by
  obtain ⟨s, hs, hrec⟩ := h.exists_start
  obtain ⟨t, ht, hrec'⟩ := h'.exists_start
  have hbase : s.extLbaBase = leftover earlier := congrArg Met.base hs.met
  have hbase' : t.extLbaBase = leftover earlier' := congrArg Met.base ht.met
  rw [← hbase] at htarget
  rw [← hbase'] at htarget'
  have hscan : (partitionScan (linkedDisk start) earlier.length 2 0).ensures .zero
      (fun _ v => (v.logicParts earlier.length 0).nameNo = 5) s :=
    scan_linkedDisk_one (congrArg Met.logic hs.met) htarget
  obtain ⟨a, u, hout⟩ := exists_outcome hscan
  have hname : (u.logicParts earlier.length 0).nameNo = 5 := (hout _).mp hscan
  intro hsame
  have hrecords := (hrec _ _ _).mpr ⟨2, (hout fun _ v => v.Holds earlier.length
    (u.primParts earlier.length) (u.logicParts earlier.length)).mpr ⟨rfl, rfl⟩⟩
  obtain ⟨fuel, hscan'⟩ := (hrec' _ _ _).mp ((hsame _ _).mp hrecords)
  have hnone : (t.logicParts earlier'.length 0).nameNo ≠ 5 := by
    rw [ht.logic]
    decide
  refine not_scan_linkedDisk hnone htarget' (ensures_mono hscan' fun _ v hv => ?_)
  rw [hv.2]
  exact hname

/-- What `ide_init` records of a disk depends on the disk alone exactly as far as the earlier
disks leave the same `ext_lba_base`. -/
theorem sameRecords_iff {earlier earlier' : List Bytes} (h : Passes earlier) (h' : Passes earlier') :
    (∀ disk, SameRecords earlier earlier' disk) ↔ leftover earlier = leftover earlier' := by
  refine ⟨fun hsame => ?_, fun hleft disk => sameRecords_of_leftover h h' (Or.inr hleft)⟩
  by_contra hne
  obtain ⟨start, htarget, htarget'⟩ := exists_linkTarget (leftover_lt _) (leftover_lt _) hne
  exact not_sameRecords_linkedDisk h h' htarget htarget' (hsame _)

/-! ## A disk with an extended partition before another -/

/-- A disk without partitions leaves nothing. -/
theorem passes_blank : Passes [zeroBuf] ∧ leftover [zeroBuf] = 0 := by
  have hempty : ∀ i < 4, (entryOn zeroBuf 0 i).fsType = 0 := by decide
  constructor
  · refine ⟨1, ?_⟩
    rw [ideInit, ideInitLoop, ensures_bind, ensures_partitionScan,
      ensures_scanFrom_tail (show 0 + 4 = 4 from rfl) fun j _ hj => hempty j hj]
    exact ⟨Nat.zero_le _, trivial⟩
  · have hnone : firstLinkStart zeroBuf = 0 := by decide
    rw [leftover, hnone]
    rfl

/-- A disk whose extended partition begins in sector 63. -/
theorem passes_linked : Passes [linkedDisk 63] ∧ leftover [linkedDisk 63] = 63 := by
  have hstart : (entryOn (linkedDisk 63) 0 0).startLba = 63 := linkedDisk_start (by decide)
  constructor
  · refine ⟨2, ?_⟩
    rw [ideInit, ideInitLoop, ensures_bind, scan_linkedDisk, linkTarget,
      if_pos (show IdeState.boot.extLbaBase = 0 from rfl), hstart, ensures_partitionScan, linkedDisk_other (by decide)]
    exact ⟨by decide, trivial⟩
  · have hfirst : firstLinkStart (linkedDisk 63) = 63 := by
      have hfind : (List.range 4).find? (fun i => (entryOn (linkedDisk 63) 0 i).IsLink) = some 0 := by
        rw [List.find?_range_eq_some]
        exact ⟨decide_eq_true linkedDisk_link, by decide, fun j hj => absurd hj (Nat.not_lt_zero j)⟩
      rw [firstLinkStart, hfind]
      exact hstart
    rw [leftover, hfirst]
    rfl

/-- A blank disk and one with an extended partition leave different bases. -/
theorem sameRecords_blank_linked :
    (∀ disk, SameRecords [zeroBuf] [linkedDisk 63] disk) ↔
      leftover [zeroBuf] = leftover [linkedDisk 63] :=
  sameRecords_iff passes_blank.1 passes_linked.1

/-- After the disk with an extended partition the link to sector 1 is followed to sector 64. -/
theorem not_sameRecords_one : ¬ SameRecords [zeroBuf] [linkedDisk 63] (linkedDisk 1) := by
  refine not_sameRecords_linkedDisk passes_blank.1 passes_linked.1 ?_ ?_
  · rw [passes_blank.2, linkTarget, if_pos rfl, linkedDisk_start (by decide)]
  · rw [passes_linked.2, linkTarget, if_neg (by decide), linkedDisk_start (by decide),
      addU32_of_lt (by decide)]
    decide

end BochsOs
