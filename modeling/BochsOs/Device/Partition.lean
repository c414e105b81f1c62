import BochsOs.Device.Ide

/-!
# Partitions

`partition_scan` and `ide_init` in `device/ide.c`.  The first sector of a disk holds a table
of four entries.  An entry of type 5 is a link to a further table; the others are partitions.
The scan follows each link as soon as it meets it, counts the partitions in two counters that
all levels share, and remembers where the first extended partition begins, since the links in
the further tables are relative to it.

`PartitionTables` says which tables are read to the end.  `scansRight_iff` shows that these
are all: the scan of any other disk does not come to an end, fails an assertion or leaves the
arrays.
-/

namespace BochsOs

open ByteMemory Suspend Suspend.Prog

/-! ## The scan -/

/-- `struct partition_table_entry`, as far as it is read. -/
structure PartitionTableEntry where
  fsType : ℕ
  startLba : ℕ
  secCnt : ℕ

/-- Entry `i` of the partition table in a boot sector. -/
def partitionTable (bs : Bytes) (i : ℕ) : PartitionTableEntry where
  fsType := (bs (446 + 16 * i + 4)).toNat
  startLba := readU32 bs (446 + 16 * i + 8)
  secCnt := readU32 bs (446 + 16 * i + 12)

/-- An extended partition: a link to a further table. -/
def PartitionTableEntry.IsLink (p : PartitionTableEntry) : Prop := p.fsType = 5

instance (p : PartitionTableEntry) : Decidable p.IsLink := inferInstanceAs (Decidable (_ = _))

/-- A partition. -/
def PartitionTableEntry.IsPart (p : PartitionTableEntry) : Prop := p.fsType ≠ 5 ∧ p.fsType ≠ 0

/-- `struct partition`, as far as the scan stores it.  The name is that of the disk with the
number `nameNo` behind it. -/
structure PartitionRecord where
  startLba : ℕ
  secCnt : ℕ
  nameNo : ℕ
  deriving Inhabited, DecidableEq

/-- An element of `partition_list`. -/
structure PartTag where
  hd : ℕ
  logic : Bool
  index : ℕ
  deriving DecidableEq

/-- The variables of the scan: `ext_lba_base`, `p_cnt`, `l_cnt`, the arrays `prim_parts` and
`logic_parts` of every disk, and `partition_list`. -/
structure IdeState where
  extLbaBase : ℕ
  pCnt : ℕ
  lCnt : ℕ
  primParts : ℕ → ℕ → PartitionRecord
  logicParts : ℕ → ℕ → PartitionRecord
  partitionList : List PartTag
  deriving Inhabited

/-- The variables when `ide_init` begins. -/
def IdeState.boot : IdeState := ⟨0, 0, 0, fun _ _ => ⟨0, 0, 0⟩, fun _ _ => ⟨0, 0, 0⟩, []⟩

/-- Overwrite one record of a disk. -/
def setRecord (parts : ℕ → ℕ → PartitionRecord) (hd i : ℕ) (r : PartitionRecord) :
    ℕ → ℕ → PartitionRecord := Function.update parts hd (Function.update (parts hd) i r)

section Scan

variable (disk : Bytes) (hd : ℕ)

/-- Record a primary partition. -/
def storePrim (extLba : ℕ) (p : PartitionTableEntry) : Prog IdeState Unit := do
  let s ← read
  if s.pCnt < 4 then
    write { s with
      primParts := setRecord s.primParts hd s.pCnt ⟨addU32 extLba p.startLba, p.secCnt, s.pCnt + 1⟩
      partitionList := s.partitionList ++ [⟨hd, false, s.pCnt⟩]
      pCnt := s.pCnt + 1 }
  else stop .undefined

/-- Record a logical partition. -/
def storeLogic (extLba : ℕ) (p : PartitionTableEntry) : Prog IdeState Unit := do
  let s ← read
  if s.lCnt < 8 then
    write { s with
      logicParts := setRecord s.logicParts hd s.lCnt ⟨addU32 extLba p.startLba, p.secCnt, s.lCnt + 5⟩
      partitionList := s.partitionList ++ [⟨hd, true, s.lCnt⟩]
      lCnt := s.lCnt + 1 }
  else stop .undefined

/-- The loop of `partition_scan` over the entries of one table; `scan` is the recursive call. -/
def scanTable (scan : ℕ → Prog IdeState Unit) (extLba : ℕ) (bs : Bytes) : (left i : ℕ) →
    Prog IdeState Unit
  | 0, _ => return ()
  | left + 1, i => do
      let p := partitionTable bs i
      if p.IsLink then
        let s ← read
        if s.extLbaBase ≠ 0 then scan (addU32 p.startLba s.extLbaBase)
        else
          write { s with extLbaBase := p.startLba }
          scan p.startLba
        scanTable scan extLba bs left (i + 1)
      else if p.fsType ≠ 0 then
        if extLba = 0 then
          storePrim hd extLba p
          let s ← read
          assert (s.pCnt < 4)
          scanTable scan extLba bs left (i + 1)
        else
          storeLogic hd extLba p
          let s ← read
          if 8 ≤ s.lCnt then return () else scanTable scan extLba bs left (i + 1)
      else scanTable scan extLba bs left (i + 1)

/-- `partition_scan` of the disk `hd`, to a depth of `fuel` calls. -/
def partitionScan : (fuel extLba : ℕ) → Prog IdeState Unit
  | 0, _ => stop .hang
  | fuel + 1, extLba => do
      let answer ← arbitrary
      if answer ≠ 0 then stop .undefined
      else
        assert (extLba ≤ maxLba)
        scanTable hd (partitionScan fuel) extLba (sectorOf disk extLba) 4 0

end Scan

/-- The loop of `ide_init` over the channels: the slave disk of each is scanned. -/
def ideInitLoop (fuel : ℕ) : (disks : List Bytes) → (hd : ℕ) → Prog IdeState Unit
  | [], _ => return ()
  | disk :: disks, hd => do
      partitionScan disk hd fuel 0
      modify fun s => { s with pCnt := 0, lCnt := 0 }
      ideInitLoop fuel disks (hd + 1)

/-- `ide_init` with the slave disks of the channels, as far as it reads partitions. -/
def ideInit (fuel : ℕ) (disks : List Bytes) : Prog IdeState Unit := ideInitLoop fuel disks 0

/-! ## The rules -/

section Rules

variable (disk : Bytes)

/-- Entry `i` of the table in sector `lba`. -/
def entryOn (lba i : ℕ) : PartitionTableEntry := partitionTable (sectorOf disk lba) i

/-- The first link in the table of sector 0 is entry `i`. -/
structure FirstLink (i : ℕ) : Prop where
  lt : i < 4
  link : (entryOn disk 0 i).IsLink
  first : ∀ j < i, ¬ (entryOn disk 0 j).IsLink

/-- The sectors with further tables: the first link of sector 0 leads to its own start, every
other link to its start behind that of the first. -/
inductive FurtherTable : ℕ → Prop
  | first {i : ℕ} (h : FirstLink disk i) : FurtherTable (entryOn disk 0 i).startLba
  | other {i j : ℕ} (h : FirstLink disk i) (hj : j < 4) (hlink : (entryOn disk 0 j).IsLink) :
      FurtherTable (addU32 (entryOn disk 0 j).startLba (entryOn disk 0 i).startLba)
  | next {i j lba : ℕ} (h : FirstLink disk i) (htable : FurtherTable lba) (hj : j < 4)
      (hlink : (entryOn disk lba j).IsLink) :
      FurtherTable (addU32 (entryOn disk lba j).startLba (entryOn disk 0 i).startLba)

/-- A record of a primary partition: the offset in its entry. -/
def IsPrimary (r : PartitionRecord) : Prop :=
  ∃ i < 4, (entryOn disk 0 i).IsPart ∧ r.startLba = addU32 0 (entryOn disk 0 i).startLba ∧
    r.secCnt = (entryOn disk 0 i).secCnt

/-- A record of a logical partition: the sector of its table plus the offset in its entry. -/
def IsLogical (r : PartitionRecord) : Prop :=
  ∃ lba, FurtherTable disk lba ∧ ∃ i < 4, (entryOn disk lba i).IsPart ∧
    r.startLba = addU32 lba (entryOn disk lba i).startLba ∧ r.secCnt = (entryOn disk lba i).secCnt

/-- All records of a disk are right. -/
structure RightRecords (hd : ℕ) (s : IdeState) : Prop where
  prim : ∀ i < s.pCnt, IsPrimary disk (s.primParts hd i) ∧ (s.primParts hd i).nameNo = i + 1
  logic : ∀ i < s.lCnt, IsLogical disk (s.logicParts hd i) ∧ (s.logicParts hd i).nameNo = i + 5

/-- `partition_scan(hd, 0)` comes to an end, fails no assertion, stays inside the arrays and
makes right records. -/
def ScansRight (hd : ℕ) : Prop :=
  ∃ fuel, (partitionScan disk hd fuel 0).ensures .zero (fun _ s => RightRecords disk hd s) .boot

end Rules

/-- Where the first extended partition begins, and the numbers of primary and of logical
partitions met so far. -/
structure Met where
  base : ℕ
  prim : ℕ
  logic : ℕ

/-- The tables of a disk, read from entry `i` in sector `lba` on: at most three primary
partitions are met, every link leads to a sector of the disk with a table that is in order
again, and a logical partition after the eighth is met in the table of the eighth at most. -/
inductive PartitionTables (disk : Bytes) : (lba i : ℕ) → Met → Met → Prop
  | done {lba : ℕ} {m : Met} : PartitionTables disk lba 4 m m
  | empty {lba i : ℕ} {m m' : Met} (hi : i < 4) (htype : (entryOn disk lba i).fsType = 0)
      (hrest : PartitionTables disk lba (i + 1) m m') : PartitionTables disk lba i m m'
  | primary {i : ℕ} {m m' : Met} (hi : i < 4) (htype : (entryOn disk 0 i).IsPart) (hcnt : m.prim < 3)
      (hrest : PartitionTables disk 0 (i + 1) { m with prim := m.prim + 1 } m') :
      PartitionTables disk 0 i m m'
  | logical {lba i : ℕ} {m m' : Met} (hi : i < 4) (htype : (entryOn disk lba i).IsPart)
      (hlba : lba ≠ 0) (hcnt : m.logic < 7)
      (hrest : PartitionTables disk lba (i + 1) { m with logic := m.logic + 1 } m') :
      PartitionTables disk lba i m m'
  | eighth {lba i : ℕ} {m : Met} (hi : i < 4) (htype : (entryOn disk lba i).IsPart) (hlba : lba ≠ 0)
      (hcnt : m.logic = 7) : PartitionTables disk lba i m { m with logic := 8 }
  | first {lba i : ℕ} {m m₁ m' : Met} (hi : i < 4) (hlink : (entryOn disk lba i).IsLink)
      (hbase : m.base = 0) (hlast : (entryOn disk lba i).startLba ≤ maxLba)
      (htable : PartitionTables disk (entryOn disk lba i).startLba 0
        { m with base := (entryOn disk lba i).startLba } m₁)
      (hrest : PartitionTables disk lba (i + 1) m₁ m') : PartitionTables disk lba i m m'
  | next {lba i : ℕ} {m m₁ m' : Met} (hi : i < 4) (hlink : (entryOn disk lba i).IsLink)
      (hbase : m.base ≠ 0) (hlast : addU32 (entryOn disk lba i).startLba m.base ≤ maxLba)
      (htable : PartitionTables disk (addU32 (entryOn disk lba i).startLba m.base) 0 m m₁)
      (hrest : PartitionTables disk lba (i + 1) m₁ m') : PartitionTables disk lba i m m'

section Tables

variable {disk : Bytes} {hd lba i : ℕ} {m m' : Met}

/-- What has been found of the first extended partition is kept. -/
theorem PartitionTables.base_eq (h : PartitionTables disk lba i m m') (hbase : m.base ≠ 0) :
    m'.base = m.base := by
  induction h with
  | done => rfl
  | empty _ _ _ ih => exact ih hbase
  | primary _ _ _ _ ih => exact ih hbase
  | logical _ _ _ _ _ ih => exact ih hbase
  | eighth => rfl
  | first _ _ hzero => exact absurd hzero hbase
  | next _ _ _ _ _ _ ih ih' =>
      have heq := ih hbase
      rw [ih' (heq ▸ hbase), heq]

/-- A first link to sector 0 would be read again and again. -/
theorem PartitionTables.start_ne (h : PartitionTables disk lba i m m') (hlba : lba = 0)
    (hbase : m.base = 0) {j : ℕ} (hj : FirstLink disk j) (hle : i ≤ j) :
    (entryOn disk 0 j).startLba ≠ 0 := by
  intro hstart
  induction h with
  | done => exact absurd hj.lt (by omega)
  | @empty lba i _ _ _ htype _ ih =>
      subst hlba
      refine ih rfl hbase (Nat.lt_of_le_of_ne hle fun heq => ?_)
      have hlink := hj.link
      rw [← heq, PartitionTableEntry.IsLink, htype] at hlink
      cases hlink
  | @primary i _ _ _ htype _ _ ih =>
      exact ih rfl hbase (Nat.lt_of_le_of_ne hle fun heq => htype.1 (heq ▸ hj.link))
  | logical _ _ hne => exact hne hlba
  | eighth _ _ hne => exact hne hlba
  | @first lba i _ _ _ _ hlink _ _ _ _ ih =>
      subst hlba
      obtain rfl : i = j := by
        by_contra hne
        exact hj.first i (Nat.lt_of_le_of_ne hle hne) hlink
      exact ih hstart hstart (Nat.zero_le _)
  | next _ _ hne => exact hne hbase

/-- The scan has come to entry `i` of a table in sector `lba` by the rules. -/
structure TableAt (disk : Bytes) (lba i : ℕ) (m : Met) : Prop where
  table : lba = 0 ∨ FurtherTable disk lba
  unset : m.base = 0 → lba = 0 ∧ ∀ j < i, ¬ (entryOn disk 0 j).IsLink
  set : m.base ≠ 0 → ∃ j, FirstLink disk j ∧ m.base = (entryOn disk 0 j).startLba

theorem TableAt.next {m₁ : Met} (h : TableAt disk lba i m) (hlink : ¬ (entryOn disk lba i).IsLink)
    (hbase : m₁.base = m.base) : TableAt disk lba (i + 1) m₁ where
  table := h.table
  unset hzero := by
    obtain ⟨hlba, hnone⟩ := h.unset (hbase ▸ hzero)
    refine ⟨hlba, fun j hj => ?_⟩
    rcases Nat.lt_succ_iff_lt_or_eq.mp hj with hj | rfl
    · exact hnone j hj
    · rwa [hlba] at hlink
  set hne := by
    rw [hbase] at hne ⊢
    exact h.set hne

/-- The first link is met. -/
theorem TableAt.firstLink (h : TableAt disk lba i m) (hi : i < 4) (hlink : (entryOn disk lba i).IsLink)
    (hbase : m.base = 0) : lba = 0 ∧ FirstLink disk i := by
  obtain ⟨hlba, hnone⟩ := h.unset hbase
  exact ⟨hlba, hi, hlba ▸ hlink, hnone⟩

/-- The state of the scan agrees with what was met. -/
structure Agrees (disk : Bytes) (hd : ℕ) (m : Met) (s : IdeState) : Prop where
  base : s.extLbaBase = m.base
  prim : s.pCnt = m.prim
  logic : s.lCnt = m.logic
  right : RightRecords disk hd s

theorem setRecord_self (parts : ℕ → ℕ → PartitionRecord) (hd i : ℕ) (r : PartitionRecord) :
    setRecord parts hd i r hd i = r := by
  rw [setRecord, Function.update_self, Function.update_self]

theorem setRecord_other (parts : ℕ → ℕ → PartitionRecord) (hd : ℕ) {i j : ℕ} (hij : j ≠ i)
    (r : PartitionRecord) : setRecord parts hd i r hd j = parts hd j := by
  rw [setRecord, Function.update_self, Function.update_of_ne hij]

/-- A primary partition is recorded. -/
theorem ensures_storePrim {e : Env} {s : IdeState} (hs : Agrees disk hd m s) (hcnt : m.prim < 4)
    (hi : i < 4) (htype : (entryOn disk 0 i).IsPart) {Q : Unit → IdeState → Prop}
    (hQ : ∀ s', Agrees disk hd { m with prim := m.prim + 1 } s' → Q () s') :
    (storePrim hd 0 (entryOn disk 0 i)).ensures e Q s := by
  have hlow : s.pCnt < 4 := hs.prim ▸ hcnt
  rw [storePrim, ensures_bind, ensures_read, if_pos hlow, ensures_write]
  refine hQ _ ⟨hs.base, congrArg (· + 1) hs.prim, hs.logic, fun j hj => ?_, hs.right.logic⟩
  rcases Nat.lt_succ_iff_lt_or_eq.mp hj with hj | rfl
  · dsimp only
    rw [setRecord_other _ _ (Nat.ne_of_lt hj)]
    exact hs.right.prim j hj
  · dsimp only
    rw [setRecord_self]
    exact ⟨⟨i, hi, htype, rfl, rfl⟩, rfl⟩

/-- A logical partition is recorded. -/
theorem ensures_storeLogic {e : Env} {s : IdeState} (hs : Agrees disk hd m s) (hcnt : m.logic < 8)
    (hi : i < 4) (htable : FurtherTable disk lba) (htype : (entryOn disk lba i).IsPart)
    {Q : Unit → IdeState → Prop}
    (hQ : ∀ s', Agrees disk hd { m with logic := m.logic + 1 } s' → Q () s') :
    (storeLogic hd lba (entryOn disk lba i)).ensures e Q s := by
  have hlow : s.lCnt < 8 := hs.logic ▸ hcnt
  rw [storeLogic, ensures_bind, ensures_read, if_pos hlow, ensures_write]
  refine hQ _ ⟨hs.base, hs.prim, congrArg (· + 1) hs.logic, hs.right.prim, fun j hj => ?_⟩
  rcases Nat.lt_succ_iff_lt_or_eq.mp hj with hj | rfl
  · dsimp only
    rw [setRecord_other _ _ (Nat.ne_of_lt hj)]
    exact hs.right.logic j hj
  · dsimp only
    rw [setRecord_self]
    exact ⟨⟨lba, htable, i, hi, htype, rfl, rfl⟩, rfl⟩

/-- The scan of the table in sector `lba` from entry `i` on. -/
def scanFrom (disk : Bytes) (hd fuel lba i : ℕ) : Prog IdeState Unit :=
  scanTable hd (partitionScan disk hd fuel) lba (sectorOf disk lba) (4 - i) i

theorem scanFrom_eq {fuel : ℕ} (hi : i < 4) : scanFrom disk hd fuel lba i =
    scanTable hd (partitionScan disk hd fuel) lba (sectorOf disk lba) (4 - (i + 1) + 1) i := by
  rw [scanFrom, show 4 - i = 4 - (i + 1) + 1 by omega]

/-! ### One entry -/

section Entry

variable {e : Env} {fuel : ℕ} {s : IdeState} {Q : Unit → IdeState → Prop}

theorem ensures_scanFrom_empty (hi : i < 4) (htype : (entryOn disk lba i).fsType = 0) :
    (scanFrom disk hd fuel lba i).ensures e Q s ↔
      (scanFrom disk hd fuel lba (i + 1)).ensures e Q s := by
  have hentry : (partitionTable (sectorOf disk lba) i).fsType = 0 := htype
  have hlink : ¬ (partitionTable (sectorOf disk lba) i).IsLink := fun hlink => by
    rw [PartitionTableEntry.IsLink, hentry] at hlink
    cases hlink
  rw [scanFrom_eq hi, scanTable]
  dsimp only
  rw [if_neg hlink, if_neg (not_not.mpr hentry)]
  rfl

theorem ensures_scanFrom_primary (hi : i < 4) (htype : (entryOn disk 0 i).IsPart) :
    (scanFrom disk hd fuel 0 i).ensures e Q s ↔
      (storePrim hd 0 (entryOn disk 0 i)).ensures e (fun _ s' =>
        (assert (s'.pCnt < 4)).ensures e (fun _ s' =>
          (scanFrom disk hd fuel 0 (i + 1)).ensures e Q s') s') s := by
  have hlink : ¬ (partitionTable (sectorOf disk 0) i).IsLink := htype.1
  have hpart : (partitionTable (sectorOf disk 0) i).fsType ≠ 0 := htype.2
  rw [scanFrom_eq hi, scanTable]
  dsimp only
  rw [if_neg hlink, if_pos hpart, if_pos rfl]
  simp only [ensures_bind, ensures_read]
  rfl

theorem ensures_scanFrom_logical (hi : i < 4) (htype : (entryOn disk lba i).IsPart) (hlba : lba ≠ 0) :
    (scanFrom disk hd fuel lba i).ensures e Q s ↔
      (storeLogic hd lba (entryOn disk lba i)).ensures e (fun _ s' =>
        (if 8 ≤ s'.lCnt then pure () else scanFrom disk hd fuel lba (i + 1)).ensures e Q s') s := by
  have hlink : ¬ (partitionTable (sectorOf disk lba) i).IsLink := htype.1
  have hpart : (partitionTable (sectorOf disk lba) i).fsType ≠ 0 := htype.2
  rw [scanFrom_eq hi, scanTable]
  dsimp only
  rw [if_neg hlink, if_pos hpart, if_neg hlba]
  simp only [ensures_bind, ensures_read]
  rfl

/-- The sector that a link leads to. -/
def linkTarget (disk : Bytes) (base lba i : ℕ) : ℕ :=
  if base = 0 then (entryOn disk lba i).startLba else addU32 (entryOn disk lba i).startLba base

theorem ensures_scanFrom_link (hi : i < 4) (hlink : (entryOn disk lba i).IsLink) :
    (scanFrom disk hd fuel lba i).ensures e Q s ↔
      (partitionScan disk hd fuel (linkTarget disk s.extLbaBase lba i)).ensures e
        (fun _ s' => (scanFrom disk hd fuel lba (i + 1)).ensures e Q s')
        (if s.extLbaBase = 0 then { s with extLbaBase := (entryOn disk lba i).startLba } else s) := by
  have hentry : (partitionTable (sectorOf disk lba) i).IsLink := hlink
  rw [scanFrom_eq hi, scanTable, linkTarget]
  dsimp only
  rw [if_pos hentry, ensures_bind, ensures_read]
  by_cases hbase : s.extLbaBase = 0
  · rw [if_neg (not_not.mpr hbase), if_pos hbase, if_pos hbase]
    simp only [ensures_bind, ensures_write]
    rfl
  · rw [if_pos hbase, if_neg hbase, if_neg hbase, ensures_bind]
    rfl

theorem ensures_partitionScan {fuel : ℕ} {s : IdeState} {Q : Unit → IdeState → Prop} :
    (partitionScan disk hd (fuel + 1) lba).ensures .zero Q s ↔
      lba ≤ maxLba ∧ (scanFrom disk hd fuel lba 0).ensures .zero Q s := by
  rw [partitionScan, ensures_bind, ensures_arbitrary]
  constructor
  · intro h
    have h := h 0 rfl
    by_cases hlast : lba ≤ maxLba
    · rw [if_neg (not_not.mpr rfl), ensures_bind, ensures_assert (decide_eq_true hlast)] at h
      exact ⟨hlast, h⟩
    · rw [if_neg (not_not.mpr rfl), ensures_bind, decide_eq_false hlast] at h
      exact h.elim
  · rintro ⟨hlast, h⟩ n rfl
    rw [if_neg (not_not.mpr rfl), ensures_bind, ensures_assert (decide_eq_true hlast)]
    exact h

end Entry

/-! ### Tables in order -/

/-- Tables in order are read to their end, and all records are right. -/
theorem PartitionTables.scans (h : PartitionTables disk lba i m m') (hat : TableAt disk lba i m) :
    ∃ least, ∀ fuel ≥ least, ∀ s, Agrees disk hd m s →
      (scanFrom disk hd fuel lba i).ensures .zero (fun _ s' => Agrees disk hd m' s') s := by
  induction h with
  | done => exact ⟨0, fun fuel _ s hs => hs⟩
  | @empty lba i m m' hi htype _ ih =>
      have hlink : ¬ (entryOn disk lba i).IsLink := fun hlink => by
        rw [PartitionTableEntry.IsLink, htype] at hlink
        cases hlink
      obtain ⟨least, ih⟩ := ih (hat.next hlink rfl)
      exact ⟨least, fun fuel hfuel s hs => (ensures_scanFrom_empty hi htype).mpr (ih fuel hfuel s hs)⟩
  | @primary i m m' hi htype hcnt _ ih =>
      obtain ⟨least, ih⟩ := ih (hat.next htype.1 rfl)
      refine ⟨least, fun fuel hfuel s hs => (ensures_scanFrom_primary hi htype).mpr ?_⟩
      refine ensures_storePrim hs (by omega) hi htype fun s' hs' => ?_
      have hlow : s'.pCnt < 4 := by
        rw [hs'.prim]
        exact Nat.succ_lt_succ hcnt
      exact (ensures_assert (decide_eq_true hlow)).mpr (ih fuel hfuel s' hs')
  | @logical lba i m m' hi htype hlba hcnt _ ih =>
      obtain ⟨least, ih⟩ := ih (hat.next htype.1 rfl)
      refine ⟨least, fun fuel hfuel s hs => (ensures_scanFrom_logical hi htype hlba).mpr ?_⟩
      refine ensures_storeLogic hs (by omega) hi (hat.table.resolve_left hlba) htype fun s' hs' => ?_
      have hlow : ¬ 8 ≤ s'.lCnt := by
        rw [hs'.logic]
        exact Nat.not_le.mpr (Nat.succ_lt_succ hcnt)
      rw [if_neg hlow]
      exact ih fuel hfuel s' hs'
  | @eighth lba i m hi htype hlba hcnt =>
      refine ⟨0, fun fuel _ s hs => (ensures_scanFrom_logical hi htype hlba).mpr ?_⟩
      refine ensures_storeLogic hs (by omega) hi (hat.table.resolve_left hlba) htype fun s' hs' => ?_
      rw [hcnt] at hs'
      rw [if_pos hs'.logic.ge]
      exact hs'
  | @first lba i m m₁ m' hi hlink hbase hlast htable hrest ih ih' =>
      obtain ⟨rfl, hfirst⟩ := hat.firstLink hi hlink hbase
      have hne : (entryOn disk 0 i).startLba ≠ 0 :=
        (PartitionTables.first hi hlink hbase hlast htable hrest).start_ne rfl hbase hfirst le_rfl
      have hbase₁ : m₁.base = (entryOn disk 0 i).startLba := htable.base_eq hne
      obtain ⟨least, ih⟩ := ih ⟨Or.inr (.first hfirst), fun hzero => absurd hzero hne, fun _ => ⟨i, hfirst, rfl⟩⟩
      obtain ⟨least', ih'⟩ := ih' ⟨Or.inl rfl, fun hzero => absurd (hbase₁.symm.trans hzero) hne,
        fun _ => ⟨i, hfirst, hbase₁⟩⟩
      refine ⟨least + 1 + least', fun fuel hfuel s hs => (ensures_scanFrom_link hi hlink).mpr ?_⟩
      obtain ⟨fuel', rfl⟩ : ∃ fuel', fuel = fuel' + 1 := ⟨fuel - 1, by omega⟩
      rw [linkTarget, if_pos (hs.base.trans hbase), if_pos (hs.base.trans hbase)]
      refine ensures_partitionScan.mpr ⟨hlast, ensures_mono (ih fuel' (by omega) _ ?_) fun _ s' hs' => ?_⟩
      · exact ⟨rfl, hs.prim, hs.logic, hs.right.prim, hs.right.logic⟩
      · exact ih' (fuel' + 1) (by omega) s' hs'
  | @next lba i m m₁ m' hi hlink hbase hlast htable _ ih ih' =>
      have hbase₁ : m₁.base = m.base := htable.base_eq hbase
      obtain ⟨j, hfirst, hstart⟩ := hat.set hbase
      have hfurther : FurtherTable disk (addU32 (entryOn disk lba i).startLba m.base) := by
        rw [hstart]
        rcases hat.table with rfl | htable
        · exact .other hfirst hi hlink
        · exact .next hfirst htable hi hlink
      obtain ⟨least, ih⟩ := ih ⟨Or.inr hfurther, fun hzero => absurd hzero hbase, fun _ => ⟨j, hfirst, hstart⟩⟩
      obtain ⟨least', ih'⟩ := ih' ⟨hat.table, fun hzero => absurd (hbase₁.symm.trans hzero) hbase,
        fun _ => ⟨j, hfirst, hbase₁.trans hstart⟩⟩
      refine ⟨least + 1 + least', fun fuel hfuel s hs => (ensures_scanFrom_link hi hlink).mpr ?_⟩
      obtain ⟨fuel', rfl⟩ : ∃ fuel', fuel = fuel' + 1 := ⟨fuel - 1, by omega⟩
      rw [linkTarget, hs.base, if_neg hbase, if_neg hbase]
      refine ensures_partitionScan.mpr ⟨hlast, ensures_mono (ih fuel' (by omega) s hs) fun _ s' hs' => ?_⟩
      exact ih' (fuel' + 1) (by omega) s' hs'

/-- What was met is what the state counts. -/
def IdeState.met (s : IdeState) : Met := ⟨s.extLbaBase, s.pCnt, s.lCnt⟩

/-- The records of the other disks are kept. -/
def KeepsOthers (hd : ℕ) (s s' : IdeState) : Prop :=
  ∀ n ≠ hd, s'.primParts n = s.primParts n ∧ s'.logicParts n = s.logicParts n

theorem KeepsOthers.refl (hd : ℕ) (s : IdeState) : KeepsOthers hd s s := fun _ _ => ⟨rfl, rfl⟩

theorem KeepsOthers.trans {s t u : IdeState} (h : KeepsOthers hd s t) (h' : KeepsOthers hd t u) :
    KeepsOthers hd s u :=
  fun n hn => ⟨(h' n hn).1.trans (h n hn).1, (h' n hn).2.trans (h n hn).2⟩

theorem storePrim_inv {p : PartitionTableEntry} {s : IdeState} {Q : Unit → IdeState → Prop}
    (h : (storePrim hd lba p).ensures .zero Q s) :
    s.pCnt < 4 ∧ ∃ s', s'.met = { s.met with prim := s.pCnt + 1 } ∧ KeepsOthers hd s s' ∧ Q () s' := by
  rw [storePrim, ensures_bind, ensures_read] at h
  by_cases hlow : s.pCnt < 4
  · rw [if_pos hlow, ensures_write] at h
    refine ⟨hlow, _, ?_, ?_, h⟩
    · rfl
    · exact fun n hn => ⟨Function.update_of_ne hn _ _, rfl⟩
  · rw [if_neg hlow] at h
    exact h.elim

theorem storeLogic_inv {p : PartitionTableEntry} {s : IdeState} {Q : Unit → IdeState → Prop}
    (h : (storeLogic hd lba p).ensures .zero Q s) :
    s.lCnt < 8 ∧ ∃ s', s'.met = { s.met with logic := s.lCnt + 1 } ∧ KeepsOthers hd s s' ∧ Q () s' := by
  rw [storeLogic, ensures_bind, ensures_read] at h
  by_cases hlow : s.lCnt < 8
  · rw [if_pos hlow, ensures_write] at h
    refine ⟨hlow, _, ?_, ?_, h⟩
    · rfl
    · exact fun n hn => ⟨rfl, Function.update_of_ne hn _ _⟩
  · rw [if_neg hlow] at h
    exact h.elim

/-- The scan from entry `i` on comes to an end: it reads tables in order and keeps the records
of the other disks. -/
def ReadToEnd (disk : Bytes) (hd lba i : ℕ) (s s' : IdeState) : Prop :=
  PartitionTables disk lba i s.met s'.met ∧ KeepsOthers hd s s'

/-- What the scan of a table reads to the end is in order, if this holds of the further
tables. -/
theorem readToEnd_of_scanFrom {fuel : ℕ}
    (hscan : ∀ {lba : ℕ} {s : IdeState} {Q : Unit → IdeState → Prop},
      (partitionScan disk hd fuel lba).ensures .zero Q s →
        lba ≤ maxLba ∧ ∃ s', ReadToEnd disk hd lba 0 s s' ∧ Q () s')
    {s : IdeState} {Q : Unit → IdeState → Prop} (left : ℕ) (hleft : left + i = 4)
    (h : (scanFrom disk hd fuel lba i).ensures .zero Q s) :
    ∃ s', ReadToEnd disk hd lba i s s' ∧ Q () s' := by
  induction left generalizing i s with
  | zero =>
      obtain rfl : i = 4 := by omega
      exact ⟨s, ⟨.done, .refl hd s⟩, h⟩
  | succ left ih =>
      have hi : i < 4 := by omega
      have hleft : left + (i + 1) = 4 := by omega
      by_cases hlink : (entryOn disk lba i).IsLink
      · rw [ensures_scanFrom_link hi hlink] at h
        obtain ⟨hlast, s₁, ⟨htable, hkept⟩, h⟩ := hscan h
        obtain ⟨s', ⟨hrest, hkept'⟩, hQ⟩ := ih hleft h
        by_cases hbase : s.extLbaBase = 0
        · rw [linkTarget, if_pos hbase] at hlast htable
          rw [if_pos hbase] at htable hkept
          exact ⟨s', ⟨.first hi hlink hbase hlast htable hrest, hkept.trans hkept'⟩, hQ⟩
        · rw [linkTarget, if_neg hbase] at hlast htable
          rw [if_neg hbase] at htable hkept
          exact ⟨s', ⟨.next hi hlink hbase hlast htable hrest, hkept.trans hkept'⟩, hQ⟩
      · by_cases hempty : (entryOn disk lba i).fsType = 0
        · rw [ensures_scanFrom_empty hi hempty] at h
          obtain ⟨s', ⟨hrest, hkept⟩, hQ⟩ := ih hleft h
          exact ⟨s', ⟨.empty hi hempty hrest, hkept⟩, hQ⟩
        · have htype : (entryOn disk lba i).IsPart := ⟨hlink, hempty⟩
          by_cases hlba : lba = 0
          · subst hlba
            rw [ensures_scanFrom_primary hi htype] at h
            obtain ⟨_, s₁, hmet, hkept, h⟩ := storePrim_inv h
            have hcnt : s₁.pCnt = s.pCnt + 1 := congrArg Met.prim hmet
            by_cases hlow : s₁.pCnt < 4
            · obtain ⟨s', ⟨hrest, hkept'⟩, hQ⟩ :=
                ih hleft ((ensures_assert (decide_eq_true hlow)).mp h)
              rw [hmet] at hrest
              have hroom : s.met.prim < 3 := show s.pCnt < 3 by omega
              exact ⟨s', ⟨.primary hi htype hroom hrest, hkept.trans hkept'⟩, hQ⟩
            · rw [decide_eq_false hlow] at h
              exact h.elim
          · rw [ensures_scanFrom_logical hi htype hlba] at h
            obtain ⟨hroom, s₁, hmet, hkept, h⟩ := storeLogic_inv h
            have hcnt : s₁.lCnt = s.lCnt + 1 := congrArg Met.logic hmet
            by_cases hfull : 8 ≤ s₁.lCnt
            · rw [if_pos hfull] at h
              have hseven : s.lCnt = 7 := by omega
              rw [hseven] at hmet
              refine ⟨s₁, ⟨?_, hkept⟩, h⟩
              rw [hmet]
              exact .eighth hi htype hlba hseven
            · rw [if_neg hfull] at h
              obtain ⟨s', ⟨hrest, hkept'⟩, hQ⟩ := ih hleft h
              rw [hmet] at hrest
              have hroom : s.met.logic < 7 := show s.lCnt < 7 by omega
              exact ⟨s', ⟨.logical hi htype hlba hroom hrest, hkept.trans hkept'⟩, hQ⟩

/-- What a scan reads to the end is in order. -/
theorem readToEnd_of_partitionScan {fuel : ℕ} {s : IdeState} {Q : Unit → IdeState → Prop}
    (h : (partitionScan disk hd fuel lba).ensures .zero Q s) :
    lba ≤ maxLba ∧ ∃ s', ReadToEnd disk hd lba 0 s s' ∧ Q () s' := by
  induction fuel generalizing lba s Q with
  | zero => exact h.elim
  | succ fuel ih =>
      obtain ⟨hlast, h⟩ := ensures_partitionScan.mp h
      exact ⟨hlast, readToEnd_of_scanFrom ih 4 rfl h⟩

end Tables

/-! ## Which disks are scanned right -/

/-- A disk that is scanned right has its tables in order. -/
theorem tables_of_scansRight {disk : Bytes} {hd : ℕ} (h : ScansRight disk hd) :
    ∃ m, PartitionTables disk 0 0 ⟨0, 0, 0⟩ m := by
  obtain ⟨fuel, h⟩ := h
  obtain ⟨_, s', ⟨htables, _⟩, _⟩ := readToEnd_of_partitionScan h
  exact ⟨_, htables⟩

/-- A disk is scanned right exactly when its tables are in order. -/
theorem scansRight_iff (disk : Bytes) (hd : ℕ) :
    ScansRight disk hd ↔ ∃ m, PartitionTables disk 0 0 ⟨0, 0, 0⟩ m := by
  refine ⟨tables_of_scansRight, fun ⟨m, htables⟩ => ?_⟩
  have hat : TableAt disk 0 0 ⟨0, 0, 0⟩ :=
    ⟨Or.inl rfl, fun _ => ⟨rfl, fun j hj => absurd hj (Nat.not_lt_zero j)⟩, fun hne => absurd rfl hne⟩
  obtain ⟨least, hscans⟩ := htables.scans hat
  refine ⟨least + 1, ensures_partitionScan.mpr ⟨Nat.zero_le _, ?_⟩⟩
  have hboot : Agrees disk hd ⟨0, 0, 0⟩ IdeState.boot :=
    ⟨rfl, rfl, rfl, fun i hi => absurd hi (Nat.not_lt_zero i), fun i hi => absurd hi (Nat.not_lt_zero i)⟩
  exact ensures_mono (hscans least le_rfl _ hboot) fun _ s' hs' => hs'.right

/-- When all entries of sector 0 are primary partitions, each of those still to be read counts
against the bound. -/
theorem PartitionTables.prim_le {disk : Bytes} {lba i : ℕ} {m m' : Met}
    (h : PartitionTables disk lba i m m') (hlba : lba = 0) (hi : i < 4)
    (htype : ∀ j < 4, (entryOn disk 0 j).IsPart) : m.prim + (4 - i) ≤ 3 := by
  induction h with
  | done => exact absurd hi (lt_irrefl 4)
  | @empty lba i _ _ _ hempty => exact absurd (hlba ▸ hempty) (htype i hi).2
  | @primary i m _ _ _ hcnt _ ih =>
      by_cases hlast : i + 1 < 4
      · have hle : m.prim + 1 + (4 - (i + 1)) ≤ 3 := ih hlba hlast
        omega
      · omega
  | logical _ _ hne => exact absurd hlba hne
  | eighth _ _ hne => exact absurd hlba hne
  | @first lba i _ _ _ _ hlink => exact absurd (hlba ▸ hlink) (htype i hi).1
  | @next lba i _ _ _ _ hlink => exact absurd (hlba ▸ hlink) (htype i hi).1

/-- A disk with four primary partitions. -/
def fourPrimaries : Bytes := fun a =>
  if a = 450 ∨ a = 466 ∨ a = 482 ∨ a = 498 then 131 else 0

/-- The fourth primary partition trips the assertion `p_cnt < 4`. -/
theorem not_scansRight_fourPrimaries : ¬ ScansRight fourPrimaries 1 := by
  intro h
  obtain ⟨m, htables⟩ := tables_of_scansRight h
  have htype : ∀ j < 4, (entryOn fourPrimaries 0 j).IsPart := by
    unfold PartitionTableEntry.IsPart
    decide
  exact absurd (htables.prim_le rfl (by omega) htype) (by decide)

end BochsOs
