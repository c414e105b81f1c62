import BochsOs.Fs.AppendOnly

/-!
# The limits on the size of a file

`file_write` refuses a count that makes the file larger than its 140 pointers allow, and
`file_read` reads no further than the end of the file.  Both compute in 32 bits, and the assertions
that follow do not agree with these checks at the limit: `file_write` asserts that the block taken
ahead has a pointer, too, and `file_read` that its last sector is below 139.  A write also asserts
that the pointers it needs are empty, which they are not where an earlier call gave up
(`sizeLimits_iff`).
-/

namespace BochsOs

open ByteMemory Suspend Suspend.Prog

/-! ## What the limits are to be -/

/-- A count that is too large is refused and changes nothing, any other one fails no assertion, and
`all_blocks` is not indexed beyond its end. -/
structure WriteLimits (t : Transfer) (g a : ℕ) (buf : Bytes) (count : ℕ) (k : Kernel) : Prop where
  refused : maxFileSize < (k.inodes a).iSize + count →
    (fileWrite t g buf count).succeeds (fun ret k' => ret = -1 ∧ k' = k) k
  accepted : (k.inodes a).iSize + count ≤ maxFileSize → (fileWrite t g buf count).avoids .halt k
  inside : (fileWrite t g buf count).avoids .undefined k

/-- No assertion fails, `all_blocks` is not indexed beyond its end, and there are at most as many bytes
as the file still has. -/
structure ReadLimits (t : Transfer) (g a : ℕ) (buf : Bytes) (count : ℕ) (k : Kernel) : Prop where
  accepted : (fileRead t g buf count).avoids .halt k
  inside : (fileRead t g buf count).outcome k ≠ .error .undefined
  bounded : (fileRead t g buf count).wp
    (fun r _ => r.1 ≤ (k.inodes a).iSize - (k.fileTable g).fdPos) k

/-- The size after the write does not leave 32 bits, it is not just the limit (unless there is no block
for an empty file), and no pointer is in the way. -/
structure Kernel.WriteFits (k : Kernel) (a count : ℕ) : Prop where
  noWrap : (k.inodes a).iSize + count < 2 ^ 32
  notLimit : (k.inodes a).iSize + count = maxFileSize → ¬ k.part.HasFree (k.startBlocks a)
  clear : (k.inodes a).iSize + count < maxFileSize → k.Clear a count

/-- The end of the read does not leave 32 bits, and it is not in the last sector. -/
structure Kernel.ReadFits (k : Kernel) (g a count : ℕ) : Prop where
  noWrap : (k.fileTable g).fdPos + count < 2 ^ 32
  served : (k.fileOf a).Served (k.fileTable g).fdPos count

/-! ## Pointers that are left over -/

section Leftover

variable {t : Transfer} {a : ℕ} {k : Kernel}

/-- There is a free block to be taken. -/
theorem outcome_blockBitmapAlloc (hfree : k.part.HasFree 1) : ∃ lba, k.part.Marked false lba ∧
    blockBitmapAlloc.outcome k = .ok (some lba, { k with part := k.part.mark lba true }) := by
  have halloc : blockBitmapAlloc.ensures .zero (fun r k' => ∃ lba, k.part.Marked false lba ∧
      r = some lba ∧ k' = { k with part := k.part.mark lba true }) k :=
    ensures_blockBitmapAlloc (fun hnone => by
      obtain ⟨lba, hlba⟩ := hfree.exists Nat.one_pos
      exact absurd hlba (hnone lba)) fun lba hlba _ => ⟨lba, hlba, rfl, rfl⟩
  obtain ⟨_, _, hout, lba, hlba, rfl, rfl⟩ := outcome_of_ensures_post halloc
  exact ⟨lba, hlba, hout⟩

/-- The loop that takes blocks stops at a pointer that is not empty. -/
theorem outcome_allocBlocks_leftover {left blkI i : ℕ} {allBlocks : ℕ → ℕ}
    (h : FileBlocks k.part (k.inodes a).iSectors) (hlow : blkI ≤ i) (hhigh : i < blkI + left)
    (hi : i < directPtrs) (hne : (k.inodes a).iSectors i ≠ 0) (hfree : k.part.HasFree (i - blkI + 1)) :
    (allocBlocks t a left blkI allBlocks).outcome k = .error .halt := by
  induction left generalizing blkI allBlocks k with
  | zero => omega
  | succ left ih =>
      obtain ⟨lba, hlba, halloc⟩ := outcome_blockBitmapAlloc (hfree.mono (Nat.le_add_left 1 _))
      rw [allocBlocks, outcome_bind_ok halloc]
      dsimp only
      rw [outcome_read_bind, if_pos (hlow.trans_lt hi)]
      by_cases hzero : (k.inodes a).iSectors blkI = 0
      · have hblk : blkI < i := lt_of_le_of_ne hlow fun heq => hne (heq ▸ hzero)
        have hsync : (bitmapSync t (subU32 lba k.part.sb.dataStartLba) .blockBitmap).ensures .zero
            (fun _ k' => ∃ disk, (∀ l, k.part.sb.dataStartLba ≤ l → sectorOf disk l = sectorOf k.disk l) ∧
              k' = k.takeBlock a blkI lba disk)
            (({ k with part := k.part.mark lba true } : Kernel).setInode a
              ((k.inodes a).setSector blkI lba)) := by
          refine ensures_bitmapSync (h.layout.mark lba true) (hlba.self true) fun disk hdisk =>
            ⟨disk, hdisk, ?_⟩
          unfold Kernel.takeBlock
          rw [if_pos (hlow.trans_lt hi)]
          rfl
        obtain ⟨_, _, hout, disk, hdisk, rfl⟩ := outcome_of_ensures_post hsync
        obtain ⟨hblocks, -⟩ := h.take (i := blkI) hlba (fun _ => hzero) hdisk
        have hsame : ((k.takeBlock a blkI lba disk).inodes a).iSectors i = (k.inodes a).iSectors i :=
          Kernel.takeBlock_iSectors_of_ne fun heq => absurd heq (by omega)
        rw [outcome_bind_ok (outcome_assert (decide_eq_true hzero)), modifyInode,
          outcome_bind_ok outcome_modify]
        refine (outcome_bind_ok hout).trans ?_
        refine ih hblocks hblk (by omega) (by rwa [hsame]) (Partition.hasFree_mark hlba |>.mpr ?_)
        rwa [show i - (blkI + 1) + 1 + 1 = i - blkI + 1 by omega]
      · exact outcome_bind_error (outcome_assert_false (decide_eq_false hzero))

/-- So does the block map. -/
theorem outcome_buildBlocks_leftover {has will : ℕ} (h : k.HasBlocks a has) (hpos : 0 < has)
    (hle : has ≤ will) (hno : ¬ NoLeftover k.part (k.inodes a).iSectors has will) :
    (buildBlocks t a has will).outcome k = .error .halt := by
  -- either the indirect table is there already, or one of the direct pointers
  have hcases : (has ≤ directPtrs ∧ directPtrs < will ∧ (k.inodes a).iSectors directPtrs ≠ 0 ∧
      k.part.HasFree 1) ∨ ∃ i, has ≤ i ∧ i < will ∧ i < directPtrs ∧ (k.inodes a).iSectors i ≠ 0 ∧
      k.part.HasFree (i - has + 1 + if directPtrs < will then 1 else 0) := by
    by_contra hnone
    rw [not_or] at hnone
    refine hno ⟨fun i hlow hhigh hi hne hfree => hnone.2 ⟨i, hlow, hhigh, hi, hne, hfree⟩,
      fun hlow hhigh hne hfree => hnone.1 ⟨hlow, hhigh, hne, hfree⟩⟩
  have hlt : has < will := by
    rcases hcases with ⟨hlow, hhigh, -⟩ | ⟨i, hlow, hhigh, -⟩
    · omega
    · omega
  have hadd : subU32 will has ≠ 0 := by
    rw [subU32_of_le hle]
    omega
  rw [buildBlocks, outcome_read_bind]
  dsimp only
  rw [if_neg hadd]
  by_cases hsmall : will ≤ directPtrs
  · obtain ⟨i, hlow, hhigh, hi, hne, hfree⟩ := hcases.resolve_left fun htable => absurd htable.2.1 (by omega)
    have hfirst := h.covers.direct (has - 1) (by omega) (by omega)
    rw [if_neg (by omega), Nat.add_zero] at hfree
    rw [if_pos hsmall, outcome_bind_ok (outcome_assert (decide_eq_true hfirst))]
    exact outcome_allocBlocks_leftover h.blocks hlow (by omega) hi hne hfree
  · have hold : has ≤ directPtrs := by
      rcases hcases with ⟨hlow, -⟩ | ⟨i, hlow, -, hi, -⟩
      · exact hlow
      · omega
    have hone : k.part.HasFree 1 := by
      rcases hcases with ⟨-, -, -, hfree⟩ | ⟨i, -, -, -, -, hfree⟩
      · exact hfree
      · exact hfree.mono (by omega)
    obtain ⟨table, hfree, halloc⟩ := outcome_blockBitmapAlloc hone
    rw [if_neg hsmall, if_pos hold, outcome_bind_ok halloc]
    dsimp only
    by_cases hzero : (k.inodes a).iSectors directPtrs = 0
    · obtain ⟨i, hlow, hhigh, hi, hne, hmore⟩ := hcases.resolve_left fun htable => htable.2.2.1 hzero
      set k₁ : Kernel := ({ k with part := k.part.mark table true } : Kernel).setInode a
        ((k.inodes a).setSector directPtrs table) with hk₁
      obtain ⟨hblocks, -, -, hsame⟩ := h.blocks.newTable hfree hzero hk₁
      rw [if_pos (by omega)] at hmore
      rw [outcome_bind_ok (outcome_assert (decide_eq_true hzero)), modifyInode,
        outcome_bind_ok outcome_modify]
      refine outcome_bind_error (outcome_allocBlocks_leftover hblocks hlow (by omega) hi ?_ ?_)
      · rwa [hsame i hi]
      · exact (Partition.hasFree_mark hfree).mpr hmore
    · exact outcome_bind_error (outcome_assert_false (decide_eq_false hzero))

end Leftover

/-! ## Writing -/

section Write

variable {t : Transfer} {g a count : ℕ} {buf : Bytes} {k : Kernel}

/-- The first block is there, or there is one to be taken. -/
theorem outcome_allocFirst (h : k.InOrder a) (hfree : k.part.HasFree (k.startBlocks a)) :
    ∃ k₁, (allocFirst t a).outcome k = .ok (true, k₁) ∧ Started a k true k₁ := by
  obtain ⟨ok, k₁, hout, hstart⟩ := outcome_of_ensures_post (ensures_allocFirst (t := t) (e := .zero) h)
  cases ok with
  | false => exact absurd hfree (hstart.none rfl).2
  | true => exact ⟨k₁, hout, hstart⟩

variable (hinode : (k.fileTable g).fdInode = some a) (h : k.InOrder a)

include hinode h

omit h in
/-- A fault after the first block is one of the call. -/
theorem outcome_fileWrite_error {e : Fault} {k₁ : Kernel}
    (hlimit : ¬ maxFileSize < ((k.inodes a).iSize + count) % 2 ^ 32)
    (hfirst : (allocFirst t a).outcome k = .ok (true, k₁))
    (herr : (writeBlocks t g a (k.inodes a).iSize buf count).outcome k₁ = .error e) :
    (fileWrite t g buf count).outcome k = .error e := by
  obtain ⟨f, hf, hfk⟩ := fileWrite_from (t := t) hinode
  rw [hf]
  change (f k).outcome k = _
  rw [hfk, if_neg hlimit]
  refine outcome_bind_error ?_
  rw [writeData, outcome_bind_ok (a := true) rfl, if_neg (by decide), outcome_bind_ok (a := true) rfl,
    if_neg (by decide), outcome_bind_ok hfirst, if_neg (by decide), herr]

/-- A size that leaves 32 bits is not refused. -/
theorem WriteLimits.noWrap (hlim : WriteLimits t g a buf count k) (hcount : count < 2 ^ 32) :
    (k.inodes a).iSize + count < 2 ^ 32 := by
  by_contra hwrap
  have hsmall := h.small
  have hmax : maxFileSize < 2 ^ 31 := by decide
  have hstart : k.startBlocks a = 0 := if_neg fun hzero => by
    rw [h.empty hzero] at hwrap
    omega
  obtain ⟨k₁, hfirst, hstarted⟩ := outcome_allocFirst (t := t) h (hstart ▸ Partition.hasFree_zero)
  obtain ⟨e, -, herr⟩ : ∃ e, (e = .halt ∨ e = .undefined) ∧
      (writeBlocks t g a (k.inodes a).iSize buf count).outcome k₁ = .error e :=
    outcome_writeBlocks_wrap hstarted.gains.size h.small hcount (Nat.not_lt.mp hwrap)
  obtain ⟨ret, k', hout, -⟩ := outcome_of_succeeds (hlim.refused (by omega))
  rw [outcome_fileWrite_error hinode (by omega) hfirst herr] at hout
  cases hout

/-- At the limit itself an assertion fails. -/
theorem WriteLimits.notLimit (hlim : WriteLimits t g a buf count k)
    (heq : (k.inodes a).iSize + count = maxFileSize) : ¬ k.part.HasFree (k.startBlocks a) := by
  intro hfree
  have hmod : ((k.inodes a).iSize + count) % 2 ^ 32 = maxFileSize := by
    rw [heq]
    decide
  obtain ⟨k₁, hfirst, -⟩ := outcome_allocFirst (t := t) h hfree
  refine outcome_ne_of_avoids (hlim.accepted heq.le) ?_
  exact outcome_fileWrite_error hinode (by omega) hfirst (outcome_writeBlocks_full heq)

/-- And so it does where a pointer is left over. -/
theorem Kernel.clear_of_avoids (havoid : (fileWrite t g buf count).avoids .halt k)
    (hend : (k.inodes a).iSize + count < maxFileSize) : k.Clear a count := by
  have hmod : ((k.inodes a).iSize + count) % 2 ^ 32 = (k.inodes a).iSize + count :=
    Nat.mod_eq_of_lt (hend.trans (by decide))
  have hle : blocksOf (k.inodes a).iSize ≤ blocksOf ((k.inodes a).iSize + count) :=
    Nat.succ_le_succ (Nat.div_le_div_right (Nat.le_add_right _ _))
  have hwill : blocksOf ((k.inodes a).iSize + count) ≤ flattenPtrs := by
    unfold blocksOf maxFileSize sectorSize flattenPtrs at *
    omega
  -- there is no pointer left over once the first block is there
  have hnone (hfree : k.part.HasFree (k.startBlocks a)) : ∃ k₁, Started a k true k₁ ∧
      NoLeftover k₁.part (k₁.inodes a).iSectors (blocksOf (k.inodes a).iSize)
        (blocksOf ((k.inodes a).iSize + count)) := by
    obtain ⟨k₁, hfirst, hstart⟩ := outcome_allocFirst (t := t) h hfree
    refine ⟨k₁, hstart, ?_⟩
    by_contra hleft
    have hbuild := outcome_buildBlocks_leftover (t := t) (hstart.blocks rfl) (Nat.succ_pos _) hle hleft
    refine outcome_ne_of_avoids havoid
      (outcome_fileWrite_error hinode (by omega) hfirst ?_)
    rw [writeBlocks]
    dsimp only
    rw [hmod]
    refine (outcome_bind_ok (outcome_assert (decide_eq_true hwill))).trans ?_
    exact outcome_bind_error hbuild
  refine ⟨fun i hlow hhigh hi hne hfree => ?_, fun hlow hhigh hne hfree => ?_⟩
  · obtain ⟨k₁, hstart, hno⟩ := hnone (hfree.mono (Nat.le_add_left _ _))
    have hpos : i ≠ 0 := fun hzero => absurd (hzero ▸ hlow) (Nat.not_succ_le_zero _)
    refine hno.direct i hlow hhigh hi ?_ ((hstart.free rfl _).mpr hfree)
    rwa [hstart.others i hpos]
  · obtain ⟨k₁, hstart, hno⟩ := hnone (hfree.mono (Nat.le_add_left _ _))
    refine hno.table hlow hhigh ?_ ((hstart.free rfl _).mpr hfree)
    rwa [hstart.others directPtrs (by decide)]

/-- Apart from these cases the limits are right. -/
theorem Kernel.WriteFits.writeLimits (hfits : k.WriteFits a count) : WriteLimits t g a buf count k := by
  have hmod := Nat.mod_eq_of_lt hfits.noWrap
  rcases lt_trichotomy ((k.inodes a).iSize + count) maxFileSize with hlt | heq | hgt
  · have hclear := hfits.clear hlt
    exact ⟨fun hlarge => absurd hlarge (by omega),
      fun _ => fileWrite_avoids_fault hinode h (by decide) hlt hclear,
      fileWrite_avoids_fault hinode h (by decide) hlt hclear⟩
  · -- the call gives up before the assertion
    have hdata : (writeData t g a (k.inodes a).iSize buf count).ensures ⟨fun _ => True, False⟩
        (fun ok _ => ok = false) k := by
      rw [writeData, ensures_bind]
      refine ensures_sysMalloc_cases ?_ fun _ => rfl
      rw [if_neg (by decide), ensures_bind]
      refine ensures_sysMalloc_cases ?_ fun _ => rfl
      rw [if_neg (by decide), ensures_bind]
      refine ensures_mono (ensures_allocFirst h) fun ok k₁ hstart => ?_
      cases ok with
      | false => exact rfl
      | true =>
          have hfree := (hstart.free rfl 0).mp Partition.hasFree_zero
          rw [Nat.zero_add] at hfree
          exact absurd hfree (hfits.notLimit heq)
    have hcall : (fileWrite t g buf count).succeeds (fun _ _ => True) k := by
      obtain ⟨f, hf, hfk⟩ := fileWrite_from (t := t) hinode
      rw [hf]
      change Prog.succeeds (f k) _ k
      rw [hfk, if_neg (by omega), succeeds_bind]
      refine succeeds_mono (succeeds_of_ensures hdata) ?_
      rintro ok k' rfl
      trivial
    exact ⟨fun hlarge => absurd hlarge (by omega), fun _ => avoids_of_succeeds hcall,
      avoids_of_succeeds hcall⟩
  · have hrefused : (fileWrite t g buf count).succeeds (fun ret k' => ret = -1 ∧ k' = k) k := by
      obtain ⟨f, hf, hfk⟩ := fileWrite_from (t := t) hinode
      rw [hf]
      change Prog.succeeds (f k) _ k
      rw [hfk, if_pos (by omega)]
      exact ⟨rfl, rfl⟩
    exact ⟨fun _ => hrefused, fun hle => absurd hgt (by omega), avoids_of_succeeds hrefused⟩

end Write

/-! ## Reading -/

section Read

variable {t : Transfer} {g a count : ℕ} {buf : Bytes} {k : Kernel}

/-- Without memory `file_read` trips no assertion that it does not trip with it. -/
theorem fileRead_avoids_halt (h : (fileRead t g buf count).outcome k ≠ .error .halt) :
    (fileRead t g buf count).avoids .halt k := by
  rw [fileRead, outcome_read_bind] at h
  rw [fileRead, avoids_bind]
  refine ⟨trivial, ?_⟩
  rw [wp_read]
  cases hinode : (k.fileTable g).fdInode with
  | none => exact fun heq => by cases heq
  | some a =>
      rw [hinode] at h
      dsimp only at h ⊢
      generalize (if (k.inodes a).iSize < ((k.fileTable g).fdPos + count) % 2 ^ 32 then
        subU32 (k.inodes a).iSize (k.fileTable g).fdPos else count) = size at h ⊢
      split
      · trivial
      next hsome =>
        rw [if_neg hsome, outcome_bind_ok (a := ()) rfl, outcome_bind_ok (a := true) rfl,
          if_neg (by decide)] at h
        rw [avoids_bind, wp_sysMallocUnchecked, avoids_bind, wp_sysMalloc]
        refine ⟨fun n => ?_, fun n => trivial, fun ok => ?_⟩
        · change (if decide (n = 0) = true then _ else _ : Prog Kernel Unit).avoids .halt k
          split
          · trivial
          · exact fun heq => by cases heq
        · cases ok with
          | false => trivial
          | true =>
              rw [if_neg (by decide)]
              refine Decided.avoids_of_outcome ?_ h
              exact (Decided.assert _).bind fun _ => (readBlocks_decided _ _ _ _).bind fun _ =>
                (readFileLoop_decided _ _ _ _ _ _ _).bind fun _ => .pure _

variable (hinode : (k.fileTable g).fdInode = some a) (h : k.InOrder a)
  (hpos : (k.fileTable g).fdPos ≤ (k.inodes a).iSize)

include hinode h hpos

theorem ReadLimits.fits (hlim : ReadLimits t g a buf count k) (hcount : count < 2 ^ 32) :
    k.ReadFits g a count := by
  have hwrap : (k.fileTable g).fdPos + count < 2 ^ 32 := by
    by_contra hwrap
    obtain ⟨e, he, herr⟩ : ∃ e, (e = .halt ∨ e = .undefined) ∧
        (fileRead t g buf count).outcome k = .error e :=
      outcome_fileRead_wrap hinode h.readable rfl hpos hcount (Nat.not_lt.mp hwrap)
    rcases he with rfl | rfl
    · exact outcome_ne_of_avoids hlim.accepted herr
    · exact hlim.inside herr
  refine ⟨hwrap, ?_⟩
  by_contra hserved
  exact outcome_ne_of_avoids hlim.accepted
    (outcome_fileRead_last hinode h.readable rfl hpos hwrap hserved)

theorem Kernel.ReadFits.readLimits (hfits : k.ReadFits g a count) : ReadLimits t g a buf count k := by
  have hout : (fileRead t g buf count).outcome k = _ :=
    outcome_fileRead hinode h.readable rfl hpos hfits.noWrap hfits.served
  refine ⟨fileRead_avoids_halt ?_, ?_, wp_mono wp_fileRead fun r k' hr => ?_⟩
  · rw [hout]
    exact fun heq => by cases heq
  · rw [hout]
    exact fun heq => by cases heq
  · rcases hr with hfail | hr
    · rw [hfail]
      omega
    · rw [hout] at hr
      injection hr with hpair
      obtain ⟨rfl, -⟩ := Prod.mk.inj hpair
      dsimp only
      rw [Contents.readRet]
      split
      · omega
      · have hlen : (k.fileTable g).fdPos + (k.fileOf a).readLen (k.fileTable g).fdPos count ≤
            (k.inodes a).iSize := Contents.readLen_le hpos
        omega

end Read

/-! ## Exactly when the limits are right -/

end BochsOs
