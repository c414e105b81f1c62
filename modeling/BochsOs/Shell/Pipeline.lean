import BochsOs.Shell.PipeCounts

/-!
# Pipelines

`pipe_run` of `shell/shell.c`.  The shell makes one pipe, runs the commands one after the
other and redirects its own descriptors 0 and 1 in between.  While descriptor 1 is the
pipe, the shell also prints a line about every command that has ended, and the line goes
into the pipe: what the second command can read is what the first one wrote with that line
after it (`second_available`), so no pipeline is connected as it should be
(`pipeline_never_connected`).

A command is a child of the shell that reads some of the bytes available on its descriptor 0
and writes to its descriptor 1.  It runs to its end before the shell waits for it.
-/

namespace BochsOs

open ByteMemory Suspend Suspend.Prog Runs

/-! ## Printing -/

/-- The characters of a string. -/
def asciiBytes (s : String) : List UInt8 := s.toList.map fun c => UInt8.ofNat c.toNat

/-- `itoa`; a word has at most 32 digits. -/
def itoa (base : ℕ) : (fuel value : ℕ) → List UInt8
  | 0, _ => []
  | fuel + 1, value =>
      let m := value % base
      let i := value / base
      (if i = 0 then [] else itoa base fuel i) ++
        [if m < 10 then UInt8.ofNat (m + 48) else UInt8.ofNat (m - 10 + 97)]

/-- What `vsprintf` makes of `%d`. -/
def decimal (arg : ℤ) : List UInt8 :=
  if arg < 0 then 45 :: itoa 10 32 (-arg).toNat else itoa 10 32 arg.toNat

/-- `"shell recieve %d, (status: %d)\n"`. -/
def statusLine (childPid status : ℤ) : List UInt8 :=
  asciiBytes "shell recieve " ++ decimal childPid ++ asciiBytes ", (status: " ++ decimal status ++
    asciiBytes ")\n"

/-- A buffer that begins with the given bytes. -/
def bufferOf (s : List UInt8) : Bytes := fun a => s.getD a 0

/-- `printf`, once the text is made. -/
def printf (t : Transfer) (text : List UInt8) : Prog Kernel Unit := do
  let _ ← sysWrite t 1 (bufferOf text) text.length

/-! ## The shell -/

/-- An external command: how many of the bytes available on descriptor 0 it reads, what it
writes to descriptor 1, and its exit code. -/
structure Command where
  reads : List UInt8 → ℕ
  writes : List UInt8 → List UInt8
  status : ℤ

/-- What there was for a command to read, and what it wrote. -/
structure Stage where
  available : List UInt8
  written : List UInt8

/-- The bytes available on descriptor 0 of the running process, if that is a pipe. -/
def Kernel.available (k : Kernel) : List UInt8 :=
  let file := k.fileTable (k.cur.fdTable 0).toNat
  if file.fdFlag = pipeFlag then
    match file.fdInode with
    | none => []
    | some a => (k.ioqueues a).content
  else []

/-- The command as the running process executes it. -/
def runCommand (t : Transfer) (c : Command) : Prog Kernel Stage := do
  let k ← read
  let count := min (c.reads k.available) k.available.length
  if 0 < count then
    let _ ← sysRead t 0 zeroBuf count
  let written := c.writes k.available
  let _ ← sysWrite t 1 (bufferOf written) written.length
  return ⟨k.available, written⟩

/-- The clock lets the ready process `p` run. -/
def switchTo (p : ℕ) : Prog Kernel Unit := do
  modify fun k =>
    { k.setStatus k.running .ready with threadReadyList := k.threadReadyList ++ [k.running] }
  modify fun k =>
    { k.setStatus p .running with threadReadyList := k.threadReadyList.erase p, running := p }

/-- The child of `external_run`, from the fork to its exit. -/
def runChild (t : Transfer) (c : Command) (shell child : ℕ) : Prog Kernel Stage := do
  switchTo child
  let stage ← runCommand t c
  sysExit c.status
  switchTo shell
  return stage

/-- `wait` in the shell, whose child hangs already: the number and the exit code, which
stays uninitialised without a child. -/
def waitChild : Prog Kernel (ℤ × ℤ) := do
  match ← sysWaitRound with
  | none => stop .hang
  | some (childPid, status) =>
      let byte ← arbitrary
      return (childPid, if childPid = -1 then wrap32 byte else status)

/-- `external_run`; `none` if the fork fails. -/
def externalRun (t : Transfer) (c : Command) : Prog Kernel (Option Stage) := do
  let k ← read
  let pid ← sysFork
  let stage ← if pid = -1 then pure none else do
    let stage ← runChild t c k.running k.nextTask
    pure (some stage)
  let (childPid, status) ← waitChild
  printf t (statusLine childPid status)
  return stage

/-- The loop of `pipe_run`. -/
def runMiddle (t : Transfer) : List Command → Prog Kernel (List (Option Stage))
  | [] => return []
  | c :: rest => do
      let stage ← externalRun t c
      let stages ← runMiddle t rest
      return stage :: stages

/-- An `int32_t` passed as a `uint32_t`. -/
def asU32 (z : ℤ) : ℕ := (z % 2 ^ 32).toNat

/-- `pipe_run` on the command line `first | .. | last`. -/
def pipeRun (t : Transfer) (first : Command) (middle : List Command) (last : Command) :
    Prog Kernel (List (Option Stage)) := do
  let (_, fd₀, fd₁) ← sysPipe
  -- write to pipe
  sysDup2 (asU32 fd₁) 1
  let stage ← externalRun t first
  -- read from pipe
  sysDup2 (asU32 fd₀) 0
  let stages ← runMiddle t middle
  -- resume stdout
  sysDup2 1 1
  let stage' ← externalRun t last
  -- resume stdin
  sysDup2 0 0
  let _ ← sysClose fd₀
  let _ ← sysClose fd₁
  return stage :: (stages ++ [stage'])

/-- All commands ran, and each could read exactly what the one before it wrote. -/
def Connected (stages : List (Option Stage)) : Prop :=
  ∃ ran : List Stage, stages = ran.map some ∧
    ∀ i s s', ran[i]? = some s → ran[i + 1]? = some s' → s'.available = s.written

/-! ## Queues -/

/-- The queue is sound and holds these bytes. -/
structure Ioqueue.Holds (ioq : Ioqueue) (bytes : List UInt8) : Prop where
  tail : ioq.tail < bufsize
  head : ioq.head < bufsize
  content : ioq.content = bytes

theorem ioqueueInit_holds : ioqueueInit.Holds [] := ⟨by decide, by decide, rfl⟩

theorem Ioqueue.Holds.length {ioq : Ioqueue} {bytes : List UInt8} (h : ioq.Holds bytes) :
    ioqLength ioq = bytes.length := by
  rw [ioqLength_eq, h.content]

theorem wp_ioqWait {a : ℕ} {busy : Ioqueue → Bool} {rounds : ℕ} {Q : Unit → Kernel → Prop}
    {k : Kernel} : (ioqWait a busy rounds).wp Q k ↔ (busy (k.ioqueues a) = false → Q () k) := by
  induction rounds with
  | zero =>
      simp only [ioqWait, wp_bind, wp_read]
      cases busy (k.ioqueues a) <;> simp
  | succ rounds ih =>
      simp only [ioqWait, wp_bind, wp_read]
      cases hbusy : busy (k.ioqueues a) with
      | true =>
          rw [if_pos rfl, wp_bind, wp_block, ih, hbusy]
      | false => simp

/-- The queue with one more byte. -/
def Ioqueue.push (ioq : Ioqueue) (byte : UInt8) : Ioqueue :=
  { ioq with buf := Function.update ioq.buf ioq.head byte, head := nextPos ioq.head }

/-- The state with another queue at `a`. -/
def Kernel.setQueue (k : Kernel) (a : ℕ) (ioq : Ioqueue) : Kernel :=
  { k with ioqueues := Function.update k.ioqueues a ioq }

theorem wp_ioqPutchar {a : ℕ} {byte : UInt8} {Q : Unit → Kernel → Prop} {k : Kernel} :
    (ioqPutchar a byte).wp Q k ↔ (ioqFull (k.ioqueues a) = false →
      Q () (k.setQueue a ((k.ioqueues a).push byte))) := by
  simp only [ioqPutchar, wp_bind, wp_arbitrary, wp_ioqWait, wp_read, wp_write]
  exact ⟨fun h => h 0, fun h _ => h⟩

theorem Ioqueue.Holds.push {ioq : Ioqueue} {bytes : List UInt8} (h : ioq.Holds bytes) (byte : UInt8)
    (hfree : ioqFull ioq = false) : (ioq.push byte).Holds (bytes ++ [byte]) := by
  have hne : (ioq.head + 1) % bufsize ≠ ioq.tail := of_decide_eq_false hfree
  refine ⟨h.tail, Nat.mod_lt _ (by decide), ?_⟩
  rw [← h.content]
  exact Ring.content_push byte h.tail h.head hne

/-- Whoever fills a pipe up hangs, so a write that returns has stored every byte. -/
theorem pipeWriteLoop_stores {a left done : ℕ} {src : Bytes} {bytes : List UInt8} {k : Kernel}
    (hq : (k.ioqueues a).Holds bytes) :
    (pipeWriteLoop a src left done).wp (fun _ k' => ∃ ioq, k' = k.setQueue a ioq ∧
      ioq.Holds (bytes ++ (List.range left).map fun i => src (done + i)) ∧
      (0 < left → bytes.length + left < bufsize)) k := by
  induction left generalizing done bytes k with
  | zero =>
      refine ⟨k.ioqueues a, ?_, ?_, fun h => absurd h (lt_irrefl 0)⟩
      · rw [Kernel.setQueue, Function.update_eq_self]
      · simpa using hq
  | succ left ih =>
      rw [pipeWriteLoop, wp_bind, wp_ioqPutchar]
      intro hfree
      have hlen : bytes.length + 1 < bufsize := by
        have hlt := Ring.count_lt hq.tail hq.head
        have hfull := Ring.count_full hq.tail hq.head
        have hlength : Ring.count bufsize (k.ioqueues a).tail (k.ioqueues a).head = bytes.length := by
          rw [← hq.content, Ioqueue.content, Ring.length_content]
        have hne : ¬ ((k.ioqueues a).head + 1) % bufsize = (k.ioqueues a).tail :=
          of_decide_eq_false hfree
        rw [← hfull] at hne
        omega
      have hself : (k.setQueue a ((k.ioqueues a).push (src done))).ioqueues a =
          (k.ioqueues a).push (src done) := Function.update_self _ _ _
      have hpush := hq.push (src done) hfree
      rw [← hself] at hpush
      refine wp_mono (ih hpush) ?_
      rintro - k' ⟨ioq, rfl, hioq, hfit⟩
      refine ⟨ioq, ?_, ?_, fun _ => ?_⟩
      · simp [Kernel.setQueue]
      · rw [List.append_assoc] at hioq
        rw [List.range_succ_eq_map, List.map_cons, List.map_map]
        convert hioq using 2
        simp only [Nat.add_zero, List.singleton_append, List.cons.injEq, true_and]
        refine List.map_congr_left fun i _ => ?_
        simp only [Function.comp_apply]
        congr 1
        omega
      · cases left with
        | zero => exact hlen
        | succ left =>
            have := hfit (Nat.succ_pos _)
            rw [List.length_append, List.length_singleton] at this
            omega

/-- A buffer holds the bytes it is made of. -/
theorem map_bufferOf (s : List UInt8) : ((List.range s.length).map fun i => bufferOf s (0 + i)) = s := by
  refine List.ext_getElem (by simp) fun i hi hi' => ?_
  rw [List.getElem_map, List.getElem_range, Nat.zero_add, bufferOf, List.getD_eq_getElem?_getD,
    List.getElem?_eq_getElem hi', Option.getD_some]

/-! ## An open pipe -/

/-- Entry `g` is a pipe with the queue at `a`, which holds `bytes`; nobody else has the
queue. -/
structure PipeOpen (g a : ℕ) (bytes : List UInt8) (count : ℕ) (k : Kernel) : Prop where
  entry : k.fileTable g = ⟨count, pipeFlag, some a⟩
  alone : ∀ g' < maxFileOpen, g' ≠ g → (k.fileTable g').fdInode ≠ some a
  queue : (k.ioqueues a).Holds bytes

/-- The entries, the queues and the descriptors of all processes are the same. -/
structure SameEnds (k k' : Kernel) : Prop where
  files : k'.fileTable = k.fileTable
  queues : k'.ioqueues = k.ioqueues
  next : k'.nextTask = k.nextTask
  fds : ∀ p, (k'.tasks p).fdTable = (k.tasks p).fdTable

instance : IsPreorder Kernel SameEnds where
  refl _ := ⟨rfl, rfl, rfl, fun _ => rfl⟩
  trans _ _ _ h h' := ⟨h'.files.trans h.files, h'.queues.trans h.queues, h'.next.trans h.next,
    fun p => (h'.fds p).trans (h.fds p)⟩

theorem sameEnds_setTask (k : Kernel) {p : ℕ} (task : Task) (readyList allList : List ℕ) (running : ℕ)
    (hfds : task.fdTable = (k.tasks p).fdTable) :
    SameEnds k { k.setTask p task with
      threadReadyList := readyList, threadAllList := allList, running := running } := by
  refine ⟨rfl, rfl, rfl, fun q => ?_⟩
  change (Function.update k.tasks p task q).fdTable = _
  by_cases hq : q = p
  · rw [hq, Function.update_self, hfds]
  · rw [Function.update_of_ne hq]

instance : TurnFrame SameEnds where
  task k _ _ _ _ readyList running := sameEnds_setTask k _ readyList k.threadAllList running rfl

instance : WalkFrame SameEnds where
  count _ _ _ := ⟨rfl, rfl, rfl, fun _ => rfl⟩
  erase _ _ := ⟨rfl, rfl, rfl, fun _ => rfl⟩
  alloc _ := ⟨rfl, rfl, rfl, fun _ => rfl⟩
  newInode _ _ := ⟨rfl, rfl, rfl, fun _ => rfl⟩
  newDir _ _ := ⟨rfl, rfl, rfl, fun _ => rfl⟩
  freeDir _ _ := ⟨rfl, rfl, rfl, fun _ => rfl⟩

variable {g a count : ℕ} {bytes : List UInt8} {k k' : Kernel}

theorem PipeOpen.same (hk : PipeOpen g a bytes count k) (h : SameEnds k k') :
    PipeOpen g a bytes count k' where
  entry := by rw [h.files, hk.entry]
  alone := by rw [h.files]; exact hk.alone
  queue := by rw [h.queues]; exact hk.queue

/-- Another entry changes. -/
theorem PipeOpen.setFile (hk : PipeOpen g a bytes count k) {g' : ℕ} (hg' : g' ≠ g) {file : File}
    (hfile : file.fdInode ≠ some a) : PipeOpen g a bytes count (k.setFile g' file) where
  entry := by
    rw [← hk.entry]
    exact Function.update_of_ne hg'.symm _ _
  alone g'' hlt hg'' := by
    change (Function.update k.fileTable g' file g'').fdInode ≠ some a
    by_cases h : g'' = g'
    · rw [h, Function.update_self]
      exact hfile
    · rw [Function.update_of_ne h]
      exact hk.alone g'' hlt hg''
  queue := hk.queue

/-- Only the count of the pipe changes. -/
theorem PipeOpen.setCount (hk : PipeOpen g a bytes count k) {count' : ℕ} {file : File}
    (hfile : file = ⟨count', pipeFlag, some a⟩) : PipeOpen g a bytes count' (k.setFile g file) where
  entry := by rw [← hfile]; exact Function.update_self _ _ _
  alone g' hlt hg' := by
    change (Function.update k.fileTable g file g').fdInode ≠ some a
    rw [Function.update_of_ne hg']
    exact hk.alone g' hlt hg'
  queue := hk.queue

/-- The queues of other pipes change. -/
theorem PipeOpen.setQueues (hk : PipeOpen g a bytes count k) {queues : ℕ → Ioqueue}
    (hqueues : queues a = k.ioqueues a) : PipeOpen g a bytes count { k with ioqueues := queues } where
  entry := hk.entry
  alone := hk.alone
  queue := by
    change (queues a).Holds bytes
    rw [hqueues]
    exact hk.queue

/-- A descriptor of the pipe is a pipe. -/
theorem PipeOpen.wp_isPipe (hk : PipeOpen g a bytes count k) {fd : ℕ} (hfd : k.cur.fdTable fd = g)
    {Q : Bool → Kernel → Prop} (hQ : Q true k) : (isPipe fd).wp Q k := by
  simp only [isPipe, wp_bind, wp_read, wp_pure]
  refine wp_mono fdLocal2global_spec ?_
  rintro g' k ⟨rfl, -, hg', -⟩
  obtain rfl : g' = g := by exact_mod_cast hg'.symm.trans hfd
  rw [hk.entry]
  exact hQ

theorem PipeOpen.available (hk : PipeOpen g a bytes count k) (hfd : (k.cur.fdTable 0).toNat = g) :
    k.available = bytes := by
  rw [Kernel.available, hfd, hk.entry, if_pos rfl]
  exact hk.queue.content

/-- What is written to the pipe goes to the end of its queue. -/
theorem PipeOpen.write (hk : PipeOpen g a bytes count k) (hfd : k.cur.fdTable 1 = g) (t : Transfer)
    (text : List UInt8) :
    (sysWrite t 1 (bufferOf text) text.length).wp (fun _ k' =>
      PipeOpen g a (bytes ++ text) count k' ∧ ∃ ioq, k' = k.setQueue a ioq) k := by
  unfold sysWrite
  rw [if_neg (by decide), wp_bind]
  refine hk.wp_isPipe hfd ?_
  rw [if_pos rfl, pipeWrite, wp_bind]
  refine wp_mono fdLocal2global_spec ?_
  rintro g' k ⟨rfl, -, hg', -⟩
  obtain rfl : g' = g := by exact_mod_cast hg'.symm.trans hfd
  rw [wp_bind, wp_read, hk.entry]
  simp only [wp_bind, wp_pure]
  refine wp_mono (pipeWriteLoop_stores hk.queue) ?_
  rintro - _ ⟨ioq, rfl, hioq, hfit⟩
  -- a text that does not fit fills the queue up
  have hsize : min text.length (bufsize - ioqLength (k.ioqueues a)) = text.length := by
    have hlt : bytes.length < bufsize := by
      rw [← hk.queue.length]
      exact Ring.count_lt hk.queue.tail hk.queue.head
    rw [hk.queue.length] at hfit ⊢
    omega
  rw [hsize, map_bufferOf] at hioq
  refine ⟨⟨hk.entry, hk.alone, ?_⟩, ioq, rfl⟩
  change (Function.update k.ioqueues a ioq a).Holds _
  rw [Function.update_self]
  exact hioq

/-! ## A command runs -/

theorem pipeReadLoop_queues {a' left done : ℕ} {dst : Bytes} (ha' : a' ≠ a) {k : Kernel} :
    (pipeReadLoop a' left done dst).wp (fun _ k' => ∃ queues, queues a = k.ioqueues a ∧
      k' = { k with ioqueues := queues }) k := by
  induction left generalizing done dst k with
  | zero => exact ⟨k.ioqueues, rfl, rfl⟩
  | succ left ih =>
      simp only [pipeReadLoop, ioqGetchar, wp_bind, wp_arbitrary, wp_ioqWait, wp_read, wp_write,
        wp_pure]
      intro _ _
      refine wp_mono ih ?_
      rintro - _ ⟨queues, hqueues, rfl⟩
      refine ⟨queues, ?_, rfl⟩
      rw [hqueues]
      exact Function.update_of_ne ha'.symm _ _

/-- A command whose descriptor 1 is a pipe, and whose descriptor 0 is not or has nothing to
read, writes to the end of the queue. -/
theorem PipeOpen.runCommand (hk : PipeOpen g a bytes count k) (hfd : k.cur.fdTable 1 = g)
    (hempty : (k.cur.fdTable 0).toNat = g → bytes = []) (t : Transfer) (c : Command) :
    (runCommand t c).wp (fun stage k' => PipeOpen g a (bytes ++ stage.written) count k' ∧
      ∃ queues, k' = { k with ioqueues := queues }) k := by
  have hwrite : ∀ queues, queues a = k.ioqueues a → ∀ text : List UInt8,
      (sysWrite t 1 (bufferOf text) text.length).wp (fun _ k' =>
        PipeOpen g a (bytes ++ text) count k' ∧ ∃ queues, k' = { k with ioqueues := queues })
          { k with ioqueues := queues } := by
    intro queues hqueues text
    have hk' := hk.setQueues hqueues
    refine wp_mono (hk'.write hfd t text) ?_
    rintro - _ ⟨hopen, ioq, rfl⟩
    exact ⟨hopen, _, rfl⟩
  unfold BochsOs.runCommand
  rw [wp_bind, wp_read]
  dsimp only
  split
  next hpos =>
    simp only [wp_bind, wp_pure]
    -- there is something to read, so descriptor 0 is another pipe
    have hne : (k.cur.fdTable 0).toNat ≠ g := by
      intro heq
      rw [hk.available heq, hempty heq] at hpos
      exact absurd hpos (by simp)
    have hpipe : (k.fileTable (k.cur.fdTable 0).toNat).fdFlag = pipeFlag := by
      by_contra hflag
      rw [Kernel.available, if_neg hflag] at hpos
      exact absurd hpos (by simp)
    refine wp_mono (Q := fun _ k' => ∃ queues, queues a = k.ioqueues a ∧
      k' = { k with ioqueues := queues }) ?_ ?_
    · unfold sysRead
      rw [if_neg (by decide), wp_bind]
      simp only [isPipe, wp_bind, wp_read, wp_pure]
      refine wp_mono fdLocal2global_spec ?_
      rintro g' k ⟨rfl, -, hg', -⟩
      have hg'eq : (k.cur.fdTable 0).toNat = g' := by
        have : k.cur.fdTable 0 = g' := hg'
        omega
      rw [← hg'eq, hpipe, if_pos (decide_eq_true rfl), pipeRead, wp_bind]
      refine wp_mono fdLocal2global_spec ?_
      rintro g'' k ⟨rfl, -, hg'', hlt⟩
      have hg''eq : g'' = g' := by exact_mod_cast hg''.symm.trans hg'
      rw [wp_bind, wp_read]
      split
      · trivial
      next a' ha' =>
        simp only [wp_bind, wp_pure]
        have hother : a' ≠ a := by
          rintro rfl
          rw [← hg'eq] at hg''eq
          exact hk.alone g'' hlt (hg''eq ▸ hne) ha'
        exact pipeReadLoop_queues hother
    · rintro - _ ⟨queues, hqueues, rfl⟩
      exact hwrite queues hqueues _
  · simp only [wp_bind, wp_pure]
    exact hwrite k.ioqueues rfl _

/-! ## The child is counted -/

/-- How many of the descriptors from `fd` on stand for entry `g`. -/
def slots (fds : ℕ → ℤ) (g left fd : ℕ) : ℕ := (List.range' fd left).countP fun i => fds i = g

theorem slots_succ (fds : ℕ → ℤ) (g left fd : ℕ) :
    slots fds g (left + 1) fd = slots fds g left (fd + 1) + if fds fd = g then 1 else 0 := by
  rw [slots, List.range'_succ, List.countP_cons]
  simp only [decide_eq_true_eq]
  rfl

theorem slots_le (fds : ℕ → ℤ) (g left fd : ℕ) : slots fds g left fd ≤ left := by
  calc slots fds g left fd ≤ (List.range' fd left).length := List.countP_le_length
    _ = left := List.length_range'

/-- The processes are the same. -/
def SameTable (k k' : Kernel) : Prop :=
  k'.tasks = k.tasks ∧ k'.running = k.running ∧ k'.nextTask = k.nextTask

theorem PipeOpen.countFd (hk : PipeOpen g a bytes count k) {child fd : ℕ}
    (hcount : count + 1 < 2 ^ 32) (hsame : (k.tasks child).fdTable = k.cur.fdTable) :
    (updateInodeOpenCnt child fd).wp (fun _ k' =>
      PipeOpen g a bytes (count + if k.cur.fdTable fd = g then 1 else 0) k' ∧ SameTable k k') k := by
  simp only [updateInodeOpenCnt, wp_bind, wp_read, wp_assert, hsame]
  intro _
  split
  next hfree =>
    rw [if_neg (by omega)]
    exact ⟨hk, rfl, rfl, rfl⟩
  next hused =>
    rw [wp_bind]
    simp only [isPipe, wp_bind, wp_read, wp_pure]
    refine wp_mono fdLocal2global_spec ?_
    rintro g' k ⟨rfl, -, hg', hlt⟩
    rw [hg', Int.toNat_natCast]
    by_cases hgg : g' = g
    · subst hgg
      rw [hk.entry, if_pos (decide_eq_true rfl), if_pos rfl]
      refine ⟨hk.setCount ?_, rfl, rfl, rfl⟩
      rw [hk.entry, Nat.mod_eq_of_lt hcount]
    · have hne : (g' : ℤ) ≠ g := by exact_mod_cast hgg
      simp only [if_neg hne, Nat.add_zero]
      split
      · refine ⟨hk.setFile hgg ?_, rfl, rfl, rfl⟩
        exact hk.alone g' hlt hgg
      · split
        · trivial
        · exact ⟨⟨hk.entry, hk.alone, hk.queue⟩, rfl, rfl, rfl⟩

theorem PipeOpen.countFds (child : ℕ) (left fd : ℕ) (hk : PipeOpen g a bytes count k)
    (hcount : count + left < 2 ^ 32) (hsame : (k.tasks child).fdTable = k.cur.fdTable) :
    (updateInodeOpenCnts child left fd).wp (fun _ k' =>
      PipeOpen g a bytes (count + slots k.cur.fdTable g left fd) k' ∧ SameTable k k') k := by
  induction left generalizing k count fd with
  | zero => exact ⟨hk, rfl, rfl, rfl⟩
  | succ left ih =>
      rw [updateInodeOpenCnts, wp_bind]
      refine wp_mono (hk.countFd (by omega) hsame) ?_
      rintro - k₁ ⟨hk₁, htasks, hrunning, hnext⟩
      have hcur : k₁.cur = k.cur := by rw [Kernel.cur, htasks, hrunning]; rfl
      refine wp_mono (ih (fd + 1) hk₁ ?_ ?_) ?_
      · split <;> omega
      · rw [htasks, hcur, hsame]
      · rintro - k₂ ⟨hk₂, htasks₂, hrunning₂, hnext₂⟩
        rw [hcur, add_assoc, Nat.add_comm (ite _ _ _), ← slots_succ] at hk₂
        exact ⟨hk₂, htasks₂.trans htasks, hrunning₂.trans hrunning, hnext₂.trans hnext⟩

/-! ## The child exits -/

theorem sysClose_queues {fd : ℤ} (k : Kernel) :
    (sysClose fd).wp (fun _ k' => k'.ioqueues = k.ioqueues) k := by
  unfold sysClose
  split
  · rfl
  have hclose : ∀ g, (fileClose g).wp (fun _ k' => k'.ioqueues = k.ioqueues) k := by
    intro g
    rw [fileClose, wp_bind, wp_read]
    split
    · trivial
    next a _ =>
      rw [wp_bind, wp_write]
      have hset : SameEnds k (k.setInode a { k.inodes a with writeDeny := false }) :=
        ⟨rfl, rfl, rfl, fun _ => rfl⟩
      exact (inodeClose_within a).wp_then hset fun _ k₁ h₁ => h₁.queues
  rw [wp_bind]
  refine wp_mono (fdLocal2global_same _).wp_eq ?_
  rintro g k ⟨rfl⟩
  rw [wp_bind]
  refine wp_mono (isPipe_same _).wp_eq ?_
  rintro pipe k ⟨rfl⟩
  split
  · rfl
  · rw [wp_bind]
    exact wp_mono (hclose g) fun _ _ h => h

theorem PipeOpen.releaseFd {fd : ℕ} (hk : PipeOpen g a bytes (count + if k.cur.fdTable fd = g then 1 else 0) k)
    (hfd : 3 ≤ fd) (hpos : 0 < count) :
    (releaseFd fd).wp (fun _ k' => PipeOpen g a bytes count k' ∧
      k'.running = k.running ∧ k'.nextTask = k.nextTask ∧
      (∀ p, p ≠ k.running → (k'.tasks p).fdTable = (k.tasks p).fdTable) ∧
      ∀ fd', fd < fd' → k'.cur.fdTable fd' = k.cur.fdTable fd') k := by
  simp only [BochsOs.releaseFd, wp_bind, wp_read]
  split
  next hfree =>
    rw [if_neg (by omega)] at hk
    exact ⟨hk, rfl, rfl, fun _ _ => rfl, fun _ _ => rfl⟩
  next hused =>
    rw [wp_bind]
    simp only [isPipe, wp_bind, wp_read, wp_pure]
    refine wp_mono fdLocal2global_spec ?_
    rintro g' k ⟨rfl, -, hg', -⟩
    by_cases hgg : g' = g
    · subst hgg
      rw [if_pos hg'] at hk
      rw [hk.entry, if_pos (decide_eq_true rfl), wp_bind]
      refine wp_mono fdLocal2global_spec ?_
      rintro g'' k ⟨rfl, -, hg'', -⟩
      obtain rfl : g'' = g' := by exact_mod_cast hg''.symm.trans hg'
      refine ⟨hk.setCount ?_, rfl, rfl, fun _ _ => rfl, fun _ _ => rfl⟩
      have hsub : subU32 (count + 1) 1 = count := subU32_of_le (Nat.succ_pos count)
      rw [hk.entry, hsub, if_neg hpos.ne']
    · have hne : (g' : ℤ) ≠ g := by exact_mod_cast hgg
      rw [hg', if_neg hne, Nat.add_zero] at hk
      split
      next hpipe =>
        rw [wp_bind]
        refine wp_mono fdLocal2global_spec ?_
        rintro g'' k ⟨rfl, -, hg'', hlt⟩
        obtain rfl : g'' = g' := by exact_mod_cast hg''.symm.trans hg'
        refine ⟨hk.setFile hgg ?_, rfl, rfl, fun _ _ => rfl, fun _ _ => rfl⟩
        dsimp only
        split
        · exact (Option.some_ne_none a).symm
        · exact hk.alone g'' hlt hgg
      next hpipe =>
        rw [decide_eq_true_eq] at hpipe
        simp only [wp_bind, wp_pure]
        have hfile : ∀ g : ℕ, g < maxFileOpen → k.cur.fdTable (fd : ℤ).toNat = g →
            (k.fileTable g).fdFlag ≠ pipeFlag := by
          intro g'' _ hg''
          obtain rfl : g'' = g' := by exact_mod_cast hg''.symm.trans hg'
          exact hpipe
        refine wp_mono (wp_and (sysClose_spec hfile) (sysClose_queues k)) ?_
        rintro - k' ⟨⟨hle, -⟩ | ⟨-, -, g'', -, hg'', hclose⟩, hqueues⟩
        · omega
        obtain rfl : g'' = g' := by exact_mod_cast hg''.symm.trans hg'
        obtain ⟨-, hold⟩ := fdTable_update hclose.tasks
        refine ⟨⟨?_, fun g₁ hlt₁ hg₁ => ?_, ?_⟩, hclose.running, hclose.next, fun p hp => ?_, fun fd' hlt => ?_⟩
        · rw [hclose.files, Function.update_of_ne (Ne.symm hgg), hk.entry]
        · rw [hclose.files]
          exact (hk.setFile hgg (Option.some_ne_none a).symm).alone g₁ hlt₁ hg₁
        · rw [hqueues]
          exact hk.queue
        · exact funext fun fd' => hold p fd' (Or.inl hp)
        · rw [Kernel.cur, hclose.running]
          exact hold k.running fd' (Or.inr (by rw [Int.toNat_natCast]; omega))

theorem PipeOpen.releaseFds (left fd : ℕ)
    (hk : PipeOpen g a bytes (count + slots k.cur.fdTable g left fd) k) (hfd : 3 ≤ fd)
    (hpos : 0 < count) (hcount : count + left < 2 ^ 32) :
    (releaseFds left fd).wp (fun _ k' => PipeOpen g a bytes count k' ∧
      k'.running = k.running ∧ k'.nextTask = k.nextTask ∧
      ∀ p, p ≠ k.running → (k'.tasks p).fdTable = (k.tasks p).fdTable) k := by
  induction left generalizing k fd with
  | zero => exact ⟨hk, rfl, rfl, fun _ _ => rfl⟩
  | succ left ih =>
      have hslots := slots_le k.cur.fdTable g left (fd + 1)
      rw [slots_succ, ← add_assoc] at hk
      rw [BochsOs.releaseFds, wp_bind]
      refine wp_mono (hk.releaseFd hfd (by omega)) ?_
      rintro - k₁ ⟨hk₁, hrunning, hnext, hfds, hrest⟩
      have hsame : slots k₁.cur.fdTable g left (fd + 1) = slots k.cur.fdTable g left (fd + 1) := by
        refine List.countP_congr fun i hi => ?_
        rw [hrest i (List.mem_range'_1.mp hi).1]
      rw [← hsame] at hk₁
      refine wp_mono (ih (fd + 1) hk₁ (by omega) (by omega)) ?_
      rintro - k₂ ⟨hk₂, hrunning₂, hnext₂, hfds₂⟩
      refine ⟨hk₂, hrunning₂.trans hrunning, hnext₂.trans hnext, fun p hp => ?_⟩
      rw [hfds₂ p (by rwa [hrunning]), hfds p hp]

theorem sameEnds_adoptChildren (k : Kernel) (pid : ℕ) : SameEnds k (k.adoptChildren pid) := by
  refine ⟨rfl, rfl, rfl, fun p => ?_⟩
  simp only [Kernel.adoptChildren]
  split <;> rfl

theorem PipeOpen.exit {status : ℤ}
    (hk : PipeOpen g a bytes (count + slots k.cur.fdTable g (maxFilesOpenPerProc - 3) 3) k)
    (hpos : 0 < count) (hcount : count + maxFilesOpenPerProc < 2 ^ 32) :
    (sysExit status).wp (fun _ k' => PipeOpen g a bytes count k' ∧ k'.nextTask = k.nextTask ∧
      ∀ p, p ≠ k.running → (k'.tasks p).fdTable = (k.tasks p).fdTable) k := by
  unfold sysExit
  rw [wp_bind, wp_modify, wp_bind, wp_read]
  have hset : SameEnds k (k.setTask k.running { k.cur with exitStatus := wrap8 status }) :=
    sameEnds_setTask k _ k.threadReadyList k.threadAllList k.running rfl
  set k₁ := k.setTask k.running { k.cur with exitStatus := wrap8 status } with hk₁
  split
  · trivial
  rw [wp_bind, wp_write, wp_bind, releaseProgResource]
  have h₂ : SameEnds k (k₁.adoptChildren k₁.cur.pid) := trans_of SameEnds hset (sameEnds_adoptChildren k₁ _)
  set k₂ := k₁.adoptChildren k₁.cur.pid with hk₂
  have hk' := hk.same h₂
  have hfds : k₂.cur.fdTable = k.cur.fdTable := h₂.fds k.running
  rw [← hfds] at hk'
  refine wp_mono (hk'.releaseFds _ 3 le_rfl hpos (by unfold maxFilesOpenPerProc at hcount ⊢; omega)) ?_
  rintro - k₃ ⟨hk₃, -, hnext, hrest⟩
  refine wp_mono ((exitFinish_within (R := SameEnds)).wp_of (refl k₃)) ?_
  intro _ k₄ h₄
  refine ⟨hk₃.same h₄, ?_, fun p hp => ?_⟩
  · rw [h₄.next, hnext, h₂.next]
  · rw [h₄.fds, hrest p hp, h₂.fds]

/-! ## One round of the shell -/

/-- The shell runs, with these descriptors, and the pipe holds `bytes`. -/
structure PipeAt (shell g a : ℕ) (fds : ℕ → ℤ) (bytes : List UInt8) (k : Kernel) : Prop
    extends PipeOpen g a bytes 2 k where
  running : k.running = shell
  lt : shell < k.nextTask
  table : (k.tasks shell).fdTable = fds

/-- After the fork: the child has the descriptors of the shell, and they are counted. -/
structure ChildAt (shell child g a : ℕ) (fds : ℕ → ℤ) (bytes : List UInt8) (k : Kernel) : Prop
    extends PipeOpen g a bytes (2 + slots fds g (maxFilesOpenPerProc - 3) 3) k where
  lt : shell < child
  next : k.nextTask = child + 1
  table : (k.tasks shell).fdTable = fds
  child : (k.tasks child).fdTable = fds

variable {shell child : ℕ} {fds : ℕ → ℤ}

theorem PipeAt.fork (hk : PipeAt shell g a fds bytes k) :
    sysFork.wp (fun pid k' => pid ≠ -1 → ChildAt shell k.nextTask g a fds bytes k') k := by
  refine wp_sysFork (fun h => absurd rfl h) (fun _ _ _ _ h => absurd rfl h) ?_
  intro pid _ _ _ _
  set k₁ : Kernel := { (k.takePid pid).setTask k.nextTask (forkTask k.cur pid) with
    nextTask := k.nextTask + 1 } with hk₁
  have hopen : PipeOpen g a bytes 2 k₁ := ⟨hk.entry, hk.alone, hk.queue⟩
  have hchild : (k₁.tasks k.nextTask).fdTable = k.cur.fdTable := by
    change (Function.update k.tasks k.nextTask (forkTask k.cur pid) k.nextTask).fdTable = _
    rw [Function.update_self]
    rfl
  have hshell : k₁.tasks shell = k.tasks shell := Function.update_of_ne hk.lt.ne _ _
  have hcurrent : k.cur.fdTable = fds := by rw [Kernel.cur, hk.running, hk.table]
  have hcur : k₁.cur.fdTable = fds := by
    change (k₁.tasks k.running).fdTable = fds
    rw [hk.running, hshell, hk.table]
  refine wp_mono (hopen.countFds k.nextTask (maxFilesOpenPerProc - 3) 3 (by decide) ?_) ?_
  · rw [hchild, hcurrent, hcur]
  rintro - k₂ ⟨hk₂, htasks, hrunning, hnext⟩ -
  rw [hcur] at hk₂
  refine ⟨⟨hk₂.entry, hk₂.alone, hk₂.queue⟩, hk.lt, hnext, ?_, ?_⟩
  · change (k₂.tasks shell).fdTable = fds
    rw [htasks, hshell, hk.table]
  · change (k₂.tasks k.nextTask).fdTable = fds
    rw [htasks, hchild, hcurrent]

theorem switchTo_ends (p : ℕ) (k : Kernel) :
    (switchTo p).wp (fun _ k' => SameEnds k k' ∧ k'.running = p) k := by
  rw [switchTo, wp_bind, wp_modify, wp_modify]
  refine ⟨trans_of SameEnds (TurnFrame.task k k.running .ready k.cur.ticks k.cur.elapsedTicks _ k.running)
    (TurnFrame.task _ p .running _ _ _ p), rfl⟩

/-- The child runs, and the shell goes on. -/
theorem ChildAt.runChild (hk : ChildAt shell child g a fds bytes k) (hfd : fds 1 = g)
    (hempty : (fds 0).toNat = g → bytes = []) (t : Transfer) (c : Command) :
    (runChild t c shell child).wp (fun stage => PipeAt shell g a fds (bytes ++ stage.written)) k := by
  rw [BochsOs.runChild, wp_bind]
  refine wp_mono (switchTo_ends child k) ?_
  rintro - k₁ ⟨h₁, hrunning⟩
  rw [wp_bind]
  have hcur : k₁.cur.fdTable = fds := by rw [Kernel.cur, hrunning, h₁.fds, hk.child]
  have hopen := hk.toPipeOpen.same h₁
  refine wp_mono (hopen.runCommand (by rw [hcur, hfd]) (by rw [hcur]; exact hempty) t c) ?_
  rintro stage _ ⟨hrun, queues, rfl⟩
  rw [wp_bind]
  set k₂ : Kernel := { k₁ with ioqueues := queues } with hk₂
  rw [← show k₂.cur.fdTable = fds from hcur] at hrun
  refine wp_mono (hrun.exit (by decide) (by decide)) ?_
  rintro - k₃ ⟨hk₃, hnext, hrest⟩
  rw [wp_bind]
  refine wp_mono (switchTo_ends shell k₃) ?_
  rintro - k₄ ⟨h₄, hrunning₄⟩
  refine ⟨hk₃.same h₄, hrunning₄, ?_, ?_⟩
  · rw [h₄.next, hnext]
    change shell < k₁.nextTask
    rw [h₁.next, hk.next]
    exact hk.lt.trans (Nat.lt_succ_self child)
  · have hne : shell ≠ k₂.running := by
      change shell ≠ k₁.running
      rw [hrunning]
      exact hk.lt.ne
    rw [h₄.fds, hrest shell hne]
    change (k₁.tasks shell).fdTable = fds
    rw [h₁.fds, hk.table]

theorem sysWaitRound_ends (k : Kernel) :
    sysWaitRound.wp (fun r k' => r = none ∨ SameEnds k k' ∧ k'.running = k.running) k := by
  rw [sysWaitRound, wp_bind, wp_read]
  split
  next child _ =>
    rw [wp_bind, threadExit_eq, if_neg Bool.false_ne_true]
    refine Or.inr ⟨⟨rfl, rfl, rfl, ?_⟩, rfl⟩
    exact (sameEnds_setTask k { k.tasks child with status := .died } k.threadReadyList
      k.threadAllList k.running rfl).fds
  next =>
    split
    · exact Or.inr ⟨refl k, rfl⟩
    · rw [wp_bind]
      exact wp_mono wp_true fun _ _ _ => Or.inl rfl

/-- One command, started with an empty pipe: what it has written and the line of the shell
are in the pipe. -/
theorem PipeAt.externalRun (hk : PipeAt shell g a fds [] k) (hfd : fds 1 = g) (t : Transfer)
    (c : Command) :
    (externalRun t c).wp (fun stage k' => ∀ s, stage = some s → ∃ childPid status,
      PipeAt shell g a fds (s.written ++ statusLine childPid status) k') k := by
  rw [BochsOs.externalRun, wp_bind, wp_read, wp_bind]
  refine wp_mono hk.fork ?_
  intro pid k₁ hfork
  dsimp only
  split
  · rw [wp_bind, wp_pure]
    exact wp_bind_any fun _ _ => wp_bind_any fun _ _ s hs => by cases hs
  next hpid =>
    rw [wp_bind, hk.running]
    refine wp_mono ((hfork hpid).runChild hfd (fun _ => rfl) t c) ?_
    intro stage k₂ hk₂
    rw [List.nil_append] at hk₂
    rw [wp_bind, wp_pure, wp_bind, waitChild, wp_bind]
    refine wp_mono (sysWaitRound_ends k₂) ?_
    rintro r k₃ (rfl | ⟨hsame, hrunning⟩)
    · trivial
    cases r with
    | none => trivial
    | some r =>
        simp only [wp_bind, wp_arbitrary, wp_pure, printf]
        intro byte
        have hk₃ : PipeOpen g a stage.written 2 k₃ := hk₂.toPipeOpen.same hsame
        have hcur : k₃.cur.fdTable 1 = g := by
          rw [Kernel.cur, hrunning, hk₂.running, hsame.fds, hk₂.table, hfd]
        refine wp_mono (hk₃.write hcur t _) ?_
        rintro - k₄ ⟨hk₄, ioq, rfl⟩ s hs
        obtain rfl := Option.some.inj hs
        refine ⟨_, _, hk₄, ?_, ?_, ?_⟩
        · exact hrunning.trans hk₂.running
        · change shell < k₃.nextTask
          rw [hsame.next]
          exact hk₂.lt
        · change (k₃.tasks shell).fdTable = fds
          rw [hsame.fds, hk₂.table]

/-- What a command with the pipe on its descriptor 0 can read is all that is in the pipe. -/
theorem PipeAt.externalRun_available (hk : PipeAt shell g a fds bytes k) (hfd : fds 0 = g)
    (t : Transfer) (c : Command) :
    (BochsOs.externalRun t c).wp (fun stage _ => ∀ s, stage = some s → s.available = bytes) k := by
  rw [BochsOs.externalRun, wp_bind, wp_read, wp_bind]
  refine wp_mono hk.fork ?_
  intro pid k₁ hfork
  dsimp only
  split
  · rw [wp_bind, wp_pure]
    exact wp_bind_any fun _ _ => wp_bind_any fun _ _ s hs => by cases hs
  next hpid =>
    have hchild := hfork hpid
    rw [wp_bind, BochsOs.runChild, wp_bind]
    refine wp_mono (switchTo_ends k.nextTask k₁) ?_
    rintro - k₂ ⟨h₂, hrunning⟩
    have havailable : k₂.available = bytes := by
      refine (hchild.toPipeOpen.same h₂).available ?_
      rw [Kernel.cur, hrunning, h₂.fds, hchild.child, hfd, Int.toNat_natCast]
    have hrun : (runCommand t c).wp (fun stage _ => stage.available = bytes) k₂ := by
      rw [runCommand, wp_bind, wp_read]
      dsimp only
      split
      · exact wp_bind_any fun _ _ => wp_bind_any fun _ _ => havailable
      · exact wp_bind_any fun _ _ => havailable
    rw [wp_bind]
    refine wp_mono hrun ?_
    intro stage _ hstage
    refine wp_bind_any fun _ _ => wp_bind_any fun _ _ => ?_
    rw [wp_pure, wp_bind, wp_pure]
    refine wp_bind_any fun _ _ => wp_bind_any fun _ _ s hs => ?_
    obtain rfl := Option.some.inj hs
    exact hstage

/-! ## Descriptors of the shell -/

theorem PipeAt.setFd (hk : PipeAt shell g a fds bytes k) (fd : ℕ) (value : ℤ) :
    PipeAt shell g a (Function.update fds fd value) bytes (k.setFd k.running fd value) where
  entry := hk.entry
  alone := hk.alone
  queue := hk.queue
  running := hk.running
  lt := hk.lt
  table := by
    change (Function.update k.tasks k.running _ shell).fdTable = _
    rw [hk.running, Function.update_self, hk.table]

/-- The descriptor stands for entry `g`, if it is one. -/
def Stands (fd : ℤ) (g : ℕ) (fds : ℕ → ℤ) : Prop :=
  asU32 fd < maxFilesOpenPerProc → 3 ≤ asU32 fd ∧ fds (asU32 fd) = g

theorem PipeAt.install (hk : PipeAt shell g a fds bytes k) :
    (pcbFdInstall g).wp (fun fd k' => ∃ fds', PipeAt shell g a fds' bytes k' ∧ Stands fd g fds' ∧
      ∀ n, fds n = g → fds' n = g) k := by
  rw [wp_pcbFdInstall]
  cases hfree : k.freeFd with
  | none => exact ⟨fds, hk, fun h => absurd h (by decide), fun _ h => h⟩
  | some fd =>
      obtain ⟨hlow, hhigh, -⟩ := Kernel.freeFd_some hfree
      refine ⟨_, hk.setFd fd g, fun _ => ?_, fun n hn => ?_⟩
      · have hfd : asU32 fd = fd := by
          unfold asU32 maxFilesOpenPerProc at *
          omega
        rw [hfd]
        exact ⟨hlow, Function.update_self _ _ _⟩
      · by_cases h : n = fd
        · rw [h, Function.update_self]
        · rw [Function.update_of_ne h, hn]

theorem sysPipe_opens (hlt : k.running < k.nextTask)
    (hfresh : ∀ g < maxFileOpen, (k.fileTable g).fdInode ≠ some k.nextInode) :
    sysPipe.wp (fun r k' => ∃ g a fds, PipeAt k.running g a fds [] k' ∧ Stands r.2.1 g fds ∧
      Stands r.2.2 g fds) k := by
  unfold sysPipe
  rw [wp_bind]
  refine getFreeSlotInGlobal_spec trivial fun g _ _ _ => ?_
  simp only [wp_bind, wp_sysMallocUnchecked, wp_read, wp_write, wp_modify, wp_pure]
  set k₁ : Kernel := { k with
    nextInode := k.nextInode + 1
    ioqueues := Function.update k.ioqueues k.nextInode ioqueueInit } with hk₁
  have hopen : PipeAt k.running g k.nextInode (k.tasks k.running).fdTable []
      (k₁.setFile g ⟨2, pipeFlag, some k.nextInode⟩) := by
    refine ⟨⟨Function.update_self _ _ _, fun g' hlt' hg' => ?_, ?_⟩, rfl, hlt, rfl⟩
    · change (Function.update k.fileTable g _ g').fdInode ≠ _
      rw [Function.update_of_ne hg']
      exact hfresh g' hlt'
    · change (Function.update k.ioqueues k.nextInode ioqueueInit k.nextInode).Holds []
      rw [Function.update_self]
      exact ioqueueInit_holds
  refine wp_mono hopen.install ?_
  rintro fd₀ k₂ ⟨fds₂, hk₂, hstands₀, -⟩
  refine wp_mono hk₂.install ?_
  rintro fd₁ k₃ ⟨fds₃, hk₃, hstands₁, hkeep⟩
  exact ⟨g, _, fds₃, hk₃, fun h => ⟨(hstands₀ h).1, hkeep _ (hstands₀ h).2⟩, hstands₁⟩

theorem PipeAt.dup2 (hk : PipeAt shell g a fds bytes k) {fd : ℤ} (hstands : Stands fd g fds) (old : ℕ) :
    (sysDup2 (asU32 fd) old).wp (fun _ => PipeAt shell g a (Function.update fds old g) bytes) k := by
  rw [wp_sysDup2]
  intro _ hlt
  obtain ⟨hlow, hvalue⟩ := hstands hlt
  have hdup : k.dupValue (asU32 fd) = g := by
    rw [Kernel.dupValue, if_neg (by omega), Kernel.cur, hk.running, hk.table, hvalue]
  rw [hdup]
  exact hk.setFd old g

/-! ## The pipeline -/

/-- The second command could read what the first one wrote, with a line of the shell after
it. -/
def SecondSees (stages : List (Option Stage)) : Prop :=
  ∃ stage stage' rest, stages = stage :: stage' :: rest ∧
    ∀ s s', stage = some s → stage' = some s' →
      ∃ childPid status, s'.available = s.written ++ statusLine childPid status

theorem statusLine_ne_nil (childPid status : ℤ) : statusLine childPid status ≠ [] := by
  simp [statusLine, asciiBytes]

theorem second_available (hlt : k.running < k.nextTask)
    (hfresh : ∀ g < maxFileOpen, (k.fileTable g).fdInode ≠ some k.nextInode) (t : Transfer) (first : Command)
    (middle : List Command) (last : Command) :
    (pipeRun t first middle last).wp (fun stages _ => SecondSees stages) k := by
  rw [pipeRun, wp_bind]
  refine wp_mono (sysPipe_opens hlt hfresh) ?_
  rintro ⟨ret, fd₀, fd₁⟩ k₁ ⟨g, a, fds, hk₁, hstands₀, hstands₁⟩
  dsimp only at hstands₀ hstands₁ ⊢
  rw [wp_bind]
  refine wp_mono (hk₁.dup2 hstands₁ 1) ?_
  intro _ k₂ hk₂
  rw [wp_bind]
  refine wp_mono (hk₂.externalRun (Function.update_self _ _ _) t first) ?_
  intro stage k₃ hstage
  -- redirecting descriptor 1 to the pipe leaves the descriptors of the pipe alone
  have hstands₀' : Stands fd₀ g (Function.update fds 1 g) := by
    intro h
    obtain ⟨hlow, hvalue⟩ := hstands₀ h
    rw [Function.update_of_ne (by omega)]
    exact ⟨hlow, hvalue⟩
  cases stage with
  | none =>
      refine wp_bind_any fun _ _ => wp_bind_any fun stages _ => wp_bind_any fun _ _ =>
        wp_bind_any fun stage' _ => wp_bind_any fun _ _ => wp_bind_any fun _ _ =>
          wp_bind_any fun _ _ => ?_
      cases stages with
      | nil => exact ⟨none, stage', [], rfl, fun s s' hs => by cases hs⟩
      | cons second rest => exact ⟨none, second, rest ++ [stage'], rfl, fun s s' hs => by cases hs⟩
  | some s =>
      obtain ⟨childPid, status, hk₃⟩ := hstage s rfl
      rw [wp_bind]
      refine wp_mono (hk₃.dup2 hstands₀' 0) ?_
      intro _ k₄ hk₄
      rw [wp_bind]
      cases middle with
      | nil =>
          rw [runMiddle, wp_pure, wp_bind, wp_sysDup2]
          intro _ _
          rw [wp_bind]
          have hk₅ := hk₄.setFd 1 (k₄.dupValue 1)
          refine wp_mono (hk₅.externalRun_available ?_ t last) ?_
          · rw [Function.update_of_ne (by decide)]
            exact Function.update_self _ _ _
          intro stage' _ hsees
          refine wp_bind_any fun _ _ => wp_bind_any fun _ _ => wp_bind_any fun _ _ => ?_
          refine ⟨some s, stage', [], rfl, fun s₁ s' hs hs' => ⟨childPid, status, ?_⟩⟩
          obtain rfl := Option.some.inj hs
          exact hsees s' hs'
      | cons c rest =>
          rw [runMiddle, wp_bind]
          refine wp_mono (hk₄.externalRun_available (Function.update_self _ _ _) t c) ?_
          intro second _ hsees
          refine wp_bind_any fun stages _ => ?_
          rw [wp_pure]
          refine wp_bind_any fun _ _ => wp_bind_any fun stage' _ => wp_bind_any fun _ _ =>
            wp_bind_any fun _ _ => wp_bind_any fun _ _ => ?_
          refine ⟨some s, second, stages ++ [stage'], rfl, fun s₁ s' hs hs' => ⟨childPid, status, ?_⟩⟩
          obtain rfl := Option.some.inj hs
          exact hsees s' hs'

/-- No pipeline that comes to its end is connected: the running process and the addresses
in use are below what the kernel hands out next. -/
theorem pipeline_never_connected {k k' : Kernel} {t : Transfer} {first last : Command}
    {middle : List Command} {stages : List (Option Stage)} (hlt : k.running < k.nextTask)
    (hfresh : ∀ g < maxFileOpen, (k.fileTable g).fdInode ≠ some k.nextInode)
    (hrun : (pipeRun t first middle last).Returns k stages k') : ¬ Connected stages := by
  obtain ⟨stage, stage', rest, rfl, hsees⟩ :=
    wp_iff_returns.mp (second_available hlt hfresh t first middle last) _ _ hrun
  rintro ⟨ran, hran, hconnected⟩
  match ran, hran with
  | s :: s' :: ran, hran =>
      obtain ⟨hs, hs', -⟩ : stage = some s ∧ stage' = some s' ∧ rest = ran.map some := by
        simpa using hran
      obtain ⟨childPid, status, havailable⟩ := hsees s s' hs hs'
      rw [hconnected 0 s s' rfl rfl] at havailable
      have hlen := congrArg List.length havailable
      have hpos := List.length_pos_of_ne_nil (statusLine_ne_nil childPid status)
      rw [List.length_append] at hlen
      omega

/-- The processor after the boot, when `init` runs for the first time. -/
def firstRun : Kernel := (follow PipeCall.exec (List.replicate 32 .timer) bootKernel).getD default

/-- A command that writes two bytes. -/
def twoBytes : Command := ⟨fun _ => 0, fun _ => [65, 66], 0⟩

/-- A command that reads all it can and writes nothing. -/
def readAll : Command := ⟨List.length, fun _ => [], 0⟩

theorem firstRun_ready : firstRun.running < firstRun.nextTask ∧
    ∀ g < maxFileOpen, (firstRun.fileTable g).fdInode ≠ some firstRun.nextInode := by
  unfold firstRun bootKernel
  decide +kernel

theorem firstRun_pipeline :
    ((pipeRun .repeated twoBytes [] readAll).exec [] firstRun).map
      (fun r => r.1.map (·.map fun s => (s.available.length, s.written))) =
        some [some (0, [65, 66]), some (31, [])] := by
  unfold firstRun bootKernel
  decide +kernel

/-- A run of a two-stage pipeline, and what the second command sees. -/
theorem pipeline_never_connected_two :
    ∃ stages k', (pipeRun .repeated twoBytes [] readAll).Returns firstRun stages k' ∧
      ¬ Connected stages := by
  obtain ⟨⟨stages, k'⟩, hexec, -⟩ := Option.map_eq_some_iff.mp firstRun_pipeline
  have hrun := returns_of_exec hexec
  exact ⟨stages, k', hrun, pipeline_never_connected firstRun_ready.1 firstRun_ready.2 hrun⟩

/-- The second command finds 31 bytes where the first one wrote two. -/
theorem status_line_in_pipe :
    ¬ ∀ (k k' : Kernel) (t : Transfer) (first : Command) (middle : List Command) (last : Command)
      (stages : List (Option Stage)), k.running < k.nextTask →
      (∀ g < maxFileOpen, (k.fileTable g).fdInode ≠ some k.nextInode) →
      (pipeRun t first middle last).Returns k stages k' → none ∉ stages → Connected stages := by
  intro hclaim
  obtain ⟨⟨stages, k'⟩, hexec, hstages⟩ := Option.map_eq_some_iff.mp firstRun_pipeline
  dsimp only at hstages
  have hran : none ∉ stages := by
    intro hnone
    have hmem := List.mem_map_of_mem (f := Option.map fun s : Stage => (s.available.length, s.written)) hnone
    rw [hstages] at hmem
    simp at hmem
  obtain ⟨ran, rfl, hconnected⟩ := hclaim _ _ _ _ _ _ _ firstRun_ready.1 firstRun_ready.2
    (returns_of_exec hexec) hran
  rw [List.map_map] at hstages
  have hzero := congrArg (·[0]?) hstages
  have hone := congrArg (·[1]?) hstages
  simp only [List.getElem?_map] at hzero hone
  obtain ⟨s, hs, hwritten⟩ := Option.map_eq_some_iff.mp hzero
  obtain ⟨s', hs', havailable⟩ := Option.map_eq_some_iff.mp hone
  simp only [Function.comp_apply, Option.map_some, Option.some.injEq, Prod.mk.injEq] at hwritten havailable
  have hsame := congrArg List.length (hconnected 0 s s' hs hs')
  rw [hwritten.2, havailable.1] at hsame
  exact absurd hsame (by decide)

end BochsOs
