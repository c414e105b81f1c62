import BochsOs.Fs.Search

/-!
# What a path denotes and what is found

`Kernel.resolve` says what a path denotes: every name but the last leads to a directory.
`search_file` does not tell that apart from a path that goes on behind the name of a file;
there it stops at the file and reports it as found (`Kernel.throughFile`).  `Searched` lists
what `search_file` can return, case by case, with what the path denotes in that case.  A path
of several slashes has no name to look up at all; then the number that comes back is whatever
stood in `dir_e` (`exec_slashRun`).
-/

namespace BochsOs

open ByteMemory Suspend Suspend.Prog NameTrees Words

/-! ## Paths through files -/

/-- The file in the middle of a path: the first name of a file that is not the last name. -/
def Kernel.throughFile (t : Transfer) (k : Kernel) : (n : ℕ) → List (List UInt8) → Option ℕ
  | n, w :: w' :: ws =>
      match k.lookup t n w with
      | some (m, .regular) => some m
      | some (m, .directory) => k.throughFile t m (w' :: ws)
      | _ => none
  | _, _ => none

/-- A number that names a file or directory. -/
structure Kernel.Names (t : Transfer) (k : Kernel) (m : ℕ) : Prop where
  small : m < maxFilesPerPart
  iNo : (k.inodeOf t m).iNo = m

theorem Kernel.DirOk.names {t : Transfer} {k : Kernel} {n : ℕ} (hn : k.DirOk t n) : k.Names t n :=
  ⟨hn.small, hn.iNo⟩

/-- The name of a file leads to an inode other than that of the root. -/
theorem ConsistentTree.lookup_file {t : Transfer} {k : Kernel} (hk : ConsistentTree t k) {n m : ℕ}
    (hn : k.IsDir t n) {w : List UInt8} (hzero : (0 : UInt8) ∉ w) (hword : IsWord slash w)
    (hlookup : k.lookup t n w = some (m, .regular)) : k.Names t m ∧ m ≠ 0 := by
  have hdir := hk.dir n hn
  have hname : IsName w := by
    refine ⟨hword, hzero, fun hdot => ?_, fun hdot => ?_⟩
    · rw [hdot, hdir.lookup_dot hk.cache] at hlookup
      cases hlookup
    · rw [hdot, hdir.lookup_dotDot hk.cache] at hlookup
      cases hlookup
  obtain ⟨s, hs, hused, -, rfl, -⟩ := hdir.lookup_name hk.cache hname hlookup
  exact ⟨⟨hused.small, hk.iNo n hn s hs hused.pos.ne'⟩, hused.pos.ne'⟩

/-- What `search_file` finds, by what the names denote from the directory `n` on. -/
inductive FindCase (t : Transfer) (k : Kernel) (n : ℕ) (own : Bool)
    (searched ws : List (List UInt8)) : Found → Prop
  | directory {m p : ℕ} {own' : Bool} {searched' : List (List UInt8)}
      (hresolve : k.resolve t n ws = some (m, .directory)) (hthrough : k.throughFile t n ws = none)
      (hm : k.IsDir t m) (hp : k.IsDir t p) :
      FindCase t k n own searched ws ⟨some m, p, .directory, searched', own'⟩
  | file {m p : ℕ} (hresolve : k.resolve t n ws = some (m, .regular))
      (hthrough : k.throughFile t n ws = none) (hm : k.Names t m) (hpos : m ≠ 0)
      (hp : k.IsDir t p) :
      FindCase t k n own searched ws
        ⟨some m, p, .regular, searched ++ ws, own || decide (1 < ws.length)⟩
  | through {m p : ℕ} {own' : Bool} {ws' : List (List UInt8)} (hresolve : k.resolve t n ws = none)
      (hthrough : k.throughFile t n ws = some m) (hm : k.Names t m) (hpos : m ≠ 0)
      (hp : k.IsDir t p) (hne : ws' ≠ []) (hshort : ws'.length < ws.length)
      (hbegin : ws' <+: ws) :
      FindCase t k n own searched ws ⟨some m, p, .regular, searched ++ ws', own'⟩
  | nothing {p : ℕ} {own' : Bool} {ws' : List (List UInt8)}
      (hresolve : k.resolve t n ws = none) (hthrough : k.throughFile t n ws = none)
      (hp : k.IsDir t p) (hne : ws' ≠ []) (hbegin : ws' <+: ws) :
      FindCase t k n own searched ws ⟨none, p, .unknown, searched ++ ws', own'⟩

/-- The cases of the rest of a path are those of the path, one directory further up. -/
theorem FindCase.cons {t : Transfer} {k : Kernel} {n m : ℕ} {own : Bool}
    {searched ws : List (List UInt8)} {w w' : List UInt8} {f : Found}
    (hlookup : k.lookup t n w = some (m, .directory))
    (hcase : FindCase t k m true (searched ++ [w]) (w' :: ws) f) :
    FindCase t k n own searched (w :: w' :: ws) f := by
  have hresolve : k.resolve t n (w :: w' :: ws) = k.resolve t m (w' :: ws) := by
    rw [Kernel.resolve, Kernel.subdir_eq_some.mpr hlookup, Option.bind_some]
  have hthrough : k.throughFile t n (w :: w' :: ws) = k.throughFile t m (w' :: ws) := by
    rw [Kernel.throughFile, hlookup]
  have hsearched : ∀ l, (searched ++ [w]) ++ l = searched ++ w :: l := fun l => by
    rw [List.append_assoc, List.singleton_append]
  cases hcase with
  | directory hr ht hm hp => exact .directory (hresolve.trans hr) (hthrough.trans ht) hm hp
  | file hr ht hm hpos hp =>
      have hcase : FindCase t k n own searched (w :: w' :: ws) _ :=
        .file (hresolve.trans hr) (hthrough.trans ht) hm hpos hp
      rw [hsearched]
      simpa using hcase
  | through hr ht hm hpos hp hne hshort hbegin =>
      rw [hsearched]
      exact .through (hresolve.trans hr) (hthrough.trans ht) hm hpos hp (List.cons_ne_nil _ _)
        (Nat.succ_lt_succ hshort) (List.cons_prefix_cons.mpr ⟨rfl, hbegin⟩)
  | nothing hr ht hp hne hbegin =>
      rw [hsearched]
      exact .nothing (hresolve.trans hr) (hthrough.trans ht) hp (List.cons_ne_nil _ _)
        (List.cons_prefix_cons.mpr ⟨rfl, hbegin⟩)

/-- A list of names that a path can consist of. -/
def AreNames (ws : List (List UInt8)) : Prop := ∀ w ∈ ws, IsWord slash w ∧ (0 : UInt8) ∉ w

theorem areNames_words (path : CString) : AreNames (words slash path.val) := fun _ hw =>
  ⟨(isWord_of_mem_words hw).1, fun hzero => path.property ((isWord_of_mem_words hw).2 hzero)⟩

theorem ConsistentTree.findCase {t : Transfer} {k : Kernel} (hk : ConsistentTree t k)
    {ws : List (List UInt8)} (hnil : ws ≠ []) (hws : AreNames ws) {n p i : ℕ} {own : Bool}
    {searched : List (List UInt8)} (hn : k.IsDir t n) :
    FindCase t k n own searched ws (k.find t n p i own searched ws) := by
  induction ws generalizing n p i own searched with
  | nil => exact absurd rfl hnil
  | cons w ws ih =>
      obtain ⟨hword, hzero⟩ := hws w List.mem_cons_self
      have htype {m : ℕ} {ty : FileType} (hlookup : k.lookup t n w = some (m, ty)) :
          ty = .regular ∨ ty = .directory := (hk.dir n hn).lookup_type hk.cache hword hzero hlookup
      cases ws with
      | nil =>
          -- the last name
          rw [Kernel.find]
          rcases hlookup : k.lookup t n w with _ | ⟨m, ty⟩
          · exact .nothing hlookup rfl hn (List.cons_ne_nil w []) (List.prefix_refl _)
          · rcases htype hlookup with rfl | rfl
            · obtain ⟨hm, hpos⟩ := hk.lookup_file hn hzero hword hlookup
              have hcase : FindCase t k n own searched [w] _ := .file hlookup rfl hm hpos hn
              dsimp only
              rw [asInt_of_lt hm.small]
              simpa using hcase
            · have hm := hn.step hlookup
              dsimp only
              rw [Kernel.find, asInt_of_lt (hk.dir m hm).small]
              exact .directory hlookup rfl hm hn
      | cons w' ws =>
          rw [Kernel.find]
          rcases hlookup : k.lookup t n w with _ | ⟨m, ty⟩
          · have hsub : k.subdir t n w = none := by rw [Kernel.subdir, hlookup]
            refine .nothing ?_ ?_ hn (List.cons_ne_nil w [])
              (List.cons_prefix_cons.mpr ⟨rfl, List.nil_prefix⟩)
            · rw [Kernel.resolve, hsub, Option.bind_none]
            · rw [Kernel.throughFile, hlookup]
          · rcases htype hlookup with rfl | rfl
            · have hsub : k.subdir t n w = none := by rw [Kernel.subdir, hlookup]
              obtain ⟨hm, hpos⟩ := hk.lookup_file hn hzero hword hlookup
              dsimp only
              rw [asInt_of_lt hm.small]
              refine .through ?_ ?_ hm hpos hn (List.cons_ne_nil w []) (by simp)
                (List.cons_prefix_cons.mpr ⟨rfl, List.nil_prefix⟩)
              · rw [Kernel.resolve, hsub, Option.bind_none]
              · rw [Kernel.throughFile, hlookup]
            · exact .cons hlookup (ih (List.cons_ne_nil w' ws)
                (fun v hv => hws v (List.mem_cons_of_mem w hv)) (hn.step hlookup))

/-- What a path denotes. -/
def Kernel.denotes (t : Transfer) (k : Kernel) (path : List UInt8) : Option (ℕ × FileType) :=
  k.resolve t 0 (words slash path)

/-- The file that a path goes through. -/
def Kernel.passes (t : Transfer) (k : Kernel) (path : List UInt8) : Option ℕ :=
  k.throughFile t 0 (words slash path)

theorem ConsistentTree.findPath_case {t : Transfer} {k : Kernel} (hk : ConsistentTree t k)
    {path : CString} (hpath : LookupPath path.val) :
    FindCase t k 0 false [] (words slash path.val) (k.findPath t path.val) := by
  have hroot := k.isDir_root t
  have hdir := hk.dir 0 hroot
  unfold Kernel.findPath
  by_cases hspecial : isRootPath path.val = true
  · -- `/`, `/.` and `/..`
    rw [if_pos hspecial]
    simp only [isRootPath, Bool.or_eq_true, decide_eq_true_eq] at hspecial
    rcases hspecial with (heq | heq) | heq
    · rw [heq]
      exact .directory rfl rfl hroot hroot
    · have hone : words slash (slash :: dotName) = [dotName] := by
        rw [words_sep_cons]
        exact words_of_isWord (by decide)
      rw [heq, hone]
      exact .directory (hdir.lookup_dot hk.cache) rfl hroot hroot
    · have hone : words slash (slash :: dotDotName) = [dotDotName] := by
        rw [words_sep_cons]
        exact words_of_isWord (by decide)
      rw [heq, hone]
      refine .directory ?_ rfl hroot hroot
      have hlookup := hdir.lookup_dotDot hk.cache
      rwa [hk.up_root] at hlookup
  · rw [if_neg hspecial]
    refine hk.findCase (hpath.notSlashes.resolve_right fun heq => hspecial ?_) (areNames_words path)
      hroot
    rw [heq]
    decide

/-! ## What `search_file` returns -/

/-- What `search_file` can return in the environment `e`. -/
inductive Searched (t : Transfer) (e : Env) (k₀ : Kernel) (path : List UInt8) :
    Option ℕ × PathSearchRecord → Kernel → Prop
  | directory {m p : ℕ} {record : PathSearchRecord} {k : Kernel}
      (hdenotes : k₀.denotes t path = some (m, .directory)) (hpasses : k₀.passes t path = none)
      (hm : k₀.IsDir t m) (hp : k₀.IsDir t p) (htype : record.fileType = .directory)
      (hhold : Holding t k₀ p record.parentDir k) : Searched t e k₀ path (some m, record) k
  | file {m p : ℕ} {record : PathSearchRecord} {k : Kernel}
      (hdenotes : k₀.denotes t path = some (m, .regular)) (hpasses : k₀.passes t path = none)
      (hm : k₀.Names t m) (hpos : m ≠ 0) (htype : record.fileType = .regular)
      (hpath : record.searchedPath = join slash (words slash path))
      (hroot : record.parentDir = rootDir ↔ (words slash path).length ≤ 1)
      (hhold : Holding t k₀ p record.parentDir k) : Searched t e k₀ path (some m, record) k
  | through {m p : ℕ} {record : PathSearchRecord} {k : Kernel} {ws : List (List UInt8)}
      (hdenotes : k₀.denotes t path = none) (hpasses : k₀.passes t path = some m)
      (hm : k₀.Names t m) (hpos : m ≠ 0) (htype : record.fileType = .regular)
      (hpath : record.searchedPath = join slash ws) (hne : ws ≠ [])
      (hshort : ws.length < (words slash path).length) (hbegin : ws <+: words slash path)
      (hhold : Holding t k₀ p record.parentDir k) : Searched t e k₀ path (some m, record) k
  | nothing {p : ℕ} {record : PathSearchRecord} {k : Kernel}
      (hnone : k₀.denotes t path = none ∧ k₀.passes t path = none ∨ e.stops)
      (hpath : e.stops ∨ ∃ ws, ws ≠ [] ∧ ws <+: words slash path ∧
        record.searchedPath = join slash ws)
      (htype : record.fileType = .unknown) (hhold : Holding t k₀ p record.parentDir k) :
      Searched t e k₀ path (none, record) k

theorem ensures_searched {t : Transfer} {e : Env} (he : FairEnv e) {k : Kernel}
    (hk : ConsistentTree t k) {path : CString} (hpath : LookupPath path.val)
    (hnames : e.stops ∨ k.Fits t 0 (words slash path.val)) :
    (searchFile t path).ensures e (Searched t e k path.val) k := by
  refine ensures_searchFile he hk (.refl k) hpath hnames ?_ ?_
  · rintro ⟨iNo, record⟩ k₁ ⟨hiNo, htype, hsearched, hhold, hown⟩
    have hcase := hk.findPath_case hpath
    dsimp only at hiNo htype hsearched hhold hown
    generalize k.findPath t path.val = f at hcase hiNo htype hsearched hhold hown
    subst hiNo
    cases hcase with
    | directory hr ht hm hp => exact .directory hr ht hm hp htype hhold
    | file hr ht hm hpos hp =>
        refine .file hr ht hm hpos htype hsearched ?_ hhold
        rw [hown, Bool.false_or, decide_eq_false_iff_not, Nat.not_lt]
    | through hr ht hm hpos hp hne hshort hbegin =>
        exact .through hr ht hm hpos htype hsearched hne hshort hbegin hhold
    | nothing hr ht hp hne hbegin =>
        exact .nothing (Or.inl ⟨hr, ht⟩) (Or.inr ⟨_, hne, hbegin, hsearched⟩) htype hhold
  · rintro hstops ⟨iNo, record⟩ k₁ ⟨hiNo, htype, m, -, hhold⟩
    dsimp only at hiNo
    subst hiNo
    exact .nothing (Or.inr hstops) (Or.inl hstops) htype hhold

/-! ## Counting names -/

section Depth

variable {e : Env} {k : Kernel} {Q : ℕ → Kernel → Prop}

theorem ensures_depthLoop {fuel depth : ℕ} {subPath : Option (List UInt8)}
    (hfuel : (words slash (subPath.getD [])).length ≤ fuel)
    (hnames : ∀ w ∈ words slash (subPath.getD []), w.length ≤ maxFileNameLen) :
    (depthLoop fuel subPath depth).ensures e Q k ↔
      Q (depth + (words slash (subPath.getD [])).length) k := by
  induction fuel generalizing subPath depth with
  | zero =>
      rw [Nat.le_zero.mp hfuel]
      exact Iff.rfl
  | succ fuel ih =>
      have hrest := namesOf_nextName subPath
      unfold namesOf at hrest
      rw [← hrest] at hfuel hnames ⊢
      rw [depthLoop]
      dsimp only
      by_cases hname : (nextName subPath).1 = []
      · rw [if_pos hname, if_pos hname, hname, if_neg (by simp)]
        exact Iff.rfl
      · rw [if_neg hname] at hfuel hnames ⊢
        have hshort := hnames _ List.mem_cons_self
        rw [if_neg hname, if_neg (by omega),
          ih (Nat.le_of_succ_le_succ hfuel) fun w hw => hnames w (List.mem_cons_of_mem _ hw),
          List.length_cons, Nat.add_right_comm, Nat.add_assoc]

/-- `path_depth_cnt` counts the names of a path that has one. -/
theorem ensures_pathDepthCnt {path : List UInt8} (hnil : words slash path ≠ [])
    (hfuel : (words slash path).length ≤ path.length + 1)
    (hnames : ∀ w ∈ words slash path, w.length ≤ maxFileNameLen) :
    (pathDepthCnt path).ensures e Q k ↔ Q (words slash path).length k := by
  have hparse := namesOf_pathParse path
  unfold namesOf at hparse
  have hname : (pathParse path).1 ≠ [] := by
    intro hempty
    rw [if_pos hempty] at hparse
    exact hnil hparse.symm
  rw [if_neg hname] at hparse
  rw [← hparse] at hfuel hnames ⊢
  have hshort := hnames _ List.mem_cons_self
  rw [pathDepthCnt]
  dsimp only
  rw [if_neg (by omega), if_neg hname,
    ensures_depthLoop (Nat.le_of_succ_le_succ hfuel) fun w hw => hnames w (List.mem_cons_of_mem _ hw),
    List.length_cons, Nat.add_comm]

end Depth

/-! ## Paths of slashes -/

/-- A path of several slashes and nothing else. -/
def SlashRun (path : List UInt8) : Prop := words slash path = [] ∧ path ≠ [slash]

instance (path : List UInt8) : Decidable (SlashRun path) :=
  inferInstanceAs (Decidable (_ ∧ _))

/-- The absolute paths that are not too long are looked up, or are runs of slashes. -/
theorem lookupPath_of_not_slashRun {path : List UInt8} (habs : path.head? = some slash)
    (hlen : path.length < maxPathLen) (hrun : ¬ SlashRun path) : LookupPath path :=
  ⟨habs, hlen, or_iff_not_imp_left.mpr fun hwords => by
    by_contra hne
    exact hrun ⟨not_not.mp hwords, hne⟩⟩

theorem SlashRun.not_isRootPath {path : List UInt8} (hrun : SlashRun path) :
    ¬ isRootPath path = true := by
  obtain ⟨hwords, hne⟩ := hrun
  simp only [isRootPath, Bool.or_eq_true, decide_eq_true_eq, not_or]
  refine ⟨⟨hne, fun heq => ?_⟩, fun heq => ?_⟩
  · rw [heq] at hwords
    revert hwords
    decide
  · rw [heq] at hwords
    revert hwords
    decide

theorem SlashRun.length {path : List UInt8} (hrun : SlashRun path)
    (habs : path.head? = some slash) : 1 < path.length := by
  rcases path with _ | ⟨c, _ | ⟨c', rest⟩⟩
  · cases habs
  · rw [List.head?_cons, Option.some.injEq] at habs
    exact absurd (by rw [habs]) hrun.2
  · simp

/-- For a run of slashes the number that `search_file` returns is the first answer of the
environment: that of the entry on the stack. -/
theorem exec_slashRun {t : Transfer} {k : Kernel} (hk : ConsistentTree t k) {path : CString}
    (hrun : SlashRun path.val) (habs : path.val.head? = some slash)
    (hlen : path.val.length < maxPathLen) (answers : List ℕ) (htail : answers.tail = []) :
    ∃ d k', Holding t k 0 d k' ∧
      ∀ {α : Type} (g : Option ℕ × PathSearchRecord → Prog Kernel α),
        (searchFile t path >>= g).exec answers k =
          (g (asInt (answers.headD 0 % 2 ^ 32), ⟨[], d, .directory⟩)).exec [] k' := by
  have hroot := hrun.not_isRootPath
  have hlong := hrun.length habs
  obtain ⟨hwords, hne⟩ := hrun
  have hname : (pathParse path.val).1 = [] := by
    have hparse := namesOf_pathParse path.val
    rw [hwords] at hparse
    unfold namesOf at hparse
    by_contra hname
    rw [if_neg hname] at hparse
    cases hparse
  obtain ⟨d, k', hexec, hhold⟩ := exec_of_ensures (ensures_dirOpen fairEnv_zero hk.cache
    (hk.dir 0 (k.isDir_root t)) (.refl k) (Q := fun d k' => Holding t k 0 d k') fun _ _ _ h => h)
  refine ⟨d, k', hhold, fun g => ?_⟩
  have hstart : (searchFile t path >>= g).exec answers k =
      (searchLoop t (path.val.length + 1) ⟨rootDir, 0, answers.headD 0 % 2 ^ 32,
        (pathParse path.val).1, (pathParse path.val).2, []⟩ >>= g).exec answers.tail k := by
    rw [searchFile, searchFileBy]
    dsimp only
    rw [if_neg hroot, decide_eq_true ⟨habs, hlong, hlen⟩, parseFits_of_le (by simp [hname])]
    rfl
  rw [hstart, htail, searchLoop, searchLoopBy, if_pos hname, exec_bind_nil, exec_bind_nil]
  change ((((dirOpen t 0) >>= _).exec [] k).bind _) = _
  rw [exec_bind_nil, hexec]
  rfl

end BochsOs
