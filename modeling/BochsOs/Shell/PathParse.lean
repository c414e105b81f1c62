import BochsOs.Fs.Cwd

/-!
# Cleaning paths in the shell

`shell/path_parse.c`.  The shell hands only paths without `.` and `..` to the kernel:
`make_clear_abs_path` puts the working directory in front of a relative path, and
`wash_path` goes through the names and keeps a text in which `..` takes back the last name.

The kernel itself follows `.` and `..` through the entries of the directories.  In a
consistent tree the two agree, since the text is always the path of the directory that the
names walked so far lead to (`washStep_pathOf` and `NameTree.at_push`).
-/

namespace BochsOs

open ByteMemory Suspend Suspend.Prog NameTrees Words

/-- One round of the loop of `wash_path`. -/
def washStep (newAbsPath name : List UInt8) : List UInt8 :=
  if name = dotDotName then
    -- the place of the last slash
    let slashPtr := newAbsPath.length - (slash :: afterLastSlash newAbsPath).length
    if slashPtr ≠ 0 then newAbsPath.take slashPtr else newAbsPath.take (slashPtr + 1)
  else if name ≠ dotName then
    (if newAbsPath ≠ [slash] then newAbsPath ++ [slash] else newAbsPath) ++ name
  else newAbsPath

/-- The loop of `wash_path`. -/
def washLoop : (fuel : ℕ) → (newAbsPath name : List UInt8) → (subPath : Option (List UInt8)) →
    Prog Kernel (List UInt8)
  | 0, _, _, _ => stop .hang
  | fuel + 1, newAbsPath, name, subPath =>
      if name = [] then return newAbsPath
      else if maxFileNameLen ≤ name.length then stop .undefined
      else
        let (next, rest) := nextName subPath
        washLoop fuel (washStep newAbsPath name) next rest

/-- `wash_path`. -/
def washPath (oldAbsPath : List UInt8) : Prog Kernel (List UInt8) := do
  assert (oldAbsPath.head? = some slash)
  let (name, subPath) := pathParse oldAbsPath
  if name = [] then return [slash]
  else washLoop (oldAbsPath.length + 1) [slash] name subPath

/-- The path with the working directory in front of it, unless it is absolute. -/
def absPath (cwd path : List UInt8) : List UInt8 :=
  if path.head? ≠ some slash then (if cwd = [slash] then cwd else cwd ++ [slash]) ++ path
  else path

/-- `make_clear_abs_path`: what `final_path` holds afterwards. -/
def makeClearAbsPath (t : Transfer) (path finalPath : List UInt8) : Prog Kernel (List UInt8) := do
  let cwd ← if path.head? ≠ some slash then sysGetcwd t maxPathLen else pure (some [])
  match cwd with
  | none => return finalPath
  | some cwd =>
      if maxPathLen ≤ (absPath cwd path).length then stop .undefined
      else washPath (absPath cwd path)

/-! ## The text and the names -/

/-- The step that a name stands for. -/
def moveOf (w : List UInt8) : Move (List UInt8) :=
  if w = dotName then .here else if w = dotDotName then .up else .down w

theorem pathOf_snoc (s : List (List UInt8)) (w : List UInt8) :
    pathOf (s ++ [w]) = join slash s ++ slash :: w := by
  rw [pathOf, if_neg (by simp), join_append, join_cons, join_nil, List.append_nil]

theorem join_ne_slash {s : List (List UInt8)} (hs : ∀ w ∈ s, IsWord slash w) :
    join slash s ≠ [slash] := by
  intro heq
  have hwords : words slash (join slash s) = s := words_join hs
  rw [heq, words_sep_cons, words_nil] at hwords
  rw [← hwords] at heq
  cases heq

/-- One round of `wash_path` takes the step on the path of the names that are left. -/
theorem washStep_pathOf {s : List (List UInt8)} (hs : ∀ w ∈ s, IsWord slash w) {w : List UInt8} :
    washStep (pathOf s) w = pathOf (push s (moveOf w)) := by
  unfold washStep moveOf
  by_cases hdotDot : w = dotDotName
  · have hne : dotDotName ≠ dotName := by decide
    rw [if_pos hdotDot, hdotDot, if_neg hne, if_pos rfl]
    rcases List.eq_nil_or_concat s with rfl | ⟨s, v, rfl⟩
    · rfl
    · rw [List.concat_eq_append] at hs ⊢
      have hv : slash ∉ v := (hs v (by simp)).2
      have hplace : (join slash s ++ slash :: v).length - (slash :: v).length =
          (join slash s).length := by
        rw [List.length_append, Nat.add_sub_cancel]
      rw [pathOf_snoc]
      dsimp only [push]
      rw [afterLastSlash_append hv, hplace, List.dropLast_concat, pathOf]
      by_cases hnil : s = []
      · subst hnil
        rfl
      · have hpos : (join slash s).length ≠ 0 := by
          have : s.length ≤ (join slash s).length := length_le_length_join s
          have := List.length_pos_iff.mpr hnil
          omega
        rw [if_pos hpos, if_neg hnil, List.take_left']
        rfl
  · rw [if_neg hdotDot]
    by_cases hdot : w = dotName
    · rw [if_pos hdot, if_neg (by simpa using hdot)]
      rfl
    · rw [if_neg hdot, if_pos hdot, if_neg hdotDot]
      change _ = pathOf (s ++ [w])
      rw [pathOf_snoc, pathOf]
      by_cases hnil : s = []
      · subst hnil
        rfl
      · rw [if_neg hnil, if_pos (join_ne_slash hs), List.append_assoc]
        rfl

/-- The names that are left are names of the path other than `.` and `..`. -/
theorem forall_push {P : List UInt8 → Prop} {s : List (List UInt8)} (hs : ∀ v ∈ s, P v)
    {w : List UInt8} (hw : w ≠ dotName → w ≠ dotDotName → P w) : ∀ v ∈ push s (moveOf w), P v := by
  intro v hv
  unfold moveOf at hv
  split at hv
  next => exact hs v hv
  next hdot =>
    split at hv
    next => exact hs v (List.mem_of_mem_dropLast hv)
    next hdotDot =>
      rcases List.mem_append.mp hv with hv | hv
      · exact hs v hv
      · rw [List.mem_singleton.mp hv]
        exact hw hdot hdotDot

/-- The loop of `wash_path` leaves the path of the cleaned names. -/
theorem ensures_washLoop {e : Env} {k : Kernel} {fuel : ℕ} {s : List (List UInt8)}
    {name : List UInt8} {subPath : Option (List UInt8)} (hs : ∀ w ∈ s, IsWord slash w)
    (hname : slash ∉ name) (hfuel : (namesOf name subPath).length < fuel)
    (hshort : ∀ w ∈ namesOf name subPath, w.length < maxFileNameLen)
    {Q : List UInt8 → Kernel → Prop}
    (hQ : Q (pathOf (((namesOf name subPath).map moveOf).foldl push s)) k) :
    (washLoop fuel (pathOf s) name subPath).ensures e Q k := by
  induction fuel generalizing s name subPath with
  | zero => omega
  | succ fuel ih =>
      rw [washLoop]
      by_cases hnil : name = []
      · have hnames : namesOf name subPath = [] := if_pos hnil
        rw [hnames] at hQ
        rw [if_pos hnil]
        exact hQ
      · have hnames : namesOf name subPath = name :: words slash (subPath.getD []) := if_neg hnil
        have hnext := namesOf_nextName subPath
        rw [hnames] at hfuel hshort hQ
        rw [List.length_cons] at hfuel
        have hlen := hshort name List.mem_cons_self
        rw [if_neg hnil, if_neg (Nat.not_le.mpr hlen)]
        dsimp only
        rw [washStep_pathOf hs]
        refine ih (forall_push hs fun _ _ => ⟨hnil, hname⟩) ?_ ?_ ?_ ?_
        · cases subPath with
          | none => exact List.not_mem_nil
          | some path => exact not_mem_takeWhile _
        · rw [hnext]
          omega
        · rw [hnext]
          exact fun w hw => hshort w (List.mem_cons_of_mem name hw)
        · rw [hnext]
          exact hQ

/-- `wash_path` leaves the path of the cleaned names. -/
theorem ensures_washPath {e : Env} {k : Kernel} {path : List UInt8}
    (habs : path.head? = some slash) (hshort : ShortNames path) {Q : List UInt8 → Kernel → Prop}
    (hQ : Q (pathOf (clean ((words slash path).map moveOf))) k) : (washPath path).ensures e Q k := by
  have hparse := namesOf_pathParse path
  have hjoin := length_join_words_le_of_head habs
  have hcount : (words slash path).length ≤ (join slash (words slash path)).length :=
    length_le_length_join _
  have hname : slash ∉ (pathParse path).1 := not_mem_takeWhile _
  rw [washPath, ensures_bind, ensures_assert (decide_eq_true habs)]
  dsimp only
  by_cases hnil : (pathParse path).1 = []
  · have hnames : namesOf (pathParse path).1 (pathParse path).2 = [] := if_pos hnil
    rw [← hparse, hnames] at hQ
    rw [if_pos hnil]
    exact hQ
  · rw [if_neg hnil]
    refine ensures_washLoop (s := []) (by simp) hname ?_ ?_ ?_
    · rw [hparse]
      omega
    · rw [hparse]
      exact hshort
    · rw [hparse]
      exact hQ

/-! ## The names and the tree -/

/-- Walk the names from directory `n` on through existing directories; the last name may
stand for anything. -/
def Kernel.walkTo (t : Transfer) (k : Kernel) (n : ℕ) (ws : List (List UInt8)) : Option ℕ :=
  (k.resolve t n ws).map Prod.fst

section WalkTo

variable {t : Transfer} {k : Kernel}

theorem Kernel.walkTo_snoc {n : ℕ} {ws : List (List UInt8)} {w : List UInt8} :
    k.walkTo t n (ws ++ [w]) =
      (walk (k.subdir t) n ws).bind fun m => (k.lookup t m w).map Prod.fst := by
  rw [Kernel.walkTo, Kernel.resolve_snoc, Option.map_bind]
  rfl

theorem Kernel.walkTo_of_walk {n m : ℕ} {ws : List (List UInt8)}
    (hwalk : walk (k.subdir t) n ws = some m) : k.walkTo t n ws = some m := by
  rw [Kernel.walkTo, Kernel.resolve_of_walk hwalk]
  rfl

variable (hk : ConsistentTree t k)

include hk

/-- A step on the disk is the step in the tree that the name stands for. -/
theorem ConsistentTree.move_of_subdir {n m : ℕ} (hn : k.DirOk t n) {w : List UInt8}
    (hw : IsWord slash w) (hzero : (0 : UInt8) ∉ w) (hsub : k.subdir t n w = some m) :
    hk.nameTree.move n (moveOf w) = some m := by
  rw [Kernel.subdir_eq_some] at hsub
  unfold moveOf
  by_cases hdot : w = dotName
  · rw [hdot, hn.lookup_dot hk.cache] at hsub
    cases hsub
    rw [if_pos hdot]
    rfl
  by_cases hdotDot : w = dotDotName
  · rw [hdotDot, hn.lookup_dotDot hk.cache] at hsub
    cases hsub
    rw [if_neg hdot, if_pos hdotDot]
    rfl
  · rw [if_neg hdot, if_neg hdotDot]
    exact Kernel.namedChild_eq_some.mpr ⟨⟨hw, hzero, hdot, hdotDot⟩, hsub⟩

/-- The walk on the disk is the walk in the tree. -/
theorem ConsistentTree.moves_of_walk {n m : ℕ} (hn : k.IsDir t n) {ws : List (List UInt8)}
    (hws : ∀ w ∈ ws, IsWord slash w ∧ (0 : UInt8) ∉ w) (hwalk : walk (k.subdir t) n ws = some m) :
    hk.nameTree.moves n (ws.map moveOf) = some m := by
  induction ws generalizing n with
  | nil => exact hwalk
  | cons w ws ih =>
      rw [walk_cons, Option.bind_eq_some_iff] at hwalk
      obtain ⟨p, hsub, hwalk⟩ := hwalk
      obtain ⟨hw, hzero⟩ := hws w List.mem_cons_self
      rw [List.map_cons, NameTree.moves_cons,
        hk.move_of_subdir (hk.dir n hn) hw hzero hsub, Option.bind_some]
      exact ih (hn.step (Kernel.subdir_eq_some.mp hsub))
        (fun v hv => hws v (List.mem_cons_of_mem w hv)) hwalk

/-- Cleaning the names does not change what they stand for. -/
theorem ConsistentTree.walkTo_clean {ws : List (List UInt8)}
    (hws : ∀ w ∈ ws, IsWord slash w ∧ (0 : UInt8) ∉ w) {o : ℕ} (hwalk : k.walkTo t 0 ws = some o) :
    k.walkTo t 0 (clean (ws.map moveOf)) = some o := by
  rcases List.eq_nil_or_concat ws with rfl | ⟨ws, w, rfl⟩
  · exact hwalk
  rw [List.concat_eq_append] at hws hwalk ⊢
  rw [Kernel.walkTo_snoc, Option.bind_eq_some_iff] at hwalk
  obtain ⟨n, hn, hlast⟩ := hwalk
  have hmoves := hk.moves_of_walk (k.isDir_root t) (fun v hv => hws v (by simp [hv])) hn
  have hat : walk (k.namedChild t) 0 (clean (ws.map moveOf)) = some n := NameTree.moves_clean hmoves
  obtain ⟨hw, hzero⟩ := hws w (by simp)
  have hclean : clean ((ws ++ [w]).map moveOf) = push (clean (ws.map moveOf)) (moveOf w) := by
    rw [clean, List.map_append, List.foldl_append]
    rfl
  rw [hclean]
  by_cases hdots : w = dotName ∨ w = dotDotName
  · -- the last step is one between directories
    have hdir : k.subdir t n w = some o := by
      rw [Kernel.subdir_eq_some]
      have hnOk := hk.dirOk_of_walk hat
      rcases hdots with rfl | rfl
      · rw [hnOk.lookup_dot hk.cache] at hlast ⊢
        cases hlast
        rfl
      · rw [hnOk.lookup_dotDot hk.cache] at hlast ⊢
        cases hlast
        rfl
    have hmove := hk.move_of_subdir (hk.dirOk_of_walk hat) hw hzero hdir
    exact Kernel.walkTo_of_walk (walk_subdir_of_namedChild (NameTree.at_push (T := hk.nameTree) hat hmove))
  · rw [not_or] at hdots
    have hpush : push (clean (ws.map moveOf)) (moveOf w) = clean (ws.map moveOf) ++ [w] := by
      rw [moveOf, if_neg hdots.1, if_neg hdots.2]
      rfl
    rw [hpush, Kernel.walkTo_snoc, walk_subdir_of_namedChild hat, Option.bind_some]
    exact hlast

omit hk in
/-- The names that are left of a path are some of its names, without `.` and `..`. -/
theorem forall_clean {P : List UInt8 → Prop} {ws : List (List UInt8)}
    (hws : ∀ w ∈ ws, w ≠ dotName → w ≠ dotDotName → P w) : ∀ w ∈ clean (ws.map moveOf), P w := by
  induction ws using List.reverseRecOn with
  | nil => simp [clean]
  | append_singleton ws w ih =>
      have ih := ih fun v hv => hws v (by simp [hv])
      rw [clean, List.map_append, List.foldl_append]
      exact forall_push ih (hws w (by simp))

omit hk in
theorem length_join_push (s : List (List UInt8)) (w : List UInt8) :
    (join slash (push s (moveOf w))).length ≤ (join slash s).length + (w.length + 1) := by
  unfold moveOf
  split
  · exact Nat.le_add_right _ _
  split
  · rcases List.eq_nil_or_concat s with rfl | ⟨s, v, rfl⟩
    · simp [push]
    · rw [List.concat_eq_append, push, List.dropLast_concat, join_append, List.length_append]
      omega
  · rw [push, join_append, List.length_append, join_cons, join_nil, List.append_nil, List.length_cons]

omit hk in
/-- Cleaning does not make a path longer. -/
theorem length_join_foldl (ws s : List (List UInt8)) :
    (join slash ((ws.map moveOf).foldl push s)).length ≤
      (join slash s).length + (join slash ws).length := by
  induction ws generalizing s with
  | nil => exact le_rfl
  | cons w ws ih =>
      have hpush := length_join_push s w
      have := ih (push s (moveOf w))
      rw [join_cons, List.length_append, List.length_cons]
      rw [List.map_cons, List.foldl_cons]
      omega

/-- What a name stands for has a number of the inode table. -/
theorem ConsistentTree.lookup_lt {n m : ℕ} (hn : k.IsDir t n) {w : List UInt8} (hw : IsName w)
    {ty : FileType} (hlookup : k.lookup t n w = some (m, ty)) : m < maxFilesPerPart := by
  obtain ⟨s, -, hused, -, hm, -⟩ := (hk.dir n hn).lookup_name hk.cache hw hlookup
  rw [← hm]
  exact hused.small

/-- `search_file` finds what a walk finds. -/
theorem ConsistentTree.find_of_walkTo {ws : List (List UInt8)} (hnil : ws ≠ [])
    (hws : ∀ w ∈ ws, IsName w) {n p i o : ℕ} (hn : k.IsDir t n) {own : Bool}
    {searched : List (List UInt8)} (hwalk : k.walkTo t n ws = some o) :
    (k.find t n p i own searched ws).iNo = some o := by
  induction ws generalizing n p i own searched with
  | nil => exact absurd rfl hnil
  | cons w ws ih =>
      have hw := hws w List.mem_cons_self
      cases ws with
      | nil =>
          obtain ⟨⟨m, ty⟩, hlookup, rfl⟩ := Option.map_eq_some_iff.mp hwalk
          rw [Kernel.resolve] at hlookup
          have hsmall := asInt_of_lt (hk.lookup_lt hn hw hlookup)
          rw [Kernel.find, hlookup]
          rcases (hk.dir n hn).lookup_type hk.cache hw.isWord hw.zero hlookup with rfl | rfl
          · exact hsmall
          · exact hsmall
      | cons w' ws =>
          rw [Kernel.walkTo, Kernel.resolve, Option.map_bind] at hwalk
          obtain ⟨m, hsub, hwalk⟩ := Option.bind_eq_some_iff.mp hwalk
          have hlookup := Kernel.subdir_eq_some.mp hsub
          rw [Kernel.find, hlookup]
          exact ih (List.cons_ne_nil w' ws) (fun v hv => hws v (List.mem_cons_of_mem w hv))
            (hn.step hlookup) hwalk

theorem ConsistentTree.findPath_of_walkTo {ws : List (List UInt8)} (hws : ∀ w ∈ ws, IsName w) {o : ℕ}
    (hwalk : k.walkTo t 0 ws = some o) : (k.findPath t (pathOf ws)).iNo = some o := by
  unfold Kernel.findPath pathOf
  by_cases hnil : ws = []
  · subst hnil
    exact hwalk
  · have hroot := not_isRootPath hnil fun w hw => ⟨(hws w hw).isWord, (hws w hw).dot, (hws w hw).dotDot⟩
    rw [if_neg hnil, hroot, if_neg (by decide), words_join fun w hw => (hws w hw).isWord]
    exact hk.find_of_walkTo hnil hws (k.isDir_root t) hwalk

end WalkTo

/-! ## `make_clear_abs_path` -/

/-- `search_file` resolves the path to `o`: it finds `o` if no allocation fails, and in no
case another object. -/
def ResolvesTo (t : Transfer) (k : Kernel) (path : CString) (o : ℕ) : Prop :=
  (∃ record k', (searchFile t path).exec [] k = some ((some o, record), k')) ∧
    ∀ r record k', (searchFile t path).Returns k (r, record) k' → r = some o ∨ r = none

theorem ConsistentTree.resolvesTo {t : Transfer} {k₀ k : Kernel} (hk : ConsistentTree t k₀)
    (hback : Restored k₀ k) {path : CString} (hpath : LookupPath path.val)
    (hshort : ShortNames path.val) {o : ℕ} (hfind : (k₀.findPath t path.val).iNo = some o) :
    ResolvesTo t k path o := by
  constructor
  · have hexec := ensures_searchFile (Q := fun r _ => r.1 = some o) fairEnv_zero hk hback hpath
      (Or.inr hshort.fits) (fun r k' h => h.iNo.trans hfind) (fun h => absurd h id)
    obtain ⟨⟨r, record⟩, k', hexec, rfl⟩ := exec_of_ensures hexec
    exact ⟨record, k', hexec⟩
  · intro r record k' hret
    have hwp := ensures_searchFile (Q := fun r _ => r.1 = some o ∨ r.1 = none) fairEnv_any hk
      hback hpath (Or.inr hshort.fits) (fun r k' h => Or.inl (h.iNo.trans hfind))
      (fun _ r k' h => Or.inr h.iNo)
    exact wp_iff_returns.mp (wp_of_ensures hwp) (r, record) k' hret

/-- A path that names what the walk ends at resolves to it, and so does the cleaned path. -/
theorem ConsistentTree.clean_resolvesTo {t : Transfer} {k₀ k : Kernel} (hk : ConsistentTree t k₀)
    (hback : Restored k₀ k) {path : CString} (habs : path.val.head? = some slash)
    (hlen : path.val.length < maxPathLen) (hshort : ShortNames path.val) {o : ℕ}
    (hwalk : k₀.walkTo t 0 (words slash path.val) = some o) :
    ∃ s : CString, s.val = pathOf (clean ((words slash path.val).map moveOf)) ∧
      ResolvesTo t k s o := by
  set ws := words slash path.val with hws
  have hparts : ∀ w ∈ ws, IsWord slash w ∧ (0 : UInt8) ∉ w := fun w hw =>
    ⟨(isWord_of_mem_words hw).1, fun hzero => path.property ((isWord_of_mem_words hw).2 hzero)⟩
  have hnames : ∀ w ∈ clean (ws.map moveOf), IsName w := forall_clean fun w hw hdot hdotDot =>
    ⟨(hparts w hw).1, (hparts w hw).2, hdot, hdotDot⟩
  have hjoin : (join slash (clean (ws.map moveOf))).length < maxPathLen := by
    have hle : (join slash (clean (ws.map moveOf))).length ≤ 0 + (join slash ws).length :=
      length_join_foldl ws []
    have hwords : (join slash ws).length ≤ path.val.length := length_join_words_le_of_head habs
    omega
  have hzero : (0 : UInt8) ∉ pathOf (clean (ws.map moveOf)) := by
    intro hmem
    unfold pathOf at hmem
    split at hmem
    next => exact absurd hmem (by decide)
    next =>
      obtain ⟨w, hw, hmem⟩ := List.mem_flatMap.mp hmem
      rcases List.mem_cons.mp hmem with h | h
      · exact absurd h (by decide)
      · exact (hnames w hw).zero h
  refine ⟨⟨_, hzero⟩, rfl, hk.resolvesTo hback ?_ ?_ ?_⟩
  · refine CanonicalPath.lookupPath ?_ fun w hw =>
      ⟨(hnames w hw).isWord, (hnames w hw).dot, (hnames w hw).dotDot⟩
    unfold pathOf
    split
    · decide
    · exact hjoin
  · have hwords : words slash (pathOf (clean (ws.map moveOf))) = clean (ws.map moveOf) := by
      unfold pathOf
      split
      next hnil =>
        rw [hnil]
        exact words_sep_cons []
      next => exact words_join fun w hw => (hnames w hw).isWord
    change ∀ w ∈ words slash (pathOf (clean (ws.map moveOf))), _
    rw [hwords]
    exact forall_clean fun w hw _ _ => hshort w hw
  · exact hk.findPath_of_walkTo hnames (hk.walkTo_clean hparts hwalk)

theorem absPath_of_absolute {cwd path : List UInt8} (habs : path.head? = some slash) :
    absPath cwd path = path := by
  rw [absPath, if_neg (by simpa using habs)]

theorem absPath_of_relative {ws : List (List UInt8)} (hws : ∀ w ∈ ws, IsWord slash w)
    {path : List UInt8} (hrel : path.head? ≠ some slash) :
    absPath (pathOf ws) path = join slash ws ++ slash :: path := by
  rw [absPath, if_pos hrel, pathOf]
  by_cases hnil : ws = []
  · subst hnil
    rfl
  · rw [if_neg hnil, if_neg (join_ne_slash hws), List.append_assoc]
    rfl

/-- The names on a path of the tree are short. -/
theorem ConsistentTree.short_of_walk {t : Transfer} {k : Kernel} (hk : ConsistentTree t k)
    {ws : List (List UInt8)} {n : ℕ} (hwalk : walk (k.namedChild t) 0 ws = some n) :
    ∀ w ∈ ws, w.length < maxFileNameLen := by
  induction ws using List.reverseRecOn generalizing n with
  | nil => simp
  | append_singleton ws w ih =>
      obtain ⟨p, hp, hchild⟩ := walk_snoc.mp hwalk
      obtain ⟨hw, hlookup⟩ := Kernel.namedChild_eq_some.mp hchild
      obtain ⟨s, -, hused, hname, -⟩ := (hk.dirOk_of_walk hp).lookup_name hk.cache hw hlookup
      intro v hv
      rcases List.mem_append.mp hv with hv | hv
      · exact ih hp v hv
      · rw [List.mem_singleton.mp hv, ← hname]
        exact hused.length

theorem head_join_append (ws : List (List UInt8)) (path : List UInt8) :
    (join slash ws ++ slash :: path).head? = some slash := by
  cases ws with
  | nil => rfl
  | cons w ws => rfl

/-- What `make_clear_abs_path` does with the unwashed path. -/
theorem ensures_clear {t : Transfer} {e : Env} {k₀ k : Kernel} (hk : ConsistentTree t k₀)
    (hback : Restored k₀ k) {path : CString} (habs : path.val.head? = some slash)
    (hlen : path.val.length < maxPathLen) (hshort : ShortNames path.val) {o : ℕ}
    (hwalk : k₀.walkTo t 0 (words slash path.val) = some o) :
    (if maxPathLen ≤ path.val.length then stop .undefined else washPath path.val).ensures e
      (fun clear k' => ∃ s : CString, s.val = clear ∧ ResolvesTo t k' s o) k := by
  rw [if_neg (Nat.not_le.mpr hlen)]
  exact ensures_washPath habs hshort (hk.clean_resolvesTo hback habs hlen hshort hwalk)

/-- What `make_clear_abs_path` hands over stands for the object that a walk along the given
path ends at: if `sys_getcwd` is not needed or has memory for its buffer, `search_file`
resolves the result to that object.  Otherwise `final_path` is left as it was. -/
theorem clear_path_resolves (t : Transfer) {k : Kernel} (hk : ConsistentTree t k)
    {ws : List (List UInt8)} (hcwd : hk.nameTree.at? ws = some k.cur.cwdInodeNr)
    {path finalPath : CString} (hlen : (absPath (pathOf ws) path.val).length < maxPathLen)
    (hshort : ShortNames path.val) {o : ℕ}
    (hwalk : k.walkTo t 0 (words slash (absPath (pathOf ws) path.val)) = some o) :
    (∃ clear k', (makeClearAbsPath t path.val finalPath.val).exec [] k = some (clear, k')) ∧
      ∀ answers clear k',
        (makeClearAbsPath t path.val finalPath.val).exec answers k = some (clear, k') →
          if path.val.head? = some slash ∨ answers.headD 0 = 0 then
            ∃ s : CString, s.val = clear ∧ ResolvesTo t k' s o
          else clear = finalPath.val := by
  have hwords : ∀ w ∈ ws, IsWord slash w := fun w hw => (isName_of_walk hcwd w hw).isWord
  by_cases habs : path.val.head? = some slash
  · -- the path is absolute: `sys_getcwd` is not called
    rw [absPath_of_absolute habs] at hlen hwalk
    have hprog : makeClearAbsPath t path.val finalPath.val =
        if maxPathLen ≤ path.val.length then stop .undefined else washPath path.val := by
      rw [makeClearAbsPath, if_neg (by simpa using habs)]
      change (if maxPathLen ≤ (absPath [] path.val).length then stop .undefined
        else washPath (absPath [] path.val)) = _
      rw [absPath_of_absolute habs]
    have hclear : ∀ e, (makeClearAbsPath t path.val finalPath.val).ensures e
        (fun clear k' => ∃ s : CString, s.val = clear ∧ ResolvesTo t k' s o) k := by
      intro e
      rw [hprog]
      exact ensures_clear hk (.refl k) habs hlen hshort hwalk
    constructor
    · obtain ⟨clear, k', hexec, -⟩ := exec_of_ensures (hclear .zero)
      exact ⟨clear, k', hexec⟩
    · intro answers clear k' hexec
      rw [if_pos (Or.inl habs)]
      exact wp_iff_returns.mp (wp_of_ensures (hclear .any)) clear k' (returns_of_exec hexec)
  · rw [absPath_of_relative hwords habs] at hlen hwalk
    have hzero : (0 : UInt8) ∉ join slash ws ++ slash :: path.val := by
      intro hmem
      rcases List.mem_append.mp hmem with hmem | hmem
      · obtain ⟨w, hw, hmem⟩ := List.mem_flatMap.mp hmem
        rcases List.mem_cons.mp hmem with h | h
        · exact absurd h (by decide)
        · exact (isName_of_walk hcwd w hw).zero h
      · rcases List.mem_cons.mp hmem with h | h
        · exact absurd h (by decide)
        · exact path.property h
    have hunwashed : words slash (join slash ws ++ slash :: path.val) = ws ++ words slash path.val := by
      rw [words_append_sep, words_join hwords]
    have hall : ShortNames (join slash ws ++ slash :: path.val) := by
      intro w hw
      rw [hunwashed] at hw
      rcases List.mem_append.mp hw with hw | hw
      · exact hk.short_of_walk hcwd w hw
      · exact hshort w hw
    -- the rest of the program, once there is memory for the buffer
    set rest : Option (List UInt8) → Prog Kernel (List UInt8) := fun cwd =>
      match cwd with
      | none => return finalPath.val
      | some cwd =>
          if maxPathLen ≤ (absPath cwd path.val).length then stop .undefined
          else washPath (absPath cwd path.val) with hrest
    have hprog : makeClearAbsPath t path.val finalPath.val =
        sysMalloc >>= fun ok => (if !ok then return none else cwdPath t maxPathLen) >>= rest := by
      rw [makeClearAbsPath, if_pos habs, sysGetcwd_eq, Prog.bind_assoc]
    have hclear : ∀ e, FairEnv e → (cwdPath t maxPathLen >>= rest).ensures e
        (fun clear k' => ∃ s : CString, s.val = clear ∧ ResolvesTo t k' s o) k := by
      intro e he
      have hjoin : (join slash ws).length < maxPathLen := by
        rw [List.length_append] at hlen
        omega
      rw [ensures_bind]
      refine ensures_cwdPath he hk hcwd hjoin hjoin.le (.refl k) fun k₁ hback => ?_
      rw [hrest]
      dsimp only
      rw [absPath_of_relative hwords habs]
      exact @ensures_clear _ _ _ _ hk hback ⟨_, hzero⟩ (head_join_append ws path.val) hlen hall
        _ hwalk
    rw [hprog]
    constructor
    · obtain ⟨clear, k', hexec, -⟩ := exec_of_ensures (hclear .zero fairEnv_zero)
      exact ⟨clear, k', hexec⟩
    · intro answers clear k' hexec
      rw [exec_sysMalloc_bind] at hexec
      by_cases hmem : answers.headD 0 = 0
      · rw [decide_eq_true hmem] at hexec
        rw [if_pos (Or.inr hmem)]
        exact wp_iff_returns.mp (wp_of_ensures (hclear .any fairEnv_any)) clear k'
          (returns_of_exec hexec)
      · rw [decide_eq_false hmem] at hexec
        rw [if_neg (by rw [not_or]; exact ⟨habs, hmem⟩)]
        cases hexec
        rfl

/-- `"d/../d"`. -/
def pathDUpD : CString := ⟨[100, slash, 46, 46, slash, 100], by decide⟩

theorem oneDir_cwd : oneDir_consistent.nameTree.at? [] = some oneDir.cur.cwdInodeNr := by
  have hcwd : oneDir.cur.cwdInodeNr = 0 := by decide +kernel
  rw [hcwd]
  rfl

theorem clear_path_resolves_oneDir :
    (∃ clear k', (makeClearAbsPath .repeated pathDUpD.val pathRoot.val).exec [] oneDir =
      some (clear, k')) ∧
      ∀ answers clear k',
        (makeClearAbsPath .repeated pathDUpD.val pathRoot.val).exec answers oneDir =
            some (clear, k') →
          if pathDUpD.val.head? = some slash ∨ answers.headD 0 = 0 then
            ∃ s : CString, s.val = clear ∧ ResolvesTo .repeated k' s 1
          else clear = pathRoot.val :=
  clear_path_resolves .repeated oneDir_consistent oneDir_cwd (by decide) (by decide +kernel)
    (by decide +kernel)

/-- In the root directory, `d/../d` names the directory `d`, with number 1.  When there is no
memory for the buffer of `sys_getcwd`, the path `/` that happens to be in `final_path` stays
there, and `search_file` finds the root. -/
theorem clear_path_without_memory :
    ConsistentTree .repeated oneDir ∧
      oneDir.walkTo .repeated 0 (words slash (absPath (pathOf []) pathDUpD.val)) = some 1 ∧
      ¬ ∀ clear k', (makeClearAbsPath .repeated pathDUpD.val pathRoot.val).Returns oneDir clear k' →
        ∃ s : CString, s.val = clear ∧ ResolvesTo .repeated k' s 1 := by
  refine ⟨oneDir_consistent, by decide +kernel, ?_⟩
  intro hall
  have hclear : (makeClearAbsPath .repeated pathDUpD.val pathRoot.val).exec [1] oneDir =
      some (pathRoot.val, oneDir) := rfl
  obtain ⟨s, hs, ⟨record, k', hexec⟩, -⟩ := hall _ _ (returns_of_exec hclear)
  obtain rfl : s = pathRoot := Subtype.ext hs
  cases hexec

end BochsOs
