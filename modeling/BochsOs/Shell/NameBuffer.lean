import BochsOs.Fs.IoBuf
import BochsOs.Shell.PathParse

/-!
# The buffers for names

`path_parse` copies a name of any length; `path_depth_cnt`, `search_file` and `wash_path`
give it buffers of `MAX_FILE_NAME_LEN` bytes.  Here the three functions are taken over the
call they make (`pathDepthCntBy`, `searchFileBy`, `washPathBy`), so that the call can be
watched: `parseInto` stops at a name that leaves no room for a terminator.

No call stores such a name if and only if the path has none (`storesShort_iff`).
-/

namespace BochsOs

open ByteMemory Suspend Suspend.Prog Words

/-! ## The callers of `path_parse` -/

/-- `path_parse` as it is. -/
def parseAny : Parser := fun path => return pathParse path

/-- `path_parse` with a look at the buffer: the name has to leave room for its terminator. -/
def parseInto : Parser := fun path =>
  if maxFileNameLen ≤ (pathParse path).1.length then stop .overrun else return pathParse path

variable (parse : Parser)

/-- The rounds of `path_depth_cnt` after the first name. -/
def depthLoopBy : (fuel : ℕ) → Option (List UInt8) → (depth : ℕ) → Prog Kernel ℕ
  | 0, _, depth => return depth
  | fuel + 1, subPath, depth => do
      let (name, rest) ← nextNameBy parse subPath
      if maxFileNameLen < name.length then stop .undefined
      else if name = [] then return depth
      else depthLoopBy fuel rest (depth + 1)

/-- `path_depth_cnt`. -/
def pathDepthCntBy (pathname : List UInt8) : Prog Kernel ℕ := do
  let (name, rest) ← parse pathname
  if maxFileNameLen < name.length then stop .undefined
  else if name = [] then
    let byte ← arbitrary
    if byte % 256 = 0 then return 0 else depthLoopBy parse pathname.length rest 1
  else depthLoopBy parse pathname.length rest 1

/-- The loop of `wash_path`. -/
def washLoopBy : (fuel : ℕ) → (newAbsPath name : List UInt8) → (subPath : Option (List UInt8)) →
    Prog Kernel (List UInt8)
  | 0, _, _, _ => stop .hang
  | fuel + 1, newAbsPath, name, subPath => do
      if name = [] then return newAbsPath
      else if maxFileNameLen ≤ name.length then stop .undefined
      else
        let (next, rest) ← nextNameBy parse subPath
        washLoopBy fuel (washStep newAbsPath name) next rest

/-- `wash_path`. -/
def washPathBy (oldAbsPath : List UInt8) : Prog Kernel (List UInt8) := do
  assert (oldAbsPath.head? = some slash)
  let (name, subPath) ← parse oldAbsPath
  if name = [] then return [slash]
  else washLoopBy parse (oldAbsPath.length + 1) [slash] name subPath

/-! ## Calls that only read -/

/-- On the paths in `P` the call just reads the first name, and the rest of such a path is
again one. -/
structure Reads (P : List UInt8 → Prop) : Prop where
  call : ∀ path, P path → parse path = pure (pathParse path)
  rest : ∀ path, P path → P ((pathParse path).2.getD [])
  nil : P []

section Reads

variable {parse} {P : List UInt8 → Prop} (h : Reads parse P)

include h

theorem Reads.nextNameBy {subPath : Option (List UInt8)} (hsub : P (subPath.getD [])) :
    nextNameBy parse subPath = pure (nextName subPath) ∧ P ((nextName subPath).2.getD []) := by
  cases subPath with
  | none => exact ⟨rfl, h.nil⟩
  | some path => exact ⟨h.call path hsub, h.rest path hsub⟩

theorem Reads.depthLoopBy {fuel depth : ℕ} {subPath : Option (List UInt8)} (hsub : P (subPath.getD [])) :
    depthLoopBy parse fuel subPath depth = depthLoop fuel subPath depth := by
  induction fuel generalizing subPath depth with
  | zero => rfl
  | succ fuel ih =>
      obtain ⟨hcall, hrest⟩ := h.nextNameBy hsub
      rw [BochsOs.depthLoopBy, depthLoop, hcall, ret_bind]
      dsimp only
      rw [ih hrest]

theorem Reads.pathDepthCntBy {path : List UInt8} (hpath : P path) :
    pathDepthCntBy parse path = pathDepthCnt path := by
  rw [BochsOs.pathDepthCntBy, pathDepthCnt, h.call path hpath, ret_bind]
  simp only [h.depthLoopBy (h.rest path hpath)]

theorem Reads.searchLoopBy {parse' : Parser} (h' : Reads parse' P) {t : Transfer} {fuel : ℕ} {w : Walk}
    (hsub : P (w.subPath.getD [])) : searchLoopBy parse t fuel w = searchLoopBy parse' t fuel w := by
  induction fuel generalizing w with
  | zero => rfl
  | succ fuel ih =>
      obtain ⟨hcall, hrest⟩ := h.nextNameBy hsub
      rw [BochsOs.searchLoopBy, BochsOs.searchLoopBy]
      simp only [hcall, (h'.nextNameBy hsub).1, ret_bind]
      congr 2
      refine congrArg _ (funext fun _ => congrArg _ (funext fun found => ?_))
      rcases found with _ | ⟨iNo, fType⟩
      · rfl
      · cases fType with
        | regular => rfl
        | directory =>
            dsimp only
            simp only [@ih (.mk _ _ _ (nextName w.subPath).1 (nextName w.subPath).2 _) hrest]
        | unknown => exact ih hrest
        | other code => exact ih hrest

theorem Reads.searchFileBy {parse' : Parser} (h' : Reads parse' P) {t : Transfer} {path : CString}
    (hpath : P path.val) : searchFileBy parse t path = searchFileBy parse' t path := by
  unfold BochsOs.searchFileBy
  simp only [h.call _ hpath, h'.call _ hpath, ret_bind,
    h.searchLoopBy h' (w := .mk _ _ _ _ _ _) (h.rest _ hpath)]

theorem Reads.washLoopBy {fuel : ℕ} {newAbsPath name : List UInt8} {subPath : Option (List UInt8)}
    (hsub : P (subPath.getD [])) :
    washLoopBy parse fuel newAbsPath name subPath = washLoop fuel newAbsPath name subPath := by
  induction fuel generalizing newAbsPath name subPath with
  | zero => rfl
  | succ fuel ih =>
      obtain ⟨hcall, hrest⟩ := h.nextNameBy hsub
      rw [BochsOs.washLoopBy, washLoop, hcall, ret_bind]
      dsimp only
      rw [ih hrest]

theorem Reads.washPathBy {path : List UInt8} (hpath : P path) :
    washPathBy parse path = washPath path := by
  unfold BochsOs.washPathBy washPath
  simp only [h.call _ hpath, ret_bind, h.washLoopBy (h.rest _ hpath)]

end Reads

/-- The first and the last caller with `path_parse` as it is are the functions themselves; the
second one is `search_file` with `parseFits`. -/
theorem reads_parseAny : Reads parseAny fun _ => True :=
  ⟨fun _ _ => rfl, fun _ _ => trivial, trivial⟩

theorem pathDepthCntBy_any (path : List UInt8) : pathDepthCntBy parseAny path = pathDepthCnt path :=
  reads_parseAny.pathDepthCntBy trivial

theorem washPathBy_any (path : List UInt8) : washPathBy parseAny path = washPath path :=
  reads_parseAny.washPathBy trivial

/-! ## Paths with short names -/

section Short

variable {path : List UInt8}

theorem shortNames_nil : ShortNames [] := fun _ hw => absurd hw List.not_mem_nil

/-- What follows the first name of a path; nothing if there is none. -/
theorem pathParse_rest (path : List UInt8) :
    (pathParse path).2.getD [] = (path.dropWhile (· = slash)).dropWhile (· ≠ slash) := by
  unfold pathParse
  dsimp only
  split
  next hnil => rw [hnil]; rfl
  next => rfl

/-- A path without a first name has no rest. -/
theorem rest_eq_nil (hnil : (pathParse path).1 = []) : (pathParse path).2.getD [] = [] := by
  have hnames := namesOf_pathParse path
  rw [namesOf, if_pos hnil] at hnames
  have htext : path.dropWhile (· = slash) = [] := List.dropWhile_eq_nil_iff.mpr fun c hc =>
    decide_eq_true (eq_sep_of_words_eq_nil hnames.symm c hc)
  rw [pathParse_rest, htext]
  rfl

/-- The names of a path are the first one and those of its rest. -/
theorem shortNames_iff : ShortNames path ↔
    (pathParse path).1.length < maxFileNameLen ∧ ShortNames ((pathParse path).2.getD []) := by
  have hnames := namesOf_pathParse path
  unfold namesOf at hnames
  by_cases hnil : (pathParse path).1 = []
  · rw [if_pos hnil] at hnames
    rw [hnil, rest_eq_nil hnil]
    refine iff_of_true (fun w hw => ?_) ⟨by decide, shortNames_nil⟩
    rw [← hnames] at hw
    exact absurd hw List.not_mem_nil
  · rw [if_neg hnil] at hnames
    unfold ShortNames
    rw [← hnames, List.forall_mem_cons]

/-- The rest is a shorter path. -/
theorem length_rest_lt (hne : (pathParse path).1 ≠ []) :
    ((pathParse path).2.getD []).length < path.length := by
  have hlen := congrArg List.length (List.takeWhile_append_dropWhile
    (p := (· ≠ slash)) (l := path.dropWhile (· = slash)))
  have hle := (List.dropWhile_sublist (· = slash) (l := path)).length_le
  have hpos : 0 < ((path.dropWhile (· = slash)).takeWhile (· ≠ slash)).length :=
    List.length_pos_iff.mpr hne
  rw [List.length_append] at hlen
  rw [pathParse_rest]
  omega

theorem parseInto_short (hname : (pathParse path).1.length < maxFileNameLen) :
    parseInto path = pure (pathParse path) := by
  rw [parseInto, if_neg (Nat.not_le.mpr hname)]

theorem parseInto_long (hname : ¬ (pathParse path).1.length < maxFileNameLen) :
    parseInto path = stop .overrun := by
  rw [parseInto, if_pos (Nat.not_lt.mp hname)]

end Short

/-- Paths with short names are read without an overrun. -/
theorem reads_parseInto : Reads parseInto ShortNames where
  call _ h := parseInto_short (shortNames_iff.mp h).1
  rest _ h := (shortNames_iff.mp h).2
  nil := shortNames_nil

theorem reads_parseFits : Reads parseFits ShortNames where
  call _ h := parseFits_of_le (shortNames_iff.mp h).1.le
  rest _ h := (shortNames_iff.mp h).2
  nil := shortNames_nil

/-! ## No call overruns its buffer -/

/-- `path_depth_cnt` comes to every name of its path. -/
theorem shortNames_of_depthLoopBy {k : Kernel} {fuel depth : ℕ} {subPath : Option (List UInt8)}
    (hfuel : (subPath.getD []).length ≤ fuel)
    (h : (depthLoopBy parseInto fuel subPath depth).avoids .overrun k) :
    ShortNames (subPath.getD []) := by
  induction fuel generalizing subPath depth with
  | zero =>
      rw [List.eq_nil_of_length_eq_zero (Nat.le_zero.mp hfuel)]
      exact shortNames_nil
  | succ fuel ih =>
      cases subPath with
      | none => exact shortNames_nil
      | some path =>
          change ShortNames path
          change path.length ≤ fuel + 1 at hfuel
          by_cases hname : (pathParse path).1.length < maxFileNameLen
          · refine shortNames_iff.mpr ⟨hname, ?_⟩
            rw [depthLoopBy, nextNameBy, parseInto_short hname, ret_bind] at h
            dsimp only at h
            rw [if_neg (Nat.not_lt.mpr hname.le)] at h
            by_cases hnil : (pathParse path).1 = []
            · rw [rest_eq_nil hnil]
              exact shortNames_nil
            · rw [if_neg hnil] at h
              have hlen := length_rest_lt hnil
              exact ih (by omega) h
          · rw [depthLoopBy, nextNameBy, parseInto_long hname] at h
            exact absurd rfl h

/-- The calls of the three functions on the path leave room for the terminator in the buffer. -/
structure StoresShort (t : Transfer) (k : Kernel) (path : CString) : Prop where
  pathDepthCnt : (pathDepthCntBy parseInto path.val).avoids .overrun k
  searchFile : (searchFileBy parseInto t path).avoids .overrun k
  washPath : (washPathBy parseInto path.val).avoids .overrun k

theorem shortNames_of_pathDepthCntBy {k : Kernel} {path : List UInt8}
    (h : (pathDepthCntBy parseInto path).avoids .overrun k) : ShortNames path := by
  by_cases hname : (pathParse path).1.length < maxFileNameLen
  · refine shortNames_iff.mpr ⟨hname, ?_⟩
    rw [pathDepthCntBy, parseInto_short hname, ret_bind] at h
    dsimp only at h
    rw [if_neg (Nat.not_lt.mpr hname.le)] at h
    by_cases hnil : (pathParse path).1 = []
    · rw [rest_eq_nil hnil]
      exact shortNames_nil
    · rw [if_neg hnil] at h
      exact shortNames_of_depthLoopBy (length_rest_lt hnil).le h
  · rw [pathDepthCntBy, parseInto_long hname] at h
    exact absurd rfl h

theorem washPath_never (path : List UInt8) : Never .overrun (washPath path) := by
  have hloop : ∀ fuel newAbsPath name subPath, Never .overrun (washLoop fuel newAbsPath name subPath) := by
    intro fuel
    induction fuel with
    | zero => exact fun _ _ _ => .stop (by decide)
    | succ fuel ih =>
        intro newAbsPath name subPath
        rw [washLoop]
        split
        · exact .pure _
        split
        · exact .stop (by decide)
        · exact ih _ _ _
  rw [washPath]
  refine (assert_never _).bind fun _ => ?_
  dsimp only
  split
  · exact .pure _
  · exact hloop _ _ _ _

/-- No call overruns its buffer just if all names of the path are shorter than the buffer. -/
theorem storesShort_iff (t : Transfer) (k : Kernel) (path : CString) :
    StoresShort t k path ↔ ∀ w ∈ words slash path.val, w.length < maxFileNameLen := by
  constructor
  · exact fun h => shortNames_of_pathDepthCntBy h.pathDepthCnt
  · intro h
    have hshort : ShortNames path.val := h
    constructor
    · rw [reads_parseInto.pathDepthCntBy hshort]
      exact pathDepthCnt_never _ k
    · rw [reads_parseInto.searchFileBy reads_parseFits hshort]
      exact searchFile_never t path k
    · rw [reads_parseInto.washPathBy hshort]
      exact washPath_never _ k

/-- A path of one name of sixteen characters. -/
def pathSixteen : CString := ⟨slash :: List.replicate 16 97, by decide⟩

/-- A name of sixteen characters fills its buffer. -/
theorem not_storesShort_sixteen : ¬ ∀ (t : Transfer) (k : Kernel) (path : CString),
    path.val.length < maxPathLen → StoresShort t k path := by
  intro hall
  have hstores := hall .repeated (fileMachine 0) pathSixteen (by decide)
  exact absurd (shortNames_of_pathDepthCntBy hstores.pathDepthCnt) (by decide)

end BochsOs
