import BochsOs.Lib.String
import BochsOs.Shell.PathParse

/-!
# Paths in memory

`path_parse`, `path_depth_cnt` and `wash_path` as they work on the bytes of their buffers.  The
buffer `name` of the two callers has `MAX_FILE_NAME_LEN` bytes; `path_parse` puts a name into it
without a zero behind it, so the name is a string there only if the rest of the buffer is zero.

`wash_path` begins with an empty buffer and clears it in every round, and what it leaves is the path
of the names that remain (`washPath_canonical`).  `path_depth_cnt` clears its buffer only before
the second call: a path without names counts as one name if the first byte of the buffer happens not
to be zero (`pathDepthCnt_eq_iff`).

The loops over the names of `PathParse` are simulated: `NextAt` relates a pointer into the path to
the part of the path that it points to.
-/

namespace BochsOs.Bytewise

open ByteMemory NameTrees Words

/-! ## The code -/

/-- The loop of `path_parse` that copies a name: the buffer, and the place behind the name. -/
def copyName (m : Bytes) : (fuel p : ℕ) → (nameStore : Bytes) → (i : ℕ) → Option (Bytes × ℕ)
  | 0, _, _, _ => none
  | fuel + 1, p, nameStore, i =>
      if m p ≠ slash ∧ m p ≠ 0 then
        copyName m fuel (p + 1) (Function.update nameStore i (m p)) (i + 1)
      else some (nameStore, p)

/-- The slashes in front of a name. -/
def skipSlashes (fuel : ℕ) (m : Bytes) (pathname : ℕ) : Option ℕ :=
  if m pathname = slash then skip m slash fuel (pathname + 1) else some pathname

/-- `path_parse`: the buffer, and the place from where to go on. -/
def pathParse (fuel : ℕ) (m : Bytes) (pathname : ℕ) (nameStore : Bytes) : Option (Bytes × Option ℕ) :=
  (skipSlashes fuel m pathname).bind fun pathname =>
    (copyName m fuel pathname nameStore 0).map fun (nameStore, pathname) =>
      (nameStore, if m pathname = 0 then none else some pathname)

/-- `memset(name, 0, MAX_FILE_NAME_LEN)`, and `path_parse` if there is more path. -/
def clearAndParse (fuel : ℕ) (m : Bytes) (name : Bytes) (p : Option ℕ) : Option (Bytes × Option ℕ) :=
  match p with
  | none => some (fill name 0 maxFileNameLen 0, none)
  | some p => pathParse fuel m p (fill name 0 maxFileNameLen 0)

/-- The loop of `path_depth_cnt`, at most `rounds` times. -/
def depthLoop (fuel : ℕ) (m : Bytes) : (rounds : ℕ) → (name : Bytes) → Option ℕ → (depth : ℕ) → Option ℕ
  | 0, _, _, _ => none
  | rounds + 1, name, p, depth =>
      if name 0 ≠ 0 then
        (clearAndParse fuel m name p).bind fun (name, p) => depthLoop fuel m rounds name p (depth + 1)
      else some depth

/-- `path_depth_cnt`; `name` is what its buffer holds at first. -/
def pathDepthCnt (fuel : ℕ) (m : Bytes) (pathname : ℕ) (name : Bytes) : Option ℕ :=
  (pathParse fuel m pathname name).bind fun (name, p) => depthLoop fuel m fuel name p 0

/-- `"/"` behind the path, unless it is `"/"` itself. -/
def appendSlash (fuel : ℕ) (newAbsPath : Bytes) : Option Bytes :=
  (strcmp newAbsPath (image [slash]) fuel 0 0).bind fun r =>
    if r ≠ 0 then strcat (image [slash]) fuel newAbsPath 0 0 else some newAbsPath

/-- One round of the loop of `wash_path`, with the first `name` of the rest of the path. -/
def washName (fuel : ℕ) (newAbsPath name : Bytes) : Option Bytes :=
  (strcmp (image dotDotName) name fuel 0 0).bind fun r =>
    if r = 0 then
      match strrchr newAbsPath slash fuel 0 with
      | some (some slashPtr) =>
          if slashPtr ≠ 0 then some (Function.update newAbsPath slashPtr 0)
          else some (Function.update newAbsPath (slashPtr + 1) 0)
      | _ => none
    else
      (strcmp (image dotName) name fuel 0 0).bind fun r =>
        if r ≠ 0 then (appendSlash fuel newAbsPath).bind fun newAbsPath => strcat name fuel newAbsPath 0 0
        else some newAbsPath

/-- The loop of `wash_path`, at most `rounds` times. -/
def washLoop (fuel : ℕ) (m : Bytes) : (rounds : ℕ) → (newAbsPath name : Bytes) → Option ℕ → Option Bytes
  | 0, _, _, _ => none
  | rounds + 1, newAbsPath, name, subPath =>
      if name 0 ≠ 0 then
        (washName fuel newAbsPath name).bind fun newAbsPath =>
          (clearAndParse fuel m name subPath).bind fun (name, subPath) =>
            washLoop fuel m rounds newAbsPath name subPath
      else some newAbsPath

/-- `wash_path`: the bytes of `new_abs_path`. -/
def washPath (fuel : ℕ) (m : Bytes) (oldAbsPath : ℕ) (newAbsPath : Bytes) : Option Bytes :=
  if m oldAbsPath ≠ slash then none
  else
    (pathParse fuel m oldAbsPath (fill zeroBuf 0 maxFileNameLen 0)).bind fun (name, subPath) =>
      if name 0 = 0 then some (Function.update (Function.update newAbsPath 0 slash) 1 0)
      else
        (strcat (image [slash]) fuel (Function.update newAbsPath 0 0) 0 0).bind fun newAbsPath =>
          washLoop fuel m fuel newAbsPath name subPath

/-! ## `path_parse` -/

/-- A pointer to the rest of a path, or `NULL` where there is no rest. -/
inductive NextAt (m : Bytes) : Option ℕ → Option (List UInt8) → Prop where
  | null : NextAt m none none
  | rest {p : ℕ} {path : List UInt8} : StrAt m p path → NextAt m (some p) (some path)

section Parse

variable {m name : Bytes} {fuel a i p : ℕ} {path w : List UInt8}

theorem copyName_of_strAt (h : StrAt m p path) (hfuel : path.length < fuel) :
    copyName m fuel p name i =
      some (store name i (path.takeWhile (· ≠ slash)), p + (path.takeWhile (· ≠ slash)).length) := by
  induction fuel generalizing p name i path with
  | zero => exact absurd hfuel (Nat.not_lt_zero _)
  | succ fuel ih =>
      rw [copyName]
      cases path with
      | nil =>
          rw [if_neg fun hne => hne.2 (StrAt.nil_iff.mp h)]
          rfl
      | cons c path =>
          obtain ⟨hc, hne, hrest⟩ := StrAt.cons_iff.mp h
          rw [hc]
          by_cases heq : c = slash
          · rw [if_neg fun hboth => hboth.1 heq, List.takeWhile_cons_of_neg (by simpa using heq)]
            rfl
          · rw [if_pos ⟨heq, hne⟩, ih hrest (Nat.lt_of_succ_lt_succ hfuel),
              List.takeWhile_cons_of_pos (by simpa using heq), List.length_cons, Nat.add_assoc,
              Nat.add_comm 1]
            rfl

/-- The slashes in front are skipped. -/
theorem skipSlashes_of_strAt (h : StrAt m a path) (hfuel : path.length < fuel) :
    skipSlashes fuel m a = some (a + (path.takeWhile (· = slash)).length) := by
  have hslash : slash ≠ 0 := by decide
  rw [skipSlashes]
  cases path with
  | nil =>
      rw [if_neg (by rw [StrAt.nil_iff.mp h]; exact hslash.symm)]
      rfl
  | cons c path =>
      obtain ⟨hc, -, hrest⟩ := StrAt.cons_iff.mp h
      rw [hc]
      by_cases heq : c = slash
      · rw [if_pos heq, skip_of_strAt hrest (Or.inl hslash) (Nat.lt_of_succ_lt hfuel),
          List.takeWhile_cons_of_pos (by simpa using heq), List.length_cons, Nat.add_assoc,
          Nat.add_comm 1]
      · rw [if_neg heq, List.takeWhile_cons_of_neg (by simpa using heq)]
        rfl

/-- The name that `path_parse` copies, and the pointer it returns. -/
theorem pathParse_of_strAt (name : Bytes) (h : StrAt m a path) (hfuel : path.length < fuel) :
    ∃ next, pathParse fuel m a name = some (store name 0 (BochsOs.pathParse path).1, next) ∧
      NextAt m next (BochsOs.pathParse path).2 := by
  have hskip : StrAt m _ (path.dropWhile (· = slash)) := h.dropWhile _
  have hrest : StrAt m _ ((path.dropWhile (· = slash)).dropWhile (· ≠ slash)) := hskip.dropWhile _
  have hlen : (path.dropWhile (· = slash)).length < fuel :=
    (List.dropWhile_sublist _).length_le.trans_lt hfuel
  rw [pathParse, skipSlashes_of_strAt h hfuel, Option.bind_some, copyName_of_strAt hskip hlen,
    Option.map_some, BochsOs.pathParse]
  dsimp only
  by_cases hnil : (path.dropWhile (· = slash)).dropWhile (· ≠ slash) = []
  · rw [hnil] at hrest
    rw [if_pos (StrAt.nil_iff.mp hrest), if_pos hnil]
    exact ⟨none, rfl, .null⟩
  · have hne := hrest.ne_zero (List.length_pos_of_ne_nil hnil)
    rw [Nat.add_zero] at hne
    rw [if_neg hne, if_neg hnil]
    exact ⟨_, rfl, .rest hrest⟩

/-- A name in a buffer that was cleared. -/
theorem strAt_store_clear {m : Bytes} (hw : (0 : UInt8) ∉ w) (hlen : w.length < maxFileNameLen) :
    StrAt (store (fill m 0 maxFileNameLen 0) 0 w) 0 w := by
  refine StrAt.of_store hw ?_
  rw [store_outside (Or.inr le_rfl)]
  exact fill_inside (Nat.zero_le _) (by omega)

end Parse

/-! ## The loops over the names -/

/-- The buffer holds the name `w`, and `next` is the rest of the path behind it. -/
structure Ahead (fuel : ℕ) (m name : Bytes) (p : Option ℕ) (w : List UInt8)
    (next : Option (List UInt8)) : Prop where
  str : StrAt name 0 w
  rest : NextAt m p next
  fits : ∀ path ∈ next, path.length < fuel
  short : ∀ v ∈ namesOf w next, v.length < maxFileNameLen

section Loops

variable {fuel rounds a depth : ℕ} {m name out : Bytes} {p : Option ℕ} {path w : List UInt8}
  {next : Option (List UInt8)} {s : List (List UInt8)}

theorem length_rest_le (hrest : (BochsOs.pathParse path).2 = some w) : w.length ≤ path.length := by
  rw [BochsOs.pathParse] at hrest
  dsimp only at hrest
  split_ifs at hrest
  rw [← Option.some_inj.mp hrest]
  exact ((List.dropWhile_sublist _).trans (List.dropWhile_sublist _)).length_le

theorem zero_not_mem_parsed (h : StrAt m a path) : (0 : UInt8) ∉ (BochsOs.pathParse path).1 :=
  fun hmem => h.nonzero ((List.dropWhile_sublist _).subset ((List.takeWhile_sublist _).subset hmem))

/-- The first call, into a buffer in which a name becomes a string. -/
theorem Ahead.parse (name : Bytes) (h : StrAt m a path) (hfuel : path.length < fuel) (hshort : ShortNames path)
    (hname : StrAt (store name 0 (BochsOs.pathParse path).1) 0 (BochsOs.pathParse path).1) :
    ∃ p, pathParse fuel m a name = some (store name 0 (BochsOs.pathParse path).1, p) ∧
      Ahead fuel m (store name 0 (BochsOs.pathParse path).1) p (BochsOs.pathParse path).1
        (BochsOs.pathParse path).2 := by
  obtain ⟨p, hrun, hp⟩ := pathParse_of_strAt name h hfuel
  refine ⟨p, hrun, hname, hp, fun rest hrest => ?_, ?_⟩
  · exact (length_rest_le hrest).trans_lt hfuel
  · rw [namesOf_pathParse]
    exact hshort

/-- The name of a nonempty first part of a path fits into the buffer. -/
theorem length_parsed_lt (hshort : ShortNames path) :
    (BochsOs.pathParse path).1.length < maxFileNameLen := by
  by_cases hnil : (BochsOs.pathParse path).1 = []
  · rw [hnil]
    decide
  · refine hshort _ ?_
    rw [← namesOf_pathParse, namesOf, if_neg hnil]
    exact List.mem_cons_self

/-- Every later call. -/
theorem clearAndParse_ahead (name : Bytes) (hrest : NextAt m p next) (hfits : ∀ path ∈ next, path.length < fuel)
    (hshort : ShortNames (next.getD [])) :
    ∃ name' p', clearAndParse fuel m name p = some (name', p') ∧
      Ahead fuel m name' p' (nextName next).1 (nextName next).2 := by
  cases hrest with
  | null =>
      refine ⟨_, none, rfl, ?_, .null, fun path hpath => (by cases hpath), fun v hv => (by cases hv)⟩
      exact StrAt.nil_iff.mpr (fill_inside (Nat.zero_le _) (by decide))
  | rest hstr =>
      obtain ⟨p', hrun, hahead⟩ := Ahead.parse (fill name 0 maxFileNameLen 0) hstr
        (hfits _ rfl) hshort (strAt_store_clear (zero_not_mem_parsed hstr) (length_parsed_lt hshort))
      exact ⟨_, p', hrun, hahead⟩

theorem Ahead.clearAndParse (h : Ahead fuel m name p w next) (hw : w ≠ []) :
    ∃ name' p', clearAndParse fuel m name p = some (name', p') ∧
      Ahead fuel m name' p' (nextName next).1 (nextName next).2 := by
  refine clearAndParse_ahead name h.rest h.fits fun v hv => h.short v ?_
  rw [namesOf, if_neg hw]
  exact List.mem_cons_of_mem w hv

theorem Ahead.first_ne_zero_iff (h : Ahead fuel m name p w next) : name 0 ≠ 0 ↔ w ≠ [] := by
  have hzero := h.str.zero_iff (i := 0) (Nat.zero_le _)
  rw [Nat.zero_add] at hzero
  rw [not_iff_not, hzero, eq_comm, List.length_eq_zero_iff]

theorem Ahead.namesOf_eq (hw : w ≠ []) : namesOf w next = w :: namesOf (nextName next).1 (nextName next).2 := by
  rw [namesOf_nextName, namesOf, if_neg hw]

/-- Every round of `path_depth_cnt` counts one name. -/
theorem depthLoop_names (h : Ahead fuel m name p w next) (hrounds : (namesOf w next).length < rounds) :
    depthLoop fuel m rounds name p depth = some (depth + (namesOf w next).length) := by
  induction rounds generalizing name p w next depth with
  | zero => exact absurd hrounds (Nat.not_lt_zero _)
  | succ rounds ih =>
      rw [depthLoop]
      by_cases hw : w = []
      · rw [if_neg fun hne => h.first_ne_zero_iff.mp hne hw, namesOf, if_pos hw]
        rfl
      · obtain ⟨name', p', hrun, hnext⟩ := h.clearAndParse hw
        rw [Ahead.namesOf_eq hw, List.length_cons] at hrounds ⊢
        rw [if_pos (h.first_ne_zero_iff.mpr hw), hrun, Option.bind_some]
        dsimp only
        rw [ih hnext (Nat.lt_of_succ_lt_succ hrounds), Nat.add_assoc, Nat.add_comm 1]

/-- Every text that `wash_path` keeps has a slash; this is the last one. -/
theorem pathOf_split (hs : ∀ w ∈ s, IsWord slash w) : ∃ u v, pathOf s = u ++ slash :: v ∧ slash ∉ v := by
  rcases List.eq_nil_or_concat s with rfl | ⟨s, v, rfl⟩
  · exact ⟨[], [], rfl, List.not_mem_nil⟩
  · rw [List.concat_eq_append] at hs ⊢
    exact ⟨join slash s, v, pathOf_snoc s v, (hs v (by simp)).2⟩

/-- The name `..` cuts the text off at its last slash, or behind it if it is the first character. -/
theorem washName_up {u v : List UInt8} (hout : StrAt out 0 (u ++ slash :: v)) (hv : slash ∉ v)
    (hname : StrAt name 0 dotDotName) (hlen : (u ++ slash :: v).length < fuel) (htwo : 2 < fuel) :
    ∃ out', washName fuel out name = some out' ∧
      StrAt out' 0 (washStep (u ++ slash :: v) dotDotName) := by
  obtain ⟨r, hr, hzero⟩ := strcmp_of_strAt (StrAt.image_nul (s := dotDotName) (by decide)) hname htwo
  have hplace : (u ++ slash :: v).length - (slash :: v).length = u.length := by
    rw [List.length_append, Nat.add_sub_cancel]
  rw [washName, hr, Option.bind_some, if_pos (hzero.mpr rfl), strrchr_of_append hout hv hlen,
    washStep, if_pos rfl, afterLastSlash_append hv]
  dsimp only
  rw [hplace, Nat.zero_add]
  by_cases hu : u.length ≠ 0
  · have hcut := hout.take (i := u.length) (by rw [List.length_append]; omega)
    rw [Nat.zero_add] at hcut
    rw [if_pos hu, if_pos hu]
    exact ⟨_, rfl, hcut⟩
  · have hcut := hout.take (i := u.length + 1) (by rw [List.length_append, List.length_cons]; omega)
    rw [Nat.zero_add] at hcut
    rw [if_neg hu, if_neg hu]
    exact ⟨_, rfl, hcut⟩

theorem appendSlash_of_strAt (hout : StrAt out 0 path) (hlen : path.length < fuel) (hone : 1 < fuel) :
    ∃ out', appendSlash fuel out = some out' ∧
      StrAt out' 0 (if path ≠ [slash] then path ++ [slash] else path) := by
  have hslash : StrAt (image [slash]) 0 [slash] := StrAt.image_nul (by decide)
  obtain ⟨r, hr, hzero⟩ := strcmp_of_strAt hout hslash hlen
  rw [appendSlash, hr, Option.bind_some]
  by_cases hroot : path = [slash]
  · rw [if_neg fun hne => hne (hzero.mpr hroot), if_neg fun hne => hne hroot]
    exact ⟨out, rfl, hout⟩
  · rw [if_pos fun h => hroot (hzero.mp h), if_pos hroot]
    exact strcat_of_strAt hout hslash hlen hone

/-- A round does to the string in the buffer what `washStep` does to the text. -/
theorem washName_step (hs : ∀ w ∈ s, IsWord slash w) (hout : StrAt out 0 (pathOf s))
    (hname : StrAt name 0 w) (hlen : (pathOf s).length + w.length + 1 < fuel) (hw : w ≠ []) :
    ∃ out', washName fuel out name = some out' ∧ StrAt out' 0 (washStep (pathOf s) w) := by
  have hpos := List.length_pos_of_ne_nil hw
  have htwo : 2 < fuel ∧ 0 < (pathOf s).length := by
    obtain ⟨u, v, heq, -⟩ := pathOf_split hs
    rw [heq, List.length_append, List.length_cons] at hlen ⊢
    omega
  by_cases hup : w = dotDotName
  · obtain ⟨u, v, heq, hv⟩ := pathOf_split hs
    rw [heq] at hout hlen ⊢
    rw [hup] at hname ⊢
    exact washName_up hout hv hname (by omega) htwo.1
  · obtain ⟨r, hr, hzero⟩ := strcmp_of_strAt (StrAt.image_nul (s := dotDotName) (by decide)) hname htwo.1
    obtain ⟨r', hr', hzero'⟩ := strcmp_of_strAt (StrAt.image_nul (s := dotName) (by decide)) hname
      (show 1 < fuel by omega)
    rw [washName, hr, Option.bind_some, if_neg fun h => hup (hzero.mp h).symm, hr', Option.bind_some,
      washStep, if_neg hup]
    by_cases hhere : w = dotName
    · rw [if_neg fun hne => hne (hzero'.mpr hhere.symm), if_neg fun hne => hne hhere]
      exact ⟨out, rfl, hout⟩
    · rw [if_pos fun h => hhere (hzero'.mp h).symm, if_pos hhere]
      obtain ⟨out', hrun, hslash⟩ := appendSlash_of_strAt hout (by omega) (show 1 < fuel by omega)
      rw [hrun, Option.bind_some]
      refine strcat_of_strAt hslash hname ?_ ?_
      · split_ifs
        · rw [List.length_append, List.length_singleton]
          omega
        · omega
      · omega

theorem length_pathOf_le (s : List (List UInt8)) : (pathOf s).length ≤ (join slash s).length + 1 := by
  rw [pathOf]
  split_ifs
  · rw [List.length_singleton]
    omega
  · omega

/-- The loop of `wash_path` keeps the path of the names that are left so far. -/
theorem washLoop_names (hs : ∀ w ∈ s, IsWord slash w) (hout : StrAt out 0 (pathOf s))
    (h : Ahead fuel m name p w next) (hword : slash ∉ w)
    (hlen : (join slash s).length + (join slash (namesOf w next)).length + 1 < fuel)
    (hrounds : (namesOf w next).length < rounds) :
    ∃ out', washLoop fuel m rounds out name p = some out' ∧
      StrAt out' 0 (pathOf (((namesOf w next).map moveOf).foldl push s)) := by
  induction rounds generalizing s out name p w next with
  | zero => exact absurd hrounds (Nat.not_lt_zero _)
  | succ rounds ih =>
      rw [washLoop]
      by_cases hw : w = []
      · rw [if_neg fun hne => h.first_ne_zero_iff.mp hne hw, namesOf, if_pos hw]
        exact ⟨out, rfl, hout⟩
      · obtain ⟨name', p', hclear, hnext⟩ := h.clearAndParse hw
        have hpath := length_pathOf_le s
        have hpush := length_join_push s w
        rw [Ahead.namesOf_eq hw] at hlen hrounds ⊢
        rw [join_cons, List.length_append, List.length_cons] at hlen
        obtain ⟨out', hrun, hout'⟩ := washName_step hs hout h.str
          (show (pathOf s).length + w.length + 1 < fuel by omega) hw
        rw [washStep_pathOf hs] at hout'
        rw [if_pos (h.first_ne_zero_iff.mpr hw), hrun, Option.bind_some, hclear, Option.bind_some]
        refine ih (forall_push hs fun _ _ => ⟨hw, hword⟩) hout' hnext ?_ (by omega)
          (Nat.lt_of_succ_lt_succ hrounds)
        cases next with
        | none => exact List.not_mem_nil
        | some path => exact not_mem_takeWhile _

end Loops

/-! ## Counting -/

section Count

variable {fuel a : ℕ} {m name : Bytes} {path : List UInt8}

/-- A path whose first name is empty has no name and no rest. -/
theorem parsed_nil (hnil : (BochsOs.pathParse path).1 = []) :
    (BochsOs.pathParse path).2 = none ∧ words slash path = [] := by
  constructor
  · by_cases htext : path.dropWhile (· = slash) = []
    · rw [BochsOs.pathParse, htext]
      rfl
    · exact absurd hnil (takeWhile_ne_nil htext)
  · rw [← namesOf_pathParse, namesOf, if_pos hnil]

/-- The first round of the loop, and with it the whole count. -/
theorem depthLoop_first {p : Option ℕ} {next : Option (List UInt8)} (hfirst : name 0 ≠ 0)
    (hrest : NextAt m p next) (hfits : ∀ path ∈ next, path.length < fuel)
    (hshort : ShortNames (next.getD [])) (hrounds : (words slash (next.getD [])).length + 1 < fuel) :
    depthLoop fuel m fuel name p 0 = some ((words slash (next.getD [])).length + 1) := by
  obtain ⟨rounds, rfl⟩ : ∃ rounds, fuel = rounds + 1 := ⟨fuel - 1, by omega⟩
  obtain ⟨name', p', hclear, hahead⟩ := clearAndParse_ahead name hrest hfits hshort
  rw [depthLoop, if_pos hfirst, hclear, Option.bind_some]
  dsimp only
  rw [depthLoop_names hahead, namesOf_nextName, Nat.zero_add, Nat.add_comm]
  rw [namesOf_nextName]
  omega

/-- The result is the number of names, except for a path without names. -/
theorem pathDepthCnt_of_strAt (h : StrAt m a path) (hshort : ShortNames path)
    (hfuel : path.length + 2 < fuel) :
    pathDepthCnt fuel m a name =
      some (if words slash path = [] ∧ name 0 ≠ 0 then 1 else (words slash path).length) := by
  obtain ⟨p, hrun, hrest⟩ := pathParse_of_strAt name h (show path.length < fuel by omega)
  have hfits : ∀ rest ∈ (BochsOs.pathParse path).2, rest.length < fuel :=
    fun rest hr => (length_rest_le hr).trans_lt (by omega)
  rw [pathDepthCnt, hrun, Option.bind_some]
  dsimp only
  by_cases hnil : (BochsOs.pathParse path).1 = []
  · obtain ⟨hnone, hwords⟩ := parsed_nil hnil
    rw [hnone] at hrest hfits
    rw [hnil, store_nil, hwords]
    by_cases hfirst : name 0 ≠ 0
    · rw [if_pos ⟨rfl, hfirst⟩, depthLoop_first hfirst hrest hfits]
      · rfl
      · exact fun v hv => (by cases hv)
      · show 0 + 1 < fuel
        omega
    · obtain ⟨rounds, rfl⟩ : ∃ rounds, fuel = rounds + 1 := ⟨fuel - 1, by omega⟩
      rw [if_neg fun hboth => hfirst hboth.2, depthLoop, if_neg hfirst]
      rfl
  · have hwords : words slash path =
        (BochsOs.pathParse path).1 :: words slash ((BochsOs.pathParse path).2.getD []) := by
      rw [← namesOf_pathParse, namesOf, if_neg hnil]
    have hpos := List.length_pos_of_ne_nil hnil
    have hfirst : store name 0 (BochsOs.pathParse path).1 0 ≠ 0 := by
      have hbyte := store_inside (m := name) (a := 0) hpos
      rw [Nat.zero_add] at hbyte
      rw [hbyte]
      exact fun hzero => zero_not_mem_parsed h (hzero ▸ List.getElem_mem hpos)
    have hcount : (join slash (words slash path)).length ≤ path.length + 1 := length_join_words_le path
    have hjoin : (words slash path).length ≤ (join slash (words slash path)).length :=
      length_le_length_join _
    rw [if_neg (by rw [hwords]; exact fun hboth => List.cons_ne_nil _ _ hboth.1)]
    rw [hwords] at hcount hjoin ⊢
    rw [List.length_cons] at hjoin ⊢
    refine depthLoop_first hfirst hrest hfits (fun v hv => hshort v ?_) (by omega)
    rw [hwords]
    exact List.mem_cons_of_mem _ hv

/-- The count is right for every path with a name, and for a path without one when the first byte of
the buffer is zero. -/
theorem pathDepthCnt_eq_iff (h : StrAt m a path) (hshort : ShortNames path)
    (hfuel : path.length + 2 < fuel) :
    pathDepthCnt fuel m a name = some (words slash path).length ↔
      words slash path ≠ [] ∨ name 0 = 0 := by
  rw [pathDepthCnt_of_strAt h hshort hfuel]
  by_cases hnil : words slash path = []
  · rw [hnil]
    by_cases hzero : name 0 = 0
    · rw [if_neg fun hboth => hboth.2 hzero]
      exact iff_of_true rfl (Or.inr hzero)
    · rw [if_pos ⟨rfl, hzero⟩]
      exact iff_of_false (by decide) fun hor => hor.elim (fun hne => hne rfl) hzero
  · rw [if_neg fun hboth => hnil hboth.1]
    exact iff_of_true rfl (Or.inl hnil)

/-- `/a/`. -/
theorem pathDepthCnt_dirA :
    pathDepthCnt 10 (image [slash, 97, slash]) 0 (fun _ => 1) =
        some (words slash [slash, 97, slash]).length ↔
      words slash [slash, 97, slash] ≠ [] ∨ (1 : UInt8) = 0 :=
  pathDepthCnt_eq_iff (StrAt.image_nul (by decide)) (by decide) (by decide)

/-- The root directory counts as one name. -/
theorem not_always_pathDepthCnt : ¬∀ path m a name fuel, StrAt m a path → ShortNames path →
    path.length + 2 < fuel → pathDepthCnt fuel m a name = some (words slash path).length := by
  intro h
  have hroot := h [slash] (image [slash]) 0 (fun _ => 1) 4 (StrAt.image_nul (by decide)) (by decide)
    (by decide)
  exact absurd hroot (by decide)

end Count

/-! ## Cleaning -/

/-- The path of the names that are left of `path`. -/
def cleaned (path : List UInt8) : List UInt8 := pathOf (clean ((words slash path).map moveOf))

section Clean

variable {fuel a : ℕ} {m out : Bytes} {path w : List UInt8}

theorem washPath_of_strAt (h : StrAt m a path) (habs : path.head? = some slash)
    (hshort : ShortNames path) (hfuel : path.length + 2 < fuel) :
    ∃ out', washPath fuel m a out = some out' ∧ StrAt out' 0 (cleaned path) := by
  have hcount := length_join_words_le_of_head habs
  have hjoin : (words slash path).length ≤ (join slash (words slash path)).length :=
    length_le_length_join _
  have hfirst : m a = slash := by
    cases path with
    | nil => cases habs
    | cons c path => exact (StrAt.cons_iff.mp h).1.trans (Option.some_inj.mp habs)
  obtain ⟨p, hrun, hahead⟩ := Ahead.parse (fill zeroBuf 0 maxFileNameLen 0) h
    (show path.length < fuel by omega) hshort (strAt_store_clear (zero_not_mem_parsed h) (length_parsed_lt hshort))
  rw [washPath, if_neg fun hne => hne hfirst, hrun, Option.bind_some]
  dsimp only
  by_cases hnil : (BochsOs.pathParse path).1 = []
  · rw [if_pos (not_not.mp fun hne => hahead.first_ne_zero_iff.mp hne hnil), cleaned,
      (parsed_nil hnil).2]
    exact ⟨_, rfl, StrAt.store_nul (s := [slash]) out 0 (by decide)⟩
  · rw [if_neg (hahead.first_ne_zero_iff.mpr hnil)]
    have hempty : StrAt (Function.update out 0 0) 0 [] := StrAt.nil_iff.mpr (Function.update_self ..)
    obtain ⟨out', hcat, hout'⟩ := strcat_of_strAt hempty
      (StrAt.image_nul (s := [slash]) (by decide)) (show 0 < fuel by omega) (show 1 < fuel by omega)
    rw [hcat, Option.bind_some, cleaned, ← namesOf_pathParse]
    rw [← namesOf_pathParse] at hcount hjoin
    refine washLoop_names (s := []) (fun w hw => (by cases hw)) hout' hahead (not_mem_takeWhile _) ?_ ?_
    · rw [join_nil, List.length_nil]
      omega
    · omega

theorem isWord_of_mem_clean (hw : w ∈ clean ((words slash path).map moveOf)) :
    IsWord slash w ∧ w ≠ dotName ∧ w ≠ dotDotName :=
  forall_clean (P := fun w => IsWord slash w ∧ w ≠ dotName ∧ w ≠ dotDotName)
    (fun _ hv hdot hup => ⟨(isWord_of_mem_words hv).1, hdot, hup⟩) w hw

theorem words_pathOf {s : List (List UInt8)} (hs : ∀ w ∈ s, IsWord slash w) :
    words slash (pathOf s) = s := by
  rw [pathOf]
  split_ifs with hnil
  · rw [hnil, words_sep_cons, words_nil]
  · exact words_join hs

theorem words_cleaned (path : List UInt8) :
    words slash (cleaned path) = clean ((words slash path).map moveOf) :=
  words_pathOf fun _ hw => (isWord_of_mem_clean hw).1

/-- Names without `.` and `..` are all kept. -/
theorem clean_names {ws : List (List UInt8)} (hws : ∀ w ∈ ws, w ≠ dotName ∧ w ≠ dotDotName) :
    clean (ws.map moveOf) = ws := by
  induction ws using List.reverseRecOn with
  | nil => rfl
  | append_singleton ws w ih =>
      obtain ⟨hdot, hup⟩ := hws w (by simp)
      rw [clean, List.map_append, List.foldl_append, ← clean, ih fun v hv => hws v (by simp [hv])]
      show push ws (moveOf w) = _
      rw [moveOf, if_neg hdot, if_neg hup, push]

theorem cleaned_cleaned (path : List UInt8) : cleaned (cleaned path) = cleaned path := by
  rw [cleaned, words_cleaned, clean_names fun w hw => (isWord_of_mem_clean hw).2, ← cleaned]

theorem shortNames_cleaned (hshort : ShortNames path) : ShortNames (cleaned path) := by
  intro w hw
  rw [words_cleaned] at hw
  exact forall_clean (P := fun w => w.length < maxFileNameLen) (fun v hv _ _ => hshort v hv) w hw

theorem head_cleaned (path : List UInt8) : (cleaned path).head? = some slash := by
  rw [cleaned, pathOf]
  split_ifs with hnil
  · rfl
  · obtain ⟨w, ws, hws⟩ := List.exists_cons_of_ne_nil hnil
    rw [hws]
    rfl

/-- A path in canonical form: `/`, or a slash and a name other than `.` and `..`, again and again. -/
structure Canonical (path : List UInt8) : Prop where
  joined : path = [slash] ∨ words slash path ≠ [] ∧ path = join slash (words slash path)
  names : ∀ w ∈ words slash path, w ≠ [] ∧ w ≠ dotName ∧ w ≠ dotDotName
  noTrailing : path ≠ [slash] → path.getLast? ≠ some slash

theorem getLast_join {s : List (List UInt8)} (hs : ∀ w ∈ s, IsWord slash w) :
    (join slash s).getLast? ≠ some slash := by
  rcases List.eq_nil_or_concat s with rfl | ⟨s, w, rfl⟩
  · exact fun hlast => (by cases hlast)
  · rw [List.concat_eq_append] at hs ⊢
    obtain ⟨hne, hslash⟩ := hs w (by simp)
    rw [join_append, join_cons, join_nil, List.append_nil, List.getLast?_append_of_ne_nil _
      (List.cons_ne_nil _ _), List.getLast?_cons_of_ne_nil hne]
    exact fun hlast => hslash (List.mem_of_getLast? hlast)

theorem canonical_cleaned (path : List UInt8) : Canonical (cleaned path) := by
  have hwords : ∀ w ∈ clean ((words slash path).map moveOf), IsWord slash w :=
    fun _ hw => (isWord_of_mem_clean hw).1
  have hform : cleaned path = [slash] ∨
      words slash (cleaned path) ≠ [] ∧ cleaned path = join slash (words slash (cleaned path)) := by
    rw [words_cleaned, cleaned, pathOf]
    split_ifs with hnil
    · exact Or.inl rfl
    · exact Or.inr ⟨hnil, rfl⟩
  refine ⟨hform, fun w hw => ?_, fun hroot => ?_⟩
  · rw [words_cleaned] at hw
    exact ⟨(hwords w hw).1, (isWord_of_mem_clean hw).2⟩
  · obtain ⟨-, hjoin⟩ := hform.resolve_left hroot
    rw [hjoin, words_cleaned]
    exact getLast_join hwords

/-- `wash_path` leaves the path of the cleaned names; that is a path in canonical form, and
`wash_path` leaves it again when it gets it. -/
theorem washPath_canonical (h : StrAt m a path) (habs : path.head? = some slash)
    (hshort : ShortNames path) (hfuel : path.length + 2 < fuel) :
    (∃ out', washPath fuel m a out = some out' ∧ StrAt out' 0 (cleaned path)) ∧
      Canonical (cleaned path) ∧
      ∀ m a out fuel, StrAt m a (cleaned path) → (cleaned path).length + 2 < fuel →
        ∃ out', washPath fuel m a out = some out' ∧ StrAt out' 0 (cleaned path) := by
  refine ⟨washPath_of_strAt h habs hshort hfuel, canonical_cleaned path,
    fun m a out fuel hagain hfuel' => ?_⟩
  rw [← cleaned_cleaned path]
  refine washPath_of_strAt ?_ (head_cleaned _) (shortNames_cleaned hshort) ?_
  · exact hagain
  · exact hfuel'

/-- `/a/..` -/
theorem washPath_canonical_up :
    (∃ out', washPath 20 (image [slash, 97, slash, 46, 46]) 0 zeroBuf = some out' ∧
        StrAt out' 0 (cleaned [slash, 97, slash, 46, 46])) ∧
      Canonical (cleaned [slash, 97, slash, 46, 46]) ∧
      ∀ m a out fuel, StrAt m a (cleaned [slash, 97, slash, 46, 46]) →
        (cleaned [slash, 97, slash, 46, 46]).length + 2 < fuel →
        ∃ out', washPath fuel m a out = some out' ∧ StrAt out' 0 (cleaned [slash, 97, slash, 46, 46]) :=
  washPath_canonical (StrAt.image_nul (by decide)) rfl (by decide) (by decide)

end Clean

end BochsOs.Bytewise
