import BochsOs.Fs.File

/-!
# Path lookup

The path functions of `fs/fs.c`.  `searchFile` walks an absolute path component by
component.  It opens every directory it enters and closes the one it leaves; when
it returns, the handle in the record is still open, and its callers close it.
-/

namespace BochsOs

open ByteMemory Suspend Suspend.Prog

/-- A C string: bytes without the terminating zero. -/
abbrev CString : Type := { s : List UInt8 // (0 : UInt8) ∉ s }

/-- `MAX_PATH_LEN`. -/
def maxPathLen : ℕ := 512

/-- `'/'`. -/
def slash : UInt8 := 47

/-- `path_parse`: the first name of a path, and the path from the slash after it on;
`none` if the path ends with the name. -/
def pathParse (pathname : List UInt8) : List UInt8 × Option (List UInt8) :=
  let pathname := pathname.dropWhile (· = slash)
  let rest := pathname.dropWhile (· ≠ slash)
  (pathname.takeWhile (· ≠ slash), if rest = [] then none else some rest)

/-- The next name of a path; empty if there is no more path. -/
def nextName (subPath : Option (List UInt8)) : List UInt8 × Option (List UInt8) :=
  match subPath with
  | none => ([], none)
  | some path => pathParse path

/-- The rounds of `path_depth_cnt` after the first name. -/
def depthLoop : (fuel : ℕ) → Option (List UInt8) → (depth : ℕ) → Prog Kernel ℕ
  | 0, _, depth => return depth
  | fuel + 1, subPath, depth =>
      let (name, rest) := nextName subPath
      if maxFileNameLen < name.length then stop .undefined
      else if name = [] then return depth
      else depthLoop fuel rest (depth + 1)

/-- `path_depth_cnt`.  When the path has no name, the buffer `name` keeps the byte it
held before. -/
def pathDepthCnt (pathname : List UInt8) : Prog Kernel ℕ := do
  let (name, rest) := pathParse pathname
  if maxFileNameLen < name.length then stop .undefined
  else if name = [] then
    let byte ← arbitrary
    if byte % 256 = 0 then return 0 else depthLoop pathname.length rest 1
  else depthLoop pathname.length rest 1

/-- `struct path_search_record`. -/
structure PathSearchRecord where
  searchedPath : List UInt8
  parentDir : ℕ
  fileType : FileType

/-- The local variables of `search_file`'s loop: the directory to search in and the
number of the one before it, the last number found, the name to look up and the
path after it, and the path walked so far. -/
structure Walk where
  parentDir : ℕ
  parentInodeNo : ℕ
  iNo : ℕ
  name : List UInt8
  subPath : Option (List UInt8)
  searchedPath : List UInt8

/-- A call of `path_parse`. -/
abbrev Parser : Type := List UInt8 → Prog Kernel (List UInt8 × Option (List UInt8))

/-- `path_parse` into a buffer of `MAX_FILE_NAME_LEN` bytes: it writes a longer name behind the
end of the buffer. -/
def parseFits : Parser := fun path =>
  if maxFileNameLen < (pathParse path).1.length then stop .undefined else return pathParse path

section Parser

variable (parse : Parser)

/-- The call in a loop, which is made if there is more path; the buffer is empty otherwise. -/
def nextNameBy : Option (List UInt8) → Prog Kernel (List UInt8 × Option (List UInt8))
  | none => return ([], none)
  | some path => parse path

/-- The loop of `search_file` and what follows it.  Every round
takes one name from the path, as soon as the last one is found, also when that is a file. -/
def searchLoopBy (t : Transfer) : (fuel : ℕ) → Walk → Prog Kernel (Option ℕ × PathSearchRecord)
  | 0, _ => stop .hang
  | fuel + 1, w => do
      if w.name = [] then
        dirClose w.parentDir
        let parentDir ← dirOpen t w.parentInodeNo
        return (asInt w.iNo, ⟨w.searchedPath, parentDir, .directory⟩)
      else if maxFileNameLen ≤ w.name.length then stop .undefined
      else
        assert (w.searchedPath.length < maxPathLen)
        let searchedPath := w.searchedPath ++ slash :: w.name
        match ← searchDirEntry t w.parentDir w.name with
        | none => return (none, ⟨searchedPath, w.parentDir, .unknown⟩)
        | some (iNo, fType) =>
            let (name, subPath) ← nextNameBy parse w.subPath
            match fType with
            | .regular => return (asInt iNo, ⟨searchedPath, w.parentDir, .regular⟩)
            | .directory =>
                let k ← read
                let parentInodeNo := (k.dirInode w.parentDir).iNo
                dirClose w.parentDir
                let parentDir ← dirOpen t iNo
                searchLoopBy t fuel ⟨parentDir, parentInodeNo, iNo, name, subPath, searchedPath⟩
            | _ => searchLoopBy t fuel ⟨w.parentDir, w.parentInodeNo, iNo, name, subPath, searchedPath⟩

/-- The spellings of the root that `search_file` treats on their own. -/
def isRootPath (pathname : List UInt8) : Bool :=
  pathname = [slash] || pathname = slash :: dotName || pathname = slash :: dotDotName

/-- `search_file` over its calls of `path_parse`. -/
def searchFileBy (t : Transfer) (pathname : CString) : Prog Kernel (Option ℕ × PathSearchRecord) := do
  let path := pathname.val
  if isRootPath path then return (some 0, ⟨[], rootDir, .directory⟩)
  else
    assert (path.head? = some slash ∧ 1 < path.length ∧ path.length < maxPathLen)
    let iNo ← arbitrary
    let (name, subPath) ← parse path
    searchLoopBy parse t (path.length + 1) ⟨rootDir, 0, iNo % 2 ^ 32, name, subPath, []⟩

end Parser

/-- The loop of `search_file`. -/
abbrev searchLoop (t : Transfer) (fuel : ℕ) (w : Walk) : Prog Kernel (Option ℕ × PathSearchRecord) :=
  searchLoopBy parseFits t fuel w

/-- `search_file`: the inode number of a path, `none` for `-1`.  For a path of slashes
alone the number is that of an uninitialised entry. -/
def searchFile (t : Transfer) (pathname : CString) : Prog Kernel (Option ℕ × PathSearchRecord) :=
  searchFileBy parseFits t pathname

theorem nextNameBy_parseFits (subPath : Option (List UInt8)) : nextNameBy parseFits subPath =
    if maxFileNameLen < (nextName subPath).1.length then stop .undefined
    else pure (nextName subPath) := by
  cases subPath with
  | none => rfl
  | some path => rfl

theorem parseFits_of_le {path : List UInt8} (h : (pathParse path).1.length ≤ maxFileNameLen) :
    parseFits path = pure (pathParse path) := if_neg h.not_gt

/-- `strrchr(s, '/') + 1`: what follows the last slash. -/
def afterLastSlash (s : List UInt8) : List UInt8 :=
  (s.reverse.takeWhile (· ≠ slash)).reverse

end BochsOs
