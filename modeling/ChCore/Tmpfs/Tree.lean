/-
  File: ChCore/Tmpfs/Tree.lean
  Subject: The directory tree of tmpfs (user/tmpfs/util.c, util.h): inodes, dentries, their
    reference counts, directories as chained hash tables, paths, the path walk.

  The heap is a table of inodes and one of dentries. An object that has been freed stays in its
  table with `live = false`; whoever touches it, runs into an `assert` or uses one member of a
  union as the other is `none` from there on.

  `malloc` does not clear what it returns and `new_dent` does not set `refcnt`: `junk d` is the
  value it finds in the memory of the `d`-th dentry.
-/
import ChCore.User.Idman

namespace ChCore.Tmpfs

open Function

/-! ## 1. The heap -/

inductive FsType where
  | reg
  | dir
  | sym
  deriving DecidableEq, Repr

inductive Errno where
  | ENOENT
  | EINVAL
  | EBADF
  | EISDIR
  | ENOTDIR
  | EEXIST
  | EACCES
  | ENOTEMPTY
  deriving DecidableEq, Repr

abbrev Name := List Char

/-- `struct inode`; `link` is the text of a symbolic link. -/
structure Inode where
  type : FsType
  refcnt : Int
  size : Nat
  link : Name
  live : Bool

/-- `struct dentry`; `node` is the directory in whose table it is linked. -/
structure Dentry where
  name : Name
  inode : Nat
  refcnt : Int
  node : Option Nat
  live : Bool

/-- `struct fid_record`: the components of its path and its inode. -/
structure FidRecord where
  path : List Nat
  inode : Option Nat

def MAX_NR_FID_RECORDS : Nat := 1024

/-- The memory of the server. `entries i` holds the dentries of the directory `i`, the newest
    first: a bucket of its hash table is the part of it with that hash. -/
structure Fs where
  inodes : Nat → Inode
  nextInode : Nat
  dents : Nat → Dentry
  nextDent : Nat
  entries : Nat → List Nat
  fidman : User.IdManager MAX_NR_FID_RECORDS
  fidRecords : Nat → FidRecord

/-- The two objects of `init_tmpfs`: `new_dir` makes the dentries 0 and 1 before. -/
def tmpfsRoot : Nat := 0

def tmpfsRootDent : Nat := 2

/-- Reference counts are `int`: to count past the largest one is undefined. -/
def INT_MAX : Int := 2 ^ 31 - 1

def MAX_FILENAME_LEN : Nat := 255

def FS_REQ_PATH_LEN : Nat := 255

namespace Fs

variable (fs : Fs) (dir : Nat) (i : Nat) (d : Nat)

def setDent (x : Dentry) : Fs :=
  { fs with dents := update fs.dents d x }

def setInode (x : Inode) : Fs :=
  { fs with inodes := update fs.inodes i x }

/-- `d->...` -/
def dent : Option Dentry :=
  if (fs.dents d).live then some (fs.dents d) else none

/-- `i->...` -/
def inode : Option Inode :=
  if (fs.inodes i).live then some (fs.inodes i) else none

/-! ## 2. Reference counts -/

def getDent : Option Fs := do
  let x ← fs.dent d
  if x.refcnt < INT_MAX then some (fs.setDent d { x with refcnt := x.refcnt + 1 }) else none

/-- `put_dent`, `del_dent`. -/
def putDent : Option Fs := do
  let x ← fs.dent d
  if x.refcnt - 1 < 0 then none
  else some (fs.setDent d { x with refcnt := x.refcnt - 1, live := x.refcnt - 1 ≠ 0 })

def getInode : Option Fs := do
  let x ← fs.inode i
  if x.refcnt < INT_MAX then some (fs.setInode i { x with refcnt := x.refcnt + 1 }) else none

/-- `put_inode`, `del_inode`: a directory that is not empty is not freed. -/
def putInode : Option (Fs × Option Errno) := do
  let x ← fs.inode i
  if x.refcnt - 1 < 0 then none
  else if x.refcnt - 1 ≠ 0 then
    some (fs.setInode i { x with refcnt := x.refcnt - 1 }, none)
  else if x.type = .dir ∧ fs.entries i ≠ [] then
    some (fs.setInode i { x with refcnt := 0 }, some .ENOTEMPTY)
  else some (fs.setInode i { x with refcnt := 0, live := false }, none)

/-! ## 3. Directories -/

def hashChars (str : Name) : Nat := str.foldl (fun h c => (h * 131 + c.toNat) % 2 ^ 64) 0

variable (path : List Nat) (name : Name)

/-- The bucket of a name in a table of 1024 buckets, with the hash as `u32`. -/
def bucketOf : Nat := hashChars name % 2 ^ 32 % 1024

/-- `htable_get_bucket`. -/
def bucket : List Nat :=
  (fs.entries dir).filter fun d => bucketOf (fs.dents d).name = bucketOf name

/-- The search of `tfs_lookup` and `tfs_remove` in a bucket. -/
def scan (fs : Fs) (name : Name) : List Nat → Option (Option Nat)
  | [] => some none
  | d :: ds => do
    let x ← fs.dent d
    if x.name = name then some (some d) else scan fs name ds

/-- `tfs_lookup`. The outer `none` is the union of another type of inode. -/
def tfsLookup : Option (Option Nat) := do
  let x ← fs.inode dir
  if x.type = .dir then fs.scan name (fs.bucket dir name) else none

/-- `htable_add` to the table of a directory. -/
def htableAdd (dir d : Nat) : Option Fs := do
  let x ← fs.inode dir
  if x.type = .dir then
    some { fs.setDent d { fs.dents d with node := some dir } with
      entries := update fs.entries dir (d :: fs.entries dir) }
  else none

/-- `htable_del` and `free` of a dentry. A node that is linked nowhere was never set. -/
def htableDel : Option Fs := do
  let x ← fs.dent d
  let dir ← x.node
  let _ ← fs.inode dir
  some { fs.setDent d { x with node := none, live := false } with
    entries := update fs.entries dir ((fs.entries dir).erase d) }

/-- `new_inode` with the type and the contents its callers give it. -/
def newInode (type : FsType) (link : Name) : Fs × Nat :=
  ({ fs.setInode fs.nextInode ⟨type, 0, link.length, link, true⟩ with
      nextInode := fs.nextInode + 1
      entries := update fs.entries fs.nextInode [] },
    fs.nextInode)

/-- `dir->size++`. -/
def growDir : Fs :=
  fs.setInode dir { fs.inodes dir with size := (fs.inodes dir).size + 1 }

section Junk

variable (junk : Nat → Int)

variable (fs : Fs)

def newDent (inode : Nat) (name : Name) : Option (Fs × Nat) := do
  let fs ← fs.getInode inode
  some ({ fs.setDent fs.nextDent ⟨name, inode, junk fs.nextDent, none, true⟩ with
      nextDent := fs.nextDent + 1 }, fs.nextDent)

variable (dir : Nat) (name : Name)

/-- `add_new_dent`; `ret` says whether the caller wants the dentry. -/
def addNewDent (inode : Nat) (ret : Bool) : Option (Fs × Nat) := do
  let (fs, d) ← newDent junk fs inode name
  let fs ← fs.getDent d
  let fs ← fs.htableAdd dir d
  let fs := fs.growDir dir
  if ret then
    let fs ← fs.getDent d
    some (fs, d)
  else some (fs, d)

def newDir (parent : Option Nat) : Option (Fs × Nat) := do
  let (fs, inode) := fs.newInode .dir []
  let fs ← fs.getInode inode
  let (fs, _) ← addNewDent junk fs inode ['.'] inode false
  let (fs, _) ← addNewDent junk fs inode ['.', '.'] (parent.getD inode) false
  some (fs, inode)

variable (type : FsType) (link : Name)

/-- `new_reg`, `new_symlink`. -/
def newLeaf : Option (Fs × Nat) := do
  let (fs, inode) := fs.newInode type link
  let fs ← fs.getInode inode
  some (fs, inode)

/-- The inode that `tfs_mknod` makes. -/
def newNode : Option (Fs × Nat) :=
  if type = .dir then newDir junk fs (some dir) else fs.newLeaf type link

def tfsMknod (ret : Bool) : Option (Fs × Except Errno Nat) :=
  if name = [] then some (fs, .error .ENOENT)
  else do
    let (fs, inode) ← newNode junk fs dir type link
    let (fs, d) ← addNewDent junk fs dir name inode ret
    let (fs, _) ← fs.putInode inode
    some (fs, .ok d)

def tfsCreat (ret : Bool) : Option (Fs × Except Errno Nat) :=
  if name = [] then none else tfsMknod junk fs dir name .reg [] ret

def tfsMkdir : Option (Fs × Except Errno Nat) :=
  if name = [] then none else tfsMknod junk fs dir name .dir [] false

end Junk

def tfsRemove : Option (Fs × Option Errno) :=
  if name = [] then some (fs, some .ENOENT)
  else do
    let found ← fs.tfsLookup dir name
    match found with
    | none => some (fs, some .ENOENT)
    | some d =>
      let (fs, err) ← fs.putInode (fs.dents d).inode
      match err with
      | some e => some (fs, some e)
      | none =>
        let fs ← fs.htableDel d
        some (fs, none)

/-! ## 4. Paths -/

/-- `path_append`: the path holds a reference to each of its dentries. -/
def pathAppend (d : Nat) : Option (Fs × List Nat) := do
  let fs ← fs.getDent d
  some (fs, path ++ [d])

/-- The loop of `path_copy`. -/
def pathCopy (fs : Fs) : List Nat → List Nat → Option (Fs × List Nat)
  | dst, [] => some (fs, dst)
  | dst, d :: src => do
    let (fs, dst) ← fs.pathAppend dst d
    pathCopy fs dst src

/-- The loop of `path_fini`, over the components from the last on. -/
def finiLoop (fs : Fs) : List Nat → Option Fs
  | [] => some fs
  | d :: ds => do
    let fs ← fs.putDent d
    finiLoop fs ds

def pathFini : Option Fs := fs.finiLoop path.reverse

def pathLastInode : Option Nat := do
  let d ← path.getLast?
  let x ← fs.dent d
  some x.inode

/-- The loop of `path_last_dir_inode`, over the components from the last on. -/
def lastDirLoop (fs : Fs) : List Nat → Option Nat
  | [] => none
  | d :: ds => do
    let x ← fs.dent d
    let y ← fs.inode x.inode
    match y.type with
    | .dir => some x.inode
    | .sym => lastDirLoop fs ds
    | .reg => none

def pathLastDirInode : Option Nat := fs.lastDirLoop path.reverse

/-! ## 5. The walk -/

/-- What `tfs_namex` returns, with the path and the rest of the name where it has stopped. -/
structure Namex where
  fs : Fs
  path : List Nat
  leaf : Name
  err : Option Errno

/-- The loop of `tfs_namex` without `mkdir_p`, from the directory `parent` on; `link` goes through the
    text of a symbolic link before the last component. Such a text is in an array without a terminating
    zero (`inLink`), so that its end is not found. -/
def namexLoop (link : Fs → List Nat → Name → Option Namex) (inLink : Bool) (fs : Fs) (parent : Nat)
    (path : List Nat) : Nat → Name → Option Namex
  | 0, _ => none
  | fuel + 1, name =>
    let buff := name.takeWhile (· ≠ '/')
    let rest := name.dropWhile (· ≠ '/')
    if buff.length > MAX_FILENAME_LEN then
      some ⟨fs, path, name.drop MAX_FILENAME_LEN, some .EINVAL⟩
    else if rest = [] then if inLink then none else some ⟨fs, path, buff, none⟩
    else do
      let found ← fs.tfsLookup parent buff
      match found with
      | none => some ⟨fs, path, rest, some .ENOENT⟩
      | some d =>
        let (fs, path) ← fs.pathAppend path d
        let x ← fs.inode (fs.dents d).inode
        let name := rest.dropWhile (· = '/')
        if x.type = .sym then (link fs path x.link).map fun n => { n with leaf := rest }
        else if inLink ∧ name = [] then none
        else if name ≠ [] ∧ x.type ≠ .dir then some ⟨fs, path, name, some .EINVAL⟩
        else namexLoop link inLink fs (fs.dents d).inode path fuel name

/-- `tfs_namex` of the text of a link: it fails, or reads behind the text. -/
def namexLink : Nat → Fs → List Nat → Name → Option Namex
  | 0, _, _, _ => none
  | depth + 1, fs, path, name =>
    if name = [] ∨ name.head? = some '/' then none
    else do
      let dir ← fs.pathLastDirInode path
      namexLoop (namexLink depth) true fs dir path (name.length + 1) name

/-- `tfs_namex` of the path of a request; `depth` is what the stack has room for. -/
def tfsNamex (depth : Nat) (path : List Nat) (name : Name) : Option Namex := do
  let dir ← fs.pathLastDirInode path
  namexLoop (namexLink depth) false fs dir path (name.length + 1) name

/-- `struct tmpfs_walk_path`, what a walk leaves in it. -/
structure Walk where
  path : List Nat
  leaf : Name
  target : Option Nat
  targetDent : Option Nat

/-- How a walk ends, before the callback for a missing file. -/
inductive WalkEnd where
  | error (e : Errno)
  | found
  | missing
  deriving DecidableEq

/-- `handle_xxxat_internal` up to its callback, which is the last thing it does however deep in
    symbolic links it is. `depth` is what the stack has room for.

    A link of one component is looked up in the inode at the end of the path, and that is the link
    itself. -/
def walkInternal (follow : Bool) : Nat → Fs → Walk → Name → Option (Fs × Walk × WalkEnd)
  | 0, _, _, _ => none
  | depth + 1, fs, w, chars =>
    let start := chars.dropWhile (· = '/')
    if chars = [] then none
    else if start = [] then do
      let i ← fs.pathLastInode w.path
      some (fs, { w with leaf := [], target := some i }, .found)
    else do
      let n ← fs.tfsNamex depth w.path start
      let fs := n.fs
      let w := { w with path := n.path, leaf := n.leaf }
      match n.err with
      | some e => some (fs, w, .error e)
      | none =>
        let parent ← fs.pathLastInode w.path
        if w.leaf = [] then
          let x ← fs.inode parent
          if x.type ≠ .dir then some (fs, w, .error .ENOENT) else some (fs, w, .found)
        else
          let found ← fs.tfsLookup parent w.leaf
          match found with
          | none => some (fs, { w with targetDent := none }, .missing)
          | some d =>
            let x ← fs.inode (fs.dents d).inode
            if x.type = .sym ∧ follow then
              let (fs, path) ← fs.pathAppend w.path d
              if x.link = [] ∨ x.link.length > FS_REQ_PATH_LEN then none
              else if x.link.head? = some '/' then
                let (fs, path) ← fs.pathAppend path tmpfsRootDent
                walkInternal follow depth fs { w with path := path, targetDent := some d } x.link
              else
                walkInternal follow depth fs { w with path := path, targetDent := some d } x.link
            else
              some (fs, { w with targetDent := some d, target := some (fs.dents d).inode }, .found)

end Fs

end ChCore.Tmpfs
