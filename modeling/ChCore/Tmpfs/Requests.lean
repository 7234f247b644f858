/-
  File: ChCore/Tmpfs/Requests.lean
  Subject: The requests of tmpfs that walk a path (user/tmpfs/tmpfs.c, util.c, util.h) and the
    fids they hand out.

  * `request` -- one request, as `tmpfs_dispatch` chooses it.

  Three fields are read though nobody has set them: `follow_symlink` of most walks (an argument of
  the request here), `refcnt` of a dentry (`junk`) and the path of a fid that `fs_open` returns.
-/
import ChCore.Tmpfs.Tree

namespace ChCore.Tmpfs

open Function

namespace Fs

/-! ## 1. Fids -/

variable (fs : Fs)

/-- `new_fid_record`: the inode of the record is set, its path is not. -/
def newFidRecord (inode : Option Nat) : Option (Fs × Nat) := do
  let (m, id) ← fs.fidman.allocId
  if id = 0 then none
  else
    some ({ fs with
      fidman := m
      fidRecords := update fs.fidRecords id ⟨(fs.fidRecords id).path, inode⟩ }, id)

/-- `get_fid_record`; `query_id` asserts that the fid is in range. -/
def getFidRecord (fid : Nat) : Option (Option FidRecord) :=
  if fid = 0 then some none
  else if fid ≥ MAX_NR_FID_RECORDS then none
  else if fs.fidman.bitmap fid then some (some (fs.fidRecords fid))
  else some none

/-- `del_fid_record`: the path of the record stays. -/
def delFidRecord (fid : Nat) : Option (Fs × Except Errno Nat) := do
  let record ← fs.getFidRecord fid
  match record with
  | none => some (fs, .error .EBADF)
  | some r =>
    some ({ fs with
      fidman := ⟨update fs.fidman.bitmap fid false, fid / User.BITS_PER_U64⟩
      fidRecords := update fs.fidRecords fid ⟨r.path, none⟩ }, .ok 0)

/-! ## 2. The walk of a request -/

/-- The directory a request starts at: `AT_FDROOT` or a fid. -/
inductive Dirfd where
  | root
  | fid (n : Nat)
  deriving DecidableEq

/-- `not_found_callback`. -/
inductive Callback where
  | nothing
  | openat (creat : Bool)
  | symlinkat (link : Name)

section Walks

variable (junk : Nat → Int) (depth : Nat)

variable (fs : Fs) (dirfd : Dirfd) (w : Walk)

/-- `fs_openat_callback`, `fs_symlinkat_callback`. -/
def notFound : Callback → Option (Fs × Walk × Option Errno)
  | .nothing => some (fs, w, none)
  | .openat false => some (fs, w, none)
  | .openat true => do
    let dir ← fs.pathLastInode w.path
    let (fs, r) ← tfsCreat junk fs dir w.leaf true
    match r with
    | .error e => some (fs, w, some e)
    | .ok d => some (fs, { w with targetDent := some d }, none)
  | .symlinkat link => do
    let dir ← fs.pathLastInode w.path
    let (fs, r) ← tfsMknod junk fs dir w.leaf .sym link true
    match r with
    | .error e => some (fs, w, some e)
    | .ok d => some (fs, { w with targetDent := some d }, none)

/-- The first part of `handle_xxxat`: the path the walk starts with, `none` inside is a bad fid. -/
def startPath : Option (Fs × Option (List Nat)) :=
  match dirfd with
  | .root => do
    let (fs, path) ← fs.pathAppend [] tmpfsRootDent
    some (fs, some path)
  | .fid n => do
    let record ← fs.getFidRecord n
    match record with
    | none => some (fs, none)
    | some r =>
      let (fs, path) ← fs.pathCopy [] r.path
      some (fs, some path)

variable (path : Name) (follow : Bool)

/-- `handle_xxxat` up to the callback. -/
def walkTo : Option (Fs × Walk × WalkEnd) :=
  if path.head? = some '/' ∧ dirfd ≠ .root then none
  else do
    let (fs, start) ← fs.startPath dirfd
    match start with
    | none => some (fs, ⟨[], [], none, none⟩, .error .EBADF)
    | some comps =>
      let _ ← fs.pathLastInode comps
      walkInternal follow depth fs ⟨comps, [], none, none⟩ path

def handleXxxat (cb : Callback) : Option (Fs × Walk × Option Errno) := do
  let (fs, w, out) ← walkTo depth fs dirfd path follow
  match out with
  | .error e => some (fs, w, some e)
  | .found => some (fs, w, none)
  | .missing =>
    let (fs, w, err) ← notFound junk fs w cb
    match err, w.targetDent with
    | some e, _ => some (fs, w, some e)
    | none, none => some (fs, w, some .ENOENT)
    | none, some d => some (fs, { w with target := some (fs.dents d).inode }, none)

/-! ## 3. The requests -/

/-- The flags of `open`; `write` is `O_RDWR | O_WRONLY`. -/
structure OpenFlags where
  creat : Bool
  excl : Bool
  directory : Bool
  write : Bool
  trunc : Bool
  append : Bool
  nofollow : Bool
  deriving DecidableEq

def AT_SYMLINK_NOFOLLOW : BitVec 32 := 0x100

def AT_EACCESS : BitVec 32 := 0x200

/-- `!(flags & ~allowed)` -/
def flagsIn (flags allowed : BitVec 32) : Bool := flags &&& ~~~allowed == 0

/-- `walk.target->type`. -/
def targetType : Option FsType := do
  let i ← w.target
  let x ← fs.inode i
  some x.type

/-- The checks of `fs_open` between the walk and the fid. -/
def openCheck (flags : OpenFlags) : Option (Option Errno) :=
  if w.target.isSome ∧ flags.creat ∧ flags.excl then some (some .EEXIST)
  else do
    let notDir ← if flags.directory then (fs.targetType w).map (fun t => decide (t ≠ .dir))
      else some false
    let isDir ← if flags.write then (fs.targetType w).map (fun t => decide (t = .dir))
      else some false
    if notDir then some (some .ENOTDIR)
    else if isDir then some (some .EISDIR)
    else if ¬ flags.write ∧ (flags.trunc ∨ flags.append) then some (some .EACCES)
    else some none

/-- `fs_open`. The path of the walk keeps its references. -/
def fsOpen (flags : OpenFlags) : Option (Fs × Except Errno Nat) := do
  let (fs, w, err) ← handleXxxat junk depth fs dirfd path (!flags.nofollow) (.openat flags.creat)
  match err with
  | some e => some (fs, .error e)
  | none =>
    let bad ← fs.openCheck w flags
    match bad with
    | some e => some (fs, .error e)
    | none =>
      let (fs, fid) ← fs.newFidRecord w.target
      some (fs, .ok fid)

def fsClose (fd : Nat) : Option (Fs × Except Errno Nat) := fs.delFidRecord fd

/-- A request that ends with `path_fini`. -/
def finish (r : Except Errno Nat) : Option (Fs × Except Errno Nat) := do
  let fs ← fs.pathFini w.path
  some (fs, r)

/-- `fs_chdir`. The target of a walk without a last component has no dentry. -/
def fsChdir : Option (Fs × Except Errno Nat) := do
  let (fs, w, err) ← handleXxxat junk depth fs dirfd path follow .nothing
  match err, w.target with
  | some e, _ => fs.finish w (.error e)
  | none, none => fs.finish w (.error .ENOENT)
  | none, some i =>
    let x ← fs.inode i
    if x.type ≠ .dir then fs.finish w (.error .ENOTDIR)
    else
      let d ← w.targetDent
      let (fs, comps) ← fs.pathAppend w.path d
      let (fs, fid) ← fs.newFidRecord (some i)
      some ({ fs with fidRecords := update fs.fidRecords fid ⟨comps, some i⟩ }, .ok fid)

/-- `fs_mkdirat`. It makes the directory whether the walk has found its name or not. -/
def fsMkdirat : Option (Fs × Except Errno Nat) := do
  let (fs, w, err) ← handleXxxat junk depth fs dirfd path follow .nothing
  if err ≠ none ∧ err ≠ some .ENOENT then fs.finish w (.error (err.getD .ENOENT))
  else
    let parent ← fs.pathLastInode w.path
    let (fs, r) ← tfsMkdir junk fs parent w.leaf
    fs.finish w (r.map fun _ => 0)

/-- `fs_unlinkat`, for `FS_REQ_UNLINKAT` and `FS_REQ_RMDIRAT`. -/
def fsUnlinkat (rmdir follow : Bool) (flags : BitVec 32) : Option (Fs × Except Errno Nat) :=
  if ¬ flagsIn flags AT_SYMLINK_NOFOLLOW then some (fs, .error .EINVAL)
  else do
    let (fs, w, err) ← handleXxxat junk depth fs dirfd path follow .nothing
    match err with
    | some e => fs.finish w (.error e)
    | none =>
      let t ← fs.targetType w
      if rmdir = false ∧ t = .dir then fs.finish w (.error .EISDIR)
      else if rmdir = true ∧ t ≠ .dir then fs.finish w (.error .ENOTDIR)
      else
        let dir ← fs.pathLastInode w.path
        let (fs, err) ← fs.tfsRemove dir w.leaf
        fs.finish w (match err with
          | some e => .error e
          | none => .ok 0)

def fsSymlinkat (path link : Name) (follow : Bool) : Option (Fs × Except Errno Nat) := do
  let (fs, _, err) ← handleXxxat junk depth fs dirfd path follow (.symlinkat link)
  match err with
  | some e => some (fs, .error e)
  | none => some (fs, .ok 0)

/-- The second half of `fs_rename`: the new dentry is linked without a reference of the table and
    without `size++`, the old one is freed without `size--`. -/
def renameTo (dentOld : Nat) (w : Walk) : Option (Fs × Except Errno Nat) := do
  let x ← fs.dent dentOld
  let (fs, d) ← newDent junk fs x.inode w.leaf
  let dir ← fs.pathLastInode w.path
  let fs ← fs.htableAdd dir d
  let fs ← fs.pathFini w.path
  let x ← fs.dent dentOld
  let (fs, err) ← fs.putInode x.inode
  match err with
  | some e => some (fs, .error e)
  | none =>
    let fs ← fs.htableDel dentOld
    some (fs, .ok 0)

/-- `dent_old` of `fs_rename`. -/
def Walk.oldDent : Option Nat := if w.leaf = [] then w.path.getLast? else w.targetDent

/-- `fs_rename`. It returns 0 at once if the new name is there. -/
def fsRename (dirfd2 : Dirfd) (path2 : Name) : Option (Fs × Except Errno Nat) := do
  let (fs, w, err) ← handleXxxat junk depth fs dirfd path false .nothing
  match err with
  | some e => some (fs, .error e)
  | none =>
    let dentOld ← w.oldDent
    let fs ← fs.pathFini w.path
    let (fs, w, err) ← handleXxxat junk depth fs dirfd2 path2 false .nothing
    match err with
    | none => fs.finish w (.ok 0)
    | some .ENOENT => renameTo junk fs dentOld w
    | some e => fs.finish w (.error e)

/-- `fs_fstatat`, as far as the tree is concerned. -/
def fsFstatat (flags : BitVec 32) : Option (Fs × Except Errno Nat) :=
  if ¬ flagsIn flags AT_SYMLINK_NOFOLLOW then some (fs, .error .EINVAL)
  else do
    let (fs, w, err) ← handleXxxat junk depth fs dirfd path follow .nothing
    match err with
    | some e => fs.finish w (.error e)
    | none =>
      let t ← fs.targetType w
      if t = .sym then none else fs.finish w (.ok 0)

/-- `fs_faccessat`: the path of the walk keeps its references. -/
def fsFaccessat (flags : BitVec 32) : Option (Fs × Except Errno Nat) :=
  if ¬ flagsIn flags AT_EACCESS then some (fs, .error .EINVAL)
  else do
    let (fs, _, err) ← handleXxxat junk depth fs dirfd path follow .nothing
    match err with
    | some e => some (fs, .error e)
    | none => some (fs, .ok 0)

/-- `fs_get_size` through `open_path`, for the name after the first `/`: the inode keeps a
    reference. -/
def fsGetSize (name : Name) : Option (Fs × Except Errno Nat) :=
  if name = [] then do
    let fs ← fs.getInode tmpfsRoot
    some (fs, .ok (fs.inodes tmpfsRoot).size)
  else if name.head? = some '/' then none
  else do
    let (fs, path) ← fs.pathAppend [] tmpfsRootDent
    let n ← fs.tfsNamex depth path name
    match n.err with
    | some _ =>
      let fs ← n.fs.pathFini n.path
      some (fs, .error .ENOENT)
    | none =>
      let dir ← n.fs.pathLastInode n.path
      let found ← n.fs.tfsLookup dir n.leaf
      let fs ← n.fs.pathFini n.path
      match found with
      | none => some (fs, .error .ENOENT)
      | some d =>
        let x ← fs.dent d
        let fs ← fs.getInode x.inode
        some (fs, .ok (fs.inodes x.inode).size)

end Walks

/-! ## 4. Steps -/

inductive Req where
  | open (dirfd : Dirfd) (path : Name) (flags : OpenFlags)
  | close (fd : Nat)
  | chdir (dirfd : Dirfd) (path : Name) (follow : Bool)
  | mkdirat (dirfd : Dirfd) (path : Name) (follow : Bool)
  | unlinkat (dirfd : Dirfd) (path : Name) (rmdir follow : Bool) (flags : BitVec 32)
  | symlinkat (dirfd : Dirfd) (path link : Name) (follow : Bool)
  | rename (dirfd : Dirfd) (path : Name) (dirfd2 : Dirfd) (path2 : Name)
  | fstatat (dirfd : Dirfd) (path : Name) (follow : Bool) (flags : BitVec 32)
  | faccessat (dirfd : Dirfd) (path : Name) (follow : Bool) (flags : BitVec 32)
  | getSize (name : Name)

/-- **One request**: the memory after it and what it returns. -/
def request (junk : Nat → Int) (depth : Nat) (fs : Fs) : Req → Option (Fs × Except Errno Nat)
  | .open dirfd path flags => fsOpen junk depth fs dirfd path flags
  | .close fd => fs.fsClose fd
  | .chdir dirfd path follow => fsChdir junk depth fs dirfd path follow
  | .mkdirat dirfd path follow => fsMkdirat junk depth fs dirfd path follow
  | .unlinkat dirfd path rmdir follow flags =>
    fsUnlinkat junk depth fs dirfd path rmdir follow flags
  | .symlinkat dirfd path link follow => fsSymlinkat junk depth fs dirfd path link follow
  | .rename dirfd path dirfd2 path2 => fsRename junk depth fs dirfd path dirfd2 path2
  | .fstatat dirfd path follow flags => fsFstatat junk depth fs dirfd path follow flags
  | .faccessat dirfd path follow flags => fsFaccessat junk depth fs dirfd path follow flags
  | .getSize name => fsGetSize depth fs name

/-- The memory before `init_tmpfs`: static data is zero, nothing is allocated. -/
def empty : Fs where
  inodes := fun _ => ⟨.reg, 0, 0, [], false⟩
  nextInode := 0
  dents := fun _ => ⟨[], 0, 0, none, false⟩
  nextDent := 0
  entries := fun _ => []
  fidman := ⟨fun _ => false, 0⟩
  fidRecords := fun _ => ⟨[], none⟩

def initTmpfs (junk : Nat → Int) : Option Fs := do
  let (fs, root) ← newDir junk empty none
  let (fs, _) ← newDent junk fs root ['/']
  let (m, id) ← fs.fidman.allocId
  if id = 0 then some { fs with fidman := m } else none

end Fs

end ChCore.Tmpfs
