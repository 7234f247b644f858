/-
  File: ChCore/Fsm/Descriptors.lean
  Subject: The descriptors of the file system manager (user/fsm/fsm.c, ops.c, common.c) over the
    fids of one tmpfs.

  Two servers keep a table each: FSM has the fds of its clients and the fid of each, tmpfs the fids
  and the inode of each. A client's working directory is a fid too: `fsm_chdir` gets a new one from
  tmpfs, `fsm_fchdir` copies the one of a descriptor.

  * **`fsm_fids_iff`** -- over a run everything is right exactly when no descriptor is closed whose
    fid is a working directory.
-/
import ChCore.Tmpfs.Fids
import ChCore.User.Idman

namespace ChCore.Fsm

open Lib Tmpfs Tmpfs.Fs Function Option List

/-! ## 1. The source -/

def MAX_CLIENT_NUM : Nat := 10

def MAX_FD_NUM : Nat := 255

/-- `struct FDRecord`. There is one file system, so that `fs` is it or `NULL`. -/
structure FDRecord where
  used : Bool
  fs : Bool
  fid : Nat
  fd : Nat
  deriving DecidableEq, Repr

structure ClientRecord where
  clientBadge : Nat
  cwdFid : Dirfd
  fdman : User.IdManager MAX_FD_NUM
  fdTable : Nat → FDRecord

/-- The two servers. `dirs` are the directories that the clients have changed to, by the place of
    the client. -/
structure Servers where
  clients : List ClientRecord
  fs : Fs
  dirs : Nat → Option Nat

/-- The directory of a request of a client. -/
inductive At where
  | cwd
  | fd (fd : Int)
  deriving DecidableEq, Repr

/-- A new client: its record is static data. -/
def newClient (badge : Nat) : ClientRecord where
  clientBadge := badge
  cwdFid := .root
  fdman := .init MAX_FD_NUM
  fdTable _ := ⟨false, false, 0, 0⟩

/-- `fsm_match_or_record_client`; `none` where the server gives up. -/
def matchOrRecordClient (clients : List ClientRecord) (badge : Nat) :
    Option (List ClientRecord × Nat) :=
  match clients.findIdx? (·.clientBadge = badge) with
  | some idx => some (clients, idx)
  | none =>
    if clients.length = MAX_CLIENT_NUM then none
    else some (clients ++ [newClient badge], clients.length)

namespace ClientRecord

variable (c : ClientRecord)

/-- `client_fd`; the outer `none` is the assertion of `query_id`. -/
def clientFd (fd : Int) : Option (Option FDRecord) := do
  let found ← c.fdman.queryId fd
  some (if found ∧ (c.fdTable fd.toNat).used then some (c.fdTable fd.toNat) else none)

/-- The two calls of `alloc_id` in `new_fd_record`: 0 is never used. -/
def allocFd (m : User.IdManager MAX_FD_NUM) : Option (User.IdManager MAX_FD_NUM × Nat) :=
  m.allocId.bind fun r => if r.2 = 0 then r.1.allocId else some r

def newFdRecord : Option (ClientRecord × Nat) := do
  let (m, id) ← allocFd c.fdman
  if id = 0 then none
  else
    some ({ c with
      fdman := m
      fdTable := update c.fdTable id { c.fdTable id with fd := id, used := true } }, id)

/-- `fd->fs = ...; fd->fid = fid` -/
def setFid (fd fid : Nat) : ClientRecord :=
  { c with fdTable := update c.fdTable fd { c.fdTable fd with fs := true, fid := fid } }

def delFdRecord (fd : Int) : Option (ClientRecord × Except Errno Nat) :=
  if fd = 0 then some (c, .error .EBADF)
  else do
    let found ← c.fdman.queryId fd
    if found = false then some (c, .error .EBADF)
    else do
      let (m, freed) ← c.fdman.freeId fd
      if freed = false then none
      else
        some ({ c with
          fdman := m
          fdTable := update c.fdTable fd.toNat ⟨false, false, 0, 0⟩ }, .ok 0)

/-- `walk_path_init`: the directory the walk starts at. -/
def walkPathInit (dirfd : At) (path : Name) : Option (Except Errno Dirfd) :=
  if path = [] then some (.error .ENOENT)
  else if path.head? = some '/' then some (.ok .root)
  else match dirfd with
    | .cwd => some (.ok c.cwdFid)
    | .fd fd => do
      let record ← c.clientFd fd
      match record with
      | none => some (.error .ENOENT)
      -- `ref_fs` reads the file system
      | some r => if r.fs then some (.ok (.fid r.fid)) else none

end ClientRecord

variable (junk : Nat → Int) (fs : Fs)

/-- `fs_fchdir` of tmpfs looks at the record without asking whether the fid is in use. -/
def fsFchdir (fid : Nat) : Option (Except Errno Nat) :=
  if fid ≥ MAX_NR_FID_RECORDS then none
  else do
    let i ← (fs.fidRecords fid).inode
    let x ← fs.inode i
    some (if x.type = .dir then .ok 0 else .error .ENOTDIR)

variable (depth : Nat)

/-- The directory that a path leads to. -/
def pathTarget (fs : Fs) (dirfd : Dirfd) (path : Name) (follow : Bool) : Option Nat := do
  let (_, w, _) ← handleXxxat junk depth fs dirfd path follow .nothing
  w.target

section Requests

variable (junk : Nat → Int) (depth : Nat) (s : Servers) (idx : Nat) (client : ClientRecord)

def fsmOpenat (dirfd : At) (path : Name) (flags : OpenFlags) : Option (Servers × Except Errno Nat) := do
  let start ← client.walkPathInit dirfd path
  match start with
  | .error e => some (s, .error e)
  | .ok dir =>
    let (fs, r) ← fsOpen junk depth s.fs dir path flags
    match r with
    | .error e => some ({ s with fs }, .error e)
    | .ok fid =>
      let (client, fd) ← client.newFdRecord
      some ({ s with fs, clients := s.clients.set idx (client.setFid fd fid) }, .ok fd)

def fsmClose (fd : Int) : Option (Servers × Except Errno Nat) := do
  let record ← client.clientFd fd
  match record with
  | none => some (s, .error .ENOENT)
  | some r =>
    -- `assert(fd_record->fs)`
    if r.fs = false then none
    else do
      let (fs, ret) ← s.fs.fsClose r.fid
      match ret with
      | .ok 0 | .error .EBADF => do
        let (client, ret) ← client.delFdRecord fd
        some ({ s with fs, clients := s.clients.set idx client }, ret)
      | ret => some ({ s with fs }, ret)

/-- `fsm_chdir`; nobody closes the fid of the directory that is left. -/
def fsmChdir (path : Name) (follow : Bool) : Option (Servers × Except Errno Nat) := do
  let start ← client.walkPathInit .cwd path
  match start with
  | .error e => some (s, .error e)
  | .ok dir =>
    let (fs, r) ← fsChdir junk depth s.fs dir path follow
    match r with
    | .error e => some ({ s with fs }, .error e)
    | .ok fid =>
      if 0 < fid then
        some (⟨s.clients.set idx { client with cwdFid := .fid fid }, fs,
          update s.dirs idx (pathTarget junk depth s.fs dir path follow)⟩, .ok 0)
      else some ({ s with fs }, .ok fid)

/-- `fsm_fchdir`, and the access to the table in `fsm_dispatch` before it. The index is not
    checked. -/
def fsmFchdir (fd : Int) : Option (Servers × Except Errno Nat) :=
  if fd < 0 ∨ MAX_FD_NUM ≤ fd then none
  else if (client.fdTable fd.toNat).fs = false then none
  else do
    let r ← fsFchdir s.fs (client.fdTable fd.toNat).fid
    match r with
    | .error e => some (s, .error e)
    | .ok _ =>
      some (⟨s.clients.set idx { client with cwdFid := .fid (client.fdTable fd.toNat).fid }, s.fs,
        update s.dirs idx (s.fs.fidRecords (client.fdTable fd.toNat).fid).inode⟩, .ok 0)

end Requests

inductive Request where
  | openat (dirfd : At) (path : Name) (flags : OpenFlags)
  | close (fd : Int)
  | chdir (path : Name) (follow : Bool)
  | fchdir (fd : Int)

variable (s : Servers)

/-- The request of a client that has a record. -/
def serve (idx : Nat) (client : ClientRecord) : Request → Option (Servers × Except Errno Nat)
  | .openat dirfd path flags => fsmOpenat junk depth s idx client dirfd path flags
  | .close fd => fsmClose s idx client fd
  | .chdir path follow => fsmChdir junk depth s idx client path follow
  | .fchdir fd => fsmFchdir s idx client fd

/-- **One request** of the client with a badge, as `fsm_dispatch` chooses it. -/
def Servers.step (a : Nat × Request) : Option Servers := do
  let (clients, idx) ← matchOrRecordClient s.clients a.1
  let client ← clients[idx]?
  let (s, _) ← serve junk depth { s with clients } idx client a.2
  some s

/-- After `init_fsm`. -/
def Servers.init : Servers := ⟨[], fs, fun _ => none⟩

/-! ## 2. What is to hold -/

/-- The descriptor `fd` of the client at `idx` is in use and has the fid. -/
def Servers.Uses (idx fd fid : Nat) : Prop :=
  ∃ c, s.clients[idx]? = some c ∧ (c.fdTable fd).used = true ∧ (c.fdTable fd).fid = fid

/-- **The tables of the two servers agree.** -/
structure FsmRight (s : Servers) : Prop where
  live : ∀ idx fd fid, s.Uses idx fd fid → s.fs.fidman.bitmap fid = true
  own : ∀ idx fd idx' fd' fid, s.Uses idx fd fid → s.Uses idx' fd' fid → idx = idx' ∧ fd = fd'
  cwd : ∀ idx c fid, s.clients[idx]? = some c → c.cwdFid = .fid fid →
    ∃ i, s.fs.Opened fid i ∧ s.dirs idx = some i

/-- **The requests that keep it so**: no descriptor is closed whose fid is the working directory of a
    client. -/
def KeepsCwd : Nat × Request → Prop
  | (badge, .close fd) => ∀ idx fid, s.clients.findIdx? (·.clientBadge = badge) = some idx →
      s.Uses idx fd.toNat fid → ∀ c ∈ s.clients, c.cwdFid ≠ .fid fid
  | _ => True

/-! ## 3. The fids of tmpfs -/

/-- The fids are as they were. -/
structure SameFids (fs fs' : Fs) : Prop where
  fidman : fs'.fidman = fs.fidman
  fidRecords : fs'.fidRecords = fs.fidRecords

/-- A fid that was not in use is in use for the inode. -/
structure OpensFid (fs fs' : Fs) (fid : Nat) (inode : Option Nat) : Prop where
  nonzero : fid ≠ 0
  fresh : fs.fidman.bitmap fid = false
  bitmap : fs'.fidman.bitmap = update fs.fidman.bitmap fid true
  inode : (fs'.fidRecords fid).inode = inode
  others : ∀ n, n ≠ fid → fs'.fidRecords n = fs.fidRecords n

section Tmpfs

variable {fs fs' fs1 : Fs} {junk : Nat → Int} {depth : Nat} {dirfd : Dirfd} {path : Name}
  {follow : Bool} {w : Walk} {r : Except Errno Nat}

theorem SameFids.trans (h : SameFids fs fs1) (h' : SameFids fs1 fs') : SameFids fs fs' :=
  ⟨h'.fidman.trans h.fidman, h'.fidRecords.trans h.fidRecords⟩

theorem sameFids_setDent (d : Nat) (x : Dentry) : SameFids fs (fs.setDent d x) := ⟨rfl, rfl⟩

theorem sameFids_addRefs (l : List Nat) : SameFids fs (fs.addRefs l) := ⟨rfl, rfl⟩

theorem sameFids_newNode {dir inode : Nat} {type : FsType} {link : Name}
    (h : newNode junk fs dir type link = some (fs', inode)) : SameFids fs fs' := by
  rw [newNode] at h
  split at h
  · obtain ⟨-, fs2, d1, d2, h1, h2⟩ := newDir_steps h
    obtain ⟨-, -, -, rfl⟩ := addNewDent_eq h1
    obtain ⟨-, -, -, rfl⟩ := addNewDent_eq h2
    exact ⟨rfl, rfl⟩
  · obtain ⟨-, rfl⟩ := newLeaf_eq h
    exact ⟨rfl, rfl⟩

theorem sameFids_mknod {dir : Nat} {name link : Name} {type : FsType} {ret : Bool}
    (h : tfsMknod junk fs dir name type link ret = some (fs', r)) : SameFids fs fs' := by
  by_cases hne : name = []
  · rw [tfsMknod, if_pos hne] at h
    cases h
    exact ⟨rfl, rfl⟩
  obtain ⟨fs2, fs3, inode, d, err, h1, h2, h3, -⟩ := tfsMknod_steps hne h
  refine (sameFids_newNode h1).trans ?_
  obtain ⟨-, -, -, rfl⟩ := addNewDent_eq h2
  obtain ⟨-, x, rfl, -⟩ := putInode_setInode h3
  exact ⟨rfl, rfl⟩

theorem sameFids_handle {cb : Callback} {err : Option Errno}
    (h : handleXxxat junk depth fs dirfd path follow cb = some (fs', w, err)) :
    SameFids fs fs' := by
  obtain ⟨fs2, w2, out, hw, hend⟩ := handleXxxat_cases h
  have hwalk : SameFids fs fs2 := ⟨(still_walk hw).fidman, (still_walk hw).fidRecords⟩
  rcases hend with ⟨rfl, -⟩ | ⟨-, -, dir, d, hmade⟩
  · exact hwalk
  · obtain ⟨type, link, -, hmk⟩ := hmade.made
    exact hwalk.trans (sameFids_mknod hmk)

theorem sameFids_finiLoop {l : List Nat} (h : fs.finiLoop l = some fs') : SameFids fs fs' := by
  induction l generalizing fs with
  | nil =>
    cases h
    exact ⟨rfl, rfl⟩
  | cons d l ih =>
    obtain ⟨fs2, h1, h⟩ := bind_eq_some_iff.mp h
    obtain ⟨x, -, h1⟩ := bind_eq_some_iff.mp h1
    obtain ⟨-, h1⟩ := ite_none_left_eq_some.mp h1
    cases h1
    exact (sameFids_setDent d _).trans (ih h)

theorem sameFids_finish {r' : Except Errno Nat} (h : fs.finish w r = some (fs', r')) :
    SameFids fs fs' ∧ r' = r := by
  obtain ⟨fs2, h1, h⟩ := bind_eq_some_iff.mp h
  cases h
  exact ⟨sameFids_finiLoop h1, rfl⟩

variable {fid : Nat}

theorem newFidRecord_ne_zero {inode : Option Nat} (h : fs.newFidRecord inode = some (fs', fid)) : fid ≠ 0 := by
  obtain ⟨⟨m, id⟩, -, h⟩ := bind_eq_some_iff.mp h
  obtain ⟨hne, h⟩ := ite_none_left_eq_some.mp h
  cases h
  exact hne

theorem opensFid_newFidRecord {inode : Option Nat} (hsame : SameFids fs fs1)
    (h : fs1.newFidRecord inode = some (fs', fid)) : OpensFid fs fs' fid inode := by
  have hne := newFidRecord_ne_zero h
  obtain ⟨hfree, -, slot, rfl⟩ := newFidRecord_eq h
  rw [hsame.fidman] at hfree
  refine ⟨hne, hfree, ?_, ?_, fun n hn => ?_⟩
  · simp only [Fs.openFid, hsame.fidman]
  · simp only [Fs.openFid, update_self]
  · simp only [Fs.openFid, update_of_ne hn, hsame.fidRecords]

/-- **`fs_open`** hands out a new fid, or changes none. -/
theorem fsOpen_fids {flags : OpenFlags} (h : fsOpen junk depth fs dirfd path flags = some (fs', r)) :
    (∃ e, r = .error e ∧ SameFids fs fs') ∨ ∃ fid inode, r = .ok fid ∧ OpensFid fs fs' fid inode := by
  obtain ⟨fs2, w2, err, hh, hend⟩ := fsOpen_cases h
  have hsame := sameFids_handle hh
  rcases hend with ⟨e, rfl, rfl, -⟩ | ⟨fid, rfl, -, -, hfid⟩
  · exact .inl ⟨e, rfl, hsame⟩
  · exact .inr ⟨fid, _, rfl, opensFid_newFidRecord hsame hfid⟩

/-- **`fs_chdir`** hands out a new fid for the directory of the path, or changes none. -/
theorem fsChdir_fids (h : fsChdir junk depth fs dirfd path follow = some (fs', r)) :
    (∃ e, r = .error e ∧ SameFids fs fs') ∨ ∃ fid i, r = .ok fid ∧ OpensFid fs fs' fid (some i) ∧
      pathTarget junk depth fs dirfd path follow = some i := by
  obtain ⟨⟨fs2, w, err⟩, hh, h⟩ := bind_eq_some_iff.mp h
  have hsame := sameFids_handle hh
  have hback : ∀ {e : Errno}, fs2.finish w (.error e) = some (fs', r) →
      ∃ e, r = .error e ∧ SameFids fs fs' := fun hf =>
    ⟨_, (sameFids_finish hf).2, hsame.trans (sameFids_finish hf).1⟩
  simp only at h
  split at h
  · exact .inl (hback h)
  · exact .inl (hback h)
  rename_i i ht
  obtain ⟨x, -, h⟩ := bind_eq_some_iff.mp h
  split at h
  · exact .inl (hback h)
  obtain ⟨d, -, h⟩ := bind_eq_some_iff.mp h
  obtain ⟨⟨fs3, comps⟩, happ, h⟩ := bind_eq_some_iff.mp h
  obtain ⟨⟨fs4, fid⟩, hfid, h⟩ := bind_eq_some_iff.mp h
  cases h
  obtain ⟨rfl, rfl, -⟩ := pathAppend_extends happ
  have hopens : OpensFid fs fs4 fid (some i) :=
    opensFid_newFidRecord (hsame.trans (sameFids_addRefs [d])) hfid
  refine .inr ⟨fid, i, rfl, ⟨hopens.nonzero, hopens.fresh, hopens.bitmap, ?_, fun n hn => ?_⟩, ?_⟩
  · simp only [update_self]
  · simp only [update_of_ne hn]
    exact hopens.others n hn
  · rw [pathTarget, hh]
    exact ht

theorem fsClose_live (hne : fid ≠ 0) (hlive : fs.fidman.bitmap fid = true)
    (h : fs.fsClose fid = some (fs', r)) : r = .ok 0 ∧ fs' = fs.closeFid fid := by
  rcases fsClose_cases h with ⟨rfl, -⟩ | ⟨-, -, hr, hfs⟩
  · obtain ⟨record, hrec, h⟩ := bind_eq_some_iff.mp h
    rw [getFidRecord, if_neg hne] at hrec
    obtain ⟨-, hrec⟩ := ite_none_left_eq_some.mp hrec
    rw [if_pos hlive] at hrec
    cases hrec
    cases h
  · exact ⟨hr, hfs⟩

end Tmpfs

/-! ## 4. The records of a client -/

/-- A descriptor in use has its number and its file system; any other has neither. -/
structure ClientOk (c : ClientRecord) : Prop where
  number : ∀ fd, (c.fdTable fd).used = true → c.fdman.bitmap fd = true
  fs : ∀ fd, (c.fdTable fd).fs = (c.fdTable fd).used

section Client

variable {c c' : ClientRecord} {fd : Int} {id : Nat}

theorem clientOk_new (badge : Nat) : ClientOk (newClient badge) :=
  ⟨nofun, fun _ => rfl⟩

theorem clientFd_some {r : FDRecord} (h : c.clientFd fd = some (some r)) :
    0 < fd ∧ (c.fdTable fd.toNat).used = true ∧ r = c.fdTable fd.toNat ∧
      c.fdman.queryId fd = some true := by
  obtain ⟨found, hq, h⟩ := bind_eq_some_iff.mp h
  have hpos : 0 < fd := by
    exact (ite_none_right_eq_some.mp hq).1.1
  split at h
  · rename_i hused
    cases h
    exact ⟨hpos, hused.2, rfl, by rw [hq, hused.1]⟩
  · cases h

/-- What `new_fd_record` and the two lines after it do. -/
structure NewFd (c c' : ClientRecord) (id fid : Nat) : Prop where
  free : c.fdman.bitmap id = false
  number : c'.fdman.bitmap id = true
  numbers : ∀ n, c.fdman.bitmap n = true → c'.fdman.bitmap n = true
  table : c'.fdTable = update c.fdTable id ⟨true, true, fid, id⟩
  cwd : c'.cwdFid = c.cwdFid

theorem allocFd_spec {m m' : User.IdManager MAX_FD_NUM}
    (h : ClientRecord.allocFd m = some (m', id)) : m.bitmap id = false ∧ m'.bitmap id = true ∧
      ∀ n, m.bitmap n = true → m'.bitmap n = true := by
  obtain ⟨⟨m1, id1⟩, h1, h2⟩ := bind_eq_some_iff.mp h
  obtain ⟨hfree1, -, hbits1⟩ := User.IdManager.allocId_spec h1
  have hgrow : ∀ n, m.bitmap n = true → m1.bitmap n = true := by
    intro n hn
    rw [hbits1, update_apply]
    split
    · rfl
    · exact hn
  split at h2
  -- 0 is skipped, and stays in use
  · obtain ⟨hfree2, -, hbits2⟩ := User.IdManager.allocId_spec h2
    refine ⟨?_, ?_, fun n hn => ?_⟩
    · by_contra hused
      rw [hgrow id (by simpa using hused)] at hfree2
      cases hfree2
    · rw [hbits2, update_self]
    rw [hbits2, update_apply]
    split
    · rfl
    · exact hgrow n hn
  · cases h2
    exact ⟨hfree1, by rw [hbits1, update_self], hgrow⟩

theorem newFdRecord_spec (h : c.newFdRecord = some (c', id)) (fid : Nat) :
    NewFd c (c'.setFid id fid) id fid := by
  obtain ⟨⟨m, id'⟩, hm, h⟩ := bind_eq_some_iff.mp h
  obtain ⟨-, h⟩ := ite_none_left_eq_some.mp h
  cases h
  obtain ⟨hfree, hnumber, hnumbers⟩ := allocFd_spec hm
  refine ⟨hfree, hnumber, hnumbers, ?_, rfl⟩
  simp only [ClientRecord.setFid, update_self, update_idem]

/-- `del_fd_record` of a descriptor in use. -/
theorem delFdRecord_spec {r : Except Errno Nat} (hused : c.fdman.queryId fd = some true)
    (h : c.delFdRecord fd = some (c', r)) : c'.cwdFid = c.cwdFid ∧
      c'.fdman.bitmap = update c.fdman.bitmap fd.toNat false ∧
      c'.fdTable = update c.fdTable fd.toNat ⟨false, false, 0, 0⟩ := by
  obtain ⟨hrange, hbit⟩ := ite_none_right_eq_some.mp hused
  unfold ClientRecord.delFdRecord at h
  rw [if_neg (by omega), hused] at h
  have hfree : c.fdman.freeId fd =
      some (⟨update c.fdman.bitmap fd.toNat false, fd.toNat / User.BITS_PER_U64⟩, true) := by
    unfold User.IdManager.freeId
    rw [if_pos hrange, if_pos (some.inj hbit)]
  simp only [hfree, bind_eq_bind, bind_some, Bool.true_eq_false, if_false] at h
  cases h
  exact ⟨rfl, rfl, rfl⟩

theorem ClientOk.newFd {fid : Nat} (h : ClientOk c) (hn : NewFd c c' id fid) : ClientOk c' := by
  refine ⟨fun fd hused => ?_, fun fd => ?_⟩
  · rw [hn.table, update_apply] at hused
    split at hused
    · rename_i he
      rw [he, hn.number]
    · exact hn.numbers fd (h.number fd hused)
  · rw [hn.table, update_apply]
    split
    · rfl
    · exact h.fs fd

theorem ClientOk.del (h : ClientOk c) {n : Nat}
    (hbits : c'.fdman.bitmap = update c.fdman.bitmap n false)
    (htable : c'.fdTable = update c.fdTable n ⟨false, false, 0, 0⟩) : ClientOk c' := by
  refine ⟨fun fd hused => ?_, fun fd => ?_⟩
  · rw [htable, update_apply] at hused
    split at hused
    · cases hused
    · rename_i hne
      rw [hbits, update_of_ne hne]
      exact h.number fd hused
  · rw [htable, update_apply]
    split
    · rfl
    · exact h.fs fd

end Client

/-! ## 5. The invariant -/

structure Servers.Inv (s : Servers) : Prop where
  right : FsmRight s
  nonzero : ∀ idx fd, ¬ s.Uses idx fd 0
  clients : ∀ (idx : Nat) c, s.clients[idx]? = some c → ClientOk c

/-- The fids in use stay in use for the same inodes. -/
def KeepsFids (fs fs' : Fs) : Prop :=
  ∀ n, fs.fidman.bitmap n = true → fs'.fidman.bitmap n = true ∧ fs'.fidRecords n = fs.fidRecords n

section Inv

variable {s : Servers} {fs : Fs} {idx id fid i : Nat} {c c' : ClientRecord}

theorem SameFids.keeps {fs fs' : Fs} (h : SameFids fs fs') : KeepsFids fs fs' := by
  intro n hn
  rw [h.fidman, h.fidRecords]
  exact ⟨hn, rfl⟩

theorem OpensFid.keeps {fs fs' : Fs} {inode : Option Nat} (h : OpensFid fs fs' fid inode) :
    KeepsFids fs fs' := by
  intro n hn
  have hne : n ≠ fid := by
    intro e
    rw [e, h.fresh] at hn
    cases hn
  rw [h.bitmap, update_of_ne hne]
  exact ⟨hn, h.others n hne⟩

theorem OpensFid.live {fs fs' : Fs} {inode : Option Nat} (h : OpensFid fs fs' fid inode) :
    fs'.fidman.bitmap fid = true := by
  rw [h.bitmap, update_self]

theorem Servers.Inv.keeps (h : s.Inv) (hk : KeepsFids s.fs fs) : Servers.Inv { s with fs } := by
  refine ⟨⟨fun idx fd fid hu => ?_, h.right.own, fun idx c fid hc hcwd => ?_⟩, h.nonzero, h.clients⟩
  · exact (hk fid (h.right.live idx fd fid hu)).1
  · obtain ⟨i, ho, hdir⟩ := h.right.cwd idx c fid hc hcwd
    obtain ⟨hlive, hrec⟩ := hk fid ho.1
    exact ⟨i, ⟨hlive, hrec ▸ ho.2⟩, hdir⟩

theorem get_set {l : List ClientRecord} {n : Nat} {x : ClientRecord}
    (h : (l.set idx c')[n]? = some x) : n = idx ∧ x = c' ∨ n ≠ idx ∧ l[n]? = some x := by
  rw [List.getElem?_set] at h
  split at h
  · rename_i he
    split at h
    · cases h
      exact .inl ⟨he.symm, rfl⟩
    · cases h
  · rename_i hne
    exact .inr ⟨fun e => hne e.symm, h⟩

theorem Servers.Inv.record (h : s.Inv) (badge : Nat) :
    Servers.Inv { s with clients := s.clients ++ [newClient badge] } := by
  have hold : ∀ {n : Nat} {c}, (s.clients ++ [newClient badge])[n]? = some c →
      s.clients[n]? = some c ∨ c = newClient badge := by
    intro n c hn
    rw [List.getElem?_append] at hn
    split at hn
    · exact .inl hn
    · exact .inr (mem_singleton.mp (mem_of_getElem? hn))
  have huses : ∀ {idx fd fid}, Servers.Uses { s with clients := s.clients ++ [newClient badge] }
      idx fd fid → s.Uses idx fd fid := by
    intro idx fd fid hu
    obtain ⟨c, hc, hused, hfid⟩ := hu
    rcases hold hc with hc | rfl
    · exact ⟨c, hc, hused, hfid⟩
    · cases hused
  refine ⟨⟨fun idx fd fid hu => h.right.live idx fd fid (huses hu), fun idx fd idx' fd' fid hu hu' =>
    h.right.own idx fd idx' fd' fid (huses hu) (huses hu'), fun idx c fid hc hcwd => ?_⟩,
    fun idx fd hu => h.nonzero idx fd (huses hu), fun idx c hc => ?_⟩
  · rcases hold hc with hc | rfl
    · exact h.right.cwd idx c fid hc hcwd
    · cases hcwd
  · rcases hold hc with hc | rfl
    · exact h.clients idx c hc
    · exact clientOk_new badge

section

variable (h : s.Inv) (hc : s.clients[idx]? = some c)

include h hc

/-- A descriptor is opened for a fid that no other has. -/
theorem Servers.Inv.openFd (hne : fid ≠ 0) (hlive : s.fs.fidman.bitmap fid = true)
    (hnone : ∀ n fd, ¬ s.Uses n fd fid) (hn : NewFd c c' id fid) :
    Servers.Inv { s with clients := s.clients.set idx c' } := by
  have huses : ∀ {n fd fid'}, Servers.Uses { s with clients := s.clients.set idx c' } n fd fid' →
      (n = idx ∧ fd = id ∧ fid' = fid) ∨ s.Uses n fd fid' := by
    intro n fd fid' hu
    obtain ⟨x, hx, hused, hfid⟩ := hu
    rcases get_set hx with ⟨rfl, rfl⟩ | ⟨_, hx⟩
    · rw [hn.table, update_apply] at hused hfid
      split at hfid
      · rename_i he
        exact .inl ⟨rfl, he, hfid.symm⟩
      · rename_i hne
        rw [if_neg hne] at hused
        exact .inr ⟨c, hc, hused, hfid⟩
    · exact .inr ⟨x, hx, hused, hfid⟩
  refine ⟨⟨fun n fd fid' hu => ?_, fun n fd n' fd' fid' hu hu' => ?_, fun n x fid' hx hcwd => ?_⟩,
    fun n fd hu => ?_, fun n x hx => ?_⟩
  · rcases huses hu with ⟨_, _, rfl⟩ | hu
    · exact hlive
    · exact h.right.live n fd fid' hu
  · rcases huses hu with ⟨rfl, rfl, rfl⟩ | hu1
    · rcases huses hu' with ⟨rfl, rfl, _⟩ | hu'
      · exact ⟨rfl, rfl⟩
      · exact absurd hu' (hnone _ _)
    · rcases huses hu' with ⟨_, _, rfl⟩ | hu'
      · exact absurd hu1 (hnone _ _)
      · exact h.right.own n fd n' fd' fid' hu1 hu'
  · rcases get_set hx with ⟨rfl, rfl⟩ | ⟨_, hx⟩
    · exact h.right.cwd n c fid' hc (hn.cwd ▸ hcwd)
    · exact h.right.cwd n x fid' hx hcwd
  · rcases huses hu with ⟨_, _, he⟩ | hu
    · exact hne he.symm
    · exact h.nonzero n fd hu
  · rcases get_set hx with ⟨rfl, rfl⟩ | ⟨_, hx⟩
    · exact (h.clients n c hc).newFd hn
    · exact h.clients n x hx

/-- A client changes to the directory of a fid. -/
theorem Servers.Inv.changeDir (ho : s.fs.Opened fid i) :
    Servers.Inv ⟨s.clients.set idx { c with cwdFid := .fid fid }, s.fs,
      update s.dirs idx (some i)⟩ := by
  have huses : ∀ {n fd fid'}, Servers.Uses ⟨s.clients.set idx { c with cwdFid := .fid fid }, s.fs,
      update s.dirs idx (some i)⟩ n fd fid' → s.Uses n fd fid' := by
    intro n fd fid' hu
    obtain ⟨x, hx, hused, hfid⟩ := hu
    rcases get_set hx with ⟨rfl, rfl⟩ | ⟨_, hx⟩
    · exact ⟨c, hc, hused, hfid⟩
    · exact ⟨x, hx, hused, hfid⟩
  refine ⟨⟨fun n fd fid' hu => h.right.live n fd fid' (huses hu), fun n fd n' fd' fid' hu hu' =>
    h.right.own n fd n' fd' fid' (huses hu) (huses hu'), fun n x fid' hx hcwd => ?_⟩,
    fun n fd hu => h.nonzero n fd (huses hu), fun n x hx => ?_⟩
  · rcases get_set hx with ⟨rfl, rfl⟩ | ⟨hne, hx⟩
    · cases hcwd
      exact ⟨i, ho, update_self ..⟩
    · obtain ⟨j, hj, hdir⟩ := h.right.cwd n x fid' hx hcwd
      exact ⟨j, hj, (update_of_ne hne ..).trans hdir⟩
  · rcases get_set hx with ⟨rfl, rfl⟩ | ⟨_, hx⟩
    · have hok := h.clients n c hc
      exact ⟨hok.number, hok.fs⟩
    · exact h.clients n x hx

/-- **A descriptor and its fid are closed**: all is right exactly when the fid was no working
    directory. -/
theorem Servers.Inv.closeFd (hu : s.Uses idx id fid) (hcwd : c'.cwdFid = c.cwdFid)
    (hbits : c'.fdman.bitmap = update c.fdman.bitmap id false)
    (htable : c'.fdTable = update c.fdTable id ⟨false, false, 0, 0⟩) :
    (FsmRight ⟨s.clients.set idx c', s.fs.closeFid fid, s.dirs⟩ ↔
        ∀ x ∈ s.clients, x.cwdFid ≠ .fid fid) ∧
      ((∀ x ∈ s.clients, x.cwdFid ≠ .fid fid) →
        Servers.Inv ⟨s.clients.set idx c', s.fs.closeFid fid, s.dirs⟩) := by
  have huses : ∀ {n fd fid'}, Servers.Uses ⟨s.clients.set idx c', s.fs.closeFid fid, s.dirs⟩
      n fd fid' → s.Uses n fd fid' ∧ fid' ≠ fid := by
    intro n fd fid' hu'
    obtain ⟨x, hx, hused, hfid⟩ := hu'
    have hold : s.Uses n fd fid' ∧ ¬ (n = idx ∧ fd = id) := by
      rcases get_set hx with ⟨rfl, rfl⟩ | ⟨hne, hx⟩
      · rw [htable, update_apply] at hused hfid
        split at hfid
        · rename_i he
          rw [if_pos he] at hused
          cases hused
        · rename_i hne
          rw [if_neg hne] at hused
          exact ⟨⟨c, hc, hused, hfid⟩, fun e => hne e.2⟩
      · exact ⟨⟨x, hx, hused, hfid⟩, fun e => hne e.1⟩
    refine ⟨hold.1, fun e => hold.2 ?_⟩
    exact h.right.own n fd idx id fid (e ▸ hold.1) hu
  have hkeep : ∀ {n}, n ≠ fid → (s.fs.closeFid fid).fidman.bitmap n = s.fs.fidman.bitmap n ∧
      (s.fs.closeFid fid).fidRecords n = s.fs.fidRecords n := fun hne =>
    ⟨update_of_ne hne .., update_of_ne hne ..⟩
  have hgood : (∀ x ∈ s.clients, x.cwdFid ≠ .fid fid) →
      Servers.Inv ⟨s.clients.set idx c', s.fs.closeFid fid, s.dirs⟩ := by
    intro hnone
    refine ⟨⟨fun n fd fid' hu' => ?_, fun n fd n' fd' fid' hu1 hu2 => ?_, fun n x fid' hx hx' => ?_⟩,
      fun n fd hu' => h.nonzero n fd (huses hu').1, fun n x hx => ?_⟩
    · obtain ⟨hold, hne⟩ := huses hu'
      exact (hkeep hne).1.trans (h.right.live n fd fid' hold)
    · exact h.right.own n fd n' fd' fid' (huses hu1).1 (huses hu2).1
    · obtain ⟨y, hy, hycwd⟩ : ∃ y, s.clients[n]? = some y ∧ y.cwdFid = .fid fid' := by
        rcases get_set hx with ⟨rfl, rfl⟩ | ⟨_, hx⟩
        · exact ⟨c, hc, hcwd ▸ hx'⟩
        · exact ⟨x, hx, hx'⟩
      have hne : fid' ≠ fid := fun e => hnone y (mem_of_getElem? hy) (e ▸ hycwd)
      obtain ⟨i, ho, hdir⟩ := h.right.cwd n y fid' hy hycwd
      exact ⟨i, ⟨(hkeep hne).1.trans ho.1, by rw [(hkeep hne).2, ho.2]⟩, hdir⟩
    · rcases get_set hx with ⟨rfl, rfl⟩ | ⟨_, hx⟩
      · exact (h.clients n c hc).del hbits htable
      · exact h.clients n x hx
  refine ⟨⟨fun hright x hx hxcwd => ?_, fun hnone => (hgood hnone).right⟩, hgood⟩
  -- the fid is free now, and some client still has it
  obtain ⟨n, hn⟩ := mem_iff_getElem?.mp hx
  obtain ⟨y, hy, hycwd⟩ : ∃ y, (s.clients.set idx c')[n]? = some y ∧ y.cwdFid = .fid fid := by
    by_cases hne : n = idx
    · subst hne
      obtain rfl := some.inj (hc.symm.trans hn)
      refine ⟨c', ?_, hcwd.trans hxcwd⟩
      rw [List.getElem?_set_self (List.getElem?_eq_some_iff.mp hc).1]
    · exact ⟨x, by rw [List.getElem?_set_ne (Ne.symm hne), hn], hxcwd⟩
  obtain ⟨i, ho, -⟩ := hright.cwd n y fid hy hycwd
  have hfree : (s.fs.closeFid fid).fidman.bitmap fid = false := update_self ..
  have hlive := ho.1
  rw [hfree] at hlive
  cases hlive

end

end Inv

/-! ## 6. The requests -/

section Serve

variable {s s' : Servers} {junk : Nat → Int} {depth idx badge : Nat} {c : ClientRecord}
  {r : Except Errno Nat} {clients : List ClientRecord} {fd : Int}

section

variable (h : s.Inv) (hc : s.clients[idx]? = some c)

include h hc

theorem fsmOpenat_inv {dirfd : At} {path : Name} {flags : OpenFlags}
    (hs : fsmOpenat junk depth s idx c dirfd path flags = some (s', r)) : s'.Inv := by
  obtain ⟨start, -, hs⟩ := bind_eq_some_iff.mp hs
  cases start with
  | error e =>
    cases hs
    exact h
  | ok dir =>
  obtain ⟨⟨fs, ret⟩, hopen, hs⟩ := bind_eq_some_iff.mp hs
  rcases fsOpen_fids hopen with ⟨e, rfl, hsame⟩ | ⟨fid, inode, rfl, hfid⟩
  · cases hs
    exact h.keeps hsame.keeps
  obtain ⟨⟨c', id⟩, hnew, hs⟩ := bind_eq_some_iff.mp hs
  cases hs
  have hnone : ∀ n fd, ¬ s.Uses n fd fid := by
    intro n fd hu
    have hlive := h.right.live n fd fid hu
    rw [hfid.fresh] at hlive
    cases hlive
  exact (h.keeps hfid.keeps).openFd hc hfid.nonzero hfid.live hnone (newFdRecord_spec hnew fid)

theorem fsmChdir_inv {path : Name} {follow : Bool}
    (hs : fsmChdir junk depth s idx c path follow = some (s', r)) : s'.Inv := by
  obtain ⟨start, -, hs⟩ := bind_eq_some_iff.mp hs
  cases start with
  | error e =>
    cases hs
    exact h
  | ok dir =>
  obtain ⟨⟨fs, ret⟩, hchdir, hs⟩ := bind_eq_some_iff.mp hs
  rcases fsChdir_fids hchdir with ⟨e, rfl, hsame⟩ | ⟨fid, i, rfl, hfid, htarget⟩
  · cases hs
    exact h.keeps hsame.keeps
  simp only [htarget] at hs
  split at hs
  · cases hs
    exact (h.keeps hfid.keeps).changeDir hc ⟨hfid.live, hfid.inode⟩
  · cases hs
    exact h.keeps hfid.keeps

theorem fsmFchdir_inv (hs : fsmFchdir s idx c fd = some (s', r)) : s'.Inv := by
  obtain ⟨-, hs⟩ := ite_none_left_eq_some.mp hs
  obtain ⟨hfs, hs⟩ := ite_none_left_eq_some.mp hs
  obtain ⟨ret, hret, hs⟩ := bind_eq_some_iff.mp hs
  cases ret with
  | error e =>
    cases hs
    exact h
  | ok v =>
  cases hs
  obtain ⟨-, hret⟩ := ite_none_left_eq_some.mp hret
  obtain ⟨i, hi, -⟩ := bind_eq_some_iff.mp hret
  -- only a descriptor in use has a file system
  have hused : (c.fdTable fd.toNat).used = true := by
    rw [← (h.clients idx c hc).fs]
    simpa using hfs
  rw [hi]
  exact h.changeDir hc ⟨h.right.live idx fd.toNat _ ⟨c, hc, hused, rfl⟩, hi⟩

theorem fsmClose_spec (hs : fsmClose s idx c fd = some (s', r)) :
    (FsmRight s' ↔ ∀ fid, s.Uses idx fd.toNat fid → ∀ x ∈ s.clients, x.cwdFid ≠ .fid fid) ∧
      ((∀ fid, s.Uses idx fd.toNat fid → ∀ x ∈ s.clients, x.cwdFid ≠ .fid fid) → s'.Inv) := by
  obtain ⟨record, hrec, hs⟩ := bind_eq_some_iff.mp hs
  cases record with
  | none =>
    cases hs
    have hnone : ∀ fid, ¬ s.Uses idx fd.toNat fid := by
      intro fid hu
      obtain ⟨x, hx, hused, -⟩ := hu
      obtain rfl := some.inj (hc.symm.trans hx)
      obtain ⟨found, hq, hrec⟩ := bind_eq_some_iff.mp hrec
      obtain ⟨-, hbit⟩ := ite_none_right_eq_some.mp hq
      rw [(h.clients idx c hc).number _ hused] at hbit
      cases hbit
      rw [if_pos ⟨rfl, hused⟩] at hrec
      cases hrec
    exact ⟨⟨fun _ fid hu => absurd hu (hnone fid), fun _ => h.right⟩, fun _ => h⟩
  | some rec =>
  obtain ⟨-, hused, rfl, hq⟩ := clientFd_some hrec
  have hu : s.Uses idx fd.toNat (c.fdTable fd.toNat).fid := ⟨c, hc, hused, rfl⟩
  have honly : (∀ fid, s.Uses idx fd.toNat fid → ∀ x ∈ s.clients, x.cwdFid ≠ .fid fid) ↔
      ∀ x ∈ s.clients, x.cwdFid ≠ .fid (c.fdTable fd.toNat).fid := by
    refine ⟨fun hall => hall _ hu, fun hall fid hu' => ?_⟩
    obtain ⟨x, hx, -, rfl⟩ := hu'
    obtain rfl := some.inj (hc.symm.trans hx)
    exact hall
  obtain ⟨-, hs⟩ := ite_none_left_eq_some.mp hs
  obtain ⟨⟨fs, ret⟩, hclose, hs⟩ := bind_eq_some_iff.mp hs
  -- the fid is live, so that tmpfs does close it
  have hne : (c.fdTable fd.toNat).fid ≠ 0 := fun e => h.nonzero idx fd.toNat (e ▸ hu)
  obtain ⟨rfl, rfl⟩ := fsClose_live hne (h.right.live _ _ _ hu) hclose
  obtain ⟨⟨c', ret⟩, hdel, hs⟩ := bind_eq_some_iff.mp hs
  cases hs
  obtain ⟨hcwd, hbits, htable⟩ := delFdRecord_spec hq hdel
  rw [honly]
  exact h.closeFd hc hu hcwd hbits htable

end

/-- `fsm_match_or_record_client` keeps the invariant, and a new client has no descriptor. -/
theorem matchOrRecordClient_spec (h : s.Inv)
    (hm : matchOrRecordClient s.clients badge = some (clients, idx)) :
    Servers.Inv { s with clients } ∧ ∀ fd, KeepsCwd s (badge, .close fd) ↔
      ∀ fid, Servers.Uses { s with clients } idx fd.toNat fid → ∀ x ∈ clients, x.cwdFid ≠ .fid fid := by
  unfold matchOrRecordClient at hm
  split at hm
  · rename_i n hf
    cases hm
    refine ⟨h, fun fd => ⟨fun hk fid => hk idx fid hf, fun hk n' fid hf' => ?_⟩⟩
    obtain rfl := some.inj (hf.symm.trans hf')
    exact hk fid
  rename_i hf
  obtain ⟨-, hm⟩ := ite_none_left_eq_some.mp hm
  cases hm
  refine ⟨h.record badge, fun fd => ⟨fun _ fid hu => ?_, fun _ n fid hf' => ?_⟩⟩
  · obtain ⟨x, hx, hused, -⟩ := hu
    rw [List.getElem?_concat_length] at hx
    cases hx
    cases hused
  · rw [hf] at hf'
    cases hf'

theorem Servers.step_spec {a : Nat × Request} (h : s.Inv) (hs : s.step junk depth a = some s') :
    (FsmRight s' ↔ KeepsCwd s a) ∧ (KeepsCwd s a → s'.Inv) := by
  obtain ⟨badge, request⟩ := a
  obtain ⟨⟨clients, idx⟩, hm, hs⟩ := bind_eq_some_iff.mp hs
  obtain ⟨c, hc, hs⟩ := bind_eq_some_iff.mp hs
  obtain ⟨⟨s1, r⟩, hserve, hs⟩ := bind_eq_some_iff.mp hs
  cases hs
  obtain ⟨hinv, hkeeps⟩ := matchOrRecordClient_spec h hm
  have hkept : s'.Inv → KeepsCwd s (badge, request) = True →
      (FsmRight s' ↔ KeepsCwd s (badge, request)) ∧ (KeepsCwd s (badge, request) → s'.Inv) := by
    intro h1 htrue
    rw [htrue]
    exact ⟨⟨fun _ => trivial, fun _ => h1.right⟩, fun _ => h1⟩
  cases request with
  | openat dirfd path flags => exact hkept (fsmOpenat_inv hinv hc hserve) rfl
  | chdir path follow => exact hkept (fsmChdir_inv hinv hc hserve) rfl
  | fchdir fd => exact hkept (fsmFchdir_inv hinv hc hserve) rfl
  | close fd =>
    rw [hkeeps fd]
    exact fsmClose_spec hinv hc hserve

end Serve

theorem Servers.inv_init : (Servers.init fs).Inv := by
  have hnone : ∀ idx fd fid, ¬ (Servers.init fs).Uses idx fd fid := by
    intro idx fd fid hu
    obtain ⟨c, hc, -⟩ := hu
    cases hc
  refine ⟨⟨fun idx fd fid hu => absurd hu (hnone idx fd fid), fun idx fd _ _ fid hu =>
    absurd hu (hnone idx fd fid), fun idx c fid hc => ?_⟩, fun idx fd => hnone idx fd 0,
    fun idx c hc => ?_⟩
  · cases hc
  · cases hc

/-- **Over a run of any clients**, descriptors and working directories are right after every request
    exactly when no request closes a descriptor whose fid is a working directory. -/
theorem fsm_fids_iff (fs : Fs) (as : List (Nat × Request)) :
    (∀ t ∈ trace (Servers.step junk depth) (.init fs) as, FsmRight t.post) ↔
      ∀ t ∈ trace (Servers.step junk depth) (.init fs) as, KeepsCwd t.pre t.act := by
  refine trace_all_iff (I := Servers.Inv) (fun s a s' hI hs => (Servers.step_spec hI hs).1)
    (fun s a s' hI hC hs => (Servers.step_spec hI hs).2 hC) as _ (Servers.inv_init fs)

/-- A client opens the root, makes it its working directory and closes the descriptor. -/
def leaveRun : List (Nat × Request) :=
  [(7, .openat .cwd ['/'] readFlags), (7, .fchdir 1), (7, .close 1)]

/-- **A working directory that is gone.** The fid of the descriptor was the working directory, and
    tmpfs has closed it; the next file that is opened gets it, and the working directory of the client
    is that file. -/
theorem cwd_fid_closed :
    (∃ t ∈ trace (Servers.step ones 4) (.init (.booted ones)) leaveRun, ¬ FsmRight t.post) ∧
      ∃ t ∈ trace (Servers.step ones 4) (.init (.booted ones))
        (leaveRun ++ [(7, .openat .cwd ['/', 'f'] creatFlags)]),
        t.post.dirs 0 = some 0 ∧ t.post.clients[0]?.map (·.cwdFid) = some (.fid 1) ∧
          t.post.fs.Opened 1 1 ∧ (t.post.fs.inodes 1).type = .reg := by
  constructor
  · have hend : (exec (Servers.step ones 4) (.init (.booted ones)) leaveRun).any (fun s =>
        s.clients[0]?.map (·.cwdFid) = some (.fid 1) ∧ s.fs.fidman.bitmap 1 = false) = true := by
      decide +kernel
    obtain ⟨t, ht, hcwd, hfree⟩ := trace_of_exec hend
    refine ⟨t, ht, fun h => ?_⟩
    obtain ⟨c, hc, hcwd⟩ := map_eq_some_iff.mp hcwd
    obtain ⟨i, ho, -⟩ := h.cwd 0 c 1 hc hcwd
    have hlive := ho.1
    rw [hfree] at hlive
    cases hlive
  have hend : (exec (Servers.step ones 4) (.init (.booted ones))
      (leaveRun ++ [(7, .openat .cwd ['/', 'f'] creatFlags)])).any (fun s =>
      s.dirs 0 = some 0 ∧ s.clients[0]?.map (·.cwdFid) = some (.fid 1) ∧
        (s.fs.fidman.bitmap 1 = true ∧ (s.fs.fidRecords 1).inode = some 1) ∧
        (s.fs.inodes 1).type = .reg) = true := by
    decide +kernel
  exact trace_of_exec hend

end ChCore.Fsm
