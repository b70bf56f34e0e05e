import AtmKoala.Vfs.Mounts

/-!
The calls of `vfs.c` with modes, owners and contents.

The inodes are those of ramfs, devfs and procfs, whose directories are all directories of
ramfs. References are left out (they are the matter of `Model`): an inode stays when its
last name goes. Device reads are inputs, as is whether `kmalloc` succeeds; the clock
stands still. A result `none` is a use of an inode that is not there, a string longer
than its buffer, or a write to a symbolic link, whose text `ramfs_write_impl` takes for a
`ramfs_file_t`.
-/

namespace AtmKoala.Vfs

/-! ### State -/

/-- `mode & S_IFMT`. -/
inductive FileType where
  | reg | dir | lnk | chr | blk
deriving DecidableEq

/-- `inode->priv` and what the driver's table has. A device has no `truncate`, `chmod` or
`chown`. -/
inductive Content where
  | dir (children : List (Name × Ino)) (count : Nat)
  | file (data : Inode)
  | link (target : Name)
  | device (type : FileType) (reads writes : Bool)
deriving DecidableEq

/-- `vfs_inode_t`; `perms` is `mode & 07777`. -/
structure Vnode where
  content : Content
  perms : Nat
  uid : Nat
  gid : Nat
  nlink : Int
  mountpoint : Option Ino
deriving DecidableEq

namespace Vnode

def type (x : Vnode) : FileType :=
  match x.content with
  | .dir _ _ => .dir
  | .file _ => .reg
  | .link _ => .lnk
  | .device type _ _ => type

def size (x : Vnode) : Nat :=
  match x.content with
  | .file data => data.size
  | .link target => target.length
  | _ => 0

end Vnode

/-- The flags of `vfs_open`; `acc` is `flags & O_ACCMODE`. -/
structure Flags where
  acc : Nat
  creat : Bool
  excl : Bool
  trunc : Bool
  append : Bool
  nofollow : Bool
deriving DecidableEq

def oRdonly : Nat := 0
def oWronly : Nat := 1

/-- `vfs_fd_t`. -/
structure FileDesc where
  inode : Ino
  offset : Nat
  flags : Flags
deriving DecidableEq

/-- The inodes, the mount table, the descriptors and the credentials of the session. -/
structure Kernel where
  inodes : Ino → Option Vnode
  nextIno : Ino
  root : Ino
  mounts : List (Name × Ino)
  fds : Fin 64 → Option FileDesc
  uid : Nat
  gid : Nat
  now : Nat

def permR : Nat := 4
def permW : Nat := 2
def permX : Nat := 1

/-- The permissions `vfs_open` wants of an inode that is there. -/
def Flags.wanted (flags : Flags) : Nat :=
  (if flags.acc ≠ oWronly then permR else 0) + (if flags.acc ≠ oRdonly then permW else 0)

namespace Kernel

def setInode (k : Kernel) (i : Ino) (x : Vnode) : Kernel :=
  { k with inodes := Function.update k.inodes i (some x) }

def setContent (k : Kernel) (i : Ino) (c : Content) : Kernel :=
  { k with inodes := Function.update k.inodes i ((k.inodes i).map fun x => { x with content := c }) }

def addLink (k : Kernel) (i : Ino) (n : Int) : Kernel :=
  { k with inodes :=
      Function.update k.inodes i ((k.inodes i).map fun x => { x with nlink := x.nlink + n }) }

def setFd (k : Kernel) (fd : Fin 64) (f : Option FileDesc) : Kernel :=
  { k with fds := Function.update k.fds fd f }

def dirOf (k : Kernel) (d : Ino) : Option (List (Name × Ino) × Nat) :=
  match (k.inodes d).map Vnode.content with
  | some (.dir children count) => some (children, count)
  | _ => none

/-- `vfs_access`. -/
def vfsAccess (k : Kernel) (x : Vnode) (wanted : Nat) : Bool :=
  if k.uid = 0 then true
  else
    let bits :=
      if k.uid = x.uid then x.perms / 64 % 8
      else if k.gid = x.gid then x.perms / 8 % 8
      else x.perms % 8
    bits &&& wanted = wanted

/-- `inode_alloc`. -/
def inodeAlloc (k : Kernel) (content : Content) (perms : Nat) : Kernel × Ino :=
  ({ k.setInode k.nextIno ⟨content, perms, k.uid, k.gid, 1, none⟩ with nextIno := k.nextIno + 1 },
    k.nextIno)

/-! ### ramfs -/

/-- `ramfs_lookup`. -/
def lookup (k : Kernel) (d : Ino) : Option (Name → Option Ino) :=
  (k.dirOf d).map fun (children, _) name =>
    if name = dot ∨ name = dotdot then some d else dentryFind children name

def target (k : Kernel) (i : Ino) : Option Name :=
  match (k.inodes i).map Vnode.content with
  | some (.link target) => some target
  | _ => none

def dentryAdd (k : Kernel) (d : Ino) (name : Name) (inode : Ino) (alloc : Bool) :
    Option (Kernel × Int) := do
  let (children, count) ← k.dirOf d
  if (dentryFind children name).isSome then some (k, -eexist)
  else if !alloc then some (k, -enospc)
  else some (k.setContent d (.dir ((name, inode) :: children) (count + 1)), 0)

def dentryRemove (k : Kernel) (d : Ino) (name : Name) : Option (Kernel × Int) := do
  let (children, count) ← k.dirOf d
  if (dentryFind children name).isNone then some (k, -enoent)
  else some (k.setContent d (.dir (children.eraseP fun e => e.1 = name) (count - 1)), 0)

def ramfsCreateImpl (k : Kernel) (dir : Ino) (name : Name) (perms : Nat) (alloc : Fin 3 → Bool) :
    Option (Kernel × Int × Option Ino) := do
  let (children, _) ← k.dirOf dir
  if (dentryFind children name).isSome then some (k, -eexist, none)
  else if !(alloc 0 && alloc 1) then some (k, -enospc, none)
  else
    let (k, ni) := k.inodeAlloc (.file (newFile k.now)) perms
    let (k, r) ← k.dentryAdd dir name ni (alloc 2)
    some (k, r, if r < 0 then none else some ni)

def ramfsMkdirImpl (k : Kernel) (dir : Ino) (name : Name) (perms : Nat) (alloc : Fin 5 → Bool) :
    Option (Kernel × Int) := do
  let (children, _) ← k.dirOf dir
  if (dentryFind children name).isSome then some (k, -eexist)
  else if !(alloc 0 && alloc 1) then some (k, -enospc)
  else
    let (k, ni) := k.inodeAlloc (.dir [] 0) perms
    let k := k.addLink ni 1
    let (k, _) ← k.dentryAdd ni dot ni (alloc 2)
    let (k, _) ← k.dentryAdd ni dotdot dir (alloc 3)
    let (k, r) ← k.dentryAdd dir name ni (alloc 4)
    some (if r < 0 then k else k.addLink dir 1, r)

def ramfsUnlinkImpl (k : Kernel) (dir : Ino) (name : Name) : Option (Kernel × Int) := do
  let (children, _) ← k.dirOf dir
  match dentryFind children name with
  | none => some (k, -enoent)
  | some inode =>
    let x ← k.inodes inode
    if x.type = .dir then some (k, -eisdir)
    else (k.addLink inode (-1)).dentryRemove dir name

def ramfsRmdirImpl (k : Kernel) (dir : Ino) (name : Name) : Option (Kernel × Int) := do
  let (children, _) ← k.dirOf dir
  match dentryFind children name with
  | none => some (k, -enoent)
  | some inode =>
    let x ← k.inodes inode
    match x.content with
    | .dir _ count =>
      if count > 2 then some (k, -enotempty)
      else ((k.addLink inode (-1)).addLink dir (-1)).dentryRemove dir name
    | _ => some (k, -enotdir)

def ramfsLinkImpl (k : Kernel) (dir : Ino) (name : Name) (target : Ino) (alloc : Bool) :
    Option (Kernel × Int) := do
  let x ← k.inodes target
  if x.type = .dir then some (k, -eisdir)
  else
    let (k, r) ← k.dentryAdd dir name target alloc
    some (if r = 0 then k.addLink target 1 else k, r)

def ramfsSymlinkImpl (k : Kernel) (dir : Ino) (name target : Name) (alloc : Fin 3 → Bool) :
    Option (Kernel × Int) := do
  let (children, _) ← k.dirOf dir
  if (dentryFind children name).isSome then some (k, -eexist)
  else if !alloc 0 then some (k, -enospc)
  else if vfsPathMax ≤ target.length then none
  else if !alloc 1 then some (k, -enospc)
  else
    let (k, ni) := k.inodeAlloc (.link target) 0o777
    k.dentryAdd dir name ni (alloc 2)

/-- `ramfs_rename_impl`. The new entry gets its memory: that of the old one has just
been freed. -/
def ramfsRenameImpl (k : Kernel) (oldDir : Ino) (oldName : Name) (newDir : Ino) (newName : Name) :
    Option (Kernel × Int) := do
  let (children, _) ← k.dirOf oldDir
  match dentryFind children oldName with
  | none => some (k, -enoent)
  | some target =>
    let (k, _) ← k.dentryRemove oldDir oldName
    let (k, _) ← k.dentryRemove newDir newName
    k.dentryAdd newDir newName target true

/-! ### Files -/

/-- `ops->truncate`, or `noOp` where the driver has none. -/
def opsTruncate (k : Kernel) (i : Ino) (x : Vnode) (size : Nat) (alloc : Bool) (noOp : Int) :
    Option (Kernel × Int) :=
  match x.content with
  | .file data =>
    let (data, r) := ramfsTruncateImpl data alloc k.now size
    some (k.setContent i (.file data), r)
  | .link _ => none
  | .dir _ _ | .device _ _ _ => some (k, noOp)

/-- `ops->write`, if the driver has one. -/
def opsWrite (k : Kernel) (i : Ino) (x : Vnode) (off : Nat) (buf : List UInt8) (alloc : Bool) :
    Option (Kernel × Option Int) :=
  match x.content with
  | .file data =>
    let (data, r) := ramfsWriteImpl data alloc k.now off buf
    some (k.setContent i (.file data), some r)
  | .link _ => none
  | .device _ _ true => some (k, some buf.length)
  | .dir _ _ | .device _ _ false => some (k, none)

/-- `ops->read`, if the driver has one; `input` is what a device gives. -/
def opsRead (k : Kernel) (i : Ino) (x : Vnode) (off size : Nat) (input : List UInt8) :
    Kernel × Option (List UInt8) :=
  match x.content with
  | .file data =>
    let (data, bytes) := ramfsReadImpl data k.now off size
    (k.setContent i (.file data), some bytes)
  | .link target => (k, some (((target.drop off).take size).map fun c => .ofNat c.toNat))
  | .device _ true _ => (k, some (input.take size))
  | .dir _ _ | .device _ false _ => (k, none)

/-- `ops->chmod`. -/
def opsChmod (k : Kernel) (i : Ino) (x : Vnode) (mode : Nat) : Kernel × Int :=
  match x.content with
  | .device _ _ _ => (k, -einval)
  | _ => (k.setInode i { x with perms := mode % 0o10000 }, 0)

/-- `ops->chown`. -/
def opsChown (k : Kernel) (i : Ino) (x : Vnode) (uid gid : Nat) : Kernel × Int :=
  match x.content with
  | .device _ _ _ => (k, -einval)
  | _ => (k.setInode i { x with uid, gid }, 0)

/-! ### Paths and descriptors -/

def tree (k : Kernel) : Tree where
  root := k.root
  mounts := k.mounts
  lookup := k.lookup
  target := k.target
  mountpoint i := (k.inodes i).bind Vnode.mountpoint

/-- `resolve_path`. -/
def resolvePath (k : Kernel) (path : Name) (nofollow : Bool) : Option (Option Ino) :=
  (k.tree.resolve path nofollow).outcome.result

def fdAlloc (k : Kernel) : Option (Fin 64) :=
  (List.finRange 64).find? fun fd => 3 ≤ fd.val ∧ k.fds fd = none

/-- The descriptor behind a number, if it is in use. -/
def fdOf (k : Kernel) (fd : Int) : Option (Fin 64 × FileDesc) :=
  (fdIndex fd).bind fun fd => (k.fds fd).map (fd, ·)

/-! ### Calls -/

/-- What a call gives back. -/
structure Stat where
  ino : Ino
  type : FileType
  perms : Nat
  nlink : Int
  uid : Nat
  gid : Nat
  size : Nat
deriving DecidableEq

/-- `vfs_dirent_t`. -/
structure Dirent where
  name : Name
  ino : Ino
  type : FileType
deriving DecidableEq

/-- A result that is negative or null is `failed`. -/
inductive Answer where
  | failed
  | number (n : Nat)
  | stat (st : Stat)
  | text (t : Name)
  | entry (e : Dirent)
  | entries (names : List Name)
  | bytes (b : List UInt8)
deriving DecidableEq

/-- A result code. -/
def Answer.ofInt (r : Int) : Answer := if r < 0 then .failed else .number r.toNat

/-- The end of `vfs_open`. -/
def openFd (k : Kernel) (inode : Ino) (flags : Flags) : Option (Kernel × Answer) := do
  match k.fdAlloc with
  | none => some (k, .failed)
  | some fd =>
    let x ← k.inodes inode
    let (k, _) ← if flags.trunc then k.opsTruncate inode x 0 true 0 else some (k, 0)
    let x ← k.inodes inode
    some (k.setFd fd (some ⟨inode, if flags.append then x.size else 0, flags⟩), .number fd.val)

def vfsOpen (k : Kernel) (path : Name) (flags : Flags) (mode : Nat) (alloc : Fin 3 → Bool) :
    Option (Kernel × Answer) := do
  let mode := if mode = 0 then 0o644 else mode
  match ← k.resolvePath path flags.nofollow with
  | none =>
    if !flags.creat then some (k, .failed)
    else
      let (dir, base) ← pathSplit path
      match ← k.resolvePath dir false with
      | none => some (k, .failed)
      | some parent =>
        let x ← k.inodes parent
        if x.type ≠ .dir || !k.vfsAccess x (permW + permX) then some (k, .failed)
        else
          match ← k.ramfsCreateImpl parent base (mode % 0o10000) alloc with
          | (k, _, none) => some (k, .failed)
          | (k, _, some inode) => k.openFd inode flags
  | some inode =>
    let x ← k.inodes inode
    if (flags.creat && flags.excl) || (x.type = .dir && flags.acc ≠ oRdonly) then
      some (k, .failed)
    else if !k.vfsAccess x flags.wanted then some (k, .failed)
    else k.openFd inode flags

def vfsClose (k : Kernel) (fd : Int) : Kernel × Answer :=
  match k.fdOf fd with
  | none => (k, .failed)
  | some (fd, _) => (k.setFd fd none, .number 0)

def vfsRead (k : Kernel) (fd : Int) (size : Nat) (input : List UInt8) : Option (Kernel × Answer) := do
  match k.fdOf fd with
  | none => some (k, .failed)
  | some (fd, f) =>
    let x ← k.inodes f.inode
    if f.flags.acc = oWronly || !k.vfsAccess x permR then some (k, .failed)
    else
      match k.opsRead f.inode x f.offset size input with
      | (k, none) => some (k, .failed)
      | (k, some bytes) =>
        some (k.setFd fd (some { f with offset := f.offset + bytes.length }), .bytes bytes)

def vfsWrite (k : Kernel) (fd : Int) (buf : List UInt8) (alloc : Bool) : Option (Kernel × Answer) := do
  match k.fdOf fd with
  | none => some (k, .failed)
  | some (fd, f) =>
    let x ← k.inodes f.inode
    if f.flags.acc = oRdonly || !k.vfsAccess x permW then some (k, .failed)
    else
      let offset := if f.flags.append then x.size else f.offset
      match ← k.opsWrite f.inode x offset buf alloc with
      | (k, none) => some (k, .failed)
      | (k, some n) =>
        let offset := if n > 0 then offset + n.toNat else offset
        some (k.setFd fd (some { f with offset }), .ofInt n)

inductive Whence where
  | set | cur | end_
deriving DecidableEq

def vfsLseek (k : Kernel) (fd : Int) (offset : Int) (whence : Whence) : Option (Kernel × Answer) := do
  match k.fdOf fd with
  | none => some (k, .failed)
  | some (fd, f) =>
    let x ← k.inodes f.inode
    let base : Int :=
      match whence with
      | .set => 0
      | .cur => f.offset
      | .end_ => x.size
    if base + offset < 0 then some (k, .failed)
    else some (k.setFd fd (some { f with offset := (base + offset).toNat }), .ofInt (base + offset))

def vfsDup (k : Kernel) (fd : Int) : Kernel × Answer :=
  match k.fdOf fd, k.fdAlloc with
  | some (_, f), some newfd => (k.setFd newfd (some f), .number newfd.val)
  | _, _ => (k, .failed)

def vfsDup2 (k : Kernel) (fd newfd : Int) : Kernel × Answer :=
  match k.fdOf fd, fdIndex newfd with
  | some (_, f), some new => if newfd = fd then (k, .ofInt fd) else (k.setFd new (some f), .ofInt newfd)
  | _, _ => (k, .failed)

/-- A call on the inode a path leads to. -/
def onPath (k : Kernel) (path : Name) (nofollow : Bool)
    (call : Ino → Vnode → Option (Kernel × Answer)) : Option (Kernel × Answer) := do
  match ← k.resolvePath path nofollow with
  | none => some (k, .failed)
  | some i =>
    let x ← k.inodes i
    call i x

/-- A call on the inode of a descriptor. -/
def onFd (k : Kernel) (fd : Int) (call : Ino → Vnode → Option (Kernel × Answer)) :
    Option (Kernel × Answer) := do
  match k.fdOf fd with
  | none => some (k, .failed)
  | some (_, f) =>
    let x ← k.inodes f.inode
    call f.inode x

/-- A call on the directory a path is in. -/
def onParent (k : Kernel) (path : Name) (call : Kernel → Ino → Name → Option (Kernel × Int)) :
    Option (Kernel × Answer) := do
  let (dir, base) ← pathSplit path
  match ← k.resolvePath dir false with
  | none => some (k, .failed)
  | some parent =>
    let x ← k.inodes parent
    if !k.vfsAccess x (permW + permX) || x.type ≠ .dir then some (k, .failed)
    else
      let (k, r) ← call k parent base
      some (k, .ofInt r)

def ramfsStatImpl (i : Ino) (x : Vnode) : Stat := ⟨i, x.type, x.perms, x.nlink, x.uid, x.gid, x.size⟩

def statAnswer (k : Kernel) (i : Ino) (x : Vnode) : Option (Kernel × Answer) :=
  some (k, .stat (ramfsStatImpl i x))

def vfsStat (k : Kernel) (path : Name) : Option (Kernel × Answer) := k.onPath path false k.statAnswer
def vfsLstat (k : Kernel) (path : Name) : Option (Kernel × Answer) := k.onPath path true k.statAnswer
def vfsFstat (k : Kernel) (fd : Int) : Option (Kernel × Answer) := k.onFd fd k.statAnswer

/-- The owner and root may change a mode. -/
def chmodAnswer (k : Kernel) (mode : Nat) (i : Ino) (x : Vnode) : Option (Kernel × Answer) :=
  if k.uid ≠ 0 && k.uid ≠ x.uid then some (k, .failed)
  else
    let (k, r) := k.opsChmod i x mode
    some (k, .ofInt r)

def vfsChmod (k : Kernel) (path : Name) (mode : Nat) : Option (Kernel × Answer) :=
  k.onPath path false (k.chmodAnswer mode)

def vfsFchmod (k : Kernel) (fd : Int) (mode : Nat) : Option (Kernel × Answer) :=
  k.onFd fd (k.chmodAnswer mode)

/-- Root may change an owner. -/
def chownAnswer (k : Kernel) (uid gid : Nat) (i : Ino) (x : Vnode) : Option (Kernel × Answer) :=
  if k.uid ≠ 0 then some (k, .failed)
  else
    let (k, r) := k.opsChown i x uid gid
    some (k, .ofInt r)

def vfsChown (k : Kernel) (path : Name) (uid gid : Nat) : Option (Kernel × Answer) :=
  k.onPath path false (k.chownAnswer uid gid)

def vfsFchown (k : Kernel) (fd : Int) (uid gid : Nat) : Option (Kernel × Answer) :=
  k.onFd fd (k.chownAnswer uid gid)

def truncateAnswer (k : Kernel) (size : Nat) (alloc : Bool) (i : Ino) (x : Vnode) :
    Option (Kernel × Answer) :=
  if !k.vfsAccess x permW then some (k, .failed)
  else (k.opsTruncate i x size alloc (-1)).map fun (k, r) => (k, .ofInt r)

def vfsTruncate (k : Kernel) (path : Name) (size : Nat) (alloc : Bool) : Option (Kernel × Answer) :=
  k.onPath path false (k.truncateAnswer size alloc)

def vfsFtruncate (k : Kernel) (fd : Int) (size : Nat) (alloc : Bool) : Option (Kernel × Answer) :=
  k.onFd fd (k.truncateAnswer size alloc)

def vfsReadlink (k : Kernel) (path : Name) (size : Nat) : Option (Kernel × Answer) :=
  k.onPath path true fun _ x =>
    match x.content with
    | .link target => if size = 0 then none else some (k, .text (target.take (size - 1)))
    | _ => some (k, .failed)

def vfsMkdir (k : Kernel) (path : Name) (mode : Nat) (alloc : Fin 5 → Bool) :
    Option (Kernel × Answer) :=
  k.onParent path fun k dir name => k.ramfsMkdirImpl dir name (mode % 0o10000) alloc

def vfsRmdir (k : Kernel) (path : Name) : Option (Kernel × Answer) := k.onParent path ramfsRmdirImpl
def vfsUnlink (k : Kernel) (path : Name) : Option (Kernel × Answer) := k.onParent path ramfsUnlinkImpl

def vfsSymlink (k : Kernel) (target linkpath : Name) (alloc : Fin 3 → Bool) :
    Option (Kernel × Answer) :=
  k.onParent linkpath fun k dir name => k.ramfsSymlinkImpl dir name target alloc

def vfsLink (k : Kernel) (oldpath newpath : Name) (alloc : Bool) : Option (Kernel × Answer) := do
  match ← k.resolvePath oldpath false with
  | none => some (k, .failed)
  | some target => k.onParent newpath fun k dir name => k.ramfsLinkImpl dir name target alloc

def vfsRename (k : Kernel) (oldpath newpath : Name) : Option (Kernel × Answer) := do
  let (od, ob) ← pathSplit oldpath
  let (nd, nb) ← pathSplit newpath
  match ← k.resolvePath od false, ← k.resolvePath nd false with
  | some oldDir, some newDir =>
    let x ← k.inodes oldDir
    let y ← k.inodes newDir
    if !k.vfsAccess x (permW + permX) || !k.vfsAccess y (permW + permX) then some (k, .failed)
    else if x.type ≠ .dir then some (k, .failed)
    else
      let (k, r) ← k.ramfsRenameImpl oldDir ob newDir nb
      some (k, .ofInt r)
  | _, _ => some (k, .failed)

/-! ### Listings -/

/-- `ramfs_readdir_impl`. -/
def ramfsReaddirImpl (k : Kernel) (children : List (Name × Ino)) (index : Nat) :
    Option (Option Dirent) :=
  match children[index]? with
  | none => some none
  | some (name, i) => (k.inodes i).map fun x => some ⟨name, i, x.type⟩

/-- Entry `index` of a directory. -/
def readdirAnswer (k : Kernel) (index : Nat) (x : Vnode) : Option (Kernel × Answer) :=
  match x.content with
  | .dir children _ => (k.ramfsReaddirImpl children index).map fun e => (k, (e.map .entry).getD .failed)
  | _ => some (k, .failed)

def vfsOpendir (k : Kernel) (path : Name) (alloc : Bool) : Option (Kernel × Answer) :=
  k.onPath path false fun _ x =>
    some (k, if x.type = .dir && k.vfsAccess x (permR + permX) && alloc then .number 0 else .failed)

/-- `vfs_readdir_next`, with the path and the position of its stream. -/
def vfsReaddirNext (k : Kernel) (path : Name) (index : Nat) : Option (Kernel × Answer) :=
  k.onPath path false fun _ x =>
    if !k.vfsAccess x (permR + permX) then some (k, .failed) else k.readdirAnswer index x

def vfsReaddir (k : Kernel) (path : Name) (index : Nat) : Option (Kernel × Answer) :=
  k.onPath path false fun _ x => k.readdirAnswer index x

def vfsFdReaddir (k : Kernel) (fd : Int) : Option (Kernel × Answer) := do
  match k.fdOf fd with
  | none => some (k, .failed)
  | some (fd, f) =>
    let x ← k.inodes f.inode
    if x.type ≠ .dir || !k.vfsAccess x (permR + permX) then some (k, .failed)
    else if 0xffffffff < f.offset then some (k, .number 0)
    else
      match ← k.readdirAnswer f.offset x with
      | (k, .entry e) => some (k.setFd fd (some { f with offset := f.offset + 1 }), .entry e)
      | (k, _) => some (k, .number 0)

/-- `vfs_listdir`: at most 256 names, those of directories with a slash. -/
def vfsListdir (k : Kernel) (path : Name) : Option (Kernel × Answer) :=
  k.onPath path false fun _ x =>
    match x.content with
    | .dir children _ =>
      if !k.vfsAccess x (permR + permX) then some (k, .failed)
      else do
        let names ← (children.take 256).mapM fun (name, i) =>
          (k.inodes i).map fun x => if x.type = .dir then name ++ ['/'] else name
        some (k, .entries names)
    | _ => some (k, .failed)

/-- The calls of the VFS. -/
inductive Call where
  | open (path : Name) (flags : Flags) (mode : Nat) (alloc : Fin 3 → Bool)
  | close (fd : Int)
  | read (fd : Int) (size : Nat) (input : List UInt8)
  | write (fd : Int) (buf : List UInt8) (alloc : Bool)
  | lseek (fd : Int) (offset : Int) (whence : Whence)
  | dup (fd : Int)
  | dup2 (fd newfd : Int)
  | stat (path : Name)
  | lstat (path : Name)
  | fstat (fd : Int)
  | chmod (path : Name) (mode : Nat)
  | fchmod (fd : Int) (mode : Nat)
  | chown (path : Name) (uid gid : Nat)
  | fchown (fd : Int) (uid gid : Nat)
  | truncate (path : Name) (size : Nat) (alloc : Bool)
  | ftruncate (fd : Int) (size : Nat) (alloc : Bool)
  | mkdir (path : Name) (mode : Nat) (alloc : Fin 5 → Bool)
  | rmdir (path : Name)
  | unlink (path : Name)
  | rename (oldpath newpath : Name)
  | link (oldpath newpath : Name) (alloc : Bool)
  | symlink (target linkpath : Name) (alloc : Fin 3 → Bool)
  | readlink (path : Name) (size : Nat)
  | opendir (path : Name) (alloc : Bool)
  | readdirNext (path : Name) (index : Nat)
  | fdReaddir (fd : Int)
  | readdir (path : Name) (index : Nat)
  | listdir (path : Name)

def perform (k : Kernel) : Call → Option (Kernel × Answer)
  | .open path flags mode alloc => k.vfsOpen path flags mode alloc
  | .close fd => k.vfsClose fd
  | .read fd size input => k.vfsRead fd size input
  | .write fd buf alloc => k.vfsWrite fd buf alloc
  | .lseek fd offset whence => k.vfsLseek fd offset whence
  | .dup fd => k.vfsDup fd
  | .dup2 fd newfd => k.vfsDup2 fd newfd
  | .stat path => k.vfsStat path
  | .lstat path => k.vfsLstat path
  | .fstat fd => k.vfsFstat fd
  | .chmod path mode => k.vfsChmod path mode
  | .fchmod fd mode => k.vfsFchmod fd mode
  | .chown path uid gid => k.vfsChown path uid gid
  | .fchown fd uid gid => k.vfsFchown fd uid gid
  | .truncate path size alloc => k.vfsTruncate path size alloc
  | .ftruncate fd size alloc => k.vfsFtruncate fd size alloc
  | .mkdir path mode alloc => k.vfsMkdir path mode alloc
  | .rmdir path => k.vfsRmdir path
  | .unlink path => k.vfsUnlink path
  | .rename oldpath newpath => k.vfsRename oldpath newpath
  | .link oldpath newpath alloc => k.vfsLink oldpath newpath alloc
  | .symlink target linkpath alloc => k.vfsSymlink target linkpath alloc
  | .readlink path size => k.vfsReadlink path size
  | .opendir path alloc => k.vfsOpendir path alloc
  | .readdirNext path index => k.vfsReaddirNext path index
  | .fdReaddir fd => k.vfsFdReaddir fd
  | .readdir path index => k.vfsReaddir path index
  | .listdir path => k.vfsListdir path

end Kernel

end AtmKoala.Vfs
