import AtmKoala.Lib.Run
import AtmKoala.Vfs.Ramfs

/-!
The names of the VFS: directories of ramfs, path resolution and the descriptor
table (`vfs.c`).

An inode is known by its number, a pointer to a destroyed inode being a number
without one. A result `none` stands for what C leaves undefined: a use of a
destroyed inode, a file taken for a directory, a string longer than its buffer.
Modes, owners, times and contents are left out: whether the permissions allow a
call is given to it, as is whether each of its calls of `kmalloc` succeeds.
Nothing is mounted by path; `mountpoint` is what `vfs_init` mounts with.
-/

namespace AtmKoala.Vfs

/-! ### State -/

/-- The characters of a string. -/
abbrev Name := List Char

abbrev Ino := Nat

/-- `inode->priv`, by the kind in `inode->mode`; a `file` is whatever is neither a
directory nor a link. -/
inductive Priv where
  | dir (children : List (Name × Ino)) (count : Nat)
  | file
  | link (target : Name)
deriving DecidableEq

/-- `vfs_inode_t`. -/
structure VfsInode where
  priv : Priv
  nlink : Int
  mountpoint : Option Ino
  refcount : Int
deriving DecidableEq

/-- `S_ISDIR`. -/
def VfsInode.isDir (x : VfsInode) : Bool :=
  match x.priv with
  | .dir _ _ => true
  | _ => false

/-- The inodes, `next_ino`, `g_root` and the inodes in `g_fds`. -/
structure World where
  inodes : Ino → Option VfsInode
  nextIno : Ino
  root : Ino
  fds : Fin 64 → Option Ino

namespace World

def setInode (w : World) (i : Ino) (x : Option VfsInode) : World :=
  { w with inodes := Function.update w.inodes i x }

def mapInode (w : World) (i : Ino) (f : VfsInode → VfsInode) : World :=
  w.setInode i ((w.inodes i).map f)

/-- `ramfs_dir_t` of a directory. -/
def dirOf (w : World) (d : Ino) : Option (List (Name × Ino) × Nat) :=
  match w.inodes d with
  | some ⟨.dir children count, _, _, _⟩ => some (children, count)
  | _ => none

def setDir (w : World) (d : Ino) (children : List (Name × Ino)) (count : Nat) : World :=
  w.mapInode d fun x => { x with priv := .dir children count }

end World

@[simp] def enoent : Int := 2
@[simp] def eexist : Int := 17
@[simp] def enotdir : Int := 20
@[simp] def eisdir : Int := 21
@[simp] def enotempty : Int := 39

/-- `VFS_PATH_MAX` and `VFS_NAME_MAX`. -/
def vfsPathMax : Nat := 1024
def vfsNameMax : Nat := 255

/-! ### Inodes -/

def inodeAlloc (w : World) (priv : Priv) : World × Ino :=
  ({ w.setInode w.nextIno (some ⟨priv, 1, none, 1⟩) with nextIno := w.nextIno + 1 }, w.nextIno)

def inodeRef (w : World) (i : Ino) : Option World :=
  (w.inodes i).map fun x => w.setInode i (some { x with refcount := x.refcount + 1 })

def inodeUnref (w : World) (i : Ino) : Option World :=
  (w.inodes i).map fun x =>
    if x.refcount - 1 ≤ 0 then w.setInode i none
    else w.setInode i (some { x with refcount := x.refcount - 1 })

def addLink (w : World) (i : Ino) (n : Int) : World :=
  w.mapInode i fun x => { x with nlink := x.nlink + n }

/-! ### Entries -/

def dentryFind (children : List (Name × Ino)) (name : Name) : Option Ino :=
  (children.find? fun e => e.1 = name).map Prod.snd

def dentryAdd (w : World) (d : Ino) (name : Name) (inode : Ino) (alloc : Bool) :
    Option (World × Int) := do
  let (children, count) ← w.dirOf d
  if (dentryFind children name).isSome then some (w, -eexist)
  else if !alloc then some (w, -enospc)
  else
    let w ← inodeRef w inode
    some (w.setDir d ((name, inode) :: children) (count + 1), 0)

def dentryRemove (w : World) (d : Ino) (name : Name) : Option (World × Int) := do
  let (children, count) ← w.dirOf d
  match dentryFind children name with
  | none => some (w, -enoent)
  | some inode =>
    let w ← inodeUnref (w.setDir d (children.eraseP fun e => e.1 = name) count) inode
    let (children, count) ← w.dirOf d
    some (w.setDir d children (count - 1), 0)

/-! ### ramfs -/

def dot : Name := ['.']
def dotdot : Name := ['.', '.']

def ramfsLookup (w : World) (dir : Ino) (name : Name) : Option (World × Option Ino) := do
  let (children, _) ← w.dirOf dir
  let found := if name = dot ∨ name = dotdot then some dir else dentryFind children name
  match found with
  | none => some (w, none)
  | some out => some (← inodeRef w out, some out)

/-- `ramfs_create_impl`: the result and the inode handed out with a reference. -/
def ramfsCreateImpl (w : World) (dir : Ino) (name : Name) (alloc : Fin 3 → Bool) :
    Option (World × Int × Option Ino) := do
  let (children, _) ← w.dirOf dir
  if (dentryFind children name).isSome then some (w, -eexist, none)
  else if !(alloc 0 && alloc 1) then some (w, -enospc, none)
  else
    let (w, ni) := inodeAlloc w .file
    let (w, r) ← dentryAdd w dir name ni (alloc 2)
    if r < 0 then some (← inodeUnref w ni, r, none)
    else
      let w ← inodeRef w ni
      some (← inodeUnref w ni, 0, some ni)

/-- `ramfs_mkdir_impl`; `out` says whether the inode is handed out. -/
def ramfsMkdirImpl (w : World) (dir : Ino) (name : Name) (alloc : Fin 5 → Bool) (out : Bool) :
    Option (World × Int × Option Ino) := do
  let (children, _) ← w.dirOf dir
  if (dentryFind children name).isSome then some (w, -eexist, none)
  else if !(alloc 0 && alloc 1) then some (w, -enospc, none)
  else
    let (w, ni) := inodeAlloc w (.dir [] 0)
    let w := addLink w ni 1
    let (w, _) ← dentryAdd w ni dot ni (alloc 2)
    let (w, _) ← dentryAdd w ni dotdot dir (alloc 3)
    let (w, r) ← dentryAdd w dir name ni (alloc 4)
    if r < 0 then some (← inodeUnref w ni, r, none)
    else
      let w := addLink w dir 1
      let w ← if out then inodeRef w ni else some w
      some (← inodeUnref w ni, 0, if out then some ni else none)

def ramfsUnlinkImpl (w : World) (dir : Ino) (name : Name) : Option (World × Int) := do
  let (children, _) ← w.dirOf dir
  match dentryFind children name with
  | none => some (w, -enoent)
  | some inode =>
    let x ← w.inodes inode
    if x.isDir then some (w, -eisdir)
    else dentryRemove (addLink w inode (-1)) dir name

def ramfsRmdirImpl (w : World) (dir : Ino) (name : Name) : Option (World × Int) := do
  let (children, _) ← w.dirOf dir
  match dentryFind children name with
  | none => some (w, -enoent)
  | some inode =>
    let x ← w.inodes inode
    match x.priv with
    | .dir _ count =>
      if count > 2 then some (w, -enotempty)
      else dentryRemove (addLink (addLink w inode (-1)) dir (-1)) dir name
    | _ => some (w, -enotdir)

def ramfsLinkImpl (w : World) (dir : Ino) (name : Name) (target : Ino) (alloc : Bool) :
    Option (World × Int) := do
  let x ← w.inodes target
  if x.isDir then some (w, -eisdir)
  else
    let (w, r) ← dentryAdd w dir name target alloc
    if r = 0 then some (addLink w target 1, r) else some (w, r)

def ramfsSymlinkImpl (w : World) (dir : Ino) (name target : Name) (alloc : Fin 3 → Bool) :
    Option (World × Int) := do
  let (children, _) ← w.dirOf dir
  if (dentryFind children name).isSome then some (w, -eexist)
  else if !alloc 0 then some (w, -enospc)
  else if vfsPathMax ≤ target.length then none
  else if !alloc 1 then some (w, -enospc)
  else
    let (w, ni) := inodeAlloc w (.link target)
    let (w, r) ← dentryAdd w dir name ni (alloc 2)
    some (← inodeUnref w ni, r)

/-- `ramfs_rename_impl`. The new entry gets its memory: that of the old one has just
been freed. -/
def ramfsRenameImpl (w : World) (oldDir : Ino) (oldName : Name) (newDir : Ino) (newName : Name) :
    Option (World × Int) := do
  let (children, _) ← w.dirOf oldDir
  match dentryFind children oldName with
  | none => some (w, -enoent)
  | some target =>
    let w ← inodeRef w target
    let (w, _) ← dentryRemove w oldDir oldName
    let (children, _) ← w.dirOf newDir
    let (w, _) ← if (dentryFind children newName).isSome then dentryRemove w newDir newName
      else some (w, 0)
    let (w, r) ← dentryAdd w newDir newName target true
    some (← inodeUnref w target, r)

/-- `ramfs_create_root`. -/
def ramfsCreateRoot (w : World) : Option (World × Ino) := do
  let (w, root) := inodeAlloc w (.dir [] 0)
  let w := addLink w root 1
  let (w, _) ← dentryAdd w root dot root true
  let (w, _) ← dentryAdd w root dotdot root true
  some (w, root)

/-! ### Paths -/

/-- The next component of `rel`, and what is behind it. -/
def nextComp (rel : Name) : Name × Name :=
  let comp := (rel.takeWhile (· ≠ '/')).take vfsNameMax
  (comp,
    match rel.drop comp.length with
    | '/' :: rest => rest
    | rest => rest)

/-- What `nextComp` leaves of a path behind the component: a slash is dropped. -/
def behindSlash : Name → Name
  | '/' :: rest => rest
  | rest => rest

theorem nextComp_rest (rel : Name) :
    (nextComp rel).2 = behindSlash (rel.drop (nextComp rel).1.length) := rfl

/-- How a pass over a path ends: with an inode or none, or at a link with the target
and what is behind it. -/
inductive Turn where
  | stop (found : Option Ino)
  | follow (target rest : Name)

/-- The loop over the components; `fuel` is at least the length of `rel`. -/
def walk (w : World) (cur : Ino) (nofollow : Bool) : Nat → Name → Option (World × Turn)
  | 0, _ => some (w, .stop (some cur))
  | _, [] => some (w, .stop (some cur))
  | fuel + 1, rel => do
    let (comp, rest) := nextComp rel
    if comp = [] ∨ comp = dot then walk w cur nofollow fuel rest
    else
      let x ← w.inodes cur
      if !x.isDir then some (w, .stop none)
      else
        match ← ramfsLookup w cur comp with
        | (w, none) => some (w, .stop none)
        | (w, some next) =>
          let y ← w.inodes next
          match y.priv, decide (rest = []) && nofollow with
          | .link target, false => some (← inodeUnref w next, .follow target rest)
          | _, _ =>
            match y.mountpoint with
            | some mounted => walk (← inodeUnref w next) mounted nofollow fuel rest
            | none => walk w next nofollow fuel rest

/-- The path up to and with its last `/`. -/
def upToSlash (path : Name) : Name := (path.reverse.dropWhile (· ≠ '/')).reverse

/-- The path to go on with at a link to `target`. -/
def followed (buf target rest : Name) : Name :=
  (if target.head? = some '/' then target else upToSlash buf ++ target) ++
    if rest = [] then [] else '/' :: rest

/-- The passes over a path, at most `hops` of them. -/
def resolveHops (w : World) (nofollow : Bool) : Nat → Name → Option (World × Option Ino)
  | 0, _ => some (w, none)
  | hops + 1, buf => do
    match ← walk w w.root nofollow buf.length (buf.drop 1) with
    | (w, .stop found) => some (w, found)
    | (w, .follow target rest) =>
      if vfsPathMax ≤ (followed buf target rest).length then none
      else resolveHops w nofollow hops (followed buf target rest)

/-- `resolve_path`, with `VFS_SYMLINK_MAX` 8. -/
def resolvePath (w : World) (path : Name) (nofollow : Bool) : Option (World × Option Ino) :=
  if path.head? ≠ some '/' then some (w, none)
  else if path = ['/'] then some (w, some w.root)
  else if vfsPathMax ≤ path.length then none
  else resolveHops w nofollow 9 path

/-- The position of the last `/`, or 0. -/
def lastSlash (path : Name) : Nat :=
  path.zipIdx.foldl (fun last e => if e.1 = '/' then e.2 else last) 0

/-- `path_split`. -/
def pathSplit (path : Name) : Option (Name × Name) :=
  let last := lastSlash path
  let dir := if last = 0 then ['/'] else path.take last
  let base := path.drop (last + 1)
  if path = [] ∨ vfsPathMax ≤ dir.length ∨ vfsNameMax < base.length then none else some (dir, base)

/-! ### Descriptors -/

theorem toNat_lt_fds {fd : Int} (h : 0 ≤ fd ∧ fd < 64) : fd.toNat < 64 := by omega

def fdIndex (fd : Int) : Option (Fin 64) :=
  if h : 0 ≤ fd ∧ fd < 64 then some ⟨fd.toNat, toNat_lt_fds h⟩ else none

def fdAlloc (w : World) : Option (Fin 64) :=
  (List.finRange 64).find? fun k => 3 ≤ k.val ∧ w.fds k = none

def setFd (w : World) (k : Fin 64) (i : Option Ino) : World :=
  { w with fds := Function.update w.fds k i }

/-- The bits of the flags of `vfs_open` that matter: `O_CREAT`, `O_EXCL`, `O_NOFOLLOW`
and whether one of `O_WRONLY` and `O_RDWR` is set. -/
structure OpenFlags where
  creat : Bool
  excl : Bool
  nofollow : Bool
  write : Bool
deriving DecidableEq

/-- The end of `vfs_open`: the descriptor is put in the table. -/
def openFd (w : World) (inode : Ino) : Option (World × Int) := do
  match fdAlloc w with
  | none => some (← inodeUnref w inode, -1)
  | some fd => some (setFd w fd (some inode), fd.val)

def vfsOpen (w : World) (path : Name) (flags : OpenFlags) (allowed : Bool) (alloc : Fin 3 → Bool) :
    Option (World × Int) := do
  match ← resolvePath w path flags.nofollow with
  | (w, none) =>
    if !flags.creat then some (w, -1)
    else
      let (dir, base) ← pathSplit path
      match ← resolvePath w dir false with
      | (w, none) => some (w, -1)
      | (w, some parent) =>
        let x ← w.inodes parent
        if !(x.isDir && allowed) then some (← inodeUnref w parent, -1)
        else
          let (w, _, inode) ← ramfsCreateImpl w parent base alloc
          let w ← inodeUnref w parent
          match inode with
          | none => some (w, -1)
          | some inode => openFd w inode
  | (w, some inode) =>
    let x ← w.inodes inode
    if (flags.creat && flags.excl) || (x.isDir && flags.write) || !allowed then
      some (← inodeUnref w inode, -1)
    else openFd w inode

def vfsClose (w : World) (fd : Int) : Option World :=
  match (fdIndex fd).bind fun k => (w.fds k).map (k, ·) with
  | none => some w
  | some (k, i) => (inodeUnref w i).map fun w => setFd w k none

def vfsDup (w : World) (fd : Int) : Option (World × Int) := do
  match (fdIndex fd).bind w.fds with
  | none => some (w, -1)
  | some i =>
    match fdAlloc w with
    | none => some (w, -1)
    | some newfd => some (← inodeRef (setFd w newfd (some i)) i, newfd.val)

def vfsDup2 (w : World) (fd newfd : Int) : Option (World × Int) := do
  match (fdIndex fd).bind w.fds, fdIndex newfd with
  | some i, some k =>
    if newfd = fd then some (w, fd)
    else
      let w ← vfsClose w newfd
      some (← inodeRef (setFd w k (some i)) i, newfd)
  | _, _ => some (w, -1)

/-! ### Calls on paths -/

/-- A call that looks an inode up and gives it back; the result says whether there
is one. -/
def lookUp (w : World) (path : Name) (nofollow : Bool) : Option (World × Bool) := do
  match ← resolvePath w path nofollow with
  | (w, none) => some (w, false)
  | (w, some i) => some (← inodeUnref w i, true)

def vfsStat (w : World) (path : Name) : Option (World × Bool) := lookUp w path false
def vfsLstat (w : World) (path : Name) : Option (World × Bool) := lookUp w path true
def vfsChmod (w : World) (path : Name) : Option (World × Bool) := lookUp w path false
def vfsTruncate (w : World) (path : Name) : Option (World × Bool) := lookUp w path false
def vfsReadlink (w : World) (path : Name) : Option (World × Bool) := lookUp w path true
def vfsReaddirNext (w : World) (path : Name) : Option (World × Bool) := lookUp w path false
def vfsListdir (w : World) (path : Name) : Option (World × Bool) := lookUp w path false

/-- `vfs_opendir` keeps the reference if there is no memory for the stream. -/
def vfsOpendir (w : World) (path : Name) (allowed alloc : Bool) : Option (World × Bool) := do
  match ← resolvePath w path false with
  | (w, none) => some (w, false)
  | (w, some i) =>
    let x ← w.inodes i
    if x.isDir && allowed && !alloc then some (w, false)
    else some (← inodeUnref w i, x.isDir && allowed)

/-- `vfs_readdir` keeps the reference of what is not a directory. -/
def vfsReaddir (w : World) (path : Name) : Option (World × Bool) := do
  match ← resolvePath w path false with
  | (w, none) => some (w, false)
  | (w, some i) =>
    let x ← w.inodes i
    if !x.isDir then some (w, false) else some (← inodeUnref w i, true)

/-- A call on the parent of a path: `op` is performed on the directory. -/
def onParent (w : World) (path : Name) (allowed : Bool)
    (op : World → Ino → Name → Option (World × Int)) : Option (World × Int) := do
  let (dir, base) ← pathSplit path
  match ← resolvePath w dir false with
  | (w, none) => some (w, -1)
  | (w, some parent) =>
    let x ← w.inodes parent
    if !allowed then some (← inodeUnref w parent, -1)
    else if !x.isDir then some (← inodeUnref w parent, -einval)
    else
      let (w, r) ← op w parent base
      some (← inodeUnref w parent, r)

def vfsMkdir (w : World) (path : Name) (allowed : Bool) (alloc : Fin 5 → Bool) :
    Option (World × Int) := do
  let (dir, base) ← pathSplit path
  match ← resolvePath w dir false with
  | (w, none) => some (w, -1)
  | (w, some parent) =>
    let x ← w.inodes parent
    if !(x.isDir && allowed) then some (← inodeUnref w parent, -1)
    else
      let (w, r, _) ← ramfsMkdirImpl w parent base alloc false
      some (← inodeUnref w parent, r)

def vfsRmdir (w : World) (path : Name) (allowed : Bool) : Option (World × Int) :=
  onParent w path allowed ramfsRmdirImpl

def vfsUnlink (w : World) (path : Name) (allowed : Bool) : Option (World × Int) :=
  onParent w path allowed ramfsUnlinkImpl

def vfsSymlink (w : World) (target linkpath : Name) (allowed : Bool) (alloc : Fin 3 → Bool) :
    Option (World × Int) :=
  onParent w linkpath allowed fun w dir name => ramfsSymlinkImpl w dir name target alloc

def vfsLink (w : World) (oldpath newpath : Name) (allowed alloc : Bool) : Option (World × Int) := do
  match ← resolvePath w oldpath false with
  | (w, none) => some (w, -1)
  | (w, some target) =>
    let (nd, nb) ← pathSplit newpath
    match ← resolvePath w nd false with
    | (w, none) => some (← inodeUnref w target, -1)
    | (w, some newDir) =>
      let x ← w.inodes newDir
      if !allowed then some (← inodeUnref (← inodeUnref w target) newDir, -1)
      else if !x.isDir then some (← inodeUnref (← inodeUnref w target) newDir, -einval)
      else
        let (w, r) ← ramfsLinkImpl w newDir nb target alloc
        some (← inodeUnref (← inodeUnref w target) newDir, r)

def vfsRename (w : World) (oldpath newpath : Name) (allowed : Bool) : Option (World × Int) := do
  let (od, ob) ← pathSplit oldpath
  let (nd, nb) ← pathSplit newpath
  let (w, oldDir) ← resolvePath w od false
  let (w, newDir) ← resolvePath w nd false
  match oldDir, newDir with
  | none, none => some (w, -1)
  | some oldDir, none => some (← inodeUnref w oldDir, -1)
  | none, some newDir => some (← inodeUnref w newDir, -1)
  | some oldDir, some newDir =>
    let x ← w.inodes oldDir
    if !allowed then some (← inodeUnref (← inodeUnref w oldDir) newDir, -1)
    else if !x.isDir then some (← inodeUnref (← inodeUnref w oldDir) newDir, -einval)
    else
      let (w, r) ← ramfsRenameImpl w oldDir ob newDir nb
      some (← inodeUnref (← inodeUnref w oldDir) newDir, r)

end AtmKoala.Vfs
