import AtmKoala.Vfs.Search

/-!
Calls on two inodes, over all drivers.

`vfs_rename` calls the driver of the old directory, and `vfs_link` that of the new one,
with whatever the other path has led to; each driver takes `inode->priv` for its own. The
inodes of ramfs, and of the devices and the files of procfs that its directories hold,
are those of `Kernel`; `foreign` are the static wrappers of CatFS and Ext2, of which a path
needs what their `lookup` and `readlink` answer. Ext2 has neither callback and CatFS has no
`link`; what CatFS makes of a rename is an argument.

`pair_iff` says when a call passes a driver its own inodes only and keeps within one
filesystem.
-/

namespace AtmKoala.Vfs

open Option (bind_eq_some_iff map_eq_some_iff)

/-- The filesystems with wrappers of their own. -/
inductive Wrapper where
  | catfs | ext2
deriving DecidableEq

/-- Whose table an inode has. -/
inductive Driver where
  | ramfs
  | device
  | wrapper (w : Wrapper)
deriving DecidableEq

/-- A wrapper of CatFS or Ext2. -/
structure ForeignInode where
  driver : Wrapper
  type : FileType
  perms : Nat
  uid : Nat
  gid : Nat
  entries : Name → Option Ino
  target : Name

/-- The kernel with the wrappers of the mounted filesystems. -/
structure System where
  ram : Kernel
  foreign : Ino → Option ForeignInode

/-- The calls with two paths. -/
inductive PairCall where
  | rename (oldpath newpath : Name)
  | link (oldpath newpath : Name) (alloc : Bool)

/-- A callback with its arguments. -/
inductive Callback where
  | rename (driver : Driver) (oldDir : Ino) (oldName : Name) (newDir : Ino) (newName : Name)
  | link (driver : Driver) (dir : Ino) (name : Name) (target : Ino) (alloc : Bool)
deriving DecidableEq

def Callback.driver : Callback → Driver
  | rename driver _ _ _ _ | link driver _ _ _ _ => driver

def Callback.inodes : Callback → List Ino
  | rename _ oldDir _ newDir _ => [oldDir, newDir]
  | link _ dir _ target _ => [dir, target]

/-- Where a path leads: an inode, and the root of the filesystem it was found in. -/
structure Place where
  top : Ino
  inode : Ino

namespace System

def driver (s : System) (i : Ino) : Driver :=
  match s.foreign i with
  | some f => .wrapper f.driver
  | none =>
    match (s.ram.inodes i).map Vnode.content with
    | some (.device _ _ _) => .device
    | _ => .ramfs

def type (s : System) (i : Ino) : Option FileType :=
  match s.foreign i with
  | some f => some f.type
  | none => (s.ram.inodes i).map Vnode.type

def tree (s : System) : Tree where
  root := s.ram.root
  mounts := s.ram.mounts
  lookup i :=
    match s.foreign i with
    | some f => some (if f.type = .dir then f.entries else fun _ => none)
    | none => s.ram.lookup i
  target i :=
    match s.foreign i with
    | some f => if f.type = .lnk then some f.target else none
    | none => s.ram.target i
  mountpoint i :=
    match s.foreign i with
    | some _ => none
    | none => (s.ram.inodes i).bind Vnode.mountpoint

/-- `vfs_access`, of an inode that is there. -/
def vfsAccess (s : System) (i : Ino) (wanted : Nat) : Option Bool :=
  match s.foreign i with
  | some f =>
    some (s.ram.vfsAccess ⟨.device f.type true true, f.perms, f.uid, f.gid, 1, none⟩ wanted)
  | none => (s.ram.inodes i).map fun x => s.ram.vfsAccess x wanted

/-- A directory of ramfs. -/
def ramDir (s : System) (i : Ino) : Option (List (Name × Ino)) :=
  match s.foreign i with
  | some _ => none
  | none => (s.ram.dirOf i).map Prod.fst

/-- The inode's table has `rename`. -/
def hasRename (s : System) (i : Ino) : Bool :=
  match s.foreign i with
  | some f => f.driver = .catfs
  | none => (s.ram.dirOf i).isSome

/-- The inode's table has `link`. -/
def hasLink (s : System) (i : Ino) : Bool := (s.ramDir i).isSome

/-- `resolve_path`, which takes a reference to the inode. -/
def resolvePath (s : System) (path : Name) : Option (Option Ino) :=
  match (s.tree.resolve path false).outcome.result with
  | some (some i) => (s.type i).map fun _ => some i
  | answer => answer

/-- The callback of a call, if it gets that far. -/
def callback (s : System) : PairCall → Option (Option Callback)
  | .rename oldpath newpath => do
    let (od, ob) ← pathSplit oldpath
    let (nd, nb) ← pathSplit newpath
    match ← s.resolvePath od, ← s.resolvePath nd with
    | some oldDir, some newDir =>
      let old ← s.vfsAccess oldDir (permW + permX)
      let new ← s.vfsAccess newDir (permW + permX)
      if !old || !new || !s.hasRename oldDir then some none
      else some (some (.rename (s.driver oldDir) oldDir ob newDir nb))
    | _, _ => some none
  | .link oldpath newpath alloc => do
    match ← s.resolvePath oldpath with
    | none => some none
    | some target =>
      let (nd, nb) ← pathSplit newpath
      match ← s.resolvePath nd with
      | none => some none
      | some newDir =>
        let new ← s.vfsAccess newDir (permW + permX)
        if !new || !s.hasLink newDir then some none
        else some (some (.link (s.driver newDir) newDir nb target alloc))

/-- `ramfs_rename_impl`; a new directory that is not one of ramfs is looked into once the
old name has been found. -/
def ramfsRename (s : System) (oldDir : Ino) (oldName : Name) (newDir : Ino) (newName : Name) :
    Option (System × Int) := do
  let children ← s.ramDir oldDir
  match dentryFind children oldName with
  | none => some (s, -enoent)
  | some _ =>
    let _ ← s.ramDir newDir
    let (ram, r) ← s.ram.ramfsRenameImpl oldDir oldName newDir newName
    some ({ s with ram }, r)

/-- `ramfs_link_impl`. -/
def ramfsLink (s : System) (dir : Ino) (name : Name) (target : Ino) (alloc : Bool) :
    Option (System × Int) := do
  let type ← s.type target
  if type = .dir then some (s, -eisdir)
  else
    let (ram, r) ← s.ram.dentryAdd dir name target alloc
    some ({ s with ram := if r = 0 then ram.addLink target 1 else ram }, r)

/-- A callback at work; `catfsRename` is `catfs_vfs_rename`. -/
def invoke (catfsRename : System → Ino → Name → Ino → Name → Option (System × Int)) (s : System) :
    Callback → Option (System × Int)
  | .rename .ramfs oldDir oldName newDir newName => s.ramfsRename oldDir oldName newDir newName
  | .rename (.wrapper .catfs) oldDir oldName newDir newName =>
    catfsRename s oldDir oldName newDir newName
  | .link .ramfs dir name target alloc => s.ramfsLink dir name target alloc
  | .rename _ _ _ _ _ | .link _ _ _ _ _ => none

/-- `vfs_rename` and `vfs_link`. -/
def perform (catfsRename : System → Ino → Name → Ino → Name → Option (System × Int)) (s : System)
    (call : PairCall) : Option (System × Int) := do
  match ← s.callback call with
  | none => some (s, -1)
  | some callback => s.invoke catfsRename callback

/-! ### What a call should do -/

/-- Where a path leads, if to an inode that is there. -/
def place (s : System) (path : Name) : Option Place :=
  match s.tree.resolve path false with
  | ⟨.found i, _, top⟩ => if (s.type i).isSome then some ⟨top, i⟩ else none
  | _ => none

/-- The filesystem of a place. CatFS and Ext2 have one mount each; the instances of ramfs
are told apart by their roots. -/
def filesystem (s : System) (p : Place) : Wrapper ⊕ Ino :=
  match s.foreign p.inode with
  | some f => .inl f.driver
  | none => .inr p.top

/-- The two places of a call, the one whose driver is called first. -/
def places (s : System) : PairCall → Option (Place × Place)
  | .rename oldpath newpath => do
    let (od, _) ← pathSplit oldpath
    let (nd, _) ← pathSplit newpath
    some (← s.place od, ← s.place nd)
  | .link oldpath newpath _ => do
    let (nd, _) ← pathSplit newpath
    some (← s.place nd, ← s.place oldpath)

/-- The driver that is called gets its own inodes only. -/
def Typed (s : System) (call : PairCall) : Prop :=
  ∀ c, s.callback call = some (some c) → ∀ i ∈ c.inodes, s.driver i = c.driver

/-- A call across two filesystems fails and changes nothing. -/
def Confined (catfsRename : System → Ino → Name → Ino → Name → Option (System × Int)) (s : System)
    (call : PairCall) : Prop :=
  ∀ p q, s.places call = some (p, q) → s.filesystem p ≠ s.filesystem q →
    ∃ r < 0, s.perform catfsRename call = some (s, r)

/-- The session may change the directory. -/
def Grants (s : System) (p : Place) : Prop := s.vfsAccess p.inode (permW + permX) = some true

instance (s : System) (p : Place) : Decidable (s.Grants p) := inferInstanceAs (Decidable (_ = _))

/-- Why ramfs refuses a rename. -/
def RenameRefused (s : System) (dir : Ino) (name : Name) : Prop :=
  ∃ children, s.ramDir dir = some children ∧ dentryFind children name = none

/-- Why ramfs refuses a link. -/
def LinkRefused (s : System) (dir : Ino) (name : Name) (target : Ino) (alloc : Bool) : Prop :=
  s.type target = some .dir ∨ alloc = false ∨
    ∃ children, s.ramDir dir = some children ∧ (dentryFind children name).isSome = true

/-- A call that is let through stays with one driver, and across two instances of ramfs the
driver finds a reason of its own to refuse. -/
def Fine (s : System) (call : PairCall) : Prop :=
  ∀ p q, s.places call = some (p, q) → s.Grants p →
    match call with
    | .rename oldpath _ => s.Grants q → s.hasRename p.inode = true →
        s.driver q.inode = s.driver p.inode ∧
        (s.filesystem p ≠ s.filesystem q →
          ∀ d name, pathSplit oldpath = some (d, name) → s.RenameRefused p.inode name)
    | .link _ newpath alloc => s.hasLink p.inode = true →
        s.driver q.inode = s.driver p.inode ∧
        (s.filesystem p ≠ s.filesystem q →
          ∀ d name, pathSplit newpath = some (d, name) → s.LinkRefused p.inode name q.inode alloc)

variable {s s' : System} {path : Name} {p q : Place} {i : Ino} {wanted : Nat} {b : Bool}
  {catfsRename : System → Ino → Name → Ino → Name → Option (System × Int)}

/-! ### Places -/

theorem vfsAccess_of_type {t : FileType} (there : s.type i = some t) (wanted : Nat) :
    ∃ b, s.vfsAccess i wanted = some b := by
  unfold type at there
  unfold vfsAccess
  cases foreign : s.foreign i with
  | some f => exact ⟨_, rfl⟩
  | none =>
    rw [foreign] at there
    obtain ⟨x, here, -⟩ := map_eq_some_iff.mp there
    dsimp only
    rw [here]
    exact ⟨_, rfl⟩

theorem place_found (found : s.place path = some p) :
    s.resolvePath path = some (some p.inode) ∧
      (∃ t, s.type p.inode = some t) ∧ ∃ b, s.vfsAccess p.inode (permW + permX) = some b := by
  unfold place at found
  split at found
  · rename_i i searched top resolved
    split at found
    · rename_i there
      cases found
      obtain ⟨t, there⟩ := Option.isSome_iff_exists.mp there
      refine ⟨?_, ⟨t, there⟩, vfsAccess_of_type there _⟩
      rw [resolvePath, resolved]
      show (s.type i).map _ = _
      rw [there]
      rfl
    · cases found
  · cases found

theorem place_of (resolved : s.resolvePath path = some (some i)) :
    ∃ p, s.place path = some p ∧ p.inode = i := by
  unfold resolvePath at resolved
  unfold place
  revert resolved
  rcases s.tree.resolve path false with ⟨outcome, searched, top⟩
  intro resolved
  cases outcome with
  | found j =>
    obtain ⟨t, there, same⟩ := map_eq_some_iff.mp resolved
    cases same
    exact ⟨⟨top, i⟩, if_pos (by rw [there]; rfl), rfl⟩
  | absent => cases resolved
  | loop => cases resolved
  | overrun => cases resolved

theorem driver_of_ramDir {children : List (Name × Ino)} (isDir : s.ramDir i = some children) :
    s.foreign i = none ∧ s.driver i = .ramfs ∧ ∃ count, s.ram.dirOf i = some (children, count) := by
  unfold ramDir at isDir
  cases foreign : s.foreign i with
  | some f =>
    rw [foreign] at isDir
    cases isDir
  | none =>
    rw [foreign] at isDir
    obtain ⟨⟨_, count⟩, at_, rfl⟩ := map_eq_some_iff.mp isDir
    refine ⟨rfl, ?_, count, at_⟩
    rw [driver, foreign]
    unfold Kernel.dirOf at at_
    split at at_
    · rename_i content
      rw [content]
    · cases at_

/-- Who has a `rename`: the directories of ramfs, and CatFS. -/
theorem hasRename_iff (has : s.hasRename i = true) :
    (∃ children, s.ramDir i = some children) ∨ s.driver i = .wrapper .catfs := by
  unfold hasRename at has
  unfold ramDir driver
  cases foreign : s.foreign i with
  | some f =>
    rw [foreign] at has
    exact .inr (congrArg Driver.wrapper (of_decide_eq_true has))
  | none =>
    rw [foreign] at has
    dsimp only at has
    obtain ⟨c, at_⟩ := Option.isSome_iff_exists.mp has
    exact .inl ⟨c.1, by rw [at_]; rfl⟩

theorem foreign_of_driver {w : Wrapper} (at_ : s.driver i = .wrapper w) :
    ∃ f, s.foreign i = some f ∧ f.driver = w := by
  unfold driver at at_
  cases foreign : s.foreign i with
  | some f =>
    rw [foreign] at at_
    exact ⟨f, rfl, Driver.wrapper.inj at_⟩
  | none =>
    rw [foreign] at at_
    dsimp only at at_
    split at at_ <;> cases at_

/-- CatFS has one mount. -/
theorem filesystem_eq_of_wrapper {w : Wrapper} (at_ : s.driver p.inode = .wrapper w)
    (at_' : s.driver q.inode = .wrapper w) : s.filesystem p = s.filesystem q := by
  obtain ⟨f, foreign, rfl⟩ := foreign_of_driver at_
  obtain ⟨g, foreign', same⟩ := foreign_of_driver at_'
  rw [filesystem, filesystem, foreign, foreign']
  exact congrArg Sum.inl same.symm

/-! ### Callbacks -/

variable {oldpath newpath od ob nd nb : Name} {alloc : Bool} {children : List (Name × Ino)}

theorem callback_rename (split_ : pathSplit oldpath = some (od, ob))
    (split_' : pathSplit newpath = some (nd, nb)) (old : s.place od = some p)
    (new : s.place nd = some q) :
    s.callback (.rename oldpath newpath) =
      some (if s.Grants p ∧ s.Grants q ∧ s.hasRename p.inode = true then
        some (.rename (s.driver p.inode) p.inode ob q.inode nb) else none) := by
  obtain ⟨resolved, -, b, access⟩ := place_found old
  obtain ⟨resolved', -, b', access'⟩ := place_found new
  simp only [callback, Grants, split_, split_', Option.bind_eq_bind, Option.bind_some, resolved,
    resolved', access, access']
  cases b <;> cases b' <;> cases s.hasRename p.inode <;> simp

theorem callback_link (alloc : Bool) (split_ : pathSplit newpath = some (nd, nb)) (new : s.place nd = some p)
    (old : s.place oldpath = some q) :
    s.callback (.link oldpath newpath alloc) =
      some (if s.Grants p ∧ s.hasLink p.inode = true then
        some (.link (s.driver p.inode) p.inode nb q.inode alloc) else none) := by
  obtain ⟨resolved, -, b, access⟩ := place_found new
  obtain ⟨resolved', -, b', access'⟩ := place_found old
  simp only [callback, Grants, split_, Option.bind_eq_bind, Option.bind_some, resolved,
    resolved', access]
  cases b <;> cases s.hasLink p.inode <;> simp

/-- A callback is reached from two places. -/
theorem places_of_callback {call : PairCall} {c : Callback}
    (reached : s.callback call = some (some c)) : ∃ p q, s.places call = some (p, q) := by
  cases call with
  | rename oldpath newpath =>
    obtain ⟨⟨od, ob⟩, split_, reached⟩ := bind_eq_some_iff.mp reached
    obtain ⟨⟨nd, nb⟩, split_', reached⟩ := bind_eq_some_iff.mp reached
    obtain ⟨old, resolved, reached⟩ := bind_eq_some_iff.mp reached
    obtain ⟨new, resolved', reached⟩ := bind_eq_some_iff.mp reached
    cases old with
    | none => cases reached
    | some oldDir =>
      cases new with
      | none => cases reached
      | some newDir =>
        obtain ⟨p, old, -⟩ := place_of resolved
        obtain ⟨q, new, -⟩ := place_of resolved'
        refine ⟨p, q, ?_⟩
        simp only [places, split_, split_', old, new, Option.bind_eq_bind, Option.bind_some]
  | link oldpath newpath alloc =>
    obtain ⟨target, resolved, reached⟩ := bind_eq_some_iff.mp reached
    cases target with
    | none => cases reached
    | some target =>
      obtain ⟨⟨nd, nb⟩, split_, reached⟩ := bind_eq_some_iff.mp reached
      obtain ⟨newDir, resolved', reached⟩ := bind_eq_some_iff.mp reached
      cases newDir with
      | none => cases reached
      | some newDir =>
        obtain ⟨q, old, -⟩ := place_of resolved
        obtain ⟨p, new, -⟩ := place_of resolved'
        refine ⟨p, q, ?_⟩
        simp only [places, split_, old, new, Option.bind_eq_bind, Option.bind_some]

/-! ### ramfs at work -/

section Ramfs

variable {k k' : Kernel} {d e : Ino} {name oldName newName : Name} {r : Int}
  {children : List (Name × Ino)} {count : Nat}

theorem dirOf_setContent_ne (other : d ≠ e) (c : Content) :
    (k.setContent e c).dirOf d = k.dirOf d := by
  unfold Kernel.dirOf Kernel.setContent
  dsimp only
  rw [Function.update_of_ne other]

theorem dirOf_setContent_self (at_ : k.dirOf d = some (children, count)) (c : List (Name × Ino))
    (n : Nat) : (k.setContent d (.dir c n)).dirOf d = some (c, n) := by
  unfold Kernel.dirOf at at_
  split at at_
  · rename_i content
    obtain ⟨x, here, -⟩ := map_eq_some_iff.mp content
    unfold Kernel.dirOf Kernel.setContent
    dsimp only
    rw [Function.update_self, here]
    rfl
  · cases at_

/-- No directory gets longer when an entry goes. -/
theorem dentryRemove_shrinks (done : k.dentryRemove e name = some (k', r))
    (at_ : k.dirOf d = some (children, count)) :
    ∃ children' count', k'.dirOf d = some (children', count') ∧ children'.length ≤ children.length ∧
      (d = e → (dentryFind children name).isSome = true → children'.length < children.length) := by
  obtain ⟨⟨entries, n⟩, here, done⟩ := bind_eq_some_iff.mp done
  dsimp only at done
  split at done
  · rename_i missing
    cases done
    refine ⟨children, count, at_, le_rfl, ?_⟩
    rintro rfl found
    cases here.symm.trans at_
    rw [Option.isSome_iff_ne_none] at found
    exact absurd (Option.isNone_iff_eq_none.mp missing) found
  · cases done
    by_cases same : d = e
    · subst same
      cases here.symm.trans at_
      refine ⟨_, _, dirOf_setContent_self at_ _ _, List.length_eraseP_le, ?_⟩
      rintro - found
      obtain ⟨i, found⟩ := Option.isSome_iff_exists.mp found
      rw [length_eraseP_found found]
      exact Nat.sub_lt (List.length_pos_of_mem (mem_of_dentryFind found)) Nat.one_pos
    · exact ⟨children, count, (dirOf_setContent_ne same _).trans at_, le_rfl,
        fun same' => absurd same' same⟩

theorem dentryAdd_result {alloc : Bool} {i : Ino}
    (done : k.dentryAdd d name i alloc = some (k', r)) :
    (r < 0 ∧ k' = k) ∨ (r = 0 ∧ alloc = true ∧
      ∀ children, (k.dirOf d).map Prod.fst = some children → dentryFind children name = none) := by
  obtain ⟨⟨children, count⟩, at_, done⟩ := bind_eq_some_iff.mp done
  dsimp only at done
  split at done
  · cases done
    exact .inl ⟨by decide, rfl⟩
  · rename_i free
    split at done
    · cases done
      exact .inl ⟨by decide, rfl⟩
    · rename_i memory
      cases done
      refine .inr ⟨rfl, by simpa using memory, ?_⟩
      intro c same
      rw [at_] at same
      cases same
      simpa using free

/-- **A rename that has found the old name.** It is carried out, or it has taken the name
away and fails. -/
theorem ramfsRenameImpl_changes (at_ : k.dirOf d = some (children, count))
    (found : (dentryFind children oldName).isSome = true)
    (done : k.ramfsRenameImpl d oldName e newName = some (k', r)) (failed : r < 0) : k' ≠ k := by
  obtain ⟨⟨entries, n⟩, here, done⟩ := bind_eq_some_iff.mp done
  cases here.symm.trans at_
  obtain ⟨t, there⟩ := Option.isSome_iff_exists.mp found
  dsimp only at done
  rw [there] at done
  obtain ⟨⟨k₁, r₁⟩, removed, done⟩ := bind_eq_some_iff.mp done
  obtain ⟨⟨k₂, r₂⟩, removed', done⟩ := bind_eq_some_iff.mp done
  obtain ⟨c₁, n₁, at₁, -, shorter⟩ := dentryRemove_shrinks removed at_
  obtain ⟨c₂, n₂, at₂, le, -⟩ := dentryRemove_shrinks removed' at₁
  have lt := shorter rfl found
  rcases dentryAdd_result done with ⟨-, rfl⟩ | ⟨rfl, -⟩
  · rintro rfl
    cases at₂.symm.trans at_
    omega
  · exact absurd failed (by decide)

end Ramfs

/-! ### Where a call goes wrong -/

theorem ramfsRename_refuses (isDir : s.ramDir i = some children) {e : Ino} {r : Int}
    (done : s.ramfsRename i ob e nb = some (s, r)) (failed : r < 0) :
    dentryFind children ob = none := by
  obtain ⟨c, isDir', done⟩ := bind_eq_some_iff.mp done
  cases isDir'.symm.trans isDir
  cases found : dentryFind children ob with
  | none => rfl
  | some t =>
    rw [found] at done
    obtain ⟨c', -, done⟩ := bind_eq_some_iff.mp done
    obtain ⟨⟨k, r'⟩, ran, done⟩ := bind_eq_some_iff.mp done
    obtain ⟨same, rfl⟩ := Prod.mk.inj (Option.some.inj done)
    obtain ⟨-, -, count, at_⟩ := driver_of_ramDir isDir
    exact absurd (congrArg ram same) (ramfsRenameImpl_changes at_ (by rw [found]; rfl) ran failed)

theorem ramfsLink_refuses (isDir : s.ramDir i = some children) {e : Ino} {r : Int}
    (done : s.ramfsLink i nb e alloc = some (s, r)) (failed : r < 0) :
    s.LinkRefused i nb e alloc := by
  obtain ⟨t, there, done⟩ := bind_eq_some_iff.mp done
  by_cases dir : t = .dir
  · exact .inl (dir ▸ there)
  rw [if_neg dir] at done
  obtain ⟨⟨k, r'⟩, ran, done⟩ := bind_eq_some_iff.mp done
  obtain ⟨-, rfl⟩ := Prod.mk.inj (Option.some.inj done)
  obtain ⟨-, -, count, at_⟩ := driver_of_ramDir isDir
  unfold Kernel.dentryAdd at ran
  rw [at_] at ran
  dsimp only [Option.bind_eq_bind, Option.bind_some] at ran
  split at ran
  · rename_i taken
    exact .inr (.inr ⟨children, isDir, taken⟩)
  · split at ran
    · rename_i full
      exact .inr (.inl (by simpa using full))
    · cases ran
      exact absurd failed (by decide)

theorem ramfsLink_refused {t : FileType} {e : Ino} (there : s.type e = some t)
    (isDir : s.ramDir i = some children) (refused : s.LinkRefused i nb e alloc) :
    ∃ r < 0, s.ramfsLink i nb e alloc = some (s, r) := by
  obtain ⟨-, -, count, at_⟩ := driver_of_ramDir isDir
  by_cases dir : t = .dir
  · refine ⟨-eisdir, by decide, ?_⟩
    simp only [ramfsLink, there, Option.bind_eq_bind, Option.bind_some, if_pos dir]
  by_cases taken : (dentryFind children nb).isSome = true
  · refine ⟨-eexist, by decide, ?_⟩
    simp only [ramfsLink, there, Option.bind_eq_bind, Option.bind_some, if_neg dir,
      Kernel.dentryAdd, at_, if_pos taken]
    rfl
  have full : alloc = false := by
    rcases refused with isDir' | full | ⟨c, same, taken'⟩
    · exact absurd (Option.some.inj (there.symm.trans isDir')) dir
    · exact full
    · exact absurd (Option.some.inj (same.symm.trans isDir) ▸ taken') taken
  refine ⟨-enospc, by decide, ?_⟩
  simp only [ramfsLink, there, Option.bind_eq_bind, Option.bind_some, if_neg dir,
    Kernel.dentryAdd, at_, if_neg taken, full]
  rfl

/-! ### The law -/

/-- A call that is not let through answers with an error. -/
theorem perform_refused {call : PairCall} (refused : s.callback call = some none) :
    s.perform catfsRename call = some (s, -1) := by
  rw [perform, refused]
  rfl

theorem perform_reached {call : PairCall} {c : Callback}
    (reached : s.callback call = some (some c)) :
    s.perform catfsRename call = s.invoke catfsRename c := by
  rw [perform, reached]
  rfl

theorem places_rename (at_ : s.places (.rename oldpath newpath) = some (p, q)) :
    ∃ od ob nd nb, pathSplit oldpath = some (od, ob) ∧ pathSplit newpath = some (nd, nb) ∧
      s.place od = some p ∧ s.place nd = some q := by
  obtain ⟨⟨od, ob⟩, split_, at_⟩ := bind_eq_some_iff.mp at_
  obtain ⟨⟨nd, nb⟩, split_', at_⟩ := bind_eq_some_iff.mp at_
  obtain ⟨p', old, at_⟩ := bind_eq_some_iff.mp at_
  obtain ⟨q', new, at_⟩ := bind_eq_some_iff.mp at_
  cases at_
  exact ⟨od, ob, nd, nb, split_, split_', old, new⟩

theorem places_link (at_ : s.places (.link oldpath newpath alloc) = some (p, q)) :
    ∃ nd nb, pathSplit newpath = some (nd, nb) ∧ s.place nd = some p ∧
      s.place oldpath = some q := by
  obtain ⟨⟨nd, nb⟩, split_, at_⟩ := bind_eq_some_iff.mp at_
  obtain ⟨p', new, at_⟩ := bind_eq_some_iff.mp at_
  obtain ⟨q', old, at_⟩ := bind_eq_some_iff.mp at_
  cases at_
  exact ⟨nd, nb, split_, new, old⟩

/-- **Renames.** -/
theorem rename_iff :
    (s.Typed (.rename oldpath newpath) ∧ s.Confined catfsRename (.rename oldpath newpath)) ↔
      s.Fine (.rename oldpath newpath) := by
  constructor
  · rintro ⟨typed, confined⟩ p q at_ old new has
    obtain ⟨od, ob, nd, nb, split_, split_', place_, place_'⟩ := places_rename at_
    have reached := callback_rename split_ split_' place_ place_'
    rw [if_pos ⟨old, new, has⟩] at reached
    have same : s.driver q.inode = s.driver p.inode :=
      typed _ reached q.inode (by simp [Callback.inodes])
    refine ⟨same, fun apart d name split_₁ => ?_⟩
    cases split_.symm.trans split_₁
    obtain ⟨r, failed, ran⟩ := confined p q at_ apart
    rw [perform_reached reached] at ran
    rcases hasRename_iff has with ⟨children, isDir⟩ | catfs
    · rw [(driver_of_ramDir isDir).2.1] at ran
      exact ⟨children, isDir, ramfsRename_refuses isDir ran failed⟩
    · exact absurd (filesystem_eq_of_wrapper catfs (same.trans catfs)) apart
  · intro fine
    constructor
    · intro c reached i mem
      obtain ⟨p, q, at_⟩ := places_of_callback reached
      obtain ⟨od, ob, nd, nb, split_, split_', place_, place_'⟩ := places_rename at_
      rw [callback_rename split_ split_' place_ place_'] at reached
      split at reached
      · rename_i granted
        cases reached
        obtain ⟨old, new, has⟩ := granted
        rcases List.mem_pair.mp mem with rfl | rfl
        · rfl
        · exact (fine p q at_ old new has).1
      · cases reached
    · intro p q at_ apart
      obtain ⟨od, ob, nd, nb, split_, split_', place_, place_'⟩ := places_rename at_
      have reached := callback_rename split_ split_' place_ place_'
      split at reached
      · rename_i granted
        obtain ⟨old, new, has⟩ := granted
        obtain ⟨same, refused⟩ := fine p q at_ old new has
        obtain ⟨children, isDir, missing⟩ := refused apart od ob split_
        refine ⟨-enoent, by decide, ?_⟩
        rw [perform_reached reached, (driver_of_ramDir isDir).2.1]
        simp only [invoke, ramfsRename, isDir, Option.bind_eq_bind, Option.bind_some, missing]
      · exact ⟨-1, by decide, perform_refused reached⟩

/-- **Links.** -/
theorem link_iff :
    (s.Typed (.link oldpath newpath alloc) ∧ s.Confined catfsRename (.link oldpath newpath alloc)) ↔
      s.Fine (.link oldpath newpath alloc) := by
  constructor
  · rintro ⟨typed, confined⟩ p q at_ new has
    obtain ⟨nd, nb, split_, place_, place_'⟩ := places_link at_
    have reached := callback_link alloc split_ place_ place_'
    rw [if_pos ⟨new, has⟩] at reached
    have same : s.driver q.inode = s.driver p.inode :=
      typed _ reached q.inode (by simp [Callback.inodes])
    refine ⟨same, fun apart d name split_₁ => ?_⟩
    cases split_.symm.trans split_₁
    obtain ⟨r, failed, ran⟩ := confined p q at_ apart
    obtain ⟨children, isDir⟩ := Option.isSome_iff_exists.mp has
    rw [perform_reached reached, (driver_of_ramDir isDir).2.1] at ran
    exact ramfsLink_refuses isDir ran failed
  · intro fine
    constructor
    · intro c reached i mem
      obtain ⟨p, q, at_⟩ := places_of_callback reached
      obtain ⟨nd, nb, split_, place_, place_'⟩ := places_link at_
      rw [callback_link alloc split_ place_ place_'] at reached
      split at reached
      · rename_i granted
        cases reached
        rcases List.mem_pair.mp mem with rfl | rfl
        · rfl
        · exact (fine p q at_ granted.1 granted.2).1
      · cases reached
    · intro p q at_ apart
      obtain ⟨nd, nb, split_, place_, place_'⟩ := places_link at_
      have reached := callback_link alloc split_ place_ place_'
      split at reached
      · rename_i granted
        obtain ⟨same, refused⟩ := fine p q at_ granted.1 granted.2
        obtain ⟨children, isDir⟩ := Option.isSome_iff_exists.mp granted.2
        obtain ⟨-, ⟨t, there⟩, -⟩ := place_found place_'
        obtain ⟨r, failed, ran⟩ := ramfsLink_refused there isDir (refused apart nd nb split_)
        refine ⟨r, failed, ?_⟩
        rw [perform_reached reached, (driver_of_ramDir isDir).2.1]
        exact ran
      · exact ⟨-1, by decide, perform_refused reached⟩

/-- A root with a file `a`, and CatFS mounted on `/data`. -/
def catfsOnData : System where
  ram :=
    { inodes := fun i =>
        if i = 1 then
          some ⟨.dir [(['d', 'a', 't', 'a'], 3), (['a'], 2), (dotdot, 1), (dot, 1)] 4,
            0o755, 0, 0, 3, none⟩
        else if i = 2 then some Kernel.twoBytes
        else if i = 3 then some ⟨.dir [(dotdot, 1), (dot, 3)] 2, 0o755, 0, 0, 2, some 100⟩
        else none
      nextIno := 4
      root := 1
      mounts := [(['/', 'd', 'a', 't', 'a'], 100)]
      fds := fun _ => none
      uid := 0
      gid := 0
      now := 0 }
  foreign i := if i = 100 then some ⟨.catfs, .dir, 0o755, 0, 0, fun _ => none, []⟩ else none

end System

end AtmKoala.Vfs
