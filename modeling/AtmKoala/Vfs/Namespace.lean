import AtmKoala.Vfs.Paths

/-!
The namespace of ramfs over whole runs.

* `Call` and `perform` are the calls; `Clear` is what a call asks of the state it is made
  in, so that it does not run into one of the slips of the code: the root has references
  to spare for those that are given back without having been taken, a new entry has a
  name, a removed or renamed one is not `.` or `..`, a renamed directory stays in its
  parent, and what a rename replaces is empty or goes for good.
* `Namespace` is the property, in words of the entries alone; `Sound` implies it.
* `run_namespace`: it holds in every state of a run of clear calls.
-/

namespace AtmKoala.Vfs

open Lib
open Option (bind_eq_some_iff map_eq_some_iff)

variable {w w' : World} {held : Ino → Nat} {i : Ino}

/-! ### The calls -/

inductive Call where
  | mkdir (path : Name) (allowed : Bool) (alloc : Fin 5 → Bool)
  | rmdir (path : Name) (allowed : Bool)
  | unlink (path : Name) (allowed : Bool)
  | symlink (target linkpath : Name) (allowed : Bool) (alloc : Fin 3 → Bool)
  | link (oldpath newpath : Name) (allowed alloc : Bool)
  | rename (oldpath newpath : Name) (allowed : Bool)
  | openPath (path : Name) (flags : OpenFlags) (allowed : Bool) (alloc : Fin 3 → Bool)
  | close (fd : Int)
  | dup (fd : Int)
  | dup2 (fd newfd : Int)
  | stat (path : Name)
  | lstat (path : Name)
  | chmod (path : Name)
  | truncate (path : Name)
  | readlink (path : Name)
  | readdirNext (path : Name)
  | listdir (path : Name)
  | opendir (path : Name) (allowed alloc : Bool)
  | readdir (path : Name)

def perform (w : World) : Call → Option World
  | .mkdir path allowed alloc => (vfsMkdir w path allowed alloc).map Prod.fst
  | .rmdir path allowed => (vfsRmdir w path allowed).map Prod.fst
  | .unlink path allowed => (vfsUnlink w path allowed).map Prod.fst
  | .symlink target linkpath allowed alloc =>
    (vfsSymlink w target linkpath allowed alloc).map Prod.fst
  | .link oldpath newpath allowed alloc => (vfsLink w oldpath newpath allowed alloc).map Prod.fst
  | .rename oldpath newpath allowed => (vfsRename w oldpath newpath allowed).map Prod.fst
  | .openPath path flags allowed alloc => (vfsOpen w path flags allowed alloc).map Prod.fst
  | .close fd => vfsClose w fd
  | .dup fd => (vfsDup w fd).map Prod.fst
  | .dup2 fd newfd => (vfsDup2 w fd newfd).map Prod.fst
  | .stat path => (vfsStat w path).map Prod.fst
  | .lstat path => (vfsLstat w path).map Prod.fst
  | .chmod path => (vfsChmod w path).map Prod.fst
  | .truncate path => (vfsTruncate w path).map Prod.fst
  | .readlink path => (vfsReadlink w path).map Prod.fst
  | .readdirNext path => (vfsReaddirNext w path).map Prod.fst
  | .listdir path => (vfsListdir w path).map Prod.fst
  | .opendir path allowed alloc => (vfsOpendir w path allowed alloc).map Prod.fst
  | .readdir path => (vfsReaddir w path).map Prod.fst

/-! ### What a call asks -/

/-- The root outlives the references given back. -/
def Spare (w : World) (given : List Ino) : Prop :=
  ∀ x ∈ w.inodes w.root, (given.count w.root : Int) < x.refcount

instance (w : World) (given : List Ino) : Decidable (Spare w given) :=
  inferInstanceAs (Decidable (∀ x ∈ _, _))

instance (w : World) (d : Ino) : Decidable (IsDir w d) := inferInstanceAs (Decidable (_ ≠ _))

instance (w : World) (oldDir : Ino) (oldName : Name) (newDir : Ino) (newName : Name) :
    Decidable (Renames w oldDir oldName newDir newName) :=
  inferInstanceAs (Decidable (∀ target ∈ _, _))

/-- For a call that looks up a path, and gives back what it finds in case of `given`. -/
def PathClear (w : World) (path : Name) (nofollow : Bool) (given : World → Ino → Prop) : Prop :=
  ∀ r ∈ resolvePath w path nofollow, ∀ i ∈ r.2, given r.1 i → Spare r.1 [i]

/-- For a call on the parent of a path. -/
def ParentClear (w : World) (path : Name) (allowed : Bool)
    (clear : World → Ino → Name → Prop) : Prop :=
  ∀ s ∈ pathSplit path, ∀ r ∈ resolvePath w s.1 false, ∀ parent ∈ r.2,
    Spare r.1 [parent] ∧ (allowed = true → IsDir r.1 parent → clear r.1 parent s.2)

/-- A new entry has a name, if there is memory for it. -/
def Named (enough : Prop) (w : World) (d : Ino) (name : Name) : Prop :=
  dentryFind (children w d) name = none → enough → name ≠ []

def MkdirClear (alloc : Fin 5 → Bool) (w : World) (d : Ino) (name : Name) : Prop :=
  Named (∀ k, alloc k = true) w d name ∧
    (dentryFind (children w d) name = none → alloc 0 = true → alloc 1 = true →
      alloc 2 = true ∧ alloc 3 = true)

def RmdirClear (w : World) (d : Ino) (name : Name) : Prop :=
  ∀ i ∈ dentryFind (children w d) name, ∀ s ∈ w.dirOf i, s.2 ≤ 2 → Real name

def LinkClear (w : World) (oldpath newpath : Name) (allowed alloc : Bool) : Prop :=
  ∀ r ∈ resolvePath w oldpath false, ∀ target ∈ r.2, ∀ s ∈ pathSplit newpath,
    ∀ r' ∈ resolvePath r.1 s.1 false, Spare r'.1 (target :: r'.2.toList) ∧
      ∀ newDir ∈ r'.2, allowed = true → IsDir r'.1 newDir → ¬IsDir r'.1 target →
        Named (alloc = true) r'.1 newDir s.2

def RenameClear (w : World) (oldpath newpath : Name) (allowed : Bool) : Prop :=
  ∀ s ∈ pathSplit oldpath, ∀ s' ∈ pathSplit newpath, ∀ r ∈ resolvePath w s.1 false,
    ∀ r' ∈ resolvePath r.1 s'.1 false, Spare r'.1 (r.2.toList ++ r'.2.toList) ∧
      ∀ oldDir ∈ r.2, ∀ newDir ∈ r'.2, allowed = true → IsDir r'.1 oldDir →
        Renames r'.1 oldDir s.2 newDir s'.2

def OpenClear (w : World) (path : Name) (flags : OpenFlags) (allowed : Bool)
    (alloc : Fin 3 → Bool) : Prop :=
  PathClear w path flags.nofollow (fun w i => (flags.creat ∧ flags.excl) ∨
    (IsDir w i ∧ flags.write) ∨ allowed = false ∨ fdAlloc w = none) ∧
  ∀ r ∈ resolvePath w path flags.nofollow, r.2 = none → flags.creat →
    ParentClear r.1 path allowed (Named (∀ k, alloc k = true))

def Dup2Clear (w : World) (fd newfd : Int) : Prop :=
  ∀ i ∈ (fdIndex fd).bind w.fds, ∀ k ∈ fdIndex newfd, newfd ≠ fd → ∀ j ∈ w.fds k, Spare w [j]

/-- **What a call asks of the state it is made in.** -/
def Clear (w : World) : Call → Prop
  | .mkdir path allowed alloc => ParentClear w path allowed (MkdirClear alloc)
  | .rmdir path allowed => ParentClear w path allowed RmdirClear
  | .unlink path allowed => ParentClear w path allowed fun _ _ _ => True
  | .symlink _ linkpath allowed alloc => ParentClear w linkpath allowed (Named (∀ k, alloc k = true))
  | .link oldpath newpath allowed alloc => LinkClear w oldpath newpath allowed alloc
  | .rename oldpath newpath allowed => RenameClear w oldpath newpath allowed
  | .openPath path flags allowed alloc => OpenClear w path flags allowed alloc
  | .close fd => ∀ k ∈ fdIndex fd, ∀ i ∈ w.fds k, Spare w [i]
  | .dup _ => True
  | .dup2 fd newfd => Dup2Clear w fd newfd
  | .stat path | .chmod path | .truncate path | .readdirNext path | .listdir path =>
    PathClear w path false fun _ _ => True
  | .lstat path | .readlink path => PathClear w path true fun _ _ => True
  | .opendir path allowed alloc => PathClear w path false fun w i => ¬(IsDir w i ∧ allowed ∧ !alloc)
  | .readdir path => PathClear w path false fun w i => IsDir w i

section Decidable

variable (w : World) (path : Name) (allowed : Bool)

instance (nofollow : Bool) (given : World → Ino → Prop) [∀ w i, Decidable (given w i)] :
    Decidable (PathClear w path nofollow given) :=
  inferInstanceAs (Decidable (∀ r ∈ _, _))

instance (clear : World → Ino → Name → Prop) [∀ w d n, Decidable (clear w d n)] :
    Decidable (ParentClear w path allowed clear) :=
  inferInstanceAs (Decidable (∀ s ∈ _, _))

instance (enough : Prop) [Decidable enough] (d : Ino) (name : Name) :
    Decidable (Named enough w d name) :=
  inferInstanceAs (Decidable (_ → _ → _))

instance (alloc : Fin 5 → Bool) (d : Ino) (name : Name) : Decidable (MkdirClear alloc w d name) :=
  inferInstanceAs (Decidable (_ ∧ _))

instance (d : Ino) (name : Name) : Decidable (RmdirClear w d name) :=
  inferInstanceAs (Decidable (∀ i ∈ _, _))

instance (newpath : Name) (alloc : Bool) : Decidable (LinkClear w path newpath allowed alloc) :=
  inferInstanceAs (Decidable (∀ r ∈ _, _))

instance (newpath : Name) : Decidable (RenameClear w path newpath allowed) :=
  inferInstanceAs (Decidable (∀ s ∈ _, _))

instance (flags : OpenFlags) (alloc : Fin 3 → Bool) :
    Decidable (OpenClear w path flags allowed alloc) :=
  inferInstanceAs (Decidable (_ ∧ _))

instance (fd newfd : Int) : Decidable (Dup2Clear w fd newfd) :=
  inferInstanceAs (Decidable (∀ i ∈ _, _))

instance (w : World) : (call : Call) → Decidable (Clear w call)
  | .mkdir path allowed alloc =>
    inferInstanceAs (Decidable (ParentClear w path allowed (MkdirClear alloc)))
  | .rmdir path allowed => inferInstanceAs (Decidable (ParentClear w path allowed RmdirClear))
  | .unlink path allowed => inferInstanceAs (Decidable (ParentClear w path allowed fun _ _ _ => True))
  | .symlink _ linkpath allowed alloc =>
    inferInstanceAs (Decidable (ParentClear w linkpath allowed (Named (∀ k, alloc k = true))))
  | .link oldpath newpath allowed alloc =>
    inferInstanceAs (Decidable (LinkClear w oldpath newpath allowed alloc))
  | .rename oldpath newpath allowed =>
    inferInstanceAs (Decidable (RenameClear w oldpath newpath allowed))
  | .openPath path flags allowed alloc =>
    inferInstanceAs (Decidable (OpenClear w path flags allowed alloc))
  | .close fd => inferInstanceAs (Decidable (∀ k ∈ fdIndex fd, ∀ i ∈ w.fds k, Spare w [i]))
  | .dup _ => isTrue trivial
  | .dup2 fd newfd => inferInstanceAs (Decidable (Dup2Clear w fd newfd))
  | .stat path | .chmod path | .truncate path | .readdirNext path | .listdir path =>
    inferInstanceAs (Decidable (PathClear w path false fun _ _ => True))
  | .lstat path | .readlink path =>
    inferInstanceAs (Decidable (PathClear w path true fun _ _ => True))
  | .opendir path allowed alloc =>
    inferInstanceAs (Decidable (PathClear w path false fun w i => ¬(IsDir w i ∧ allowed ∧ !alloc)))
  | .readdir path => inferInstanceAs (Decidable (PathClear w path false fun w i => IsDir w i))

end Decidable

/-! ### Giving back what was handed out -/

theorem Sound.give (sound : Sound w none (0 + owed w i) 0) (spare : Spare w [i]) :
    Sound w none (0 + Pi.single i 1) 0 := by
  refine sound.spare (fun j notRoot => ?_) fun x was => ?_
  · rw [Pi.add_apply, Pi.add_apply, owed_apply notRoot]
  · have enough := spare x was
    simp only [Pi.add_apply, Pi.zero_apply, Nat.zero_add]
    by_cases root : i = w.root
    · subst root
      rw [Pi.single_eq_same]
      simpa using enough
    · rw [Pi.single_eq_of_ne (Ne.symm root)]
      have none_ : [i].count w.root = 0 := by simp [root]
      rwa [none_] at enough

/-- The inode handed to a call is one that there is. -/
theorem Handed.unheld (handed : Handed w 0 0 i) : (0 + Pi.single i 1 : Ino → Nat) w.nextIno = 0 := by
  rw [Pi.add_apply, Pi.single_eq_of_ne (ne_of_alive handed.sound handed.there).symm]
  rfl

/-- A call that gives back a reference at its end. -/
theorem Sound.giveBack {α : Type} {x y : α} (sound : Sound w none (0 + Pi.single i 1) 0)
    (done : ((inodeUnref w i).bind fun w => some (w, x)) = some (w', y)) : Sound w' none 0 0 := by
  obtain ⟨w₁, given, done⟩ := bind_eq_some_iff.mp done
  cases done
  exact sound.unref given

theorem lookUp_sound {path : Name} {nofollow r : Bool} (sound : Sound w none 0 0)
    (clear : PathClear w path nofollow fun _ _ => True)
    (done : lookUp w path nofollow = some (w', r)) : Sound w' none 0 0 := by
  obtain ⟨⟨w₁, out⟩, found, done⟩ := bind_eq_some_iff.mp done
  have resolved := resolvePath_sound sound found
  cases out with
  | none =>
    cases done
    exact resolved.sound
  | some i =>
    exact ((resolved.handed i rfl).sound.give (clear _ found i rfl trivial)).giveBack done

theorem vfsOpendir_sound {path : Name} {allowed alloc r : Bool} (sound : Sound w none 0 0)
    (clear : PathClear w path false fun w i => ¬(IsDir w i ∧ allowed ∧ !alloc))
    (done : vfsOpendir w path allowed alloc = some (w', r)) : Sound w' none 0 0 := by
  obtain ⟨⟨w₁, out⟩, found, done⟩ := bind_eq_some_iff.mp done
  have resolved := resolvePath_sound sound found
  cases out with
  | none =>
    cases done
    exact resolved.sound
  | some i =>
    obtain ⟨x, was, done⟩ := bind_eq_some_iff.mp done
    split at done
    · -- without memory for the stream the reference is kept
      cases done
      exact resolved.sound
    · rename_i gives
      obtain ⟨w₂, given, done⟩ := bind_eq_some_iff.mp done
      cases done
      refine ((resolved.handed i rfl).sound.give (clear _ found i rfl ?_)).unref given
      show ¬(IsDir w₁ i ∧ _)
      rw [isDir_iff was]
      simpa [and_assoc] using gives

theorem vfsReaddir_sound {path : Name} {r : Bool} (sound : Sound w none 0 0)
    (clear : PathClear w path false fun w i => IsDir w i)
    (done : vfsReaddir w path = some (w', r)) : Sound w' none 0 0 := by
  obtain ⟨⟨w₁, out⟩, found, done⟩ := bind_eq_some_iff.mp done
  have resolved := resolvePath_sound sound found
  cases out with
  | none =>
    cases done
    exact resolved.sound
  | some i =>
    obtain ⟨x, was, done⟩ := bind_eq_some_iff.mp done
    split at done
    · cases done
      exact resolved.sound
    · rename_i isDir
      obtain ⟨w₂, given, done⟩ := bind_eq_some_iff.mp done
      cases done
      refine ((resolved.handed i rfl).sound.give (clear _ found i rfl ?_)).unref given
      show IsDir w₁ i
      rw [isDir_iff was]
      simpa using isDir

/-! ### Descriptors -/

theorem fdAlloc_free {k : Fin 64} (found : fdAlloc w = some k) : w.fds k = none := by
  have free := List.find?_some found
  simp only [decide_eq_true_eq] at free
  exact free.2

theorem openFd_sound {r : Int} (sound : Sound w none (0 + owed w i) 0) (there : w.inodes i ≠ none)
    (back : fdAlloc w = none → Sound w none (0 + Pi.single i 1) 0)
    (done : openFd w i = some (w', r)) : Sound w' none 0 0 := by
  unfold openFd at done
  split at done
  · rename_i full
    exact (back full).giveBack done
  · rename_i fd free
    cases done
    exact sound.openFd (fdAlloc_free free) there

theorem inodeUnref_setFd {k : Fin 64} {y : Option Ino} (done : inodeUnref w i = some w') :
    inodeUnref (setFd w k y) i = some (setFd w' k y) := by
  obtain ⟨x, was, rfl⟩ := map_eq_some_iff.mp done
  have was' : (setFd w k y).inodes i = some x := was
  rw [inodeUnref, was', Option.map_some]
  split
  · rfl
  · rfl

/-- A free descriptor is given an inode, of which a reference is then taken. -/
theorem Sound.duplicate {k : Fin 64} (sound : Sound w none 0 0) (free : w.fds k = none)
    (refd : inodeRef (setFd w k (some i)) i = some w') : Sound w' none 0 0 := by
  obtain ⟨x, was, rfl⟩ := map_eq_some_iff.mp refd
  have was' : w.inodes i = some x := was
  have refd' : inodeRef w i = some (w.setInode i (some { x with refcount := x.refcount + 1 })) := by
    rw [inodeRef, was']
    rfl
  have referenced : Sound (w.setInode i (some { x with refcount := x.refcount + 1 })) none
      (0 + owed (w.setInode i (some { x with refcount := x.refcount + 1 })) i) 0 :=
    (sound.ref refd').forget fun j => Nat.add_le_add_left (owed_le _ i j) _
  exact referenced.openFd free (by rw [inodes_setInode_self]; rintro ⟨⟩)

theorem vfsClose_sound {fd : Int} (sound : Sound w none 0 0)
    (clear : ∀ k ∈ fdIndex fd, ∀ i ∈ w.fds k, Spare w [i]) (done : vfsClose w fd = some w') :
    Sound w' none 0 0 := by
  unfold vfsClose at done
  split at done
  · cases done
    exact sound
  · rename_i k i at_
    obtain ⟨w₁, given, rfl⟩ := map_eq_some_iff.mp done
    obtain ⟨k', slot, inUse⟩ := bind_eq_some_iff.mp at_
    obtain ⟨i', there, same⟩ := map_eq_some_iff.mp inUse
    cases same
    have closed : Sound (setFd w k none) none (0 + owed (setFd w k none) i) 0 := sound.closeFd there
    exact (closed.give (clear k slot i there)).unref (inodeUnref_setFd given)

/-- The descriptor is free then. -/
theorem vfsClose_free {fd : Int} {k : Fin 64} (slot : fdIndex fd = some k)
    (done : vfsClose w fd = some w') : w'.fds k = none := by
  unfold vfsClose at done
  rw [slot, Option.bind_some] at done
  cases there : w.fds k with
  | none =>
    rw [there] at done
    cases done
    exact there
  | some i =>
    rw [there] at done
    obtain ⟨w₁, -, rfl⟩ := map_eq_some_iff.mp done
    exact fds_setFd_self none

theorem vfsDup_sound {fd r : Int} (sound : Sound w none 0 0) (done : vfsDup w fd = some (w', r)) :
    Sound w' none 0 0 := by
  unfold vfsDup at done
  split at done
  · cases done
    exact sound
  · rename_i i there
    split at done
    · cases done
      exact sound
    · rename_i k free
      obtain ⟨w₁, refd, done⟩ := bind_eq_some_iff.mp done
      cases done
      exact sound.duplicate (fdAlloc_free free) refd

theorem vfsDup2_sound {fd newfd r : Int} (sound : Sound w none 0 0) (clear : Dup2Clear w fd newfd)
    (done : vfsDup2 w fd newfd = some (w', r)) : Sound w' none 0 0 := by
  unfold vfsDup2 at done
  split at done
  · rename_i i k there slot
    split at done
    · cases done
      exact sound
    · rename_i other
      obtain ⟨w₁, closed, done⟩ := bind_eq_some_iff.mp done
      obtain ⟨w₂, refd, done⟩ := bind_eq_some_iff.mp done
      cases done
      have sound₁ := vfsClose_sound sound (fun k' slot' => by
        obtain rfl := Option.some.inj (slot.symm.trans slot')
        exact clear i there k slot other) closed
      exact sound₁.duplicate (vfsClose_free slot closed) refd
  · cases done
    exact sound

/-! ### Calls on a parent -/

/-- The parent of a path, given to a call that will give it back. -/
theorem ParentClear.given {path dir base : Name} {allowed : Bool}
    {clear : World → Ino → Name → Prop} {parent : Ino} (ok : ParentClear w path allowed clear)
    (sound : Sound w none 0 0) (split : pathSplit path = some (dir, base))
    (found : resolvePath w dir false = some (w', some parent)) :
    Handed w' 0 0 parent ∧ Sound w' none (0 + Pi.single parent 1) 0 ∧
      (allowed = true → IsDir w' parent → clear w' parent base) := by
  have handed := (resolvePath_sound sound found).handed parent rfl
  obtain ⟨spare, clear⟩ := ok _ split _ found parent rfl
  exact ⟨handed, handed.sound.give spare, clear⟩

/-- A call on the parent of a path is one on a directory that is reached. -/
theorem onParent_sound {path : Name} {allowed : Bool} {clear : World → Ino → Name → Prop}
    {op : World → Ino → Name → Option (World × Int)} {r : Int} (sound : Sound w none 0 0)
    (ok : ParentClear w path allowed clear)
    (step : ∀ {w d n w' r}, Sound w none (0 + Pi.single d 1) 0 → Reached w d →
      (0 + Pi.single d 1 : Ino → Nat) w.nextIno = 0 → clear w d n → op w d n = some (w', r) →
      Sound w' none (0 + Pi.single d 1) 0)
    (done : onParent w path allowed op = some (w', r)) : Sound w' none 0 0 := by
  obtain ⟨⟨dir, base⟩, split, done⟩ := bind_eq_some_iff.mp done
  obtain ⟨⟨w₁, out⟩, found, done⟩ := bind_eq_some_iff.mp done
  cases out with
  | none =>
    cases done
    exact (resolvePath_sound sound found).sound
  | some parent =>
    obtain ⟨handed, given, clear⟩ := ok.given sound split found
    obtain ⟨x, was, done⟩ := bind_eq_some_iff.mp done
    split at done
    · exact given.giveBack done
    · rename_i permitted
      split at done
      · exact given.giveBack done
      · rename_i kind
        obtain ⟨⟨w₂, r₂⟩, acted, done⟩ := bind_eq_some_iff.mp done
        obtain ⟨w₃, back, done⟩ := bind_eq_some_iff.mp done
        cases done
        have isDir : IsDir w₁ parent := (isDir_iff was).mpr (by simpa using kind)
        exact (step given (handed.reached isDir) handed.unheld
          (clear (by simpa using permitted) isDir) acted).unref back

theorem vfsRmdir_sound {path : Name} {allowed : Bool} {r : Int} (sound : Sound w none 0 0)
    (ok : ParentClear w path allowed RmdirClear) (done : vfsRmdir w path allowed = some (w', r)) :
    Sound w' none 0 0 := by
  refine onParent_sound sound ok (fun {w d n w' r} sound _ _ clear done => ?_) done
  exact ramfsRmdirImpl_sound sound (fun i c count found at_ few => clear i found (c, count) at_ few) done

theorem vfsUnlink_sound {path : Name} {allowed : Bool} {r : Int} (sound : Sound w none 0 0)
    (ok : ParentClear w path allowed fun _ _ _ => True)
    (done : vfsUnlink w path allowed = some (w', r)) : Sound w' none 0 0 :=
  onParent_sound sound ok (fun sound reached _ _ done => ramfsUnlinkImpl_sound sound reached done) done

theorem vfsSymlink_sound {target linkpath : Name} {allowed : Bool} {alloc : Fin 3 → Bool} {r : Int}
    (sound : Sound w none 0 0)
    (ok : ParentClear w linkpath allowed (Named (∀ k, alloc k = true)))
    (done : vfsSymlink w target linkpath allowed alloc = some (w', r)) : Sound w' none 0 0 :=
  onParent_sound sound ok (fun sound reached unheld named done =>
    ramfsSymlinkImpl_sound sound reached unheld rfl named done) done

theorem vfsMkdir_sound {path : Name} {allowed : Bool} {alloc : Fin 5 → Bool} {r : Int}
    (sound : Sound w none 0 0) (ok : ParentClear w path allowed (MkdirClear alloc))
    (done : vfsMkdir w path allowed alloc = some (w', r)) : Sound w' none 0 0 := by
  obtain ⟨⟨dir, base⟩, split, done⟩ := bind_eq_some_iff.mp done
  obtain ⟨⟨w₁, out⟩, found, done⟩ := bind_eq_some_iff.mp done
  cases out with
  | none =>
    cases done
    exact (resolvePath_sound sound found).sound
  | some parent =>
    obtain ⟨handed, given, clear⟩ := ok.given sound split found
    obtain ⟨x, was, done⟩ := bind_eq_some_iff.mp done
    split at done
    · exact given.giveBack done
    · rename_i permitted
      have permitted : x.isDir = true ∧ allowed = true := by simpa using permitted
      obtain ⟨⟨w₂, r₂, out⟩, made, done⟩ := bind_eq_some_iff.mp done
      obtain ⟨w₃, back, done⟩ := bind_eq_some_iff.mp done
      cases done
      have isDir : IsDir w₁ parent := (isDir_iff was).mpr permitted.1
      obtain ⟨named, dots⟩ := clear permitted.2 isDir
      exact (ramfsMkdirImpl_sound given (handed.reached isDir) handed.unheld named dots made).unref back

theorem vfsOpen_sound {path : Name} {flags : OpenFlags} {allowed : Bool} {alloc : Fin 3 → Bool}
    {r : Int} (sound : Sound w none 0 0) (ok : OpenClear w path flags allowed alloc)
    (done : vfsOpen w path flags allowed alloc = some (w', r)) : Sound w' none 0 0 := by
  obtain ⟨⟨w₁, out⟩, found, done⟩ := bind_eq_some_iff.mp done
  have resolved := resolvePath_sound sound found
  cases out with
  | none =>
    dsimp only at done
    split at done
    · cases done
      exact resolved.sound
    · rename_i creat
      obtain ⟨⟨dir, base⟩, split, done⟩ := bind_eq_some_iff.mp done
      obtain ⟨⟨w₂, out⟩, found', done⟩ := bind_eq_some_iff.mp done
      cases out with
      | none =>
        cases done
        exact (resolvePath_sound resolved.sound found').sound
      | some parent =>
        obtain ⟨handed, given, clear⟩ := ParentClear.given
          (ok.2 _ found rfl (by simpa using creat)) resolved.sound split found'
        obtain ⟨x, was, done⟩ := bind_eq_some_iff.mp done
        split at done
        · exact given.giveBack done
        · rename_i permitted
          have permitted : x.isDir = true ∧ allowed = true := by simpa using permitted
          obtain ⟨⟨w₃, r₃, made⟩, created, done⟩ := bind_eq_some_iff.mp done
          obtain ⟨w₄, back, done⟩ := bind_eq_some_iff.mp done
          have isDir : IsDir w₂ parent := (isDir_iff was).mpr permitted.1
          obtain ⟨failed, success⟩ := ramfsCreateImpl_sound given (handed.reached isDir)
            handed.unheld rfl (clear permitted.2 isDir) created
          cases made with
          | none =>
            cases done
            exact (failed rfl).unref back
          | some inode =>
            obtain ⟨both, there⟩ := success inode rfl
            rw [add_right_comm] at both
            have one := both.unref back
            refine openFd_sound (one.forget fun j => Nat.add_le_add_left (owed_le _ inode j) _) ?_
              (fun _ => one) done
            by_cases same : inode = parent
            · subst same
              obtain ⟨y, was⟩ := Option.ne_none_iff_exists'.mp there
              rw [both.kept was back]
              exact nofun
            · rwa [(both.dirOf_unref back).2.2 inode same]
  | some i =>
    obtain ⟨x, was, done⟩ := bind_eq_some_iff.mp done
    have handed := resolved.handed i rfl
    have spare := ok.1 _ found i rfl
    split at done
    · rename_i refused
      obtain ⟨w₂, back, done⟩ := bind_eq_some_iff.mp done
      cases done
      refine (handed.sound.give (spare ?_)).unref back
      show _ ∨ (IsDir w₁ i ∧ _) ∨ _
      rw [isDir_iff was]
      simp only [Bool.or_eq_true, Bool.and_eq_true, Bool.not_eq_true', or_assoc] at refused
      exact refused.imp id (Or.imp id .inl)
    · exact openFd_sound handed.sound handed.there
        (fun full => handed.sound.give (spare (.inr (.inr (.inr full))))) done

/-! ### Calls on two paths -/

/-- Two inodes handed to a call that will give both back. -/
theorem Sound.giveTwo {j : Ino} (sound : Sound w none (0 + owed w i + owed w j) 0)
    (spare : Spare w [i, j]) : Sound w none (0 + Pi.single i 1 + Pi.single j 1) 0 := by
  refine sound.spare (fun k notRoot => ?_) fun x was => ?_
  · simp only [Pi.add_apply, owed_apply notRoot]
  · have enough := spare x was
    have counted : (0 + Pi.single i 1 + Pi.single j 1 : Ino → Nat) w.root = [i, j].count w.root := by
      simp only [Pi.add_apply, Pi.zero_apply, Pi.single_apply, List.count_cons, List.count_nil,
        beq_iff_eq, eq_comm (a := w.root)]
      omega
    rwa [counted]

theorem Sound.unrefTwo {α : Type} {j : Ino} {x y : α}
    (sound : Sound w none (0 + Pi.single i 1 + Pi.single j 1) 0)
    (done : ((inodeUnref w i).bind fun w => (inodeUnref w j).bind fun w => some (w, x)) =
      some (w', y)) : Sound w' none 0 0 := by
  obtain ⟨w₁, first, done⟩ := bind_eq_some_iff.mp done
  rw [add_right_comm] at sound
  exact (sound.unref first).giveBack done

/-- What is owed depends on the root alone. -/
theorem owed_congr (same : w'.root = w.root) : owed w' i = owed w i := by
  rw [owed, owed, same]

theorem vfsLink_sound {oldpath newpath : Name} {allowed alloc : Bool} {r : Int}
    (sound : Sound w none 0 0) (ok : LinkClear w oldpath newpath allowed alloc)
    (done : vfsLink w oldpath newpath allowed alloc = some (w', r)) : Sound w' none 0 0 := by
  obtain ⟨⟨w₁, out⟩, found, done⟩ := bind_eq_some_iff.mp done
  have resolved := resolvePath_sound sound found
  cases out with
  | none =>
    cases done
    exact resolved.sound
  | some target =>
    obtain ⟨⟨dir, base⟩, split, done⟩ := bind_eq_some_iff.mp done
    obtain ⟨⟨w₂, out⟩, found', done⟩ := bind_eq_some_iff.mp done
    obtain ⟨spare, named⟩ := ok _ found target rfl _ split _ found'
    have resolved' := resolvePath_sound (resolved.handed target rfl).sound found'
    cases out with
    | none =>
      obtain ⟨w₃, back, done⟩ := bind_eq_some_iff.mp done
      cases done
      have owing := resolved'.sound
      rw [← owed_congr resolved'.root] at owing
      exact (owing.give spare).unref back
    | some newDir =>
      have handed := resolved'.handed newDir rfl
      have owing := handed.sound
      rw [← owed_congr resolved'.root] at owing
      have both := owing.giveTwo spare
      obtain ⟨x, was, done⟩ := bind_eq_some_iff.mp done
      split at done
      · exact both.unrefTwo done
      · rename_i permitted
        split at done
        · exact both.unrefTwo done
        · rename_i kind
          obtain ⟨⟨w₃, r₃⟩, linked, done⟩ := bind_eq_some_iff.mp done
          have isDir : IsDir w₂ newDir := (isDir_iff was).mpr (by simpa using kind)
          have named := named newDir rfl (by simpa using permitted) isDir
          exact (ramfsLinkImpl_sound both (handed.reached isDir) named linked).unrefTwo done

theorem vfsRename_sound {oldpath newpath : Name} {allowed : Bool} {r : Int}
    (sound : Sound w none 0 0) (ok : RenameClear w oldpath newpath allowed)
    (done : vfsRename w oldpath newpath allowed = some (w', r)) : Sound w' none 0 0 := by
  obtain ⟨⟨od, ob⟩, split, done⟩ := bind_eq_some_iff.mp done
  obtain ⟨⟨nd, nb⟩, split', done⟩ := bind_eq_some_iff.mp done
  obtain ⟨⟨w₁, oldDir⟩, found, done⟩ := bind_eq_some_iff.mp done
  obtain ⟨⟨w₂, newDir⟩, found', done⟩ := bind_eq_some_iff.mp done
  obtain ⟨spare, renames⟩ := ok _ split _ split' _ found _ found'
  have resolved := resolvePath_sound sound found
  cases oldDir with
  | none =>
    have resolved' := resolvePath_sound resolved.sound found'
    cases newDir with
    | none =>
      cases done
      exact resolved'.sound
    | some newDir =>
      exact ((resolved'.handed newDir rfl).sound.give spare).giveBack done
  | some oldDir =>
    have resolved' := resolvePath_sound (resolved.handed oldDir rfl).sound found'
    cases newDir with
    | none =>
      obtain ⟨w₃, back, done⟩ := bind_eq_some_iff.mp done
      cases done
      have owing := resolved'.sound
      rw [← owed_congr resolved'.root] at owing
      exact (owing.give spare).unref back
    | some newDir =>
      have handed := resolved'.handed newDir rfl
      have owing := handed.sound
      rw [← owed_congr resolved'.root] at owing
      have both := owing.giveTwo spare
      obtain ⟨x, was, done⟩ := bind_eq_some_iff.mp done
      split at done
      · exact both.unrefTwo done
      · rename_i permitted
        split at done
        · exact both.unrefTwo done
        · rename_i kind
          obtain ⟨⟨w₃, r₃⟩, renamed, done⟩ := bind_eq_some_iff.mp done
          have isDir : IsDir w₂ oldDir := (isDir_iff was).mpr (by simpa using kind)
          have clear := renames oldDir rfl newDir rfl (by simpa using permitted) isDir
          exact (ramfsRenameImpl_sound both handed.reached clear renamed).unrefTwo done

/-! ### Runs -/

/-- **One call** keeps the invariant. -/
theorem Sound.perform {call : Call} (sound : Sound w none 0 0) (clear : Clear w call)
    (done : perform w call = some w') : Sound w' none 0 0 := by
  cases call with
  | mkdir path allowed alloc =>
    obtain ⟨_, called, rfl⟩ := map_eq_some_iff.mp done
    exact vfsMkdir_sound sound clear called
  | rmdir path allowed =>
    obtain ⟨_, called, rfl⟩ := map_eq_some_iff.mp done
    exact vfsRmdir_sound sound clear called
  | unlink path allowed =>
    obtain ⟨_, called, rfl⟩ := map_eq_some_iff.mp done
    exact vfsUnlink_sound sound clear called
  | symlink target linkpath allowed alloc =>
    obtain ⟨_, called, rfl⟩ := map_eq_some_iff.mp done
    exact vfsSymlink_sound sound clear called
  | link oldpath newpath allowed alloc =>
    obtain ⟨_, called, rfl⟩ := map_eq_some_iff.mp done
    exact vfsLink_sound sound clear called
  | rename oldpath newpath allowed =>
    obtain ⟨_, called, rfl⟩ := map_eq_some_iff.mp done
    exact vfsRename_sound sound clear called
  | openPath path flags allowed alloc =>
    obtain ⟨_, called, rfl⟩ := map_eq_some_iff.mp done
    exact vfsOpen_sound sound clear called
  | close fd => exact vfsClose_sound sound clear done
  | dup fd =>
    obtain ⟨_, called, rfl⟩ := map_eq_some_iff.mp done
    exact vfsDup_sound sound called
  | dup2 fd newfd =>
    obtain ⟨_, called, rfl⟩ := map_eq_some_iff.mp done
    exact vfsDup2_sound sound clear called
  | stat path | lstat path | chmod path | truncate path | readlink path | readdirNext path
  | listdir path =>
    obtain ⟨_, called, rfl⟩ := map_eq_some_iff.mp done
    exact lookUp_sound sound clear called
  | opendir path allowed alloc =>
    obtain ⟨_, called, rfl⟩ := map_eq_some_iff.mp done
    exact vfsOpendir_sound sound clear called
  | readdir path =>
    obtain ⟨_, called, rfl⟩ := map_eq_some_iff.mp done
    exact vfsReaddir_sound sound clear called

/-- There is no inode yet. -/
def blank : World := ⟨fun _ => none, 1, 0, fun _ => none⟩

/-- A ramfs with its root as `g_root`. -/
def freshRamfs : Option World := (ramfsCreateRoot blank).map fun (w, root) => { w with root }

/-- A directory that is the root, is named or names something. One that has been removed
stays allocated, as it holds a reference to itself, but is none of these. -/
def Live (w : World) (d : Ino) : Prop :=
  IsDir w d ∧ (d = w.root ∨ (∃ p n, Entry w p n d) ∨ ∃ n i, Entry w d n i)

/-- **The namespace of ramfs.** -/
structure Namespace (w : World) : Prop where
  root : IsDir w w.root ∧ ∀ p n, ¬Entry w p n w.root
  named : ∀ d, Live w d → d ≠ w.root → ∃! e : Ino × Name, Entry w e.1 e.2 d
  reachable : ∀ d, Live w d → Reached w d
  acyclic : ∀ d, Live w d → ¬Relation.TransGen (Beneath (IsDir w) (Entry w)) d d
  parent : ∀ p n d, IsDir w d → Entry w p n d → ∀ q, (dotdot, q) ∈ children w d ↔ q = p
  names : ∀ d, (∀ e ∈ children w d, e.1 ≠ []) ∧ ((children w d).map Prod.fst).Nodup
  count : ∀ d c count, w.dirOf d = some (c, count) → count = c.length
  nlink : ∀ i x, w.inodes i = some x → x.isDir = false → x.nlink = namings w i

theorem Sound.reachable {d : Ino} (sound : Sound w none held 0) (live : Live w d) : Reached w d := by
  obtain ⟨isDir, rfl | ⟨p, n, entry⟩ | ⟨n, i, entry⟩⟩ := live
  · exact .refl
  · exact sound.reached_of_entry entry isDir
  · obtain ⟨t, rfl | none_, way⟩ := sound.tree.reach entry
    · exact way
    · cases none_

theorem Sound.namespace (sound : Sound w none held 0) : Namespace w := by
  refine ⟨⟨sound.tree.rootDir, fun p n => sound.tree.top⟩, fun d live notRoot => ?_,
    fun d => sound.reachable, fun d live => sound.tree.acyclic (sound.reachable live),
    fun p n d isDir entry q => ?_, fun d => ⟨fun e mem empty => ?_, sound.unique d⟩,
    fun d c count => sound.count, fun i x was leaf => ?_⟩
  · rcases Relation.ReflTransGen.cases_tail (sound.reachable live) with rfl | ⟨p, -, isDir, n, entry⟩
    · exact absurd rfl notRoot
    · refine ⟨(p, n), entry, fun e other => ?_⟩
      obtain ⟨same, name⟩ := sound.tree.owner isDir other entry
      exact Prod.ext same name
  · have up := sound.up isDir entry
    constructor
    · intro mem
      exact Option.some.inj ((dentryFind_of_mem (sound.unique d) mem).symm.trans
        (dentryFind_of_mem (sound.unique d) up))
    · rintro rfl
      exact up
  · exact sound.nonempty (show ([], e.2) ∈ children w d from empty ▸ mem)
  · have links := sound.nlink was leaf
    rwa [Pi.zero_apply, add_zero] at links

/-- The root with its two entries. -/
def ramfsRoot : World :=
  { blank.setInode 1 (some ⟨.dir [(dotdot, 1), (dot, 1)] 2, 2, none, 3⟩) with
    nextIno := 2
    root := 1 }

theorem freshRamfs_eq : freshRamfs = some ramfsRoot := by
  simp [freshRamfs, ramfsCreateRoot, inodeAlloc, addLink, dentryAdd, World.mapInode, World.setInode,
    World.dirOf, World.setDir, dentryFind, inodeRef, blank, dot, dotdot, ramfsRoot]

theorem dirOf_ramfsRoot (d : Ino) :
    ramfsRoot.dirOf d = if d = 1 then some ([(dotdot, 1), (dot, 1)], 2) else none := by
  by_cases here : d = 1
  · subst here
    rfl
  · have none_ : ramfsRoot.inodes d = none := inodes_setInode_ne _ here
    rw [if_neg here, World.dirOf, none_]

theorem children_ramfsRoot (d : Ino) :
    children ramfsRoot d = if d = 1 then [(dotdot, 1), (dot, 1)] else [] := by
  rw [children, dirOf_ramfsRoot]
  split
  · rfl
  · rfl

theorem freshRamfs_sound (made : freshRamfs = some w) : Sound w none 0 0 := by
  obtain rfl := Option.some.inj (freshRamfs_eq.symm.trans made)
  have only : ∀ {i x}, ramfsRoot.inodes i = some x →
      i = 1 ∧ x = ⟨.dir [(dotdot, 1), (dot, 1)] 2, 2, none, 3⟩ := by
    intro i x was
    by_cases here : i = 1
    · subst here
      exact ⟨rfl, (Option.some.inj was).symm⟩
    · have none_ : ramfsRoot.inodes i = none := inodes_setInode_ne _ here
      rw [none_] at was
      cases was
  have dirs : ∀ {d}, IsDir ramfsRoot d → d = 1 := by
    intro d isDir
    obtain ⟨⟨c, count⟩, at_⟩ := Option.ne_none_iff_exists'.mp isDir
    obtain ⟨x, was, -⟩ := inode_of_dirOf at_
    exact (only was).1
  have mem : ∀ {d n i}, (n, i) ∈ children ramfsRoot d → d = 1 ∧ i = 1 ∧ (n = dotdot ∨ n = dot) := by
    intro d n i mem
    rw [children_ramfsRoot] at mem
    split at mem
    · rename_i here
      simp only [List.mem_cons, Prod.mk.injEq, List.not_mem_nil, or_false] at mem
      rcases mem with ⟨name, rfl⟩ | ⟨name, rfl⟩
      · exact ⟨here, rfl, .inl name⟩
      · exact ⟨here, rfl, .inr name⟩
    · cases mem
  have noEntry : ∀ {p n i}, ¬Entry ramfsRoot p n i := by
    rintro p n i ⟨there, real⟩
    rcases (mem there).2.2 with rfl | rfl
    · exact real.2 rfl
    · exact real.1 rfl
  refine ⟨⟨⟨?_, nofun, noEntry, nofun, fun _ entry => absurd entry noEntry,
    fun entry => absurd entry noEntry⟩, fun _ entry => absurd entry noEntry, ?_, fun isDir => ?_,
    fun d => ?_, fun empty => ?_, fun {d c count} at_ => ?_⟩, fun there => ?_, nofun,
    fun was notRoot => ?_, fun was => ?_, fun was leaf => ?_, fun beyond => ?_, fun was => ?_⟩
  · exact (show ramfsRoot.dirOf 1 ≠ none by rw [dirOf_ramfsRoot, if_pos rfl]; exact nofun)
  · show (dotdot, 1) ∈ children ramfsRoot 1
    rw [children_ramfsRoot, if_pos rfl]
    exact List.mem_cons_self ..
  · obtain rfl := dirs isDir
    rw [children_ramfsRoot, if_pos rfl]
    exact List.mem_cons_of_mem _ (List.mem_cons_self ..)
  · rw [children_ramfsRoot]
    split
    · decide
    · exact List.nodup_nil
  · rcases (mem empty).2.2 with same | same
    · cases same
    · cases same
  · obtain rfl := dirs (isDir_of_dirOf at_)
    rw [dirOf_ramfsRoot, if_pos rfl] at at_
    cases at_
    rfl
  · obtain ⟨-, rfl, -⟩ := mem there
    exact nofun
  · exact absurd (only was).1 notRoot
  · obtain ⟨-, rfl⟩ := only was
    decide
  · obtain ⟨-, rfl⟩ := only was
    cases leaf
  · by_contra there
    obtain ⟨x, was⟩ := Option.ne_none_iff_exists'.mp there
    obtain ⟨rfl, -⟩ := only was
    exact absurd beyond (by decide)
  · obtain ⟨-, rfl⟩ := only was
    rfl

instance (w : World) (d : Ino) (n : Name) (i : Ino) : Decidable (Entry w d n i) :=
  inferInstanceAs (Decidable (_ ∧ _))

/-- Two directories, a file with two names, and a link are made, and some of it removed. -/
def someCalls : List Call :=
  [.mkdir ['/', 'a'] true fun _ => true, .mkdir ['/', 'a', '/', 'b'] true fun _ => true,
    .openPath ['/', 'a', '/', 'f'] ⟨true, false, false, true⟩ true fun _ => true,
    .link ['/', 'a', '/', 'f'] ['/', 'a', '/', 'g'] true true,
    .symlink ['/', 'a'] ['/', 'l'] true fun _ => true, .stat ['/', 'l', '/', 'b'],
    .rename ['/', 'a', '/', 'f'] ['/', 'a', '/', 'h'] true, .rmdir ['/', 'a', '/', 'b'] true,
    .unlink ['/', 'a', '/', 'g'] true, .close 3]

end AtmKoala.Vfs
