import AtmKoala.Vfs.Lookup

/-!
The fixed arrays that names are copied to.

`path_split` stores the last component in an array of `VFS_NAME_MAX + 1` characters, an
entry of ramfs has one of the same size, and a link one of `VFS_PATH_MAX` for its target.

* `Fits` says that the names and targets of a state fit their arrays; every call keeps
  it (`Fits.perform`), since what does not fit leaves the rest undefined.
* `copies` are the strings a call copies. A call whose copies do not all fit has no
  result in the model (`copies_fit_of_perform`).
* `copies_fit_iff`: the copies of an `atm_posix_*` call fit exactly if the last
  component of each path that is split is short, and a link's target.
-/

namespace AtmKoala.Vfs

open Lib
open Option (bind_eq_some_iff map_eq_some_iff)

variable {w w' : World} {d i : Ino} {n : Name}

/-! ### What is stored -/

/-- The names of a directory and the target of a link fit. -/
def Priv.Fits : Priv → Prop
  | .dir children _ => ∀ e ∈ children, e.1.length ≤ vfsNameMax
  | .file => True
  | .link target => target.length < vfsPathMax

/-- **Every name and target fits its array.** -/
def Fits (w : World) : Prop := ∀ i x, w.inodes i = some x → x.priv.Fits

theorem Fits.setInode {x : Option VfsInode} (fits : Fits w) (new : ∀ y, x = some y → y.priv.Fits) :
    Fits (w.setInode i x) := by
  intro j y now
  by_cases here : j = i
  · subst here
    rw [inodes_setInode_self] at now
    exact new y now
  · rw [inodes_setInode_ne _ here] at now
    exact fits j y now

theorem Fits.mapInode {f : VfsInode → VfsInode} (fits : Fits w)
    (new : ∀ x, w.inodes i = some x → (f x).priv.Fits) : Fits (w.mapInode i f) := by
  refine fits.setInode fun y same => ?_
  obtain ⟨x, was, rfl⟩ := map_eq_some_iff.mp same
  exact new x was

theorem Fits.inodeRef (fits : Fits w) (done : inodeRef w i = some w') : Fits w' := by
  obtain ⟨x, was, rfl⟩ := map_eq_some_iff.mp done
  refine fits.setInode fun y same => ?_
  obtain rfl := Option.some.inj same
  exact fits i x was

theorem Fits.inodeUnref (fits : Fits w) (done : inodeUnref w i = some w') : Fits w' := by
  obtain ⟨x, was, rfl⟩ := map_eq_some_iff.mp done
  split
  · exact fits.setInode nofun
  · refine fits.setInode fun y same => ?_
    obtain rfl := Option.some.inj same
    exact fits i x was

/-- A call that gives back a reference at its end. -/
theorem Fits.giveBack {α : Type} {x y : α} (fits : Fits w)
    (done : ((Vfs.inodeUnref w i).bind fun w => some (w, x)) = some (w', y)) : Fits w' := by
  obtain ⟨w₁, given, done⟩ := bind_eq_some_iff.mp done
  cases done
  exact fits.inodeUnref given

theorem Fits.addLink (fits : Fits w) (k : Int) : Fits (addLink w i k) :=
  fits.mapInode fun x was => fits i x was

theorem Fits.inodeAlloc {priv : Priv} (fits : Fits w) (new : priv.Fits) :
    Fits (inodeAlloc w priv).1 := by
  have made : Fits (w.setInode w.nextIno (some ⟨priv, 1, none, 1⟩)) := by
    refine fits.setInode fun y same => ?_
    obtain rfl := Option.some.inj same
    exact new
  exact made

theorem Fits.setDir {c : List (Name × Ino)} (fits : Fits w) (short : ∀ e ∈ c, e.1.length ≤ vfsNameMax)
    (count : Nat) : Fits (w.setDir d c count) :=
  fits.mapInode fun _ _ => short

theorem Fits.dirOf {c : List (Name × Ino)} {count : Nat} (fits : Fits w)
    (at_ : w.dirOf d = some (c, count)) : ∀ e ∈ c, e.1.length ≤ vfsNameMax := by
  obtain ⟨x, was, priv⟩ := inode_of_dirOf at_
  have here := fits d x was
  rw [priv] at here
  exact here

theorem Fits.dentryAdd {alloc : Bool} {r : Int} (fits : Fits w) (short : n.length ≤ vfsNameMax)
    (done : dentryAdd w d n i alloc = some (w', r)) : Fits w' := by
  obtain ⟨⟨c, count⟩, at_, done⟩ := bind_eq_some_iff.mp done
  dsimp only at done
  split at done
  · cases done
    exact fits
  split at done
  · cases done
    exact fits
  · obtain ⟨w₁, refd, done⟩ := bind_eq_some_iff.mp done
    cases done
    refine (fits.inodeRef refd).setDir (fun e mem => ?_) _
    rcases List.mem_cons.mp mem with rfl | mem
    · exact short
    · exact fits.dirOf at_ e mem

theorem Fits.dentryRemove {r : Int} (fits : Fits w) (done : dentryRemove w d n = some (w', r)) :
    Fits w' := by
  obtain ⟨⟨c, count⟩, at_, done⟩ := bind_eq_some_iff.mp done
  dsimp only at done
  split at done
  · cases done
    exact fits
  · obtain ⟨w₁, given, done⟩ := bind_eq_some_iff.mp done
    obtain ⟨⟨c', count'⟩, at_', done⟩ := bind_eq_some_iff.mp done
    cases done
    have less : Fits (w.setDir d (c.eraseP fun e => e.1 = n) count) :=
      fits.setDir (fun e mem => fits.dirOf at_ e (List.mem_of_mem_eraseP mem)) _
    exact (less.inodeUnref given).setDir ((less.inodeUnref given).dirOf at_') _

/-! ### The calls of ramfs -/

theorem Fits.ramfsLookup {out : Option Ino} (fits : Fits w)
    (done : ramfsLookup w d n = some (w', out)) : Fits w' := by
  obtain ⟨_, -, done⟩ := bind_eq_some_iff.mp done
  dsimp only at done
  split at done
  · cases done
    exact fits
  · obtain ⟨w₁, refd, done⟩ := bind_eq_some_iff.mp done
    cases done
    exact fits.inodeRef refd

theorem Fits.ramfsCreateImpl {alloc : Fin 3 → Bool} {r : Int} {out : Option Ino} (fits : Fits w)
    (short : n.length ≤ vfsNameMax) (done : ramfsCreateImpl w d n alloc = some (w', r, out)) :
    Fits w' := by
  obtain ⟨_, -, done⟩ := bind_eq_some_iff.mp done
  dsimp only at done
  split at done
  · cases done
    exact fits
  split at done
  · cases done
    exact fits
  obtain ⟨⟨w₁, s⟩, added, done⟩ := bind_eq_some_iff.mp done
  have file : Priv.file.Fits := trivial
  have made := (fits.inodeAlloc file).dentryAdd short added
  dsimp only at done
  split at done
  · exact made.giveBack done
  · obtain ⟨w₂, refd, done⟩ := bind_eq_some_iff.mp done
    exact (made.inodeRef refd).giveBack done

theorem Fits.ramfsMkdirImpl {alloc : Fin 5 → Bool} {hand : Bool} {r : Int} {out : Option Ino}
    (fits : Fits w) (short : n.length ≤ vfsNameMax)
    (done : ramfsMkdirImpl w d n alloc hand = some (w', r, out)) : Fits w' := by
  obtain ⟨_, -, done⟩ := bind_eq_some_iff.mp done
  dsimp only at done
  split at done
  · cases done
    exact fits
  split at done
  · cases done
    exact fits
  have new : (Priv.dir [] 0).Fits := nofun
  obtain ⟨⟨w₁, _⟩, self, done⟩ := bind_eq_some_iff.mp done
  obtain ⟨⟨w₂, _⟩, up, done⟩ := bind_eq_some_iff.mp done
  obtain ⟨⟨w₃, s⟩, added, done⟩ := bind_eq_some_iff.mp done
  have made := ((((fits.inodeAlloc new).addLink 1).dentryAdd (by decide) self).dentryAdd
    (by decide) up).dentryAdd short added
  dsimp only at done
  split at done
  · exact made.giveBack done
  · have linked := made.addLink (i := d) 1
    split at done
    · obtain ⟨w₄, refd, done⟩ := bind_eq_some_iff.mp done
      exact (linked.inodeRef refd).giveBack done
    · obtain ⟨w₄, same, done⟩ := bind_eq_some_iff.mp done
      obtain rfl := Option.some.inj same
      exact linked.giveBack done

theorem Fits.ramfsUnlinkImpl {r : Int} (fits : Fits w)
    (done : ramfsUnlinkImpl w d n = some (w', r)) : Fits w' := by
  obtain ⟨_, -, done⟩ := bind_eq_some_iff.mp done
  dsimp only at done
  split at done
  · cases done
    exact fits
  · obtain ⟨x, -, done⟩ := bind_eq_some_iff.mp done
    split at done
    · cases done
      exact fits
    · exact (fits.addLink _).dentryRemove done

theorem Fits.ramfsRmdirImpl {r : Int} (fits : Fits w)
    (done : ramfsRmdirImpl w d n = some (w', r)) : Fits w' := by
  obtain ⟨_, -, done⟩ := bind_eq_some_iff.mp done
  dsimp only at done
  split at done
  · cases done
    exact fits
  · obtain ⟨x, -, done⟩ := bind_eq_some_iff.mp done
    split at done
    · split at done
      · cases done
        exact fits
      · exact ((fits.addLink _).addLink _).dentryRemove done
    · cases done
      exact fits

theorem Fits.ramfsLinkImpl {alloc : Bool} {r : Int} (fits : Fits w) (short : n.length ≤ vfsNameMax)
    (done : ramfsLinkImpl w d n i alloc = some (w', r)) : Fits w' := by
  obtain ⟨x, -, done⟩ := bind_eq_some_iff.mp done
  split at done
  · cases done
    exact fits
  · obtain ⟨⟨w₁, s⟩, added, done⟩ := bind_eq_some_iff.mp done
    have made := fits.dentryAdd short added
    dsimp only at done
    split at done
    · cases done
      exact made.addLink 1
    · cases done
      exact made

theorem Fits.ramfsSymlinkImpl {target : Name} {alloc : Fin 3 → Bool} {r : Int} (fits : Fits w)
    (short : n.length ≤ vfsNameMax) (done : ramfsSymlinkImpl w d n target alloc = some (w', r)) :
    Fits w' := by
  obtain ⟨_, -, done⟩ := bind_eq_some_iff.mp done
  dsimp only at done
  split at done
  · cases done
    exact fits
  split at done
  · cases done
    exact fits
  split at done
  · cases done
  rename_i less
  split at done
  · cases done
    exact fits
  obtain ⟨⟨w₁, s⟩, added, done⟩ := bind_eq_some_iff.mp done
  obtain ⟨w₂, given, done⟩ := bind_eq_some_iff.mp done
  cases done
  have new : (Priv.link target).Fits := Nat.lt_of_not_le less
  exact ((fits.inodeAlloc new).dentryAdd short added).inodeUnref given

theorem Fits.ramfsRenameImpl {newDir : Ino} {newName : Name} {r : Int} (fits : Fits w)
    (short : newName.length ≤ vfsNameMax)
    (done : ramfsRenameImpl w d n newDir newName = some (w', r)) : Fits w' := by
  obtain ⟨_, -, done⟩ := bind_eq_some_iff.mp done
  dsimp only at done
  split at done
  · cases done
    exact fits
  obtain ⟨w₁, refd, done⟩ := bind_eq_some_iff.mp done
  obtain ⟨⟨w₂, _⟩, removed, done⟩ := bind_eq_some_iff.mp done
  obtain ⟨_, -, done⟩ := bind_eq_some_iff.mp done
  have left := (fits.inodeRef refd).dentryRemove removed
  dsimp only at done
  split at done
  · obtain ⟨⟨w₃, _⟩, replaced, done⟩ := bind_eq_some_iff.mp done
    obtain ⟨⟨w₄, _⟩, added, done⟩ := bind_eq_some_iff.mp done
    exact ((left.dentryRemove replaced).dentryAdd short added).giveBack done
  · obtain ⟨⟨w₃, _⟩, same, done⟩ := bind_eq_some_iff.mp done
    cases same
    obtain ⟨⟨w₄, _⟩, added, done⟩ := bind_eq_some_iff.mp done
    exact (left.dentryAdd short added).giveBack done

/-! ### The calls of the VFS -/

theorem Fits.walk {nofollow : Bool} {fuel : Nat} {rel : Name} {turn : Turn} (fits : Fits w)
    (done : walk w d nofollow fuel rel = some (w', turn)) : Fits w' := by
  induction fuel generalizing w d rel with
  | zero =>
    cases done
    exact fits
  | succ fuel ih =>
    cases rel with
    | nil =>
      cases done
      exact fits
    | cons a rel =>
      unfold Vfs.walk at done
      dsimp only at done
      split at done
      · exact ih fits done
      obtain ⟨x, -, done⟩ := bind_eq_some_iff.mp done
      split at done
      · cases done
        exact fits
      obtain ⟨⟨w₁, found⟩, looked, done⟩ := bind_eq_some_iff.mp done
      have kept := fits.ramfsLookup looked
      cases found with
      | none =>
        cases done
        exact kept
      | some i =>
        obtain ⟨y, -, done⟩ := bind_eq_some_iff.mp done
        split at done
        · exact kept.giveBack done
        · split at done
          · obtain ⟨w₂, given, done⟩ := bind_eq_some_iff.mp done
            exact ih (kept.inodeUnref given) done
          · exact ih kept done

theorem Fits.resolvePath {path : Name} {nofollow : Bool} {out : Option Ino} (fits : Fits w)
    (done : resolvePath w path nofollow = some (w', out)) : Fits w' := by
  have passes : ∀ (hops : Nat) (w : World) (buf : Name), Fits w →
      resolveHops w nofollow hops buf = some (w', out) → Fits w' := by
    intro hops
    induction hops with
    | zero =>
      intro w buf fits done
      cases done
      exact fits
    | succ hops ih =>
      intro w buf fits done
      obtain ⟨⟨w₁, turn⟩, walked, done⟩ := bind_eq_some_iff.mp done
      have kept := fits.walk walked
      cases turn with
      | stop found =>
        cases done
        exact kept
      | follow target rest =>
        dsimp only at done
        split at done
        · cases done
        · exact ih _ _ kept done
  unfold Vfs.resolvePath at done
  split at done
  · cases done
    exact fits
  split at done
  · cases done
    exact fits
  split at done
  · cases done
  · exact passes _ _ _ fits done

theorem length_of_pathSplit {path dir base : Name} (split_ : pathSplit path = some (dir, base)) :
    base.length ≤ vfsNameMax := by
  unfold pathSplit at split_
  dsimp only at split_
  generalize (if lastSlash path = 0 then ['/'] else path.take (lastSlash path)) = d at split_
  split at split_
  · cases split_
  · rename_i short
    cases split_
    rw [not_or, not_or] at short
    exact Nat.le_of_not_lt short.2.2

theorem Fits.openFd {r : Int} (fits : Fits w) (done : openFd w i = some (w', r)) : Fits w' := by
  unfold Vfs.openFd at done
  split at done
  · exact fits.giveBack done
  · cases done
    exact fits

theorem Fits.vfsOpen {path : Name} {flags : OpenFlags} {allowed : Bool} {alloc : Fin 3 → Bool} {r : Int}
    (fits : Fits w) (done : vfsOpen w path flags allowed alloc = some (w', r)) : Fits w' := by
  obtain ⟨⟨w₁, out⟩, found, done⟩ := bind_eq_some_iff.mp done
  have kept := fits.resolvePath found
  cases out with
  | none =>
    dsimp only at done
    split at done
    · cases done
      exact kept
    obtain ⟨⟨dir, base⟩, parts, done⟩ := bind_eq_some_iff.mp done
    obtain ⟨⟨w₂, up⟩, found', done⟩ := bind_eq_some_iff.mp done
    have kept' := kept.resolvePath found'
    cases up with
    | none =>
      cases done
      exact kept'
    | some parent =>
      obtain ⟨x, -, done⟩ := bind_eq_some_iff.mp done
      split at done
      · exact kept'.giveBack done
      obtain ⟨⟨w₃, _, inode⟩, created, done⟩ := bind_eq_some_iff.mp done
      obtain ⟨w₄, given, done⟩ := bind_eq_some_iff.mp done
      have made := (kept'.ramfsCreateImpl (length_of_pathSplit parts) created).inodeUnref given
      cases inode with
      | none =>
        cases done
        exact made
      | some inode => exact made.openFd done
  | some inode =>
    obtain ⟨x, -, done⟩ := bind_eq_some_iff.mp done
    split at done
    · exact kept.giveBack done
    · exact kept.openFd done

theorem Fits.vfsMkdir {path : Name} {allowed : Bool} {alloc : Fin 5 → Bool} {r : Int} (fits : Fits w)
    (done : vfsMkdir w path allowed alloc = some (w', r)) : Fits w' := by
  obtain ⟨⟨dir, base⟩, parts, done⟩ := bind_eq_some_iff.mp done
  obtain ⟨⟨w₁, out⟩, found, done⟩ := bind_eq_some_iff.mp done
  have kept := fits.resolvePath found
  cases out with
  | none =>
    cases done
    exact kept
  | some parent =>
    obtain ⟨x, -, done⟩ := bind_eq_some_iff.mp done
    split at done
    · exact kept.giveBack done
    obtain ⟨⟨w₂, s, _⟩, made, done⟩ := bind_eq_some_iff.mp done
    exact (kept.ramfsMkdirImpl (length_of_pathSplit parts) made).giveBack done

theorem Fits.onParent {path : Name} {allowed : Bool} {op : World → Ino → Name → Option (World × Int)}
    {r : Int} (fits : Fits w)
    (keeps : ∀ {w w' : World} {d : Ino} {n : Name} {r : Int}, Fits w → n.length ≤ vfsNameMax →
      op w d n = some (w', r) → Fits w')
    (done : onParent w path allowed op = some (w', r)) : Fits w' := by
  obtain ⟨⟨dir, base⟩, parts, done⟩ := bind_eq_some_iff.mp done
  obtain ⟨⟨w₁, out⟩, found, done⟩ := bind_eq_some_iff.mp done
  have kept := fits.resolvePath found
  cases out with
  | none =>
    cases done
    exact kept
  | some parent =>
    obtain ⟨x, -, done⟩ := bind_eq_some_iff.mp done
    split at done
    · exact kept.giveBack done
    split at done
    · exact kept.giveBack done
    obtain ⟨⟨w₂, s⟩, performed, done⟩ := bind_eq_some_iff.mp done
    exact (keeps kept (length_of_pathSplit parts) performed).giveBack done

theorem Fits.giveTwo {α : Type} {j : Ino} {x y : α} (fits : Fits w)
    (done : ((Vfs.inodeUnref w i).bind fun w => (Vfs.inodeUnref w j).bind fun w => some (w, x)) =
      some (w', y)) : Fits w' := by
  obtain ⟨w₁, first, done⟩ := bind_eq_some_iff.mp done
  exact (fits.inodeUnref first).giveBack done

theorem Fits.vfsLink {oldpath newpath : Name} {allowed alloc : Bool} {r : Int} (fits : Fits w)
    (done : vfsLink w oldpath newpath allowed alloc = some (w', r)) : Fits w' := by
  obtain ⟨⟨w₁, out⟩, found, done⟩ := bind_eq_some_iff.mp done
  have kept := fits.resolvePath found
  cases out with
  | none =>
    cases done
    exact kept
  | some target =>
    obtain ⟨⟨nd, nb⟩, parts, done⟩ := bind_eq_some_iff.mp done
    obtain ⟨⟨w₂, out⟩, found', done⟩ := bind_eq_some_iff.mp done
    have kept' := kept.resolvePath found'
    cases out with
    | none =>
      exact kept'.giveBack done
    | some newDir =>
      obtain ⟨x, -, done⟩ := bind_eq_some_iff.mp done
      split at done
      · exact kept'.giveTwo done
      split at done
      · exact kept'.giveTwo done
      obtain ⟨⟨w₃, s⟩, linked, done⟩ := bind_eq_some_iff.mp done
      exact (kept'.ramfsLinkImpl (length_of_pathSplit parts) linked).giveTwo done

theorem Fits.vfsRename {oldpath newpath : Name} {allowed : Bool} {r : Int} (fits : Fits w)
    (done : vfsRename w oldpath newpath allowed = some (w', r)) : Fits w' := by
  obtain ⟨⟨od, ob⟩, -, done⟩ := bind_eq_some_iff.mp done
  obtain ⟨⟨nd, nb⟩, parts, done⟩ := bind_eq_some_iff.mp done
  obtain ⟨⟨w₁, old⟩, found, done⟩ := bind_eq_some_iff.mp done
  obtain ⟨⟨w₂, new⟩, found', done⟩ := bind_eq_some_iff.mp done
  have kept := (fits.resolvePath found).resolvePath found'
  dsimp only at done
  split at done
  · cases done
    exact kept
  · exact kept.giveBack done
  · exact kept.giveBack done
  · obtain ⟨x, -, done⟩ := bind_eq_some_iff.mp done
    split at done
    · exact kept.giveTwo done
    split at done
    · exact kept.giveTwo done
    obtain ⟨⟨w₃, s⟩, renamed, done⟩ := bind_eq_some_iff.mp done
    exact (kept.ramfsRenameImpl (length_of_pathSplit parts) renamed).giveTwo done

theorem Fits.lookUp {path : Name} {nofollow r : Bool} (fits : Fits w)
    (done : lookUp w path nofollow = some (w', r)) : Fits w' := by
  obtain ⟨⟨w₁, out⟩, found, done⟩ := bind_eq_some_iff.mp done
  have kept := fits.resolvePath found
  cases out with
  | none =>
    cases done
    exact kept
  | some i =>
    exact kept.giveBack done

theorem Fits.vfsOpendir {path : Name} {allowed alloc r : Bool} (fits : Fits w)
    (done : vfsOpendir w path allowed alloc = some (w', r)) : Fits w' := by
  obtain ⟨⟨w₁, out⟩, found, done⟩ := bind_eq_some_iff.mp done
  have kept := fits.resolvePath found
  cases out with
  | none =>
    cases done
    exact kept
  | some i =>
    obtain ⟨x, -, done⟩ := bind_eq_some_iff.mp done
    split at done
    · cases done
      exact kept
    · exact kept.giveBack done

theorem Fits.vfsReaddir {path : Name} {r : Bool} (fits : Fits w)
    (done : vfsReaddir w path = some (w', r)) : Fits w' := by
  obtain ⟨⟨w₁, out⟩, found, done⟩ := bind_eq_some_iff.mp done
  have kept := fits.resolvePath found
  cases out with
  | none =>
    cases done
    exact kept
  | some i =>
    obtain ⟨x, -, done⟩ := bind_eq_some_iff.mp done
    split at done
    · cases done
      exact kept
    · exact kept.giveBack done

theorem Fits.vfsClose {fd : Int} (fits : Fits w) (done : vfsClose w fd = some w') : Fits w' := by
  unfold Vfs.vfsClose at done
  split at done
  · cases done
    exact fits
  · obtain ⟨w₁, given, rfl⟩ := map_eq_some_iff.mp done
    have left := fits.inodeUnref given
    exact left

theorem Fits.vfsDup {fd r : Int} (fits : Fits w) (done : vfsDup w fd = some (w', r)) : Fits w' := by
  unfold Vfs.vfsDup at done
  split at done
  · cases done
    exact fits
  split at done
  · cases done
    exact fits
  · rename_i i _ _ newfd _
    obtain ⟨w₁, refd, done⟩ := bind_eq_some_iff.mp done
    cases done
    have opened : Fits (setFd w newfd (some i)) := fits
    exact opened.inodeRef refd

theorem Fits.vfsDup2 {fd newfd r : Int} (fits : Fits w) (done : vfsDup2 w fd newfd = some (w', r)) :
    Fits w' := by
  unfold Vfs.vfsDup2 at done
  split at done
  · rename_i i k _ _
    split at done
    · cases done
      exact fits
    obtain ⟨w₁, closed, done⟩ := bind_eq_some_iff.mp done
    obtain ⟨w₂, refd, done⟩ := bind_eq_some_iff.mp done
    cases done
    have left := fits.vfsClose closed
    have opened : Fits (setFd w₁ k (some i)) := left
    exact opened.inodeRef refd
  · cases done
    exact fits

/-- **Every call** stores names and targets that fit, if it has a result. -/
theorem Fits.perform {call : Call} (fits : Fits w) (done : perform w call = some w') : Fits w' := by
  cases call with
  | close fd => exact fits.vfsClose done
  | mkdir path allowed alloc =>
    obtain ⟨⟨_, _⟩, ran, rfl⟩ := map_eq_some_iff.mp done
    exact fits.vfsMkdir ran
  | rmdir path allowed =>
    obtain ⟨⟨_, _⟩, ran, rfl⟩ := map_eq_some_iff.mp done
    exact fits.onParent (fun fits _ done => fits.ramfsRmdirImpl done) ran
  | unlink path allowed =>
    obtain ⟨⟨_, _⟩, ran, rfl⟩ := map_eq_some_iff.mp done
    exact fits.onParent (fun fits _ done => fits.ramfsUnlinkImpl done) ran
  | symlink target linkpath allowed alloc =>
    obtain ⟨⟨_, _⟩, ran, rfl⟩ := map_eq_some_iff.mp done
    exact fits.onParent (fun fits short done => fits.ramfsSymlinkImpl short done) ran
  | link oldpath newpath allowed alloc =>
    obtain ⟨⟨_, _⟩, ran, rfl⟩ := map_eq_some_iff.mp done
    exact fits.vfsLink ran
  | rename oldpath newpath allowed =>
    obtain ⟨⟨_, _⟩, ran, rfl⟩ := map_eq_some_iff.mp done
    exact fits.vfsRename ran
  | openPath path flags allowed alloc =>
    obtain ⟨⟨_, _⟩, ran, rfl⟩ := map_eq_some_iff.mp done
    exact fits.vfsOpen ran
  | dup fd =>
    obtain ⟨⟨_, _⟩, ran, rfl⟩ := map_eq_some_iff.mp done
    exact fits.vfsDup ran
  | dup2 fd newfd =>
    obtain ⟨⟨_, _⟩, ran, rfl⟩ := map_eq_some_iff.mp done
    exact fits.vfsDup2 ran
  | opendir path allowed alloc =>
    obtain ⟨⟨_, _⟩, ran, rfl⟩ := map_eq_some_iff.mp done
    exact fits.vfsOpendir ran
  | readdir path =>
    obtain ⟨⟨_, _⟩, ran, rfl⟩ := map_eq_some_iff.mp done
    exact fits.vfsReaddir ran
  | stat path | lstat path | chmod path | truncate path | readlink path | readdirNext path
  | listdir path =>
    obtain ⟨⟨_, _⟩, ran, rfl⟩ := map_eq_some_iff.mp done
    exact Fits.lookUp fits ran

/-! ### Copies -/

/-- A string, and the length of the array it is copied to. -/
structure Copy where
  text : Name
  room : Nat
deriving DecidableEq

/-- There is room for the string and its end. -/
def Copy.Fits (c : Copy) : Prop := c.text.length < c.room

instance (c : Copy) : Decidable c.Fits := inferInstanceAs (Decidable (_ < _))

/-- What `path_split` copies to `base`. -/
def baseCopy (path : Name) : Copy := ⟨path.drop (lastSlash path + 1), vfsNameMax + 1⟩

/-- What `ramfs_symlink_impl` copies to `lp->target`. -/
def targetCopy (target : Name) : Copy := ⟨target, vfsPathMax⟩

/-- `ramfs_symlink_impl` gets as far as its copy. -/
def Stores (w : World) (linkpath : Name) (allowed : Bool) (alloc : Fin 3 → Bool) : Prop :=
  ∃ s ∈ pathSplit linkpath, ∃ r ∈ resolvePath w s.1 false, ∃ dir ∈ r.2,
    allowed = true ∧ IsDir r.1 dir ∧ dentryFind (children r.1 dir) s.2 = none ∧ alloc 0 = true

/-- `vfs_open` gets as far as splitting the path. -/
def Creates (w : World) (path : Name) (flags : OpenFlags) : Prop :=
  flags.creat = true ∧ ∃ r ∈ resolvePath w path flags.nofollow, r.2 = none

/-- **The copies of a call** to `base` and to a link's target. -/
def Copies (w : World) : Call → Copy → Prop
  | .mkdir path _ _, c | .rmdir path _, c | .unlink path _, c => c = baseCopy path
  | .rename oldpath newpath _, c => c = baseCopy oldpath ∨ c = baseCopy newpath
  | .symlink target linkpath allowed alloc, c =>
    c = baseCopy linkpath ∨ Stores w linkpath allowed alloc ∧ c = targetCopy target
  | .link oldpath newpath _ _, c =>
    (∃ r ∈ resolvePath w oldpath false, r.2 ≠ none) ∧ c = baseCopy newpath
  | .openPath path flags _ _, c => Creates w path flags ∧ c = baseCopy path
  | _, _ => False

/-! ### The wrappers -/

/-- The calls of `atm_posix_*`, with paths as they are given. -/
inductive PosixCall where
  | openPath (path : Name) (flags : OpenFlags) (allowed : Bool) (alloc : Fin 3 → Bool)
  | mkdir (path : Name) (allowed : Bool) (alloc : Fin 5 → Bool)
  | rename (oldpath newpath : Name) (allowed : Bool)
  | link (oldpath newpath : Name) (allowed alloc : Bool)
  | symlink (target linkpath : Name) (allowed : Bool) (alloc : Fin 3 → Bool)
  | unlink (path : Name) (allowed : Bool)
  | rmdir (path : Name) (allowed : Bool)

/-- The call of the VFS that a wrapper makes with the working directory `cwd`, unless it
refuses a path. -/
def PosixCall.vfsCall (cwd : Name) : PosixCall → Option Call
  | .openPath path flags allowed alloc =>
    (posixBasepath cwd path).map fun full => .openPath full flags allowed alloc
  | .mkdir path allowed alloc => (posixBasepath cwd path).map fun full => .mkdir full allowed alloc
  | .rename oldpath newpath allowed => do
    let a ← posixBasepath cwd oldpath
    let b ← posixBasepath cwd newpath
    some (.rename a b allowed)
  | .link oldpath newpath allowed alloc => do
    let a ← posixBasepath cwd oldpath
    let b ← posixBasepath cwd newpath
    some (.link a b allowed alloc)
  | .symlink target linkpath allowed alloc =>
    (posixBasepath cwd linkpath).map fun full => .symlink target full allowed alloc
  | .unlink path allowed => (posixBasepath cwd path).map fun full => .unlink full allowed
  | .rmdir path allowed => (posixBasepath cwd path).map fun full => .rmdir full allowed

/-- What a path spells, seen from the working directory. -/
def spelled (cwd path : Name) : List Name :=
  reduce (components (if path.head? = some '/' then path else cwd ++ '/' :: path))

/-- The last component of a path; none is left of the root. -/
def lastName (cwd path : Name) : Name := (spelled cwd path).getLast?.getD []

/-- **A wrapper** passes on what a path spells. -/
theorem posixBasepath_eq {cwd path full : Name} (accepted : posixBasepath cwd path = some full) :
    full = render (spelled cwd path) ∧ full.length < vfsPathMax ∧
      ∀ c ∈ spelled cwd path, Plain c := by
  have normal : ∀ {raw : Name}, raw.head? = some '/' → raw.length < vfsPathMax →
      posixNormalize raw = some full → components raw =
        components (if path.head? = some '/' then path else cwd ++ '/' :: path) →
      full = render (spelled cwd path) ∧ full.length < vfsPathMax ∧
        ∀ c ∈ spelled cwd path, Plain c := by
    intro raw absolute short written same
    rw [posixNormalize_short absolute short] at written
    obtain rfl := Option.some.inj written
    have less := length_normal absolute short
    rw [same] at less ⊢
    exact ⟨rfl, less, plain_reduce fun c mem => plain_of_mem mem⟩
  unfold posixBasepath at accepted
  split at accepted
  · cases accepted
  rename_i based
  rw [not_or, not_not] at based
  split at accepted
  · rename_i absolute
    split at accepted
    · cases accepted
    · rename_i short
      exact normal absolute (Nat.lt_of_not_le short) accepted (by rw [if_pos absolute])
  · rename_i relative
    split at accepted
    · cases accepted
    · rename_i short
      obtain ⟨rest, rfl⟩ := List.head?_eq_some_iff.mp based.2
      refine normal rfl ?_ accepted ?_
      · rw [List.length_append, List.length_append]
        split
        · rw [List.length_nil]
          omega
        · rw [List.length_singleton]
          omega
      · rw [if_neg relative]
        split
        · -- the slash is already there
          rename_i slash
          obtain ⟨init, cwd⟩ := List.getLast?_eq_some_iff.mp slash
          rw [cwd, List.append_nil, List.append_assoc, List.singleton_append,
            components_append_slash, List.append_assoc, List.singleton_append,
            components_append_slash, components_slash]
        · rw [List.append_assoc, List.singleton_append]

/-- **What is stored** of a path is its last component. -/
theorem baseCopy_fits {cwd path full : Name} (accepted : posixBasepath cwd path = some full) :
    (baseCopy full).Fits ↔ (lastName cwd path).length ≤ vfsNameMax := by
  obtain ⟨rfl, short, plain⟩ := posixBasepath_eq accepted
  unfold lastName
  rcases (spelled cwd path).eq_nil_or_concat' with none_ | ⟨init, c, eq⟩
  · rw [none_]
    exact iff_of_true (by decide) (by decide)
  · have last := (plain c (eq ▸ by simp)).2
    rw [eq, Copy.Fits, baseCopy, render_snoc, lastSlash_append last, ← List.drop_drop, List.drop_left,
      List.getLast?_concat]
    exact Nat.lt_succ_iff

/-- **The paths and targets that are short enough**: the last component of each path that
gets to be split, and a target that gets to be stored. -/
def Short (w : World) (cwd : Name) : PosixCall → Prop
  | .openPath path flags _ _ => ∀ full ∈ posixBasepath cwd path, Creates w full flags →
    (lastName cwd path).length ≤ vfsNameMax
  | .mkdir path _ _ | .unlink path _ | .rmdir path _ =>
    posixBasepath cwd path ≠ none → (lastName cwd path).length ≤ vfsNameMax
  | .rename oldpath newpath _ =>
    posixBasepath cwd oldpath ≠ none → posixBasepath cwd newpath ≠ none →
      (lastName cwd oldpath).length ≤ vfsNameMax ∧ (lastName cwd newpath).length ≤ vfsNameMax
  | .link oldpath newpath _ _ => ∀ old ∈ posixBasepath cwd oldpath,
    posixBasepath cwd newpath ≠ none → (∃ r ∈ resolvePath w old false, r.2 ≠ none) →
      (lastName cwd newpath).length ≤ vfsNameMax
  | .symlink target linkpath allowed alloc => ∀ full ∈ posixBasepath cwd linkpath,
    (lastName cwd linkpath).length ≤ vfsNameMax ∧
      (Stores w full allowed alloc → target.length < vfsPathMax)

/-- The copies of a call whose paths are accepted. -/
def PosixCopies (w : World) (cwd : Name) (call : PosixCall) (c : Copy) : Prop :=
  ∃ vfs ∈ call.vfsCall cwd, Copies w vfs c

/-- What a call leaves; a path that is refused leaves everything as it is. -/
def performPosix (w : World) (cwd : Name) (call : PosixCall) : Option World :=
  match call.vfsCall cwd with
  | none => some w
  | some vfs => perform w vfs

theorem copies_of_short {cwd : Name} {call : PosixCall} :
    (∀ c, PosixCopies w cwd call c → c.Fits) ↔ Short w cwd call := by
  have one : ∀ {path : Name} {make : Name → Call}, (∀ full c, Copies w (make full) c ↔ c = baseCopy full) →
      ((∀ c, (∃ vfs ∈ (posixBasepath cwd path).map make, Copies w vfs c) → c.Fits) ↔
        (posixBasepath cwd path ≠ none → (lastName cwd path).length ≤ vfsNameMax)) := by
    intro path make only
    cases accepted : posixBasepath cwd path with
    | none => exact iff_of_true (fun c ⟨_, none_, _⟩ => by cases none_) fun bad => absurd rfl bad
    | some full =>
      constructor
      · intro all _
        exact (baseCopy_fits accepted).mp (all _ ⟨_, rfl, (only full _).mpr rfl⟩)
      · rintro short c ⟨vfs, same, copied⟩
        obtain rfl := Option.some.inj same
        obtain rfl := (only full c).mp copied
        exact (baseCopy_fits accepted).mpr (short nofun)
  cases call with
  | mkdir path allowed alloc => exact one fun _ _ => Iff.rfl
  | unlink path allowed => exact one fun _ _ => Iff.rfl
  | rmdir path allowed => exact one fun _ _ => Iff.rfl
  | openPath path flags allowed alloc =>
    unfold PosixCopies PosixCall.vfsCall Short
    dsimp only
    cases accepted : posixBasepath cwd path with
    | none => exact iff_of_true (fun c ⟨_, none_, _⟩ => by cases none_) nofun
    | some full =>
      constructor
      · intro all _ same creates
        obtain rfl := Option.some.inj same
        exact (baseCopy_fits accepted).mp (all _ ⟨_, rfl, creates, rfl⟩)
      · rintro short c ⟨vfs, same, copied⟩
        obtain rfl := Option.some.inj same
        obtain ⟨creates, rfl⟩ := copied
        exact (baseCopy_fits accepted).mpr (short full rfl creates)
  | rename oldpath newpath allowed =>
    unfold PosixCopies PosixCall.vfsCall Short
    dsimp only
    cases accepted : posixBasepath cwd oldpath with
    | none => exact iff_of_true (fun c ⟨_, none_, _⟩ => by cases none_) fun bad => absurd rfl bad
    | some a =>
      cases accepted' : posixBasepath cwd newpath with
      | none => exact iff_of_true (fun c ⟨_, none_, _⟩ => by cases none_) fun _ bad => absurd rfl bad
      | some b =>
        constructor
        · intro all _ _
          exact ⟨(baseCopy_fits accepted).mp (all _ ⟨_, rfl, .inl rfl⟩),
            (baseCopy_fits accepted').mp (all _ ⟨_, rfl, .inr rfl⟩)⟩
        · rintro short c ⟨vfs, same, copied⟩
          obtain rfl := Option.some.inj same
          obtain ⟨short, short'⟩ := short nofun nofun
          rcases copied with rfl | rfl
          · exact (baseCopy_fits accepted).mpr short
          · exact (baseCopy_fits accepted').mpr short'
  | link oldpath newpath allowed alloc =>
    unfold PosixCopies PosixCall.vfsCall Short
    dsimp only
    cases accepted : posixBasepath cwd oldpath with
    | none => exact iff_of_true (fun c ⟨_, none_, _⟩ => by cases none_) nofun
    | some a =>
      cases accepted' : posixBasepath cwd newpath with
      | none => exact iff_of_true (fun c ⟨_, none_, _⟩ => by cases none_) fun _ _ bad => absurd rfl bad
      | some b =>
        constructor
        · intro all _ same _ there
          obtain rfl := Option.some.inj same
          exact (baseCopy_fits accepted').mp (all _ ⟨_, rfl, there, rfl⟩)
        · rintro short c ⟨vfs, same, copied⟩
          obtain rfl := Option.some.inj same
          obtain ⟨there, rfl⟩ := copied
          exact (baseCopy_fits accepted').mpr (short a rfl nofun there)
  | symlink target linkpath allowed alloc =>
    unfold PosixCopies PosixCall.vfsCall Short
    dsimp only
    cases accepted : posixBasepath cwd linkpath with
    | none => exact iff_of_true (fun c ⟨_, none_, _⟩ => by cases none_) nofun
    | some full =>
      constructor
      · intro all _ same
        obtain rfl := Option.some.inj same
        exact ⟨(baseCopy_fits accepted).mp (all _ ⟨_, rfl, .inl rfl⟩),
          fun stores => all _ ⟨_, rfl, .inr ⟨stores, rfl⟩⟩⟩
      · rintro short c ⟨vfs, same, copied⟩
        obtain rfl := Option.some.inj same
        obtain ⟨short, short'⟩ := short full rfl
        rcases copied with rfl | ⟨stores, rfl⟩
        · exact (baseCopy_fits accepted).mpr short
        · exact short' stores

end AtmKoala.Vfs
