import AtmKoala.Lib.Run
import AtmKoala.Vfs.Kernel

/-!
Who can change a file.

* `Leaves touched k k'`: from `k` to `k'` the contents, modes and owners of all inodes but
  those `touched` are the same.
* `perform_leaves`: a call touches at most the inodes of `Touches`, which lists what the
  session has been granted for each of them.
* `write_protected`: a file that the session may not write and does not own keeps its
  contents in every run, as long as no `vfs_open` that reads truncates.
-/

namespace AtmKoala.Vfs

open Lib
open Option (bind_eq_some_iff map_eq_some_iff)

/-- Size and bytes of a regular file of ramfs. -/
def Vnode.bytes (x : Vnode) : Option (Nat × Option RamfsFile) :=
  match x.content with
  | .file data => some (data.size, data.priv)
  | _ => none

/-- What is guarded by the permissions. -/
def Vnode.guarded (x : Vnode) : Option (Nat × Option RamfsFile) × Nat × Nat × Nat :=
  (x.bytes, x.perms, x.uid, x.gid)

namespace Kernel

/-- The session is the same, and so are all inodes that were there and are not `touched`. -/
structure Leaves (touched : Ino → Prop) (k k' : Kernel) : Prop where
  uid : k'.uid = k.uid
  gid : k'.gid = k.gid
  nextIno : k.nextIno ≤ k'.nextIno
  kept : ∀ i < k.nextIno, ¬touched i →
    (k'.inodes i).map Vnode.guarded = (k.inodes i).map Vnode.guarded

variable {touched : Ino → Prop} {k k' k'' : Kernel} {d i : Ino} {n : Name} {x : Vnode} {r : Int}
  {a : Answer}

namespace Leaves

theorem refl (touched : Ino → Prop) (k : Kernel) : Leaves touched k k :=
  ⟨rfl, rfl, Nat.le_refl _, fun _ _ _ => rfl⟩

theorem trans (first : Leaves touched k k') (second : Leaves touched k' k'') :
    Leaves touched k k'' where
  uid := second.uid.trans first.uid
  gid := second.gid.trans first.gid
  nextIno := first.nextIno.trans second.nextIno
  kept i old free := (second.kept i (old.trans_le first.nextIno) free).trans (first.kept i old free)

/-- A change of one inode. -/
theorem update {y : Option Vnode}
    (same : touched i ∨ k.nextIno ≤ i ∨ y.map Vnode.guarded = (k.inodes i).map Vnode.guarded) :
    Leaves touched k { k with inodes := Function.update k.inodes i y } := by
  refine ⟨rfl, rfl, Nat.le_refl _, fun j old free => ?_⟩
  by_cases here : j = i
  · subst here
    show (Function.update k.inodes j y j).map Vnode.guarded = _
    rw [Function.update_self]
    rcases same with touched_ | new | same
    · exact absurd touched_ free
    · exact absurd old (Nat.not_lt_of_le new)
    · exact same
  · show (Function.update k.inodes i y j).map Vnode.guarded = _
    rw [Function.update_of_ne here]

theorem setFd {fd : Fin 64} {f : Option FileDesc} : Leaves touched k (k.setFd fd f) :=
  ⟨rfl, rfl, Nat.le_refl _, fun _ _ _ => rfl⟩

theorem addLink {m : Int} : Leaves touched k (k.addLink i m) :=
  update (.inr (.inr (by cases k.inodes i <;> rfl)))

theorem inodeAlloc {c : Content} {perms : Nat} : Leaves touched k (k.inodeAlloc c perms).1 := by
  have set : Leaves touched k (k.setInode k.nextIno ⟨c, perms, k.uid, k.gid, 1, none⟩) :=
    update (.inr (.inl (Nat.le_refl _)))
  exact ⟨rfl, rfl, Nat.le_succ _, set.kept⟩

theorem setDir {children children' : List (Name × Ino)} {count count' : Nat}
    (at_ : k.dirOf d = some (children, count)) :
    Leaves touched k (k.setContent d (.dir children' count')) := by
  refine update (.inr (.inr ?_))
  unfold dirOf at at_
  cases there : k.inodes d with
  | none => rfl
  | some x =>
    rw [there] at at_
    dsimp only [Option.map_some] at at_ ⊢
    split at at_
    · rename_i content
      simp only [Option.some.injEq] at content
      simp [Vnode.guarded, Vnode.bytes, content]
    · cases at_

end Leaves

/-! ### Names -/

theorem dentryAdd_leaves {alloc : Bool} (done : k.dentryAdd d n i alloc = some (k', r)) :
    Leaves touched k k' := by
  obtain ⟨⟨children, count⟩, at_, done⟩ := bind_eq_some_iff.mp done
  dsimp only at done
  split at done
  · cases done
    exact .refl _ _
  · split at done
    · cases done
      exact .refl _ _
    · cases done
      exact .setDir at_

theorem dentryRemove_leaves (done : k.dentryRemove d n = some (k', r)) : Leaves touched k k' := by
  obtain ⟨⟨children, count⟩, at_, done⟩ := bind_eq_some_iff.mp done
  dsimp only at done
  split at done
  · cases done
    exact .refl _ _
  · cases done
    exact .setDir at_

theorem ramfsCreateImpl_leaves {perms : Nat} {alloc : Fin 3 → Bool} {out : Option Ino}
    (done : k.ramfsCreateImpl d n perms alloc = some (k', r, out)) :
    Leaves touched k k' ∧ ∀ i, out = some i → i = k.nextIno := by
  obtain ⟨⟨children, count⟩, at_, done⟩ := bind_eq_some_iff.mp done
  dsimp only at done
  split at done
  · cases done
    exact ⟨.refl _ _, nofun⟩
  split at done
  · cases done
    exact ⟨.refl _ _, nofun⟩
  · obtain ⟨⟨k₁, r₁⟩, added, done⟩ := bind_eq_some_iff.mp done
    cases done
    refine ⟨Leaves.inodeAlloc.trans (dentryAdd_leaves added), fun i given => ?_⟩
    split at given
    · cases given
    · exact (Option.some.inj given).symm

theorem ramfsMkdirImpl_leaves {perms : Nat} {alloc : Fin 5 → Bool}
    (done : k.ramfsMkdirImpl d n perms alloc = some (k', r)) : Leaves touched k k' := by
  obtain ⟨⟨children, count⟩, at_, done⟩ := bind_eq_some_iff.mp done
  dsimp only at done
  split at done
  · cases done
    exact .refl _ _
  split at done
  · cases done
    exact .refl _ _
  · obtain ⟨⟨k₁, r₁⟩, self, done⟩ := bind_eq_some_iff.mp done
    obtain ⟨⟨k₂, r₂⟩, parent, done⟩ := bind_eq_some_iff.mp done
    obtain ⟨⟨k₃, r₃⟩, added, done⟩ := bind_eq_some_iff.mp done
    have leaves : Leaves touched k k₃ :=
      Leaves.inodeAlloc.trans (Leaves.addLink.trans ((dentryAdd_leaves self).trans
        ((dentryAdd_leaves parent).trans (dentryAdd_leaves added))))
    cases done
    split
    · exact leaves
    · exact leaves.trans .addLink

theorem ramfsUnlinkImpl_leaves (done : k.ramfsUnlinkImpl d n = some (k', r)) :
    Leaves touched k k' := by
  obtain ⟨⟨children, count⟩, at_, done⟩ := bind_eq_some_iff.mp done
  dsimp only at done
  split at done
  · cases done
    exact .refl _ _
  · obtain ⟨x, there, done⟩ := bind_eq_some_iff.mp done
    split at done
    · cases done
      exact .refl _ _
    · exact Leaves.addLink.trans (dentryRemove_leaves done)

theorem ramfsRmdirImpl_leaves (done : k.ramfsRmdirImpl d n = some (k', r)) :
    Leaves touched k k' := by
  obtain ⟨⟨children, count⟩, at_, done⟩ := bind_eq_some_iff.mp done
  dsimp only at done
  split at done
  · cases done
    exact .refl _ _
  · obtain ⟨x, there, done⟩ := bind_eq_some_iff.mp done
    split at done
    · split at done
      · cases done
        exact .refl _ _
      · exact Leaves.addLink.trans (Leaves.addLink.trans (dentryRemove_leaves done))
    · cases done
      exact .refl _ _

theorem ramfsLinkImpl_leaves {alloc : Bool} (done : k.ramfsLinkImpl d n i alloc = some (k', r)) :
    Leaves touched k k' := by
  obtain ⟨x, there, done⟩ := bind_eq_some_iff.mp done
  split at done
  · cases done
    exact .refl _ _
  · obtain ⟨⟨k₁, r₁⟩, added, done⟩ := bind_eq_some_iff.mp done
    cases done
    split
    · exact (dentryAdd_leaves added).trans .addLink
    · exact dentryAdd_leaves added

theorem ramfsSymlinkImpl_leaves {text : Name} {alloc : Fin 3 → Bool}
    (done : k.ramfsSymlinkImpl d n text alloc = some (k', r)) : Leaves touched k k' := by
  obtain ⟨⟨children, count⟩, at_, done⟩ := bind_eq_some_iff.mp done
  dsimp only at done
  split at done
  · cases done
    exact .refl _ _
  split at done
  · cases done
    exact .refl _ _
  split at done
  · cases done
  split at done
  · cases done
    exact .refl _ _
  · exact Leaves.inodeAlloc.trans (dentryAdd_leaves done)

theorem ramfsRenameImpl_leaves {d' : Ino} {n' : Name}
    (done : k.ramfsRenameImpl d n d' n' = some (k', r)) : Leaves touched k k' := by
  obtain ⟨⟨children, count⟩, at_, done⟩ := bind_eq_some_iff.mp done
  dsimp only at done
  split at done
  · cases done
    exact .refl _ _
  · obtain ⟨⟨k₁, r₁⟩, removed, done⟩ := bind_eq_some_iff.mp done
    obtain ⟨⟨k₂, r₂⟩, replaced, done⟩ := bind_eq_some_iff.mp done
    exact (dentryRemove_leaves removed).trans
      ((dentryRemove_leaves replaced).trans (dentryAdd_leaves done))

/-! ### Files -/

theorem setContent_leaves {c : Content} (same : touched i) : Leaves touched k (k.setContent i c) :=
  .update (.inl same)

theorem opsTruncate_leaves {size : Nat} {alloc : Bool} {noOp : Int}
    (same : x.bytes ≠ none → touched i)
    (done : k.opsTruncate i x size alloc noOp = some (k', r)) : Leaves touched k k' := by
  unfold opsTruncate at done
  split at done
  · rename_i content
    cases done
    exact setContent_leaves (same (by simp [Vnode.bytes, content]))
  · cases done
  · cases done
    exact .refl _ _
  · cases done
    exact .refl _ _

theorem opsWrite_leaves {off : Nat} {buf : List UInt8} {alloc : Bool} {out : Option Int}
    (same : touched i) (done : k.opsWrite i x off buf alloc = some (k', out)) :
    Leaves touched k k' := by
  unfold opsWrite at done
  split at done
  · cases done
    exact setContent_leaves same
  · cases done
  · cases done
    exact .refl _ _
  · cases done
    exact .refl _ _
  · cases done
    exact .refl _ _

/-- A read moves the access time alone. -/
theorem opsRead_leaves {off size : Nat} {input : List UInt8} (there : k.inodes i = some x) :
    Leaves touched k (k.opsRead i x off size input).1 := by
  unfold opsRead
  split
  · rename_i data content
    refine .update (.inr (.inr ?_))
    have bytes : (ramfsReadImpl data k.now off size).1.size = data.size ∧
        (ramfsReadImpl data k.now off size).1.priv = data.priv := by
      unfold ramfsReadImpl
      split
      · exact ⟨rfl, rfl⟩
      · split <;> exact ⟨rfl, rfl⟩
    rw [there]
    simp [Vnode.guarded, Vnode.bytes, content, bytes]
  · exact .refl _ _
  · exact .refl _ _
  · exact .refl _ _
  · exact .refl _ _

theorem opsChmod_leaves {mode : Nat} (same : touched i) :
    Leaves touched k (k.opsChmod i x mode).1 := by
  unfold opsChmod
  split
  · exact .refl _ _
  · exact .update (.inl same)

theorem opsChown_leaves {uid gid : Nat} (same : touched i) :
    Leaves touched k (k.opsChown i x uid gid).1 := by
  unfold opsChown
  split
  · exact .refl _ _
  · exact .update (.inl same)

/-! ### Calls -/

/-- The inodes a call can change, with what the session has been granted. -/
def Touches (k : Kernel) (i : Ino) : Call → Prop
  | .open path flags _ _ => flags.trunc = true ∧ ¬(flags.creat = true ∧ flags.excl = true) ∧
      k.fdAlloc ≠ none ∧ k.resolvePath path flags.nofollow = some (some i) ∧
      ∃ x, k.inodes i = some x ∧ x.bytes ≠ none ∧ k.vfsAccess x flags.wanted = true
  | .write _ _ _ | .truncate _ _ _ | .ftruncate _ _ _ =>
      ∃ x, k.inodes i = some x ∧ k.vfsAccess x permW = true
  | .chmod _ _ | .fchmod _ _ => ∃ x, k.inodes i = some x ∧ (k.uid = 0 ∨ k.uid = x.uid)
  | .chown _ _ _ | .fchown _ _ _ => k.uid = 0
  | _ => False

theorem openFd_leaves {flags : Flags}
    (same : ∀ x, k.inodes i = some x → x.bytes ≠ none → flags.trunc = true → k.fdAlloc ≠ none →
      touched i)
    (done : k.openFd i flags = some (k', a)) : Leaves touched k k' := by
  unfold openFd at done
  cases free : k.fdAlloc with
  | none =>
    rw [free] at done
    cases done
    exact .refl _ _
  | some fd =>
    rw [free] at done
    obtain ⟨x, there, done⟩ := bind_eq_some_iff.mp done
    by_cases trunc : flags.trunc = true
    · rw [if_pos trunc] at done
      obtain ⟨⟨k₁, r₁⟩, cut, done⟩ := bind_eq_some_iff.mp done
      obtain ⟨y, now_, done⟩ := bind_eq_some_iff.mp done
      cases done
      exact (opsTruncate_leaves (fun file => same x there file trunc (by simp [free])) cut).trans
        .setFd
    · rw [if_neg trunc] at done
      obtain ⟨_, same, done⟩ := bind_eq_some_iff.mp done
      cases same
      obtain ⟨y, now_, done⟩ := bind_eq_some_iff.mp done
      cases done
      exact .setFd

theorem onPath_leaves {path : Name} {nofollow : Bool} {call : Ino → Vnode → Option (Kernel × Answer)}
    (each : ∀ i x, k.inodes i = some x → ∀ k' a, call i x = some (k', a) → Leaves touched k k')
    (done : k.onPath path nofollow call = some (k', a)) : Leaves touched k k' := by
  obtain ⟨found, resolved, done⟩ := bind_eq_some_iff.mp done
  cases found with
  | none =>
    cases done
    exact .refl _ _
  | some i =>
    obtain ⟨x, there, done⟩ := bind_eq_some_iff.mp done
    exact each i x there _ _ done

theorem onFd_leaves {fd : Int} {call : Ino → Vnode → Option (Kernel × Answer)}
    (each : ∀ i x, k.inodes i = some x → ∀ k' a, call i x = some (k', a) → Leaves touched k k')
    (done : k.onFd fd call = some (k', a)) : Leaves touched k k' := by
  unfold onFd at done
  cases at_ : k.fdOf fd with
  | none =>
    rw [at_] at done
    cases done
    exact .refl _ _
  | some f =>
    rw [at_] at done
    obtain ⟨x, there, done⟩ := bind_eq_some_iff.mp done
    exact each _ x there _ _ done

theorem onParent_leaves {path : Name} {call : Kernel → Ino → Name → Option (Kernel × Int)}
    (each : ∀ d n k' r, call k d n = some (k', r) → Leaves touched k k')
    (done : k.onParent path call = some (k', a)) : Leaves touched k k' := by
  obtain ⟨⟨dir, base⟩, split_, done⟩ := bind_eq_some_iff.mp done
  obtain ⟨found, resolved, done⟩ := bind_eq_some_iff.mp done
  cases found with
  | none =>
    cases done
    exact .refl _ _
  | some parent =>
    obtain ⟨x, there, done⟩ := bind_eq_some_iff.mp done
    split at done
    · cases done
      exact .refl _ _
    · obtain ⟨⟨k₁, r₁⟩, performed, done⟩ := bind_eq_some_iff.mp done
      cases done
      exact each _ _ _ _ performed

theorem readdirAnswer_same {index : Nat} (done : k.readdirAnswer index x = some (k', a)) : k' = k := by
  unfold readdirAnswer at done
  split at done
  · obtain ⟨e, -, done⟩ := map_eq_some_iff.mp done
    cases done
    rfl
  · cases done
    rfl

theorem vfsOpen_leaves {path : Name} {flags : Flags} {mode : Nat} {alloc : Fin 3 → Bool}
    (done : k.vfsOpen path flags mode alloc = some (k', a)) :
    Leaves (k.Touches · (.open path flags mode alloc)) k k' := by
  obtain ⟨found, resolved, done⟩ := bind_eq_some_iff.mp done
  cases found with
  | none =>
    dsimp only at done
    split at done
    · cases done
      exact .refl _ _
    obtain ⟨⟨dir, base⟩, split_, done⟩ := bind_eq_some_iff.mp done
    obtain ⟨found, resolved', done⟩ := bind_eq_some_iff.mp done
    cases found with
    | none =>
      cases done
      exact .refl _ _
    | some parent =>
      obtain ⟨x, there, done⟩ := bind_eq_some_iff.mp done
      split at done
      · cases done
        exact .refl _ _
      obtain ⟨⟨k₁, r₁, out⟩, created, done⟩ := bind_eq_some_iff.mp done
      obtain ⟨leaves, new⟩ : Leaves (k.Touches · (.open path flags mode alloc)) k k₁ ∧
          ∀ i, out = some i → i = k.nextIno := ramfsCreateImpl_leaves created
      cases out with
      | none =>
        cases done
        exact leaves
      | some i =>
        -- the inode cut down is the new one
        have rest : Leaves (· = k.nextIno) k₁ k' := openFd_leaves (fun _ _ _ _ _ => new i rfl) done
        refine ⟨rest.uid.trans leaves.uid, rest.gid.trans leaves.gid,
          leaves.nextIno.trans rest.nextIno, fun j old free => ?_⟩
        exact (rest.kept j (old.trans_le leaves.nextIno) (Nat.ne_of_lt old)).trans
          (leaves.kept j old free)
  | some i =>
    obtain ⟨x, there, done⟩ := bind_eq_some_iff.mp done
    split at done
    · cases done
      exact .refl _ _
    rename_i allowed
    split at done
    · cases done
      exact .refl _ _
    rename_i granted
    refine openFd_leaves (fun y there' file trunc free =>
      ⟨trunc, ?_, free, resolved, y, there', file, ?_⟩) done
    · rintro ⟨creat, excl⟩
      simp [creat, excl] at allowed
    · rw [there] at there'
      obtain rfl := Option.some.inj there'
      simpa using granted

/-- **What a call can change.** -/
theorem perform_leaves {call : Call} (done : k.perform call = some (k', a)) :
    Leaves (k.Touches · call) k k' := by
  cases call with
  | «open» => exact vfsOpen_leaves done
  | close fd =>
    obtain ⟨rfl, rfl⟩ := Prod.mk.inj (Option.some.inj done)
    split
    · exact .refl _ _
    · exact .setFd
  | read fd size input =>
    change k.vfsRead fd size input = _ at done
    unfold vfsRead at done
    split at done
    · cases done
      exact .refl _ _
    · obtain ⟨x, there, done⟩ := bind_eq_some_iff.mp done
      split at done
      · cases done
        exact .refl _ _
      · rename_i f _ _ _
        have leaves : Leaves (k.Touches · (.read fd size input)) k
            (k.opsRead f.inode x f.offset size input).1 := opsRead_leaves there
        split at done
        · rename_i read
          cases done
          rwa [read] at leaves
        · rename_i read
          cases done
          rw [read] at leaves
          exact leaves.trans .setFd
  | write fd buf alloc =>
    change k.vfsWrite fd buf alloc = _ at done
    unfold vfsWrite at done
    split at done
    · cases done
      exact .refl _ _
    · obtain ⟨x, there, done⟩ := bind_eq_some_iff.mp done
      split at done
      · cases done
        exact .refl _ _
      · rename_i allowed
        obtain ⟨⟨k₁, out⟩, written, done⟩ := bind_eq_some_iff.mp done
        have granted : k.Touches _ (.write fd buf alloc) := ⟨x, there, by simp_all⟩
        have leaves : Leaves (k.Touches · (.write fd buf alloc)) k k₁ :=
          opsWrite_leaves granted written
        cases out with
        | none =>
          cases done
          exact leaves
        | some n =>
          cases done
          exact leaves.trans .setFd
  | lseek fd offset whence =>
    change k.vfsLseek fd offset whence = _ at done
    unfold vfsLseek at done
    split at done
    · cases done
      exact .refl _ _
    · obtain ⟨x, there, done⟩ := bind_eq_some_iff.mp done
      cases whence
      all_goals
        dsimp only at done
        split at done
        · cases done
          exact .refl _ _
        · cases done
          exact .setFd
  | dup fd =>
    obtain ⟨rfl, rfl⟩ := Prod.mk.inj (Option.some.inj done)
    split
    · exact .setFd
    · exact .refl _ _
  | dup2 fd newfd =>
    obtain ⟨rfl, rfl⟩ := Prod.mk.inj (Option.some.inj done)
    split
    · split
      · exact .refl _ _
      · exact .setFd
    · exact .refl _ _
  | stat path =>
    refine onPath_leaves (fun i x there k' a done => ?_) done
    cases done
    exact .refl _ _
  | lstat path =>
    refine onPath_leaves (fun i x there k' a done => ?_) done
    cases done
    exact .refl _ _
  | fstat fd =>
    refine onFd_leaves (fun i x there k' a done => ?_) done
    cases done
    exact .refl _ _
  | chmod path mode =>
    refine onPath_leaves (fun i x there k' a done => ?_) done
    unfold chmodAnswer at done
    split at done
    · cases done
      exact .refl _ _
    · rename_i owner
      cases done
      exact opsChmod_leaves ⟨x, there, by simp at owner; omega⟩
  | fchmod fd mode =>
    refine onFd_leaves (fun i x there k' a done => ?_) done
    unfold chmodAnswer at done
    split at done
    · cases done
      exact .refl _ _
    · rename_i owner
      cases done
      exact opsChmod_leaves ⟨x, there, by simp at owner; omega⟩
  | chown path uid gid =>
    refine onPath_leaves (fun i x there k' a done => ?_) done
    unfold chownAnswer at done
    split at done
    · cases done
      exact .refl _ _
    · rename_i root
      cases done
      exact opsChown_leaves (show k.uid = 0 by omega)
  | fchown fd uid gid =>
    refine onFd_leaves (fun i x there k' a done => ?_) done
    unfold chownAnswer at done
    split at done
    · cases done
      exact .refl _ _
    · rename_i root
      cases done
      exact opsChown_leaves (show k.uid = 0 by omega)
  | truncate path size alloc =>
    refine onPath_leaves (fun i x there k' a done => ?_) done
    unfold truncateAnswer at done
    split at done
    · cases done
      exact .refl _ _
    · rename_i granted
      obtain ⟨⟨k₁, r₁⟩, cut, done⟩ := map_eq_some_iff.mp done
      cases done
      exact opsTruncate_leaves (fun _ => ⟨x, there, by simpa using granted⟩) cut
  | ftruncate fd size alloc =>
    refine onFd_leaves (fun i x there k' a done => ?_) done
    unfold truncateAnswer at done
    split at done
    · cases done
      exact .refl _ _
    · rename_i granted
      obtain ⟨⟨k₁, r₁⟩, cut, done⟩ := map_eq_some_iff.mp done
      cases done
      exact opsTruncate_leaves (fun _ => ⟨x, there, by simpa using granted⟩) cut
  | mkdir path mode alloc =>
    refine onParent_leaves ?_ (show k.onParent path (fun k dir name =>
      k.ramfsMkdirImpl dir name (mode % 0o10000) alloc) = some (k', a) from done)
    exact fun _ _ _ _ => ramfsMkdirImpl_leaves
  | rmdir path => exact onParent_leaves (fun _ _ _ _ => ramfsRmdirImpl_leaves) done
  | unlink path => exact onParent_leaves (fun _ _ _ _ => ramfsUnlinkImpl_leaves) done
  | rename oldpath newpath =>
    obtain ⟨⟨od, ob⟩, -, done⟩ := bind_eq_some_iff.mp done
    obtain ⟨⟨nd, nb⟩, -, done⟩ := bind_eq_some_iff.mp done
    obtain ⟨oldDir, -, done⟩ := bind_eq_some_iff.mp done
    obtain ⟨newDir, -, done⟩ := bind_eq_some_iff.mp done
    dsimp only at done
    split at done
    · obtain ⟨x, there, done⟩ := bind_eq_some_iff.mp done
      obtain ⟨y, there', done⟩ := bind_eq_some_iff.mp done
      split at done
      · cases done
        exact .refl _ _
      split at done
      · cases done
        exact .refl _ _
      · obtain ⟨⟨k₁, r₁⟩, renamed, done⟩ := bind_eq_some_iff.mp done
        cases done
        exact ramfsRenameImpl_leaves renamed
    · cases done
      exact .refl _ _
  | link oldpath newpath alloc =>
    obtain ⟨found, -, done⟩ := bind_eq_some_iff.mp done
    cases found with
    | none =>
      cases done
      exact .refl _ _
    | some target => exact onParent_leaves (fun _ _ _ _ => ramfsLinkImpl_leaves) done
  | symlink text linkpath alloc =>
    refine onParent_leaves ?_ (show k.onParent linkpath (fun k dir name =>
      k.ramfsSymlinkImpl dir name text alloc) = some (k', a) from done)
    exact fun _ _ _ _ => ramfsSymlinkImpl_leaves
  | readlink path size =>
    refine onPath_leaves (fun i x there k' a done => ?_) done
    split at done
    · split at done
      · cases done
      · cases done
        exact .refl _ _
    · cases done
      exact .refl _ _
  | opendir path alloc =>
    refine onPath_leaves (fun i x there k' a done => ?_) done
    cases done
    exact .refl _ _
  | readdirNext path index =>
    refine onPath_leaves (fun i x there k' a done => ?_) done
    split at done
    · cases done
      exact .refl _ _
    · rw [readdirAnswer_same done]
      exact .refl _ _
  | fdReaddir fd =>
    change k.vfsFdReaddir fd = _ at done
    unfold vfsFdReaddir at done
    split at done
    · cases done
      exact .refl _ _
    · obtain ⟨x, there, done⟩ := bind_eq_some_iff.mp done
      split at done
      · cases done
        exact .refl _ _
      split at done
      · cases done
        exact .refl _ _
      · obtain ⟨⟨k₁, e⟩, read, ran⟩ := bind_eq_some_iff.mp done
        obtain rfl := readdirAnswer_same read
        split at ran
        · rename_i same
          cases same
          cases ran
          exact .setFd
        · rename_i same
          cases same
          cases ran
          exact .refl _ _
  | readdir path index =>
    refine onPath_leaves (fun i x there k' a done => ?_) done
    rw [readdirAnswer_same done]
    exact .refl _ _
  | listdir path =>
    refine onPath_leaves (fun i x there k' a done => ?_) done
    split at done
    · split at done
      · cases done
        exact .refl _ _
      · obtain ⟨names, -, done⟩ := bind_eq_some_iff.mp done
        cases done
        exact .refl _ _
    · cases done
      exact .refl _ _

/-! ### Protection -/

/-- The rights of a session come from mode and owner. -/
theorem vfsAccess_congr {y : Vnode} {wanted : Nat} (uid : k'.uid = k.uid) (gid : k'.gid = k.gid)
    (same : y.guarded = x.guarded) : k'.vfsAccess y wanted = k.vfsAccess x wanted := by
  simp only [Vnode.guarded, Prod.mk.injEq] at same
  obtain ⟨-, perms, owner, group⟩ := same
  rw [vfsAccess, vfsAccess, uid, gid, perms, owner, group]

/-- Who has rights has each of them. -/
theorem vfsAccess_part {wanted part : Nat} (granted : k.vfsAccess x wanted = true)
    (within : wanted &&& part = part) : k.vfsAccess x part = true := by
  unfold vfsAccess at granted ⊢
  split at granted
  · rename_i root
    rw [if_pos root]
  · rename_i user
    rw [if_neg user]
    dsimp only at granted ⊢
    rw [decide_eq_true_eq] at granted ⊢
    rw [← within, ← Nat.and_assoc, granted]

/-- A `vfs_open` that reads and truncates a file which the session may read only. -/
def Clobbers (k : Kernel) : Call → Prop
  | .open path flags _ _ => flags.acc = oRdonly ∧ flags.trunc = true ∧
      ¬(flags.creat = true ∧ flags.excl = true) ∧ k.fdAlloc ≠ none ∧
      ∃ i x, k.resolvePath path flags.nofollow = some (some i) ∧ k.inodes i = some x ∧
        x.bytes ≠ none ∧ k.vfsAccess x permR = true ∧ k.vfsAccess x permW = false ∧ k.uid ≠ x.uid
  | _ => False

/-- A call changes a file only if the session may write it or owns it. -/
theorem not_touches {call : Call} (session : k.uid ≠ 0) (fine : ¬k.Clobbers call)
    (there : k.inodes i = some x) (denied : k.vfsAccess x permW = false) (foreign : k.uid ≠ x.uid) :
    ¬k.Touches i call := by
  have writes : ¬∃ y, k.inodes i = some y ∧ k.vfsAccess y permW = true := by
    rintro ⟨y, there', granted⟩
    rw [there] at there'
    obtain rfl := Option.some.inj there'
    rw [denied] at granted
    cases granted
  have owns : ¬∃ y, k.inodes i = some y ∧ (k.uid = 0 ∨ k.uid = y.uid) := by
    rintro ⟨y, there', owner⟩
    rw [there] at there'
    obtain rfl := Option.some.inj there'
    exact owner.elim session foreign
  intro touches
  cases call with
  | «open» path flags mode alloc =>
    obtain ⟨trunc, new, free, resolved, y, there', file, granted⟩ := touches
    rw [there] at there'
    obtain rfl := Option.some.inj there'
    by_cases reads : flags.acc = oRdonly
    · -- the call asks for no more than `PERM_R`
      have wanted : flags.wanted = permR := by rw [Flags.wanted, reads]; rfl
      exact fine ⟨reads, trunc, new, free, i, x, resolved, there, file, wanted ▸ granted, denied,
        foreign⟩
    · have within : flags.wanted &&& permW = permW := by
        unfold Flags.wanted
        rw [if_pos reads]
        split <;> rfl
      rw [vfsAccess_part granted within] at denied
      cases denied
  | write => exact writes touches
  | truncate => exact writes touches
  | ftruncate => exact writes touches
  | chmod => exact owns touches
  | fchmod => exact owns touches
  | chown => exact session touches
  | fchown => exact session touches
  | _ => exact touches

/-- A file of two bytes that belongs to root and that others may read. -/
def twoBytes : Vnode := ⟨.file ⟨2, 0, 0, 0, some ⟨[1, 2], 2, 2⟩⟩, 0o644, 0, 0, 1, none⟩

/-- A root directory with such a file `f`, in the session of another user. -/
def publicFile : Kernel where
  inodes i :=
    if i = 1 then some ⟨.dir [(['f'], 2), (dotdot, 1), (dot, 1)] 3, 0o755, 0, 0, 2, none⟩
    else if i = 2 then some twoBytes
    else none
  nextIno := 3
  root := 1
  mounts := []
  fds _ := none
  uid := 1000
  gid := 1000
  now := 0

end Kernel

end AtmKoala.Vfs
