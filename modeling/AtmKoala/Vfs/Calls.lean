import Mathlib.Algebra.BigOperators.Group.Finset.Piecewise
import AtmKoala.Vfs.Tree

/-!
The calls of ramfs keep the tree.

Each lemma here is about one call on a directory that is reached from the root. What
the call asks of its arguments beyond what it checks itself is stated where it is
needed: a new name is not empty, `.` and `..` are not moved or removed, a directory is
renamed in its place only, and what a rename replaces is empty or goes for good.
-/

namespace AtmKoala.Vfs

open Lib
open Option (bind_eq_some_iff map_eq_some_iff)
open Function (update_of_ne update_self)

variable {w w' : World} {loose : Option Ino} {held held' : Ino → Nat} {pend pend' : Ino → Int}
  {d i : Ino} {n : Name} {c : List (Name × Ino)} {count : Nat} {x : VfsInode}

/-- A directory is reached from the root. -/
def Reached (w : World) (d : Ino) : Prop := Under (IsDir w) (Entry w) w.root d

/-! ### New inodes -/

theorem namings_eq_zero (sound : Sound w loose held pend) (none_ : w.inodes i = none) :
    namings w i = 0 := by
  refine Finset.sum_eq_zero fun d _ => List.countP_eq_zero.mpr fun e mem => ?_
  simp only [decide_eq_true_eq]
  rintro rfl
  exact sound.alive (n := e.1) mem none_

theorem fdCount_eq_zero (sound : Sound w loose held pend) (none_ : w.inodes i = none) :
    fdCount w i = 0 :=
  Finset.card_eq_zero.mpr (Finset.filter_eq_empty_iff.mpr fun _ _ at_ => sound.opened at_ none_)

theorem ne_of_alive (sound : Sound w loose held pend) (there : w.inodes i ≠ none) : i ≠ w.nextIno := by
  rintro rfl
  exact there (sound.fresh le_rfl)

section Alloc

variable {priv : Priv}

theorem inodes_inodeAlloc_ne {j : Ino} (ne : j ≠ w.nextIno) :
    (inodeAlloc w priv).1.inodes j = w.inodes j :=
  inodes_setInode_ne _ ne

theorem inodes_inodeAlloc_self :
    (inodeAlloc w priv).1.inodes w.nextIno = some ⟨priv, 1, none, 1⟩ :=
  inodes_setInode_self _

end Alloc

/-- A new inode that is not a directory: its reference is the call's, its name is still
to come. -/
theorem Sound.allocLeaf {priv : Priv} (sound : Sound w loose held pend)
    (leaf : ∀ c n, priv ≠ .dir c n) (unheld : held w.nextIno = 0) (settled : pend w.nextIno = 0) :
    Sound (inodeAlloc w priv).1 loose (held + Pi.single w.nextIno 1) (pend + Pi.single w.nextIno 1) := by
  set ni := w.nextIno with ni_eq
  have none_ : w.inodes ni = none := sound.fresh le_rfl
  have dirs : (inodeAlloc w priv).1.dirOf = w.dirOf := by
    funext d
    by_cases here : d = ni
    · subst here
      rw [World.dirOf, World.dirOf, ni_eq, inodes_inodeAlloc_self, ← ni_eq, none_]
      cases priv with
      | dir c n => exact absurd rfl (leaf c n)
      | file => rfl
      | link => rfl
    · rw [World.dirOf, World.dirOf, inodes_inodeAlloc_ne here]
  have kids := children_congr dirs
  have names : namings (inodeAlloc w priv).1 = namings w := by
    funext j
    have last : (children w ni).countP (fun e => e.2 = j) = 0 := by
      rw [children, World.dirOf, none_]
      rfl
    have next : (inodeAlloc w priv).1.nextIno = w.nextIno + 1 := rfl
    rw [namings, namings, next, Finset.sum_range_succ, kids, ← ni_eq, last, Nat.add_zero]
  have fds : fdCount (inodeAlloc w priv).1 = fdCount w := rfl
  have root : w.root ≠ ni := by
    obtain ⟨⟨c, count⟩, at_⟩ := Option.ne_none_iff_exists'.mp sound.tree.rootDir
    exact (lt_of_dirOf sound at_).ne
  refine ⟨sound.toShape.congr dirs rfl, ?_, ?_, ?_, ?_, ?_, ?_, ?_⟩
  · intro d n j mem
    rw [kids] at mem
    rw [inodes_inodeAlloc_ne (ne_of_alive sound (sound.alive mem))]
    exact sound.alive mem
  · intro k j at_
    rw [inodes_inodeAlloc_ne (ne_of_alive sound (sound.opened at_))]
    exact sound.opened at_
  · intro j z at_ notRoot
    rw [names, fds]
    by_cases here : j = ni
    · subst here
      rw [inodes_inodeAlloc_self] at at_
      obtain rfl := Option.some.inj at_
      have unnamed := namings_eq_zero sound none_
      have closed := fdCount_eq_zero sound none_
      rw [← ni_eq] at *
      simp only [Pi.add_apply, Pi.single_eq_same]
      omega
    · rw [inodes_inodeAlloc_ne here] at at_
      rw [Pi.add_apply, Pi.single_eq_of_ne here, Nat.add_zero]
      exact sound.refs at_ notRoot
  · intro z at_
    have at_' : (inodeAlloc w priv).1.inodes w.root = some z := at_
    rw [inodes_inodeAlloc_ne root] at at_'
    have before := sound.rootRefs at_'
    show (((held + Pi.single ni 1 : Ino → Nat) w.root : Nat) : Int) < z.refcount
    rw [Pi.add_apply, Pi.single_eq_of_ne root, Nat.add_zero]
    exact before
  · intro j z at_ leaf'
    rw [names]
    by_cases here : j = ni
    · subst here
      rw [inodes_inodeAlloc_self] at at_
      obtain rfl := Option.some.inj at_
      have unnamed := namings_eq_zero sound none_
      rw [← ni_eq] at *
      simp only [Pi.add_apply, Pi.single_eq_same]
      omega
    · rw [inodes_inodeAlloc_ne here] at at_
      rw [Pi.add_apply, Pi.single_eq_of_ne here, add_zero]
      exact sound.nlink at_ leaf'
  · intro j beyond
    rw [inodes_inodeAlloc_ne (Nat.ne_of_gt beyond)]
    exact sound.fresh (Nat.le_of_succ_le beyond)
  · intro j z at_
    by_cases here : j = ni
    · subst here
      rw [inodes_inodeAlloc_self] at at_
      obtain rfl := Option.some.inj at_
      rfl
    · rw [inodes_inodeAlloc_ne here] at at_
      exact sound.unmounted at_

/-- The state once `ramfs_mkdir_impl` has filled in a new directory, `d` having been
referenced for the entry `..`. -/
def newDir (w : World) (d : Ino) : World :=
  { w.setInode w.nextIno (some ⟨.dir [(dotdot, d), (dot, w.nextIno)] 2, 2, none, 2⟩) with
    nextIno := w.nextIno + 1 }

section NewDir

theorem inodes_newDir_self :
    (newDir w d).inodes w.nextIno = some ⟨.dir [(dotdot, d), (dot, w.nextIno)] 2, 2, none, 2⟩ :=
  inodes_setInode_self _

theorem inodes_newDir_ne {j : Ino} (ne : j ≠ w.nextIno) : (newDir w d).inodes j = w.inodes j :=
  inodes_setInode_ne _ ne

theorem dirOf_newDir (w : World) (d : Ino) : (newDir w d).dirOf =
    Function.update w.dirOf w.nextIno (some ([(dotdot, d), (dot, w.nextIno)], 2)) := by
  funext j
  by_cases here : j = w.nextIno
  · subst here
    rw [update_self]
    exact dirOf_of_inode inodes_newDir_self rfl
  · rw [update_of_ne here, World.dirOf, World.dirOf, inodes_newDir_ne here]

theorem children_newDir (w : World) (d : Ino) : children (newDir w d) =
    Function.update (children w) w.nextIno [(dotdot, d), (dot, w.nextIno)] := by
  funext j
  rw [children, dirOf_newDir]
  by_cases here : j = w.nextIno
  · subst here
    rw [update_self, update_self]
    rfl
  · rw [update_of_ne here, update_of_ne here]
    rfl

theorem dirOf_nextIno (sound : Sound w loose held pend) : w.dirOf w.nextIno = none := by
  rw [World.dirOf, sound.fresh le_rfl]

theorem entry_newDir (sound : Sound w loose held pend) : Entry (newDir w d) = Entry w := by
  funext p n j
  rw [Entry, Entry, children_newDir]
  by_cases here : p = w.nextIno
  · subst here
    have none_ : children w w.nextIno = [] := by rw [children, dirOf_nextIno sound]; rfl
    rw [update_self, none_]
    simp only [List.mem_cons, Prod.mk.injEq, List.not_mem_nil, or_false, false_and, eq_iff_iff,
      iff_false, not_and]
    rintro (⟨rfl, -⟩ | ⟨rfl, -⟩) real
    · exact real.2 rfl
    · exact real.1 rfl
  · rw [update_of_ne here]

theorem isDir_newDir (j : Ino) : IsDir (newDir w d) j ↔ IsDir w j ∨ j = w.nextIno := by
  rw [IsDir, IsDir, dirOf_newDir]
  by_cases here : j = w.nextIno
  · subst here
    rw [update_self]
    exact ⟨fun _ => .inr rfl, by rintro _ ⟨⟩⟩
  · rw [update_of_ne here]
    exact ⟨.inl, fun h => h.resolve_right here⟩

theorem namings_newDir (sound : Sound w loose held pend) (j : Ino) : namings (newDir w d) j =
    namings w j + ((if d = j then 1 else 0) + if w.nextIno = j then 1 else 0) := by
  have next : (newDir w d).nextIno = w.nextIno + 1 := rfl
  have old : ∑ k ∈ Finset.range w.nextIno, (children (newDir w d) k).countP (fun e => e.2 = j) =
      namings w j := by
    refine Finset.sum_congr rfl fun k mem => ?_
    rw [children_newDir, update_of_ne (Finset.mem_range.mp mem).ne]
  rw [namings, next, Finset.sum_range_succ, old, children_newDir, update_self]
  simp [List.countP_cons, Nat.add_comm]

/-- **A new directory** names itself and its parent, and is loose at first. -/
theorem Sound.newDir (sound : Sound w none (held + Pi.single d 1) pend) (isDir : IsDir w d)
    (unheld : held w.nextIno = 0) :
    Sound (newDir w d) (some w.nextIno) (held + Pi.single w.nextIno 1) pend := by
  set ni := w.nextIno with ni_eq
  have none_ : w.inodes ni = none := sound.fresh le_rfl
  have notDir : ¬IsDir w ni := fun h => h (dirOf_nextIno sound)
  have there : w.inodes d ≠ none := by
    obtain ⟨⟨c, count⟩, at_⟩ := Option.ne_none_iff_exists'.mp isDir
    obtain ⟨x, was, -⟩ := inode_of_dirOf at_
    rw [was]
    exact nofun
  have parent : d ≠ ni := ne_of_alive sound there
  have root : w.root ≠ ni := by
    intro atRoot
    exact notDir (atRoot ▸ sound.tree.rootDir)
  have names := fun j => namings_newDir (d := d) sound j
  have unnamed : namings w ni = 0 := namings_eq_zero sound none_
  have closed : fdCount w ni = 0 := fdCount_eq_zero sound none_
  have fds : fdCount (Vfs.newDir w d) = fdCount w := rfl
  have stays : ∀ {j e}, j ≠ ni → (e ∈ children (Vfs.newDir w d) j ↔ e ∈ children w j) := by
    intro j e ne
    rw [children_newDir, update_of_ne ne]
  have new : children (Vfs.newDir w d) ni = [(dotdot, d), (dot, ni)] := by
    rw [children_newDir, update_self]
  have alive' : ∀ {j}, w.inodes j ≠ none → (Vfs.newDir w d).inodes j ≠ none := by
    intro j there
    rwa [inodes_newDir_ne (ne_of_alive sound there)]
  refine ⟨⟨?_, ?_, ?_, ?_, fun j => ?_, fun {j k} => ?_, fun {j c' n'} dir => ?_⟩,
    fun {j m k} mem => ?_, fun opened => alive' (sound.opened opened), fun {j z} now notRoot => ?_,
    fun {z} now => ?_, fun {j z} now leaf => ?_, fun {j} beyond => ?_, fun {j z} now => ?_⟩
  · rw [entry_newDir sound]
    exact sound.tree.grow notDir (fun there => sound.alive there.1 none_) fun {j} => isDir_newDir j
  · intro p m j isDir' entry
    rw [entry_newDir sound] at entry
    have notNew : j ≠ ni := ne_of_alive sound (sound.alive entry.1)
    exact (stays notNew).mpr (sound.up (((isDir_newDir j).mp isDir').resolve_right notNew) entry)
  · exact (stays root).mpr sound.rootUp
  · intro j isDir'
    by_cases here : j = ni
    · rw [here, new]
      simp
    · exact (stays here).mpr (sound.self (((isDir_newDir j).mp isDir').resolve_right here))
  · by_cases here : j = ni
    · rw [here, new]
      exact by simp [dot, dotdot]
    · rw [children_newDir, update_of_ne here]
      exact sound.unique j
  · by_cases here : j = ni
    · rw [here, new]
      simp [dot, dotdot]
    · exact fun mem => sound.nonempty ((stays here).mp mem)
  · rw [dirOf_newDir] at dir
    by_cases here : j = ni
    · rw [here, update_self] at dir
      cases dir
      rfl
    · rw [update_of_ne here] at dir
      exact sound.count dir
  · by_cases here : j = ni
    · rw [here, new] at mem
      rcases List.mem_pair.mp mem with same | same
      · rw [(Prod.mk.inj same).2]
        exact alive' there
      · rw [(Prod.mk.inj same).2, inodes_newDir_self]
        exact nofun
    · exact alive' (sound.alive ((stays here).mp mem))
  · rw [names, fds]
    by_cases here : j = ni
    · subst here
      rw [ni_eq, inodes_newDir_self] at now
      obtain rfl := Option.some.inj now
      rw [← ni_eq] at *
      simp only [Pi.add_apply, Pi.single_eq_same, if_neg parent, if_true]
      omega
    · rw [inodes_newDir_ne here] at now
      have before := sound.refs now notRoot
      rw [Pi.add_apply, Pi.single_eq_of_ne here, Nat.add_zero, ← ni_eq, if_neg (Ne.symm here)]
      by_cases same : d = j
      · subst same
        simp only [Pi.add_apply, Pi.single_eq_same] at before
        rw [if_pos rfl]
        omega
      · simp only [Pi.add_apply, Pi.single_eq_of_ne (Ne.symm same), Nat.add_zero] at before
        rw [if_neg same]
        exact before
  · have now' : (Vfs.newDir w d).inodes w.root = some z := now
    rw [inodes_newDir_ne root] at now'
    have before := sound.rootRefs now'
    show (((held + Pi.single ni 1 : Ino → Nat) w.root : Nat) : Int) < z.refcount
    rw [Pi.add_apply, Pi.single_eq_of_ne root, Nat.add_zero]
    rw [Pi.add_apply] at before
    omega
  · by_cases here : j = ni
    · subst here
      rw [ni_eq, inodes_newDir_self] at now
      obtain rfl := Option.some.inj now
      cases leaf
    · rw [inodes_newDir_ne here] at now
      have other : d ≠ j := by
        rintro rfl
        rw [isDir_iff now, leaf] at isDir
        cases isDir
      rw [names, ← ni_eq, if_neg (Ne.symm here), if_neg other]
      exact sound.nlink now leaf
  · rw [inodes_newDir_ne (Nat.ne_of_gt beyond)]
    exact sound.fresh (Nat.le_of_succ_le beyond)
  · by_cases here : j = ni
    · subst here
      rw [ni_eq, inodes_newDir_self] at now
      obtain rfl := Option.some.inj now
      rfl
    · rw [inodes_newDir_ne here] at now
      exact sound.unmounted now

end NewDir

/-! ### Descriptors -/

theorem fds_setFd_self {k : Fin 64} (y : Option Ino) : (setFd w k y).fds k = y :=
  update_self ..

theorem fds_setFd_ne {k l : Fin 64} (ne : l ≠ k) (y : Option Ino) :
    (setFd w k y).fds l = w.fds l :=
  update_of_ne ne ..

theorem fdCount_setFd {k : Fin 64} (y : Option Ino) (j : Ino) :
    fdCount (setFd w k y) j + (if w.fds k = some j then 1 else 0) =
      fdCount w j + if y = some j then 1 else 0 := by
  have mem := Finset.mem_univ k
  have rest : ∑ l ∈ Finset.univ.erase k, (if (setFd w k y).fds l = some j then 1 else 0) =
      ∑ l ∈ Finset.univ.erase k, if w.fds l = some j then 1 else 0 := by
    refine Finset.sum_congr rfl fun l mem => ?_
    rw [fds_setFd_ne (Finset.ne_of_mem_erase mem)]
  unfold fdCount
  rw [Finset.card_filter, Finset.card_filter, ← Finset.add_sum_erase _ _ mem,
    ← Finset.add_sum_erase _ _ mem, rest, fds_setFd_self]
  omega

/-- The reference that comes with an inode handed to a call: none with the root. -/
def owed (w : World) (i : Ino) : Ino → Nat := if i = w.root then 0 else Pi.single i 1

theorem owed_root (w : World) : owed w w.root = 0 := if_pos rfl

theorem owed_of_ne (notRoot : i ≠ w.root) : owed w i = Pi.single i 1 := if_neg notRoot

theorem owed_at_root (w : World) (i : Ino) : owed w i w.root = 0 := by
  by_cases root : i = w.root
  · rw [root, owed_root]
    rfl
  · rw [owed_of_ne root, Pi.single_eq_of_ne (Ne.symm root)]

theorem owed_le (w : World) (i j : Ino) : owed w i j ≤ (Pi.single i 1 : Ino → Nat) j := by
  by_cases root : i = w.root
  · rw [root, owed_root]
    exact Nat.zero_le _
  · rw [owed_of_ne root]

theorem owed_apply {j : Ino} (notRoot : j ≠ w.root) : owed w i j = (Pi.single i 1 : Ino → Nat) j := by
  by_cases root : i = w.root
  · rw [root, owed_root, Pi.single_eq_of_ne notRoot]
    rfl
  · rw [owed_of_ne root]

/-- The root has references to spare for those that are given back. -/
theorem Sound.spare (sound : Sound w loose held pend)
    (others : ∀ j, j ≠ w.root → held' j = held j)
    (spare : ∀ x, w.inodes w.root = some x → (held' w.root : Int) < x.refcount) :
    Sound w loose held' pend := by
  refine { sound with refs := fun {j x} at_ notRoot => ?_, rootRefs := fun {x} at_ => spare x at_ }
  rw [others j notRoot]
  exact sound.refs at_ notRoot

/-- A descriptor takes over a reference of the call. -/
theorem Sound.openFd {k : Fin 64} (sound : Sound w loose (held + owed w i) pend)
    (free : w.fds k = none) (there : w.inodes i ≠ none) :
    Sound (setFd w k (some i)) loose held pend := by
  refine { sound with
    opened := fun {l j} at_ => ?_
    refs := fun {j x} at_ notRoot => ?_
    rootRefs := fun {x} at_ => ?_ }
  · by_cases here : l = k
    · subst here
      rw [fds_setFd_self] at at_
      obtain rfl := Option.some.inj at_
      exact there
    · rw [fds_setFd_ne here] at at_
      exact sound.opened at_
  · have before := sound.refs at_ notRoot
    have count := fdCount_setFd (w := w) (k := k) (some i) j
    rw [free, if_neg nofun] at count
    have names : namings (setFd w k (some i)) j = namings w j := rfl
    rw [Pi.add_apply, owed_apply (w := w) notRoot] at before
    rw [names]
    by_cases here : i = j
    · subst here
      rw [Pi.single_eq_same] at before
      rw [if_pos rfl] at count
      omega
    · rw [Pi.single_eq_of_ne (Ne.symm here), Nat.add_zero] at before
      rw [if_neg fun same => here (Option.some.inj same)] at count
      omega
  · have before := sound.rootRefs at_
    rw [Pi.add_apply] at before
    show (held w.root : Int) < x.refcount
    omega

/-- A descriptor leaves its reference to the call. -/
theorem Sound.closeFd {k : Fin 64} (sound : Sound w loose held pend) (at_ : w.fds k = some i) :
    Sound (setFd w k none) loose (held + owed w i) pend := by
  refine { sound with
    opened := fun {l j} at_' => ?_
    refs := fun {j x} now notRoot => ?_
    rootRefs := fun {x} now => ?_ }
  · by_cases here : l = k
    · subst here
      rw [fds_setFd_self] at at_'
      cases at_'
    · rw [fds_setFd_ne here] at at_'
      exact sound.opened at_'
  · have before := sound.refs now notRoot
    have count := fdCount_setFd (w := w) (k := k) none j
    rw [at_, if_neg (nofun : ¬(none : Option Ino) = some j)] at count
    have names : namings (setFd w k none) j = namings w j := rfl
    rw [names, Pi.add_apply, owed_apply (w := w) notRoot]
    by_cases here : i = j
    · subst here
      rw [Pi.single_eq_same]
      rw [if_pos rfl] at count
      omega
    · rw [Pi.single_eq_of_ne (Ne.symm here), Nat.add_zero]
      rw [if_neg fun same => here (Option.some.inj same)] at count
      omega
  · have before := sound.rootRefs now
    show (((held + owed w i : Ino → Nat) w.root : Nat) : Int) < x.refcount
    rw [Pi.add_apply, owed_at_root, Nat.add_zero]
    exact before

/-! ### Adding and removing entries -/

theorem dentryAdd_cases {alloc : Bool} {r : Int} (done : dentryAdd w d n i alloc = some (w', r)) :
    (w' = w ∧ r < 0 ∧ (alloc = false ∨ ∃ c count, w.dirOf d = some (c, count) ∧
        (dentryFind c n).isSome = true)) ∨
      (r = 0 ∧ alloc = true ∧ ∃ c count w₁, w.dirOf d = some (c, count) ∧ dentryFind c n = none ∧
        inodeRef w i = some w₁ ∧ w' = w₁.setDir d ((n, i) :: c) (count + 1)) := by
  obtain ⟨⟨c, count⟩, at_, done⟩ := bind_eq_some_iff.mp done
  dsimp only at done
  split at done
  · rename_i found
    cases done
    exact .inl ⟨rfl, by simp, .inr ⟨c, count, at_, found⟩⟩
  · rename_i absent
    split at done
    · rename_i failed
      cases done
      exact .inl ⟨rfl, by simp, .inl (by simpa using failed)⟩
    · rename_i enough
      obtain ⟨w₁, refd, done⟩ := bind_eq_some_iff.mp done
      cases done
      exact .inr ⟨rfl, by simpa using enough, c, count, w₁, at_, by simpa using absent, refd, rfl⟩

theorem dirOf_inodeRef (done : inodeRef w i = some w') : w'.dirOf = w.dirOf := by
  obtain ⟨x, was, rfl⟩ := map_eq_some_iff.mp done
  exact dirOf_touch was rfl

/-- The count of the directory may be set before the reference is given back. -/
theorem dentryRemove_eq {r : Int} (at_ : w.dirOf d = some (c, count)) (found : dentryFind c n = some i)
    (done : dentryRemove w d n = some (w', r)) :
    inodeUnref (w.setDir d (c.eraseP fun e => e.1 = n) (count - 1)) i = some w' := by
  simp only [dentryRemove, at_, found, Option.bind_eq_bind, Option.bind_some,
    bind_eq_some_iff] at done
  obtain ⟨w₁, given, ⟨c₁, count₁⟩, at₁, done⟩ := done
  cases done
  obtain ⟨x, was, rfl⟩ := map_eq_some_iff.mp given
  obtain ⟨z, wasDir, -, eq⟩ := setDir_eq (l := c.eraseP fun e => e.1 = n) (k := count) at_
  obtain ⟨z', wasDir', -, eq'⟩ := setDir_eq (l := c.eraseP fun e => e.1 = n) (k := count - 1) at_
  obtain rfl : z = z' := Option.some.inj (wasDir.symm.trans wasDir')
  rw [eq] at was at₁ ⊢
  rw [eq']
  by_cases here : i = d
  · subst here
    rw [inodes_setInode_self] at was
    obtain rfl := Option.some.inj was
    rw [inodeUnref, inodes_setInode_self, Option.map_some]
    split at at₁
    · rw [World.dirOf, inodes_setInode_self] at at₁
      cases at₁
    · rename_i stays
      rw [dirOf_of_inode (inodes_setInode_self _) rfl] at at₁
      cases at₁
      rw [if_neg stays]
      simp [World.setDir, World.mapInode, World.setInode, stays]
  · rw [inodes_setInode_ne _ here] at was
    rw [inodeUnref, inodes_setInode_ne _ here, was, Option.map_some]
    have at₂ : World.dirOf (if x.refcount - 1 ≤ 0 then
        (w.setInode d (some { z with priv := .dir (c.eraseP fun e => e.1 = n) count })).setInode i none
        else (w.setInode d (some { z with priv := .dir (c.eraseP fun e => e.1 = n) count })).setInode i
          (some { x with refcount := x.refcount - 1 })) d =
        some (c.eraseP fun e => e.1 = n, count) := by
      split
      · exact dirOf_of_inode ((inodes_setInode_ne _ (Ne.symm here)).trans (inodes_setInode_self _)) rfl
      · exact dirOf_of_inode ((inodes_setInode_ne _ (Ne.symm here)).trans (inodes_setInode_self _)) rfl
    rw [at₂] at at₁
    cases at₁
    congr 1
    split
    · simp [World.setDir, World.mapInode, World.setInode, Function.update_comm (Ne.symm here)]
    · simp [World.setDir, World.mapInode, World.setInode, Ne.symm here,
        Function.update_comm (Ne.symm here)]

/-! ### Directories that are reached -/

theorem Reached.isDir (sound : Sound w loose held pend) (reached : Reached w d) : IsDir w d := by
  rcases Relation.ReflTransGen.cases_tail reached with rfl | ⟨p, -, isDir, -⟩
  · exact sound.tree.rootDir
  · exact isDir

theorem isDir_of_entry {p : Ino} (entry : Entry w p n i) : IsDir w p := by
  obtain ⟨count, at_⟩ := dirOf_of_mem entry.1
  exact isDir_of_dirOf at_

/-- Its `..` names a directory. -/
theorem Reached.parent (sound : Sound w loose held pend) (reached : Reached w d) :
    ∃ p, (dotdot, p) ∈ children w d ∧ IsDir w p := by
  rcases Relation.ReflTransGen.cases_tail reached with rfl | ⟨p, -, isDir, m, entry⟩
  · exact ⟨w.root, sound.rootUp, sound.tree.rootDir⟩
  · exact ⟨p, sound.up isDir entry, isDir_of_entry entry⟩

/-- A name it does not have is neither `.` nor `..`. -/
theorem Reached.real_of_absent (sound : Sound w loose held pend) (reached : Reached w d)
    (absent : n ∉ (children w d).map Prod.fst) : Real n := by
  constructor
  · rintro rfl
    exact absent (List.mem_map_of_mem (sound.self (reached.isDir sound)))
  · rintro rfl
    obtain ⟨p, mem, -⟩ := reached.parent sound
    exact absent (List.mem_map_of_mem mem)

/-- What is not a directory has a name that is neither `.` nor `..`. -/
theorem Reached.real_of_leaf (sound : Sound w loose held pend) (reached : Reached w d)
    (mem : (n, i) ∈ children w d) (leaf : ¬IsDir w i) : Real n := by
  have same : ∀ {j}, (n, j) ∈ children w d → j = i := fun mem' =>
    Option.some.inj ((dentryFind_of_mem (sound.unique d) mem').symm.trans
      (dentryFind_of_mem (sound.unique d) mem))
  constructor
  · rintro rfl
    obtain rfl := same (sound.self (reached.isDir sound))
    exact leaf (reached.isDir sound)
  · rintro rfl
    obtain ⟨p, mem', isDir⟩ := reached.parent sound
    obtain rfl := same mem'
    exact leaf isDir

theorem Reached.congr (reached : Reached w d) (same : w'.dirOf = w.dirOf) (root : w'.root = w.root) :
    Reached w' d := by
  have isDir : IsDir w' = IsDir w := by
    funext d
    rw [IsDir, IsDir, same]
  have entry : Entry w' = Entry w := by
    funext d n j
    rw [Entry, Entry, children_congr same]
  unfold Reached
  rw [isDir, entry, root]
  exact reached

theorem dirOf_addLink (was : w.inodes i = some x) (k : Int) : (addLink w i k).dirOf = w.dirOf := by
  rw [addLink, World.mapInode, was, Option.map_some]
  exact dirOf_touch was rfl

/-- A reference is taken and given back at once, of an inode that has others. -/
theorem ref_unref_eq {w₁ w₂ : World} (was : w.inodes i = some x) (more : 0 < x.refcount)
    (refd : inodeRef w i = some w₁) (given : inodeUnref w₁ i = some w₂) : w₂ = w := by
  obtain ⟨x', was', rfl⟩ := map_eq_some_iff.mp refd
  obtain rfl := Option.some.inj (was.symm.trans was')
  obtain ⟨y, was₁, rfl⟩ := map_eq_some_iff.mp given
  rw [inodes_setInode_self] at was₁
  obtain rfl := Option.some.inj was₁
  rw [if_neg (by simp only; omega)]
  have restored : ({ x with refcount := x.refcount + 1 - 1 } : VfsInode) = x := by
    rw [Int.add_sub_cancel]
  simp only [World.setInode, Function.update_idem, restored]
  rw [← was, Function.update_eq_self]

theorem Sound.ref_unref {w₁ w₂ : World} (sound : Sound w loose (held + Pi.single i 1) pend)
    (refd : inodeRef w i = some w₁) (given : inodeUnref w₁ i = some w₂) : w₂ = w := by
  obtain ⟨x, was, -⟩ := map_eq_some_iff.mp refd
  refine ref_unref_eq was ?_ refd given
  by_cases root : i = w.root
  · have before := sound.rootRefs (root ▸ was)
    omega
  · have before := sound.refs was root
    simp only [Pi.add_apply, Pi.single_eq_same] at before
    omega

/-- A name pending for a directory does not count. -/
theorem Sound.pendingDir (sound : Sound w loose held pend) (isDir : IsDir w i)
    (others : ∀ j, j ≠ i → pend' j = pend j) : Sound w loose held pend' := by
  refine sound.pending fun j z now leaf => others j ?_
  rintro rfl
  rw [isDir_iff now, leaf] at isDir
  cases isDir

/-- The link count of a directory is not looked at. -/
theorem Sound.relinkDir (sound : Sound w loose held pend) (isDir : IsDir w i) (k : Int) :
    Sound (addLink w i k) loose held pend := by
  obtain ⟨⟨c, count⟩, at_⟩ := Option.ne_none_iff_exists'.mp isDir
  obtain ⟨x, was, -⟩ := inode_of_dirOf at_
  have isDir' : IsDir (addLink w i k) i := by rwa [IsDir, dirOf_addLink was]
  refine (sound.relink was k).pendingDir isDir' fun j other => ?_
  rw [Pi.add_apply, Pi.single_eq_of_ne other, add_zero]

/-- The last reference of an inode. -/
theorem inodeUnref_last (was : w.inodes i = some x) (last : x.refcount = 1)
    (done : inodeUnref w i = some w') : w'.inodes i = none := by
  obtain ⟨x', was', rfl⟩ := map_eq_some_iff.mp done
  obtain rfl := Option.some.inj (was.symm.trans was')
  rw [if_pos (by omega)]
  exact inodes_setInode_self _

/-! ### Files and links -/

/-- An entry for a new inode that is not a directory. -/
theorem Sound.newLeaf {priv : Priv} {alloc : Bool} {r : Int}
    (sound : Sound w none held pend) (reached : Reached w d) (leaf : ∀ c n, priv ≠ .dir c n)
    (unheld : held w.nextIno = 0) (settled : pend w.nextIno = 0)
    (absent : dentryFind (children w d) n = none) (named : alloc = true → n ≠ [])
    (done : dentryAdd (inodeAlloc w priv).1 d n w.nextIno alloc = some (w', r)) :
    (0 ≤ r → Sound w' none (held + Pi.single w.nextIno 1) pend ∧
      w'.inodes w.nextIno ≠ none) ∧
    ∀ w'', r < 0 → inodeUnref w' w.nextIno = some w'' → Sound w'' none held pend := by
  have made := sound.allocLeaf leaf unheld settled
  have new : (inodeAlloc w priv).1.inodes w.nextIno = some ⟨priv, 1, none, 1⟩ := inodes_inodeAlloc_self
  rcases dentryAdd_cases done with
    ⟨rfl, negative, -⟩ | ⟨rfl, enough, c, count, w₁, at_, absent', refd, rfl⟩
  · refine ⟨fun nonneg => absurd nonneg (not_le.mpr negative), fun w'' _ given => ?_⟩
    refine (made.unref given).pending fun i x now _ => ?_
    have other : i ≠ w.nextIno := by
      rintro rfl
      rw [inodeUnref_last new rfl given] at now
      cases now
    rw [Pi.add_apply, Pi.single_eq_of_ne other, add_zero]
  · refine ⟨fun _ => ?_, fun _ negative => absurd negative (lt_irrefl _)⟩
    have isLeaf : (⟨priv, 1, none, 1⟩ : VfsInode).isDir = false := by
      cases priv with
      | dir c n => exact absurd rfl (leaf c n)
      | file => rfl
      | link => rfl
    have dirs : (inodeAlloc w priv).1.dirOf = w.dirOf := by
      funext j
      by_cases here : j = w.nextIno
      · subst here
        rw [dirOf_nextIno sound]
        refine not_not.mp fun isDir => ?_
        have isDir : IsDir (inodeAlloc w priv).1 w.nextIno := isDir
        rw [isDir_iff new, isLeaf] at isDir
        cases isDir
      · rw [World.dirOf, World.dirOf, inodes_inodeAlloc_ne here]
    have kids : children w d = c := children_of_dirOf (dirs ▸ at_)
    have at₁ : w₁.dirOf d = some (c, count) := by rw [dirOf_inodeRef refd, at_]
    obtain ⟨y, was, rfl⟩ := map_eq_some_iff.mp refd
    have reached₁ : Reached ((inodeAlloc w priv).1.setInode w.nextIno
        (some { y with refcount := y.refcount + 1 })) d :=
      reached.congr ((dirOf_inodeRef refd).trans dirs) rfl
    obtain rfl := Option.some.inj (new.symm.trans was)
    have entered := (made.ref refd).enterLeaf at₁ (dentryFind_none.mp absent') (named enough)
      (reached.real_of_absent sound (dentryFind_none.mp absent))
      (inodes_setInode_self _) isLeaf ⟨_, .inl rfl, reached₁⟩
    rw [add_sub_cancel_right] at entered
    refine ⟨entered, ?_⟩
    rw [Ne, inodes_setDir_none at₁, inodes_setInode_self]
    rintro ⟨⟩

theorem ramfsCreateImpl_sound {alloc : Fin 3 → Bool} {r : Int} {out : Option Ino}
    (sound : Sound w none held pend) (reached : Reached w d) (unheld : held w.nextIno = 0)
    (settled : pend w.nextIno = 0)
    (named : dentryFind (children w d) n = none → (∀ k, alloc k = true) → n ≠ [])
    (done : ramfsCreateImpl w d n alloc = some (w', r, out)) :
    (out = none → Sound w' none held pend) ∧
      ∀ i, out = some i → Sound w' none (held + Pi.single i 1) pend ∧ w'.inodes i ≠ none := by
  obtain ⟨⟨c, count⟩, at_, done⟩ := bind_eq_some_iff.mp done
  have kids := children_of_dirOf at_
  dsimp only at done
  split at done
  · cases done
    exact ⟨fun _ => sound, nofun⟩
  · rename_i absent
    have absent : dentryFind (children w d) n = none := by rw [kids]; simpa using absent
    split at done
    · cases done
      exact ⟨fun _ => sound, nofun⟩
    · rename_i enough
      have enough : alloc 0 = true ∧ alloc 1 = true := by simpa using enough
      obtain ⟨⟨w₁, r₁⟩, added, done⟩ := bind_eq_some_iff.mp done
      obtain ⟨success, failure⟩ := sound.newLeaf reached (by exact nofun) unheld settled absent
        (fun last => named absent (by simp [Fin.forall_fin_succ, enough, last])) added
      dsimp only at done
      split at done
      · rename_i negative
        obtain ⟨w₂, given, done⟩ := bind_eq_some_iff.mp done
        cases done
        exact ⟨fun _ => failure _ negative given, nofun⟩
      · rename_i nonneg
        obtain ⟨w₂, refd, done⟩ := bind_eq_some_iff.mp done
        obtain ⟨w₃, given, done⟩ := bind_eq_some_iff.mp done
        cases done
        obtain ⟨entered, there⟩ := success (not_lt.mp nonneg)
        rw [entered.ref_unref refd given]
        refine ⟨nofun, fun i same => ?_⟩
        obtain rfl := Option.some.inj same
        exact ⟨entered, there⟩

theorem ramfsSymlinkImpl_sound {target : Name} {alloc : Fin 3 → Bool} {r : Int}
    (sound : Sound w none held pend) (reached : Reached w d) (unheld : held w.nextIno = 0)
    (settled : pend w.nextIno = 0)
    (named : dentryFind (children w d) n = none → (∀ k, alloc k = true) → n ≠ [])
    (done : ramfsSymlinkImpl w d n target alloc = some (w', r)) : Sound w' none held pend := by
  obtain ⟨⟨c, count⟩, at_, done⟩ := bind_eq_some_iff.mp done
  have kids := children_of_dirOf at_
  dsimp only at done
  split at done
  · cases done
    exact sound
  · rename_i absent
    have absent : dentryFind (children w d) n = none := by rw [kids]; simpa using absent
    split at done
    · cases done
      exact sound
    · rename_i first
      split at done
      · cases done
      · split at done
        · cases done
          exact sound
        · rename_i second
          have enough : alloc 0 = true ∧ alloc 1 = true := ⟨by simpa using first, by simpa using second⟩
          obtain ⟨⟨w₁, r₁⟩, added, done⟩ := bind_eq_some_iff.mp done
          obtain ⟨success, failure⟩ := sound.newLeaf reached (by exact nofun) unheld settled absent
            (fun last => named absent (by simp [Fin.forall_fin_succ, enough, last])) added
          obtain ⟨w₂, given, done⟩ := bind_eq_some_iff.mp done
          cases done
          rcases lt_or_ge r₁ 0 with negative | nonneg
          · exact failure _ negative given
          · exact (success nonneg).1.unref given

theorem ramfsLinkImpl_sound {alloc : Bool} {r : Int}
    (sound : Sound w none held pend) (reached : Reached w d)
    (named : ¬IsDir w i → dentryFind (children w d) n = none → alloc = true → n ≠ [])
    (done : ramfsLinkImpl w d n i alloc = some (w', r)) : Sound w' none held pend := by
  obtain ⟨x, was, done⟩ := bind_eq_some_iff.mp done
  split at done
  · cases done
    exact sound
  · rename_i leaf
    have leaf : x.isDir = false := by simpa using leaf
    have notDir : ¬IsDir w i := by rw [isDir_iff was, leaf]; exact Bool.false_ne_true
    obtain ⟨⟨w₁, r₁⟩, added, rest⟩ := bind_eq_some_iff.mp done
    rcases dentryAdd_cases added with
      ⟨rfl, negative, -⟩ | ⟨rfl, enough, c, count, w₂, at_, absent, refd, rfl⟩
    · dsimp only at rest
      rw [if_neg negative.ne] at rest
      cases rest
      exact sound
    · dsimp only at rest
      rw [if_pos rfl] at rest
      cases rest
      have kids := children_of_dirOf at_
      have at₂ : w₂.dirOf d = some (c, count) := by rw [dirOf_inodeRef refd, at_]
      have referenced := sound.ref refd
      have sameDirs := dirOf_inodeRef refd
      obtain ⟨x', was', rfl⟩ := map_eq_some_iff.mp refd
      obtain rfl := Option.some.inj (was.symm.trans was')
      have entered := referenced.enterLeaf at₂ (dentryFind_none.mp absent)
        (named notDir (kids.symm ▸ absent) enough)
        (reached.real_of_absent sound (kids.symm ▸ dentryFind_none.mp absent))
        (inodes_setInode_self _) leaf ⟨_, .inl rfl, reached.congr sameDirs rfl⟩
      have there : ∃ y, ((w.setInode i (some { x with refcount := x.refcount + 1 })).setDir d
          ((n, i) :: c) (count + 1)).inodes i = some y := by
        refine Option.ne_none_iff_exists'.mp ?_
        rw [Ne, inodes_setDir_none at₂, inodes_setInode_self]
        exact nofun
      obtain ⟨y, now⟩ := there
      have linked := entered.relink now 1
      rwa [sub_add_cancel] at linked

/-- The entry of what is not a directory is removed, once its link count is less. -/
theorem Sound.unlink {r : Int} (sound : Sound w loose held pend) (at_ : w.dirOf d = some (c, count))
    (found : dentryFind c n = some i) (real : Real n) (was : w.inodes i = some x)
    (leaf : x.isDir = false) (done : dentryRemove (addLink w i (-1)) d n = some (w', r)) :
    Sound w' loose held pend := by
  have less := sound.relink was (-1)
  have at₁ : (addLink w i (-1)).dirOf d = some (c, count) := by rw [dirOf_addLink was, at_]
  have now : (addLink w i (-1)).inodes i = some { x with nlink := x.nlink + -1 } := by
    rw [addLink, World.mapInode, was]
    exact inodes_setInode_self _
  have left := (less.leaveLeaf at₁ found real now leaf).unref (dentryRemove_eq at₁ found done)
  have balanced : pend + Pi.single i (-1) + Pi.single i 1 = pend := by
    funext j
    by_cases here : j = i
    · subst here
      simp
    · simp [here]
  rwa [balanced] at left

theorem ramfsUnlinkImpl_sound {r : Int} (sound : Sound w none held pend) (reached : Reached w d)
    (done : ramfsUnlinkImpl w d n = some (w', r)) : Sound w' none held pend := by
  obtain ⟨⟨c, count⟩, at_, done⟩ := bind_eq_some_iff.mp done
  have kids := children_of_dirOf at_
  dsimp only at done
  split at done
  · cases done
    exact sound
  · rename_i i found
    obtain ⟨x, was, done⟩ := bind_eq_some_iff.mp done
    split at done
    · cases done
      exact sound
    · rename_i leaf
      have leaf : x.isDir = false := by simpa using leaf
      have notDir : ¬IsDir w i := by rw [isDir_iff was, leaf]; exact Bool.false_ne_true
      have real := reached.real_of_leaf sound (kids.symm ▸ mem_of_dentryFind found) notDir
      exact sound.unlink at_ found real was leaf done

/-! ### Directories -/

/-- A directory with two entries has `.` and `..`. -/
theorem Sound.empty_of_count (sound : Sound w none held pend) (reached : Reached w d)
    (at_ : w.dirOf d = some (c, count)) (few : count ≤ 2) {m : Name} {j : Ino} : ¬Entry w d m j := by
  rintro ⟨mem, real⟩
  have kids := children_of_dirOf at_
  obtain ⟨p, up, -⟩ := reached.parent sound
  have self := sound.self (reached.isDir sound)
  have three : [m, dot, dotdot].Nodup := by
    simp only [List.nodup_cons, List.mem_cons, List.not_mem_nil, or_false, not_or,
      not_false_eq_true, List.nodup_nil, and_true]
    exact ⟨real, by decide⟩
  have inside : [m, dot, dotdot] ⊆ (children w d).map Prod.fst := by
    intro k mem'
    simp only [List.mem_cons, List.not_mem_nil, or_false] at mem'
    rcases mem' with rfl | rfl | rfl
    · exact List.mem_map_of_mem mem
    · exact List.mem_map_of_mem self
    · exact List.mem_map_of_mem up
  have most := (List.subperm_of_subset three inside).length_le
  rw [kids, List.length_map, ← sound.count at_] at most
  simp only [List.length_cons, List.length_nil] at most
  omega

/-- What an entry names is reached. -/
theorem Sound.reached_of_entry (sound : Sound w none held pend) (entry : Entry w d n i)
    (isDir : IsDir w i) : Reached w i :=
  sound.tree.reach_of_entry isDir entry

theorem ramfsRmdirImpl_sound {r : Int} (sound : Sound w none held pend)
    (real : ∀ i c count, dentryFind (children w d) n = some i → w.dirOf i = some (c, count) →
      count ≤ 2 → Real n)
    (done : ramfsRmdirImpl w d n = some (w', r)) : Sound w' none held pend := by
  obtain ⟨⟨c, count⟩, at_, done⟩ := bind_eq_some_iff.mp done
  have kids := children_of_dirOf at_
  dsimp only at done
  split at done
  · cases done
    exact sound
  · rename_i i found
    obtain ⟨x, was, done⟩ := bind_eq_some_iff.mp done
    split at done
    · rename_i c' count' priv
      split at done
      · cases done
        exact sound
      · rename_i few
        have dir := dirOf_of_inode was priv
        have real := real i c' count' (kids ▸ found) dir (not_lt.mp few)
        have isDir := isDir_of_dirOf dir
        have entry : Entry w d n i := ⟨kids.symm ▸ mem_of_dentryFind found, real⟩
        have empty := fun {m j} => sound.empty_of_count (m := m) (j := j)
          (sound.reached_of_entry entry isDir) dir (not_lt.mp few)
        have parentDir := isDir_of_dirOf at_
        have less := sound.relinkDir isDir (-1)
        have dirs := dirOf_addLink was (-1)
        obtain ⟨y, now, -⟩ := inode_of_dirOf (dirs.symm ▸ at_)
        have less' := less.relinkDir (by rwa [IsDir, dirs] : IsDir (addLink w i (-1)) d) (-1)
        have dirs' := (dirOf_addLink now (-1)).trans dirs
        have at' : (addLink (addLink w i (-1)) d (-1)).dirOf d = some (c, count) := by rw [dirs', at_]
        have isDir' : IsDir (addLink (addLink w i (-1)) d (-1)) i := by rwa [IsDir, dirs']
        have entry' : Entry (addLink (addLink w i (-1)) d (-1)) = Entry w := by
          funext p m j
          rw [Entry, Entry, children_congr dirs']
        have left := less'.leaveEmpty at' found real (by rwa [entry'])
        have still : IsDir ((addLink (addLink w i (-1)) d (-1)).setDir d
            (c.eraseP fun e => e.1 = n) (count - 1)) i := by rwa [isDir_setDir at']
        refine (left.pendingDir still fun j other => ?_).unref (dentryRemove_eq at' found done)
        rw [Pi.add_apply, Pi.single_eq_of_ne other, add_zero]
    · cases done
      exact sound

/-- What `ramfs_mkdir_impl` has made before the directory gets its name. -/
theorem mkdir_made {w₁ w₂ : World} {r₁ r₂ : Int} (was : w.inodes d = some x) (old : d ≠ w.nextIno)
    (self : dentryAdd (addLink (inodeAlloc w (.dir [] 0)).1 w.nextIno 1) w.nextIno dot w.nextIno true =
      some (w₁, r₁))
    (parent : dentryAdd w₁ w.nextIno dotdot d true = some (w₂, r₂)) :
    ∃ w₀, inodeRef w d = some w₀ ∧ w₂ = newDir w₀ d := by
  have made : addLink (inodeAlloc w (.dir [] 0)).1 w.nextIno 1 =
      { w.setInode w.nextIno (some ⟨.dir [] 0, 2, none, 1⟩) with nextIno := w.nextIno + 1 } := by
    simp [addLink, inodeAlloc, World.mapInode, World.setInode]
  rw [made] at self
  have self' : w₁ = { w.setInode w.nextIno (some ⟨.dir [(dot, w.nextIno)] 1, 2, none, 2⟩) with
      nextIno := w.nextIno + 1 } := by
    simp [dentryAdd, World.dirOf, World.setInode, dentryFind, inodeRef, World.setDir,
      World.mapInode] at self
    exact self.1.symm
  subst self'
  refine ⟨w.setInode d (some { x with refcount := x.refcount + 1 }), by rw [inodeRef, was]; rfl, ?_⟩
  simp [dentryAdd, World.dirOf, World.setInode, dentryFind, inodeRef, World.setDir,
    World.mapInode, old, old.symm, was, dot, dotdot] at parent
  rw [← parent.1]
  simp [newDir, World.setInode, dot, dotdot, Function.update_comm old]

/-- A new directory; it gets its `.` and `..`. -/
theorem ramfsMkdirImpl_sound {alloc : Fin 5 → Bool} {r : Int} {out : Option Ino}
    (sound : Sound w none held pend) (reached : Reached w d) (unheld : held w.nextIno = 0)
    (named : dentryFind (children w d) n = none → (∀ k, alloc k = true) → n ≠ [])
    (dots : dentryFind (children w d) n = none → alloc 0 = true → alloc 1 = true →
      alloc 2 = true ∧ alloc 3 = true)
    (done : ramfsMkdirImpl w d n alloc false = some (w', r, out)) : Sound w' none held pend := by
  obtain ⟨⟨c, count⟩, at_, done⟩ := bind_eq_some_iff.mp done
  have kids := children_of_dirOf at_
  dsimp only at done
  split at done
  · cases done
    exact sound
  · rename_i absent
    have absent : dentryFind (children w d) n = none := by rw [kids]; simpa using absent
    split at done
    · cases done
      exact sound
    · rename_i enough
      have enough : alloc 0 = true ∧ alloc 1 = true := by simpa using enough
      obtain ⟨alloc₂, alloc₃⟩ := dots absent enough.1 enough.2
      rw [alloc₂, alloc₃] at done
      obtain ⟨⟨w₁, r₁⟩, self, done⟩ := bind_eq_some_iff.mp done
      obtain ⟨⟨w₂, r₂⟩, parent, done⟩ := bind_eq_some_iff.mp done
      obtain ⟨⟨w₃, r₃⟩, added, done⟩ := bind_eq_some_iff.mp done
      obtain ⟨x, was, -⟩ := inode_of_dirOf at_
      have old : d ≠ w.nextIno := ne_of_alive sound (by rw [was]; exact nofun)
      obtain ⟨w₀, refd, rfl⟩ := mkdir_made was old self parent
      have referenced := sound.ref refd
      have dirs := dirOf_inodeRef refd
      have next : w₀.nextIno = w.nextIno := by
        obtain ⟨_, _, rfl⟩ := map_eq_some_iff.mp refd
        rfl
      have root : w₀.root = w.root := by
        obtain ⟨_, _, rfl⟩ := map_eq_some_iff.mp refd
        rfl
      have reached₀ : Reached w₀ d := reached.congr dirs root
      have made := referenced.newDir (reached₀.isDir referenced) (by rwa [next])
      have fresh := dirOf_nextIno referenced
      have new : (inodeAlloc w (.dir [] 0)).2 = w₀.nextIno := next.symm
      simp only [new] at added
      rcases dentryAdd_cases added with
        ⟨rfl, negative, -⟩ | ⟨rfl, last, c', count', w₄, at', absent', refd', rfl⟩
      · dsimp only at done
        rw [if_pos negative] at done
        obtain ⟨w₅, given, done⟩ := bind_eq_some_iff.mp done
        cases done
        rw [new] at given
        refine (made.settle fun {m j} there => ?_).unref given
        rw [entry_newDir referenced] at there
        exact isDir_of_entry there fresh
      · dsimp only at done
        rw [if_neg (lt_irrefl 0)] at done
        obtain ⟨w₅, given, done⟩ := bind_eq_some_iff.mp done
        cases done
        rw [new] at given
        have dirs' := dirOf_inodeRef refd'
        have at₄ : w₄.dirOf d = some (c', count') := by rw [dirs', at']
        have kids' : children w d = c' := by
          rw [dirOf_newDir, update_of_ne (by rwa [next]), dirs] at at'
          exact children_of_dirOf at'
        have parent' : (dotdot, d) ∈ children w₄ w₀.nextIno := by
          rw [children_congr dirs', children_newDir, update_self]
          exact List.mem_cons_self ..
        have under : Under (IsDir w₄) (Entry w₄) w₄.root d := by
          have root' : w₄.root = w₀.root := by
            obtain ⟨_, _, rfl⟩ := map_eq_some_iff.mp refd'
            rfl
          have toNew : Reached (newDir w₀ d) d := by
            refine reached₀.mono fun {p m j} isDir there => ⟨(isDir_newDir j).mpr (.inl isDir), ?_⟩
            rwa [entry_newDir referenced]
          exact toNew.congr dirs' root'
        have all : ∀ k, alloc k = true := by
          simp [Fin.forall_fin_succ, enough.1, enough.2, alloc₂, alloc₃, last]
        have entered := (made.ref refd').enterDir at₄ (dentryFind_none.mp absent') (named absent all)
          (reached.real_of_absent sound (dentryFind_none.mp absent)) under parent'
        have isDirNew : IsDir (w₄.setDir d ((n, w₀.nextIno) :: c') (count' + 1)) w₀.nextIno := by
          rw [isDir_setDir at₄, IsDir, dirs']
          exact (isDir_newDir _).mpr (.inr rfl)
        have isDirParent : IsDir (w₄.setDir d ((n, w₀.nextIno) :: c') (count' + 1)) d := by
          rw [isDir_setDir at₄]
          exact isDir_of_dirOf at₄
        refine ((entered.pendingDir isDirNew fun j other => ?_).relinkDir isDirParent 1).unref given
        rw [Pi.sub_apply, Pi.single_eq_of_ne other, sub_zero]

/-! ### Renaming -/

/-- Giving back a reference of its own leaves the directories alone. -/
theorem Sound.dirOf_unref (sound : Sound w loose (held + Pi.single i 1) pend)
    (done : inodeUnref w i = some w') : w'.dirOf = w.dirOf ∧ w'.root = w.root ∧
      ∀ j, j ≠ i → w'.inodes j = w.inodes j := by
  obtain ⟨x, was, rfl⟩ := map_eq_some_iff.mp done
  split
  · -- it is not a directory, as that would name itself
    rename_i last
    refine ⟨?_, rfl, fun j other => inodes_setInode_ne _ other⟩
    have none_ : w.dirOf i = none := by
      by_contra isDir
      have named := namings_pos sound (sound.self isDir)
      by_cases root : i = w.root
      · have before := sound.rootRefs (root ▸ was)
        subst root
        simp only [Pi.add_apply, Pi.single_eq_same] at before
        omega
      · have before := sound.refs was root
        simp only [Pi.add_apply, Pi.single_eq_same] at before
        omega
    funext d
    by_cases here : d = i
    · subst here
      rw [none_, World.dirOf, inodes_setInode_self]
    · rw [World.dirOf, World.dirOf, inodes_setInode_ne _ here]
  · exact ⟨dirOf_touch was rfl, rfl, fun j other => inodes_setInode_ne _ other⟩

/-- An entry is removed: what is left is the directory without it, and the inode with
one reference less. -/
theorem Sound.removed {r : Int} {loose' : Option Ino} (at_ : w.dirOf d = some (c, count))
    (found : dentryFind c n = some i)
    (left : Sound (w.setDir d (c.eraseP fun e => e.1 = n) (count - 1)) loose'
      (held + Pi.single i 1) pend')
    (done : dentryRemove w d n = some (w', r)) :
    Sound w' loose' held pend' ∧
      w'.dirOf = (w.setDir d (c.eraseP fun e => e.1 = n) (count - 1)).dirOf ∧ w'.root = w.root ∧
      ∀ j, j ≠ i → w'.inodes j = (w.setDir d (c.eraseP fun e => e.1 = n) (count - 1)).inodes j := by
  have given := dentryRemove_eq at_ found done
  obtain ⟨dirs, root, others⟩ := left.dirOf_unref given
  exact ⟨left.unref given, dirs, root, others⟩

/-- An inode of which the call has another reference is not destroyed. -/
theorem Sound.kept (sound : Sound w loose (held + Pi.single i 1 + Pi.single i 1) pend)
    (was : w.inodes i = some x) (done : inodeUnref w i = some w') :
    w'.inodes i = some { x with refcount := x.refcount - 1 } := by
  obtain ⟨x', was', rfl⟩ := map_eq_some_iff.mp done
  obtain rfl := Option.some.inj (was.symm.trans was')
  have more : 1 < x.refcount := by
    by_cases root : i = w.root
    · have before := sound.rootRefs (root ▸ was)
      rw [← root] at before
      simp only [Pi.add_apply, Pi.single_eq_same] at before
      omega
    · have before := sound.refs was root
      simp only [Pi.add_apply, Pi.single_eq_same] at before
      omega
  rw [if_neg (by omega), inodes_setInode_self]

/-- What a rename asks of its arguments: neither `.` nor `..` is moved or replaced, a
directory stays in its place, and what is replaced is an entry of its own, a file that
goes for good, or a directory without entries. -/
def Renames (w : World) (oldDir : Ino) (oldName : Name) (newDir : Ino) (newName : Name) : Prop :=
  ∀ target ∈ dentryFind (children w oldDir) oldName,
    Real oldName ∧ newName ≠ [] ∧ Real newName ∧ (IsDir w target → newDir = oldDir) ∧
    ∀ old ∈ dentryFind (children w newDir) newName,
      (newDir = oldDir ∧ newName = oldName) ∨
      (¬IsDir w old ∧ ((w.inodes old).any fun x => x.refcount = 1) = true) ∨
      (IsDir w old ∧ ∀ e ∈ children w old, Real e.1 → old = oldDir ∧ e.1 = oldName)

section Rename

variable {od nd t : Ino} {ob nb : Name}

/-- What is known once the old entry has been removed. -/
structure Taken (w w' : World) (loose : Option Ino) (od nd t : Ino) (ob : Name) : Prop where
  loose : (loose = none ∧ ¬IsDir w t) ∨ (loose = some t ∧ IsDir w t)
  reached : Reached w' nd
  isDir : ∀ j, IsDir w' j ↔ IsDir w j
  other : ∀ j, j ≠ od → children w' j = children w j
  here : ∀ e, e ∈ children w' od ↔ e ∈ children w od ∧ e.1 ≠ ob
  inodes : ∀ j x, ¬IsDir w j → j ≠ t → w.inodes j = some x → w'.inodes j = some x
  target : ∀ x, w.inodes t = some x → ∃ y, w'.inodes t = some y ∧ y.refcount = x.refcount

theorem taken {w₁ w₂ : World} {r : Int} (sound : Sound w none held pend)
    (found : dentryFind (children w od) ob = some t) (real : Real ob) (reached : Reached w nd)
    (place : IsDir w t → nd = od) (refd : inodeRef w t = some w₁)
    (done : dentryRemove w₁ od ob = some (w₂, r)) :
    ∃ loose, Sound w₂ loose (held + Pi.single t 1) (pend + Pi.single t 1) ∧
      Taken w w₂ loose od nd t ob := by
  have mem := mem_of_dentryFind found
  obtain ⟨count, at_⟩ := dirOf_of_mem mem
  have referenced := sound.ref refd
  have dirs := dirOf_inodeRef refd
  have kids := children_congr dirs
  have at₁ : w₁.dirOf od = some (children w od, count) := by rw [dirs, at_]
  have root₁ : w₁.root = w.root := by
    obtain ⟨_, _, rfl⟩ := map_eq_some_iff.mp refd
    rfl
  have isDir₁ : IsDir w₁ = IsDir w := by
    funext j
    rw [IsDir, IsDir, dirs]
  have others₁ : ∀ j, j ≠ t → w₁.inodes j = w.inodes j := by
    obtain ⟨_, _, rfl⟩ := map_eq_some_iff.mp refd
    exact fun j other => inodes_setInode_ne _ other
  -- What does not depend on the kind of the target.
  have rest : ∀ {loose'}, Sound (w₁.setDir od ((children w od).eraseP fun e => e.1 = ob) (count - 1))
      loose' (held + Pi.single t 1 + Pi.single t 1) (pend + Pi.single t 1) →
      ((loose' = none ∧ ¬IsDir w t) ∨ (loose' = some t ∧ IsDir w t)) →
      Reached (w₁.setDir od ((children w od).eraseP fun e => e.1 = ob) (count - 1)) nd →
      ∃ loose, Sound w₂ loose (held + Pi.single t 1) (pend + Pi.single t 1) ∧
        Taken w w₂ loose od nd t ob := by
    intro loose' left kind reached'
    obtain ⟨sound₂, dirs₂, root₂, others₂⟩ := Sound.removed at₁ found left done
    have kids₂ := (children_congr dirs₂).trans (children_setDir at₁)
    refine ⟨loose', sound₂, kind, reached'.congr dirs₂ root₂, fun j => ?_, fun j other => ?_,
      fun e => ?_, fun j x notDir other was => ?_, fun x was => ?_⟩
    · rw [IsDir, dirs₂, ← IsDir, isDir_setDir at₁, isDir₁]
    · rw [kids₂, update_of_ne other, kids]
    · rw [kids₂, update_self]
      exact mem_eraseP (sound.unique od) e
    · have notOd : j ≠ od := by
        rintro rfl
        exact notDir (isDir_of_dirOf at_)
      obtain ⟨_, _, -, eq⟩ := setDir_eq (l := (children w od).eraseP fun e => e.1 = ob)
        (k := count - 1) at₁
      rw [others₂ j other, eq, inodes_setInode_ne _ notOd, others₁ j other, was]
    · have now : w₁.inodes t = some { x with refcount := x.refcount + 1 } := by
        rw [inodeRef, was] at refd
        obtain rfl := Option.some.inj refd
        exact inodes_setInode_self _
      obtain ⟨z, now'⟩ := Option.ne_none_iff_exists'.mp (mt (inodes_setDir_none at₁).mp
        (by rw [now]; exact Option.some_ne_none _ : w₁.inodes t ≠ none))
      obtain ⟨x₁, now₁, -, same, -⟩ := inodes_setDir at₁ now'
      obtain rfl := Option.some.inj (now.symm.trans now₁)
      refine ⟨_, left.kept now' (dentryRemove_eq at₁ found done), ?_⟩
      simp only [same]
      omega
  by_cases isDir : IsDir w t
  · obtain ⟨left, toOld⟩ := referenced.leaveDir at₁ found real (by rwa [isDir₁])
    refine rest left (.inr ⟨rfl, isDir⟩) ?_
    rw [place isDir]
    exact toOld
  · obtain ⟨x, now⟩ : ∃ x, w₁.inodes t = some x := by
      obtain ⟨_, _, rfl⟩ := map_eq_some_iff.mp refd
      exact ⟨_, inodes_setInode_self _⟩
    have leaf : x.isDir = false := by
      by_contra dir
      rw [← isDir₁, isDir_iff now] at isDir
      exact isDir (by simpa using dir)
    refine rest (referenced.leaveLeaf at₁ found real now leaf) (.inl ⟨rfl, isDir⟩) ?_
    refine (reached.congr dirs root₁).mono fun {p m j} dir there => ?_
    refine ⟨by rwa [isDir_setDir at₁], ?_⟩
    refine (entry_leave at₁ (sound.unique od) found).mpr ⟨there, fun same => ?_⟩
    rw [same.2.2, isDir₁] at dir
    exact isDir dir

/-- The target can be given an entry in the new directory. -/
structure Ready (w : World) (loose : Option Ino) (nd t : Ino) : Prop where
  target : (loose = none ∧ ∃ x, w.inodes t = some x ∧ x.isDir = false) ∨
    (loose = some t ∧ (dotdot, nd) ∈ children w t)
  reached : Reached w nd

/-- The new entry is made. -/
theorem Ready.renamed {w₁ w₂ : World} {r : Int} (ready : Ready w loose nd t)
    (absent : nb ∉ (children w nd).map Prod.fst)
    (sound : Sound w loose (held + Pi.single t 1) (pend + Pi.single t 1)) (named : nb ≠ [])
    (real : Real nb) (added : dentryAdd w nd nb t true = some (w₁, r))
    (given : inodeUnref w₁ t = some w₂) : Sound w₂ none held pend := by
  rcases dentryAdd_cases added with
    ⟨-, -, absurd_ | ⟨c, count, at_, found⟩⟩ | ⟨-, -, c, count, w₀, at_, absent', refd, rfl⟩
  · cases absurd_
  · have absent := dentryFind_none.mpr absent
    rw [children_of_dirOf at_] at absent
    rw [absent] at found
    cases found
  · have dirs := dirOf_inodeRef refd
    have at₀ : w₀.dirOf nd = some (c, count) := by rw [dirs, at_]
    have root₀ : w₀.root = w.root := by
      obtain ⟨_, _, rfl⟩ := map_eq_some_iff.mp refd
      rfl
    have reached := ready.reached.congr dirs root₀
    have referenced := sound.ref refd
    rcases ready.target with ⟨rfl, x, was, leaf⟩ | ⟨rfl, up⟩
    · rw [inodeRef, was] at refd
      obtain rfl := Option.some.inj refd
      have entered := referenced.enterLeaf at₀ (dentryFind_none.mp absent') named real
        (inodes_setInode_self _) leaf ⟨_, .inl rfl, reached⟩
      rw [add_sub_cancel_right] at entered
      exact entered.unref given
    · have entered := referenced.enterDir at₀ (dentryFind_none.mp absent') named real reached
        (by rwa [children_congr dirs])
      rw [add_sub_cancel_right] at entered
      exact entered.unref given

theorem Taken.ready (taken : Taken w w' loose od nd t ob) (sound : Sound w none held pend)
    (found : dentryFind (children w od) ob = some t) (real : Real ob)
    (place : IsDir w t → nd = od) : Ready w' loose nd t := by
  refine ⟨?_, taken.reached⟩
  have mem := mem_of_dentryFind found
  rcases taken.loose with ⟨rfl, leaf⟩ | ⟨rfl, isDir⟩
  · obtain ⟨x, was⟩ := Option.ne_none_iff_exists'.mp (sound.alive mem)
    obtain ⟨y, now, -⟩ := taken.target x was
    refine .inl ⟨rfl, y, now, ?_⟩
    by_contra dir
    rw [← taken.isDir, isDir_iff now] at leaf
    exact leaf (by simpa using dir)
  · refine .inr ⟨rfl, ?_⟩
    obtain rfl := place isDir
    have up := sound.up isDir ⟨mem, real⟩
    by_cases here : t = nd
    · subst here
      exact (taken.here _).mpr ⟨up, real.2.symm⟩
    · rwa [taken.other t here]

/-- Another inode than the target is removed from the new directory. -/
theorem Ready.removed {e : Ino} {r : Int} (ready : Ready w loose nd t)
    (unique : ((children w nd).map Prod.fst).Nodup) (at_ : w.dirOf nd = some (children w nd, count))
    (found : dentryFind (children w nd) nb = some e) (real : Real nb) (other : e ≠ t)
    (left : Sound (w.setDir nd ((children w nd).eraseP fun e => e.1 = nb) (count - 1)) loose
      (held + Pi.single e 1) pend)
    (reached : Reached (w.setDir nd ((children w nd).eraseP fun e => e.1 = nb) (count - 1)) nd)
    (done : dentryRemove w nd nb = some (w', r)) :
    Sound w' loose held pend ∧ Ready w' loose nd t ∧ nb ∉ (children w' nd).map Prod.fst := by
  obtain ⟨sound', dirs, root, others⟩ := Sound.removed at_ found left done
  have kids := (children_congr dirs).trans (children_setDir at_)
  refine ⟨sound', ⟨?_, reached.congr dirs root⟩, ?_⟩
  · rcases ready.target with ⟨rfl, x, was, leaf⟩ | ⟨rfl, up⟩
    · have notNd : t ≠ nd := by
        rintro rfl
        have isDir := isDir_of_dirOf at_
        rw [isDir_iff was, leaf] at isDir
        cases isDir
      obtain ⟨_, _, -, eq⟩ := setDir_eq (l := (children w nd).eraseP fun e => e.1 = nb)
        (k := count - 1) at_
      refine .inl ⟨rfl, x, ?_, leaf⟩
      rw [others t other.symm, eq, inodes_setInode_ne _ notNd, was]
    · refine .inr ⟨rfl, ?_⟩
      rw [kids]
      by_cases here : t = nd
      · subst here
        rw [update_self]
        exact (mem_eraseP unique _).mpr ⟨up, real.2.symm⟩
      · rwa [update_of_ne here]
  · rw [kids, update_self]
    intro mem
    obtain ⟨e', mem, same⟩ := List.mem_map.mp mem
    exact ((mem_eraseP unique e').mp mem).2 same

/-- A file that goes for good makes room. -/
theorem Ready.replacedFile {e : Ino} {r : Int} (ready : Ready w loose nd t)
    (sound : Sound w loose (held + Pi.single t 1) pend)
    (found : dentryFind (children w nd) nb = some e) (real : Real nb) (other : e ≠ t)
    (was : w.inodes e = some x) (leaf : x.isDir = false) (last : x.refcount = 1)
    (done : dentryRemove w nd nb = some (w', r)) :
    Sound w' loose (held + Pi.single t 1) pend ∧ Ready w' loose nd t ∧
      nb ∉ (children w' nd).map Prod.fst := by
  obtain ⟨count, at_⟩ := dirOf_of_mem (mem_of_dentryFind found)
  have unique := sound.unique nd
  have left := sound.leaveLeaf at_ found real was leaf
  have notDir : ¬IsDir w e := by rw [isDir_iff was, leaf]; exact Bool.false_ne_true
  have reached : Reached (w.setDir nd ((children w nd).eraseP fun e => e.1 = nb) (count - 1)) nd := by
    refine ready.reached.mono fun {p m j} dir there => ?_
    refine ⟨by rwa [isDir_setDir at_], ?_⟩
    refine (entry_leave at_ unique found).mpr ⟨there, fun same => ?_⟩
    rw [same.2.2] at dir
    exact notDir dir
  obtain ⟨sound', ready', absent⟩ := ready.removed unique at_ found real other left reached done
  refine ⟨sound'.pending fun j z now _ => ?_, ready', absent⟩
  have gone : w'.inodes e = none := by
    have notNd : e ≠ nd := by
      rintro rfl
      exact notDir (isDir_of_dirOf at_)
    obtain ⟨_, _, -, eq⟩ := setDir_eq (l := (children w nd).eraseP fun e => e.1 = nb)
      (k := count - 1) at_
    refine inodeUnref_last ?_ last (dentryRemove_eq at_ found done)
    rw [eq, inodes_setInode_ne _ notNd, was]
  have other : j ≠ e := by
    rintro rfl
    rw [gone] at now
    cases now
  rw [Pi.add_apply, Pi.single_eq_of_ne other, add_zero]

/-- A directory without entries makes room. -/
theorem Ready.replacedDir {e : Ino} {r : Int} (ready : Ready w loose nd t)
    (sound : Sound w loose (held + Pi.single t 1) pend)
    (found : dentryFind (children w nd) nb = some e) (real : Real nb) (other : e ≠ t)
    (isDir : IsDir w e) (empty : ∀ {m j}, ¬Entry w e m j)
    (done : dentryRemove w nd nb = some (w', r)) :
    Sound w' loose (held + Pi.single t 1) pend ∧ Ready w' loose nd t ∧
      nb ∉ (children w' nd).map Prod.fst := by
  have mem := mem_of_dentryFind found
  obtain ⟨count, at_⟩ := dirOf_of_mem mem
  have unique := sound.unique nd
  have left := sound.leaveEmpty at_ found real empty
  have notNd : nd ≠ e := by
    rintro rfl
    exact empty ⟨mem, real⟩
  have reached : Reached (w.setDir nd ((children w nd).eraseP fun e => e.1 = nb) (count - 1)) nd := by
    unfold Reached
    rw [isDir_setDir at_]
    exact ready.reached.prune notNd empty fun {p m j} there otherDir =>
      (entry_leave at_ unique found).mpr ⟨there, fun same => otherDir same.2.2⟩
  have still : IsDir (w.setDir nd ((children w nd).eraseP fun e => e.1 = nb) (count - 1)) e := by
    rwa [isDir_setDir at_]
  refine ready.removed unique at_ found real other (left.pendingDir still fun j other => ?_) reached done
  rw [Pi.add_apply, Pi.single_eq_of_ne other, add_zero]

/-- What is still in the way was so before, and is not the entry that has been removed. -/
theorem Taken.before (taken : Taken w w' loose od nd t ob) {e : Ino}
    (mem : (nb, e) ∈ children w' nd) : (nb, e) ∈ children w nd ∧ ¬(nd = od ∧ nb = ob) := by
  by_cases here : nd = od
  · subst here
    obtain ⟨mem, other⟩ := (taken.here _).mp mem
    exact ⟨mem, fun same => other same.2⟩
  · rw [taken.other nd here] at mem
    exact ⟨mem, fun same => here same.1⟩

theorem isDir_of_unref (done : inodeUnref w i = some w') {j : Ino} (isDir : IsDir w' j) :
    IsDir w j := by
  obtain ⟨x, was, rfl⟩ := map_eq_some_iff.mp done
  split at isDir
  · by_cases here : j = i
    · subst here
      rw [IsDir, World.dirOf, inodes_setInode_self] at isDir
      exact absurd rfl isDir
    · rw [IsDir, World.dirOf, inodes_setInode_ne _ here] at isDir
      exact isDir
  · have same : (w.setInode i (some { x with refcount := x.refcount - 1 })).dirOf = w.dirOf :=
      dirOf_touch was rfl
    rwa [IsDir, same] at isDir

/-- Removing an entry makes no directory. -/
theorem isDir_of_remove {r : Int} (done : dentryRemove w d n = some (w', r)) {j : Ino}
    (isDir : IsDir w' j) : IsDir w j := by
  obtain ⟨⟨c, count⟩, at_, rest⟩ := bind_eq_some_iff.mp done
  dsimp only at rest
  split at rest
  · cases rest
    exact isDir
  · rename_i found
    have before := isDir_of_unref (dentryRemove_eq at_ found done) isDir
    rwa [isDir_setDir at_] at before

/-- **A rename** keeps the tree, as far as it asks for nothing that breaks it. -/
theorem ramfsRenameImpl_sound {r : Int} (sound : Sound w none held pend)
    (reached : IsDir w nd → Reached w nd)
    (renames : Renames w od ob nd nb) (done : ramfsRenameImpl w od ob nd nb = some (w', r)) :
    Sound w' none held pend := by
  obtain ⟨⟨c, count⟩, at_, done⟩ := bind_eq_some_iff.mp done
  have kids := children_of_dirOf at_
  dsimp only at done
  split at done
  · cases done
    exact sound
  · rename_i t found
    rw [← kids] at found
    obtain ⟨w₁, refd, done⟩ := bind_eq_some_iff.mp done
    obtain ⟨⟨w₂, r₂⟩, out, done⟩ := bind_eq_some_iff.mp done
    obtain ⟨⟨c₂, count₂⟩, at₂, done⟩ := bind_eq_some_iff.mp done
    obtain ⟨real, named, real', place, old⟩ := renames t found
    have kids₂ := children_of_dirOf at₂
    have isDir₁ := isDir_of_remove out (isDir_of_dirOf at₂)
    rw [IsDir, dirOf_inodeRef refd] at isDir₁
    obtain ⟨loose, sound₂, isTaken⟩ := taken sound found real (reached isDir₁) place refd out
    have ready := isTaken.ready sound found real place
    have mem := mem_of_dentryFind found
    dsimp only at done
    split at done
    · rename_i some_
      obtain ⟨⟨w₃, r₃⟩, room, done⟩ := bind_eq_some_iff.mp done
      obtain ⟨⟨w₄, r₄⟩, added, done⟩ := bind_eq_some_iff.mp done
      obtain ⟨w₅, given, done⟩ := bind_eq_some_iff.mp done
      cases done
      obtain ⟨e, found₂⟩ := Option.isSome_iff_exists.mp some_
      rw [← kids₂] at found₂
      obtain ⟨before, distinct⟩ := isTaken.before (mem_of_dentryFind found₂)
      have notRoot : e ≠ w.root := by
        rintro rfl
        exact sound.tree.top ⟨before, real'⟩
      rcases old e (dentryFind_of_mem (sound.unique nd) before) with
        same | ⟨leaf, last⟩ | ⟨isDir, empty⟩
      · exact absurd same distinct
      · obtain ⟨x, was⟩ := Option.ne_none_iff_exists'.mp (sound.alive before)
        rw [was, Option.any_some, decide_eq_true_eq] at last
        -- the target would have a second name otherwise
        have other : e ≠ t := by
          rintro rfl
          obtain ⟨y, now, same⟩ := isTaken.target x was
          have root : e ≠ w₂.root := by
            rintro rfl
            exact sound₂.tree.top ⟨mem_of_dentryFind found₂, real'⟩
          have counted := sound₂.refs now root
          have named := namings_pos sound₂ (mem_of_dentryFind found₂)
          simp only [Pi.add_apply, Pi.single_eq_same] at counted
          omega
        have leaf' : x.isDir = false := by
          by_contra dir
          rw [isDir_iff was] at leaf
          exact leaf (by simpa using dir)
        obtain ⟨sound₃, ready₃, absent⟩ := ready.replacedFile sound₂ found₂ real' other
          (isTaken.inodes e x leaf other was) leaf' last room
        exact ready₃.renamed absent sound₃ named real' added given
      · have other : e ≠ t := by
          rintro rfl
          exact distinct (sound.tree.owner isDir ⟨before, real'⟩ ⟨mem, real⟩)
        have isEmpty : ∀ {m j}, ¬Entry w₂ e m j := by
          rintro m j ⟨there, isReal⟩
          by_cases here : e = od
          · subst here
            obtain ⟨there, remains⟩ := (isTaken.here _).mp there
            exact remains (empty _ there isReal).2
          · rw [isTaken.other e here] at there
            exact here (empty _ there isReal).1
        obtain ⟨sound₃, ready₃, absent⟩ := ready.replacedDir sound₂ found₂ real' other
          ((isTaken.isDir e).mpr isDir) isEmpty room
        exact ready₃.renamed absent sound₃ named real' added given
    · rename_i none_
      obtain ⟨⟨w₃, r₃⟩, room, done⟩ := bind_eq_some_iff.mp done
      obtain ⟨⟨w₄, r₄⟩, added, done⟩ := bind_eq_some_iff.mp done
      obtain ⟨w₅, given, done⟩ := bind_eq_some_iff.mp done
      cases done
      cases room
      have absent : nb ∉ (children w₂ nd).map Prod.fst := by
        rw [← dentryFind_none, kids₂]
        simpa using none_
      exact ready.renamed absent sound₂ named real' added given

end Rename

end AtmKoala.Vfs
