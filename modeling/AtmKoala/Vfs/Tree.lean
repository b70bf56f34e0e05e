import Mathlib.Algebra.BigOperators.Group.Finset.Basic
import Mathlib.Algebra.Group.Pi.Basic
import Mathlib.Algebra.Order.BigOperators.Group.Finset
import Mathlib.Data.Fintype.Prod
import AtmKoala.Lib.NameTree
import AtmKoala.Vfs.Model

/-!
The directories as a tree, with the references and names counted.

* `namings` and `fdCount` count the entries and the descriptors of an inode.
* `Sound w loose held pend` is the invariant inside a call: directory `loose` has been
  taken from its place, the call has `held` references of its own, and a link count is
  ahead of the entries by `pend`. Between calls nothing is loose, held or pending.
* `g_root` is handed out without a reference, so its count is only asked to be larger
  than what the call has to give back.
* Each step of a call keeps it: `Sound.ref`, `Sound.unref`, `Sound.enter`,
  `Sound.leave` and the lemmas around them.
-/

namespace AtmKoala.Vfs

open Lib
open Function (update_of_ne update_self)

variable {w w' : World} {loose : Option Ino} {held held' : Ino → Nat} {pend pend' : Ino → Int}
  {d i p : Ino} {n : Name} {c c' : List (Name × Ino)} {count count' : Nat} {x y : VfsInode}

/-! ### Entries -/

/-- The entries of a directory; none for anything else. -/
def children (w : World) (d : Ino) : List (Name × Ino) := ((w.dirOf d).map Prod.fst).getD []

/-- An entry that is neither `.` nor `..`. -/
def Real (n : Name) : Prop := n ≠ dot ∧ n ≠ dotdot

instance (n : Name) : Decidable (Real n) := inferInstanceAs (Decidable (_ ∧ _))

def Entry (w : World) (d : Ino) (n : Name) (i : Ino) : Prop := (n, i) ∈ children w d ∧ Real n

def IsDir (w : World) (d : Ino) : Prop := w.dirOf d ≠ none

/-- How many entries name an inode. -/
def namings (w : World) (i : Ino) : Nat :=
  ∑ d ∈ Finset.range w.nextIno, (children w d).countP fun e => e.2 = i

/-- How many descriptors an inode has. -/
def fdCount (w : World) (i : Ino) : Nat := (Finset.univ.filter fun k => w.fds k = some i).card

theorem children_of_dirOf (at_ : w.dirOf d = some (c, count)) : children w d = c := by
  rw [children, at_]
  rfl

theorem dirOf_of_mem {e : Name × Ino} (mem : e ∈ children w d) :
    ∃ count, w.dirOf d = some (children w d, count) := by
  unfold children at mem ⊢
  cases at_ : w.dirOf d with
  | none =>
    rw [at_] at mem
    cases mem
  | some both => exact ⟨both.2, rfl⟩

theorem inode_of_dirOf (at_ : w.dirOf d = some (c, count)) :
    ∃ x, w.inodes d = some x ∧ x.priv = .dir c count := by
  unfold World.dirOf at at_
  split at at_
  · rename_i eq
    cases at_
    exact ⟨_, eq, rfl⟩
  · cases at_

theorem dirOf_of_inode (at_ : w.inodes d = some x) (priv : x.priv = .dir c count) :
    w.dirOf d = some (c, count) := by
  unfold World.dirOf
  obtain ⟨_, _, _, _⟩ := x
  obtain rfl : _ = Priv.dir c count := priv
  rw [at_]

theorem isDir_iff (at_ : w.inodes d = some x) : IsDir w d ↔ x.isDir = true := by
  unfold IsDir World.dirOf VfsInode.isDir
  rw [at_]
  obtain ⟨priv, _, _, _⟩ := x
  cases priv with
  | dir => simp
  | file => simp
  | link => simp

theorem isDir_of_dirOf (at_ : w.dirOf d = some (c, count)) : IsDir w d := by
  rw [IsDir, at_]
  exact nofun

/-! ### The invariant -/

/-- The directories are a tree, but for a loose branch, and each of them is in order. -/
structure Shape (w : World) (loose : Option Ino) : Prop where
  tree : NameTree (IsDir w) (Entry w) w.root loose
  up : ∀ {p n d}, IsDir w d → Entry w p n d → (dotdot, p) ∈ children w d
  rootUp : (dotdot, w.root) ∈ children w w.root
  self : ∀ {d}, IsDir w d → (dot, d) ∈ children w d
  unique : ∀ d, ((children w d).map Prod.fst).Nodup
  nonempty : ∀ {d i}, ([], i) ∉ children w d
  count : ∀ {d c count}, w.dirOf d = some (c, count) → count = c.length

/-- **The tree and its counts**, inside a call. -/
structure Sound (w : World) (loose : Option Ino) (held : Ino → Nat) (pend : Ino → Int) : Prop
    extends Shape w loose where
  alive : ∀ {d n i}, (n, i) ∈ children w d → w.inodes i ≠ none
  opened : ∀ {k i}, w.fds k = some i → w.inodes i ≠ none
  refs : ∀ {i x}, w.inodes i = some x → i ≠ w.root →
    ((namings w i + fdCount w i + held i : Nat) : Int) ≤ x.refcount
  rootRefs : ∀ {x}, w.inodes w.root = some x → (held w.root : Int) < x.refcount
  nlink : ∀ {i x}, w.inodes i = some x → x.isDir = false → x.nlink = namings w i + pend i
  fresh : ∀ {i}, w.nextIno ≤ i → w.inodes i = none
  unmounted : ∀ {i x}, w.inodes i = some x → x.mountpoint = none

theorem children_congr (same : w'.dirOf = w.dirOf) : children w' = children w := by
  funext d
  rw [children, children, same]

theorem namings_congr (same : w'.dirOf = w.dirOf) (next : w'.nextIno = w.nextIno) :
    namings w' = namings w := by
  funext i
  rw [namings, namings, next, children_congr same]

/-- The shape is one of the directories. -/
theorem Shape.congr (shape : Shape w loose) (same : w'.dirOf = w.dirOf) (root : w'.root = w.root) :
    Shape w' loose := by
  have kids := children_congr same
  have isDir : IsDir w' = IsDir w := by
    funext d
    rw [IsDir, IsDir, same]
  have entry : Entry w' = Entry w := by
    funext d n j
    rw [Entry, Entry, kids]
  refine ⟨?_, ?_, ?_, ?_, ?_, ?_, ?_⟩
  · rw [isDir, entry, root]
    exact shape.tree
  · rw [isDir, entry, kids]
    exact shape.up
  · rw [kids, root]
    exact shape.rootUp
  · rw [isDir, kids]
    exact shape.self
  · rw [kids]
    exact shape.unique
  · rw [kids]
    exact shape.nonempty
  · rw [same]
    exact shape.count

/-! ### Changes of one inode's counts -/

theorem inodes_setInode_self (x : Option VfsInode) : (w.setInode i x).inodes i = x :=
  update_self ..

theorem inodes_setInode_ne (x : Option VfsInode) {j : Ino} (ne : j ≠ i) :
    (w.setInode i x).inodes j = w.inodes j :=
  update_of_ne ne ..

/-- The entries do not depend on counts. -/
theorem dirOf_touch (was : w.inodes i = some x) (priv : y.priv = x.priv) :
    (w.setInode i (some y)).dirOf = w.dirOf := by
  funext d
  unfold World.dirOf
  by_cases here : d = i
  · subst here
    rw [inodes_setInode_self, was]
    obtain ⟨kind, _, _, _⟩ := x
    obtain ⟨_, _, _, _⟩ := y
    cases priv
    cases kind with
    | dir => rfl
    | file => rfl
    | link => rfl
  · rw [inodes_setInode_ne _ here]

/-- A change of an inode that leaves its kind and its entries alone. -/
theorem Sound.touch (sound : Sound w loose held pend) (was : w.inodes i = some x)
    (priv : y.priv = x.priv) (mount : y.mountpoint = x.mountpoint)
    (refs : i ≠ w.root → ((namings w i + fdCount w i + held' i : Nat) : Int) ≤ y.refcount)
    (rootRefs : i = w.root → (held' w.root : Int) < y.refcount)
    (nlink : x.isDir = false → y.nlink = namings w i + pend' i)
    (others : ∀ j, j ≠ i → held' j = held j ∧ pend' j = pend j) :
    Sound (w.setInode i (some y)) loose held' pend' := by
  have dirs := dirOf_touch was priv
  have kids := children_congr dirs
  have names : namings (w.setInode i (some y)) = namings w := namings_congr dirs rfl
  have fds : fdCount (w.setInode i (some y)) = fdCount w := rfl
  have kind : y.isDir = x.isDir := by rw [VfsInode.isDir, VfsInode.isDir, priv]
  have there : ∀ {j}, w.inodes j ≠ none → (w.setInode i (some y)).inodes j ≠ none := by
    intro j was'
    by_cases here : j = i
    · subst here
      rw [inodes_setInode_self]
      exact nofun
    · rwa [inodes_setInode_ne _ here]
  refine ⟨sound.toShape.congr dirs rfl, ?_, fun at_ => there (sound.opened at_), ?_, ?_, ?_, ?_, ?_⟩
  · rw [kids]
    exact fun mem => there (sound.alive mem)
  · intro j z at_ notRoot
    rw [names, fds]
    by_cases here : j = i
    · subst here
      rw [inodes_setInode_self] at at_
      obtain rfl := Option.some.inj at_
      exact refs notRoot
    · rw [inodes_setInode_ne _ here] at at_
      rw [(others j here).1]
      exact sound.refs at_ notRoot
  · intro z at_
    by_cases here : w.root = i
    · have at_' : (w.setInode i (some y)).inodes w.root = some z := at_
      rw [here, inodes_setInode_self] at at_'
      obtain rfl := Option.some.inj at_'
      exact rootRefs here.symm
    · have at_' : (w.setInode i (some y)).inodes w.root = some z := at_
      rw [inodes_setInode_ne _ here] at at_'
      show (held' w.root : Int) < z.refcount
      rw [(others w.root here).1]
      exact sound.rootRefs at_'
  · intro j z at_ leaf
    rw [names]
    by_cases here : j = i
    · subst here
      rw [inodes_setInode_self] at at_
      obtain rfl := Option.some.inj at_
      exact nlink (kind ▸ leaf)
    · rw [inodes_setInode_ne _ here] at at_
      rw [(others j here).2]
      exact sound.nlink at_ leaf
  · intro j beyond
    have none_ := sound.fresh beyond
    have ne : j ≠ i := by
      rintro rfl
      rw [none_] at was
      cases was
    rwa [inodes_setInode_ne _ ne]
  · intro j z at_
    by_cases here : j = i
    · subst here
      rw [inodes_setInode_self] at at_
      obtain rfl := Option.some.inj at_
      rw [mount]
      exact sound.unmounted was
    · rw [inodes_setInode_ne _ here] at at_
      exact sound.unmounted at_

/-- One more at `i`. -/
theorem single_others (f : Ino → Nat) {j : Ino} (ne : j ≠ i) : (f + Pi.single i 1 : Ino → Nat) j = f j := by
  simp [ne]

theorem Sound.ref (sound : Sound w loose held pend) (done : inodeRef w i = some w') :
    Sound w' loose (held + Pi.single i 1) pend := by
  obtain ⟨x, was, rfl⟩ := Option.map_eq_some_iff.mp done
  refine sound.touch was rfl rfl (fun notRoot => ?_) (fun atRoot => ?_) (sound.nlink was)
    fun j ne => ⟨single_others held ne, rfl⟩
  · have before := sound.refs was notRoot
    simp only [Pi.add_apply, Pi.single_eq_same]
    push_cast at before ⊢
    omega
  · subst atRoot
    have before := sound.rootRefs was
    simp only [Pi.add_apply, Pi.single_eq_same]
    push_cast at before ⊢
    omega

theorem Sound.relink (sound : Sound w loose held pend) (was : w.inodes i = some x) (n : Int) :
    Sound (addLink w i n) loose held (pend + Pi.single i n) := by
  unfold addLink World.mapInode
  rw [was, Option.map_some]
  refine sound.touch was rfl rfl (fun notRoot => ?_) (fun atRoot => ?_) (fun leaf => ?_)
    fun j ne => ⟨rfl, by simp [ne]⟩
  · have before := sound.refs was notRoot
    exact before
  · subst atRoot
    have before := sound.rootRefs was
    exact before
  · have before := sound.nlink was leaf
    simp only [Pi.add_apply, Pi.single_eq_same]
    omega

/-- The counts of a directory's names are not looked at. -/
theorem Sound.pending (sound : Sound w loose held pend)
    (files : ∀ i x, w.inodes i = some x → x.isDir = false → pend' i = pend i) :
    Sound w loose held pend' := by
  refine { sound with nlink := fun {i x} at_ leaf => ?_ }
  rw [files i x at_ leaf]
  exact sound.nlink at_ leaf

/-- A call may forget a reference. -/
theorem Sound.forget (sound : Sound w loose held pend) (less : ∀ i, held' i ≤ held i) :
    Sound w loose held' pend := by
  refine { sound with refs := fun {i x} at_ notRoot => ?_, rootRefs := fun {x} at_ => ?_ }
  · have before := sound.refs at_ notRoot
    have := less i
    omega
  · have before := sound.rootRefs at_
    have := less w.root
    omega

/-! ### Giving references back -/

theorem lt_of_dirOf (sound : Sound w loose held pend) (at_ : w.dirOf d = some (c, count)) :
    d < w.nextIno := by
  obtain ⟨x, was, -⟩ := inode_of_dirOf at_
  by_contra beyond
  rw [sound.fresh (not_lt.mp beyond)] at was
  cases was

theorem namings_pos (sound : Sound w loose held pend) (mem : (n, i) ∈ children w d) :
    0 < namings w i := by
  obtain ⟨count, at_⟩ := dirOf_of_mem mem
  have inside := Finset.mem_range.mpr (lt_of_dirOf sound at_)
  have one : 0 < (children w d).countP fun e => e.2 = i :=
    List.countP_pos_iff.mpr ⟨_, mem, by simp⟩
  have le := Finset.single_le_sum (f := fun d => (children w d).countP fun e => e.2 = i)
    (fun _ _ => Nat.zero_le _) inside
  exact lt_of_lt_of_le one le

theorem fdCount_pos {k : Fin 64} (at_ : w.fds k = some i) : 0 < fdCount w i :=
  Finset.card_pos.mpr ⟨k, Finset.mem_filter.mpr ⟨Finset.mem_univ k, at_⟩⟩

/-- What nothing names is destroyed. -/
theorem Sound.gone (sound : Sound w loose held pend) (was : w.inodes i = some x)
    (leaf : x.isDir = false) (unnamed : namings w i = 0) (closed : fdCount w i = 0) :
    Sound (w.setInode i none) loose held pend := by
  have notDir : ¬IsDir w i := by rw [isDir_iff was, leaf]; exact Bool.false_ne_true
  have dirs : (w.setInode i none).dirOf = w.dirOf := by
    funext d
    by_cases here : d = i
    · subst here
      have before : w.dirOf d = none := not_not.mp notDir
      rw [before, World.dirOf, inodes_setInode_self]
    · rw [World.dirOf, World.dirOf, inodes_setInode_ne _ here]
  have names : namings (w.setInode i none) = namings w := namings_congr dirs rfl
  have fds : fdCount (w.setInode i none) = fdCount w := rfl
  have root : w.root ≠ i := by
    rintro rfl
    exact notDir sound.tree.rootDir
  have was_ : ∀ {j z}, (w.setInode i none).inodes j = some z → w.inodes j = some z := by
    intro j z at_
    by_cases here : j = i
    · subst here
      rw [inodes_setInode_self] at at_
      cases at_
    · rwa [inodes_setInode_ne _ here] at at_
  refine ⟨sound.toShape.congr dirs rfl, ?_, ?_, ?_, ?_, ?_, ?_, fun at_ => sound.unmounted (was_ at_)⟩
  · intro d n j mem
    rw [children_congr dirs] at mem
    have other : j ≠ i := by
      rintro rfl
      exact absurd unnamed (namings_pos sound mem).ne'
    rw [inodes_setInode_ne _ other]
    exact sound.alive mem
  · intro k j at_
    have other : j ≠ i := by
      rintro rfl
      exact absurd closed (fdCount_pos at_).ne'
    rw [inodes_setInode_ne _ other]
    exact sound.opened at_
  · intro j z at_ notRoot
    rw [names, fds]
    exact sound.refs (was_ at_) notRoot
  · exact fun at_ => sound.rootRefs (was_ at_)
  · intro j z at_ leaf
    rw [names]
    exact sound.nlink (was_ at_) leaf
  · intro j beyond
    by_cases here : j = i
    · subst here
      exact inodes_setInode_self _
    · rw [inodes_setInode_ne _ here]
      exact sound.fresh beyond

/-- **Giving a reference back** destroys the inode only if nothing names it. -/
theorem Sound.unref (sound : Sound w loose (held + Pi.single i 1) pend)
    (done : inodeUnref w i = some w') : Sound w' loose held pend := by
  obtain ⟨x, was, rfl⟩ := Option.map_eq_some_iff.mp done
  have enough : i ≠ w.root →
      ((namings w i + fdCount w i + (held i + 1) : Nat) : Int) ≤ x.refcount := by
    intro notRoot
    have before := sound.refs was notRoot
    simpa only [Pi.add_apply, Pi.single_eq_same] using before
  have enoughRoot : i = w.root → ((held w.root + 1 : Nat) : Int) < x.refcount := by
    intro atRoot
    subst atRoot
    have before := sound.rootRefs was
    simpa only [Pi.add_apply, Pi.single_eq_same] using before
  have less : Sound w loose held pend := sound.forget fun j => by simp
  split
  · rename_i last
    have notRoot : i ≠ w.root := by
      intro atRoot
      have := enoughRoot atRoot
      push_cast at this
      omega
    have none_ := enough notRoot
    push_cast at none_
    have unnamed : namings w i = 0 := by omega
    refine less.gone was ?_ unnamed (by omega)
    by_contra isDir
    have isDir : IsDir w i := (isDir_iff was).mpr (by simpa using isDir)
    exact absurd unnamed (namings_pos sound (sound.self isDir)).ne'
  · refine less.touch was rfl rfl (fun notRoot => ?_) (fun atRoot => ?_) (less.nlink was)
      fun j _ => ⟨rfl, rfl⟩
    · have := enough notRoot
      push_cast at this ⊢
      omega
    · have := enoughRoot atRoot
      push_cast at this
      simp only
      omega

/-! ### Lists of entries -/

theorem mem_of_dentryFind (found : dentryFind c n = some i) : (n, i) ∈ c := by
  obtain ⟨e, at_, rfl⟩ := Option.map_eq_some_iff.mp found
  have name := List.find?_some at_
  simp only [decide_eq_true_eq] at name
  subst name
  exact List.mem_of_find?_eq_some at_

theorem dentryFind_none : dentryFind c n = none ↔ n ∉ c.map Prod.fst := by
  simp only [dentryFind, Option.map_eq_none_iff, List.find?_eq_none, decide_eq_true_eq,
    List.mem_map, not_exists, not_and]

theorem dentryFind_of_mem (unique : (c.map Prod.fst).Nodup) (mem : (n, i) ∈ c) :
    dentryFind c n = some i := by
  cases found : dentryFind c n with
  | none => exact absurd (List.mem_map_of_mem mem) (dentryFind_none.mp found)
  | some j =>
    have mem' := mem_of_dentryFind found
    have same := List.inj_on_of_nodup_map unique mem mem' rfl
    rw [(Prod.mk.inj same).2]

/-- What is left when an entry is taken out. -/
theorem mem_eraseP (unique : (c.map Prod.fst).Nodup) (e : Name × Ino) :
    (e ∈ c.eraseP fun e => e.1 = n) ↔ e ∈ c ∧ e.1 ≠ n := by
  induction c with
  | nil => simp
  | cons a c ih =>
    obtain ⟨new, unique⟩ := List.nodup_cons.mp (List.map_cons ▸ unique)
    by_cases here : a.1 = n
    · rw [List.eraseP_cons_of_pos (by simpa using here)]
      constructor
      · intro mem
        refine ⟨List.mem_cons_of_mem _ mem, ?_⟩
        rintro same
        exact new (List.mem_map.mpr ⟨e, mem, same.trans here.symm⟩)
      · rintro ⟨mem, other⟩
        rcases List.mem_cons.mp mem with rfl | mem
        · exact absurd here other
        · exact mem
    · rw [List.eraseP_cons_of_neg (by simpa using here), List.mem_cons, ih unique, List.mem_cons]
      constructor
      · rintro (rfl | ⟨mem, other⟩)
        · exact ⟨.inl rfl, here⟩
        · exact ⟨.inr mem, other⟩
      · rintro ⟨rfl | mem, other⟩
        · exact .inl rfl
        · exact .inr ⟨mem, other⟩

theorem countP_eraseP (found : dentryFind c n = some i) (j : Ino) :
    (c.countP fun e => e.2 = j) =
      ((c.eraseP fun e => e.1 = n).countP fun e => e.2 = j) + if i = j then 1 else 0 := by
  induction c with
  | nil => cases found
  | cons a c ih =>
    by_cases here : a.1 = n
    · have same : a.2 = i := by simpa [dentryFind, here] using found
      rw [List.eraseP_cons_of_pos (by simpa using here), List.countP_cons, same]
      simp only [decide_eq_true_eq]
    · have rest : dentryFind c n = some i := by simpa [dentryFind, here] using found
      rw [List.eraseP_cons_of_neg (by simpa using here), List.countP_cons, List.countP_cons, ih rest]
      omega

theorem length_eraseP_found (found : dentryFind c n = some i) :
    (c.eraseP fun e => e.1 = n).length = c.length - 1 :=
  List.length_eraseP_of_mem (mem_of_dentryFind found) (by simp)

/-! ### Changes of a directory -/

section SetDir

variable (at_ : w.dirOf d = some (c, count)) {l : List (Name × Ino)} {k : Nat}

include at_

theorem setDir_eq : ∃ x, w.inodes d = some x ∧ x.priv = .dir c count ∧
    w.setDir d l k = w.setInode d (some { x with priv := .dir l k }) := by
  obtain ⟨x, was, priv⟩ := inode_of_dirOf at_
  refine ⟨x, was, priv, ?_⟩
  rw [World.setDir, World.mapInode, was]
  rfl

theorem dirOf_setDir : (w.setDir d l k).dirOf = Function.update w.dirOf d (some (l, k)) := by
  obtain ⟨x, was, -, eq⟩ := setDir_eq (l := l) (k := k) at_
  rw [eq]
  funext j
  by_cases here : j = d
  · subst here
    rw [update_self]
    exact dirOf_of_inode (inodes_setInode_self _) rfl
  · rw [update_of_ne here, World.dirOf, World.dirOf, inodes_setInode_ne _ here]

theorem children_setDir : children (w.setDir d l k) = Function.update (children w) d l := by
  funext j
  rw [children, dirOf_setDir at_]
  by_cases here : j = d
  · subst here
    rw [update_self, update_self]
    rfl
  · rw [update_of_ne here, update_of_ne here]
    rfl

theorem isDir_setDir : IsDir (w.setDir d l k) = IsDir w := by
  funext j
  rw [IsDir, IsDir, dirOf_setDir at_]
  by_cases here : j = d
  · subst here
    rw [update_self, at_]
    exact propext ⟨fun _ => nofun, fun _ => nofun⟩
  · rw [update_of_ne here]

/-- The counts of the inodes are as they were. -/
theorem inodes_setDir {j : Ino} (now : (w.setDir d l k).inodes j = some y) :
    ∃ x, w.inodes j = some x ∧ y.nlink = x.nlink ∧ y.refcount = x.refcount ∧
      y.mountpoint = x.mountpoint ∧ y.isDir = x.isDir := by
  obtain ⟨x, was, priv, eq⟩ := setDir_eq (l := l) (k := k) at_
  rw [eq] at now
  by_cases here : j = d
  · subst here
    rw [inodes_setInode_self] at now
    obtain rfl := Option.some.inj now
    refine ⟨x, was, rfl, rfl, rfl, ?_⟩
    rw [VfsInode.isDir, VfsInode.isDir, priv]
  · rw [inodes_setInode_ne _ here] at now
    exact ⟨y, now, rfl, rfl, rfl, rfl⟩

theorem inodes_setDir_none {j : Ino} : (w.setDir d l k).inodes j = none ↔ w.inodes j = none := by
  obtain ⟨x, was, -, eq⟩ := setDir_eq (l := l) (k := k) at_
  rw [eq]
  by_cases here : j = d
  · subst here
    rw [inodes_setInode_self, was]
    exact ⟨nofun, nofun⟩
  · rw [inodes_setInode_ne _ here]

theorem namings_setDir (inside : d < w.nextIno) (j : Ino) :
    namings (w.setDir d l k) j + c.countP (fun e => e.2 = j) =
      namings w j + l.countP fun e => e.2 = j := by
  have mem := Finset.mem_range.mpr inside
  have next : (w.setDir d l k).nextIno = w.nextIno := rfl
  have was := children_of_dirOf at_
  have rest : ∑ p ∈ (Finset.range w.nextIno).erase d,
        (children (w.setDir d l k) p).countP (fun e => e.2 = j) =
      ∑ p ∈ (Finset.range w.nextIno).erase d, (children w p).countP fun e => e.2 = j := by
    refine Finset.sum_congr rfl fun p mem => ?_
    rw [children_setDir at_, update_of_ne (Finset.ne_of_mem_erase mem)]
  unfold namings
  rw [next, ← Finset.add_sum_erase _ _ mem, ← Finset.add_sum_erase _ _ mem, rest,
    children_setDir at_, update_self, was]
  omega

end SetDir

/-! ### A new entry -/

theorem entry_enter (at_ : w.dirOf d = some (c, count)) (real : Real n) {q j : Ino} {m : Name} :
    Entry (w.setDir d ((n, i) :: c) count') q m j ↔ Entry w q m j ∨ (q = d ∧ m = n ∧ j = i) := by
  unfold Entry
  rw [children_setDir at_]
  by_cases here : q = d
  · subst here
    rw [update_self, children_of_dirOf at_, List.mem_cons, Prod.mk.injEq]
    constructor
    · rintro ⟨⟨rfl, rfl⟩ | mem, real⟩
      · exact .inr ⟨rfl, rfl, rfl⟩
      · exact .inl ⟨mem, real⟩
    · rintro (⟨mem, real⟩ | ⟨-, rfl, rfl⟩)
      · exact ⟨.inr mem, real⟩
      · exact ⟨.inl ⟨rfl, rfl⟩, real⟩
  · rw [update_of_ne here]
    exact ⟨.inl, fun h => h.resolve_right fun same => here same.1⟩

/-- **A new entry.** It takes over one of the references the call has. -/
theorem Sound.enter (sound : Sound w loose (held + Pi.single i 1) pend)
    (at_ : w.dirOf d = some (c, count)) (new : n ∉ c.map Prod.fst) (named : n ≠ [])
    (real : Real n) (there : w.inodes i ≠ none) (notRoot : i ≠ w.root) {loose' : Option Ino}
    (tree : NameTree (IsDir w) (Entry (w.setDir d ((n, i) :: c) (count + 1))) w.root loose')
    (parent : IsDir w i → (dotdot, d) ∈ children w i) :
    Sound (w.setDir d ((n, i) :: c) (count + 1)) loose' held (pend - Pi.single i 1) := by
  have more : ∀ {j e}, e ∈ children w j → e ∈ children (w.setDir d ((n, i) :: c) (count + 1)) j := by
    intro j e mem
    rw [children_setDir at_]
    by_cases here : j = d
    · subst here
      rw [update_self]
      exact List.mem_cons_of_mem _ (children_of_dirOf at_ ▸ mem)
    · rwa [update_of_ne here]
  have names := namings_setDir (l := (n, i) :: c) (k := count + 1) at_ (lt_of_dirOf sound at_)
  simp only [List.countP_cons, decide_eq_true_eq] at names
  refine ⟨⟨?_, ?_, more sound.rootUp, ?_, fun j => ?_, fun {j k} => ?_, fun {j c' n'} dir => ?_⟩,
    fun {j m k} mem => ?_, fun opened => ?_, fun {j z} now notRoot => ?_, fun {z} now => ?_,
    fun {j z} now leaf => ?_, fun {j} beyond => ?_, fun {j z} now => ?_⟩
  · rw [isDir_setDir at_]
    exact tree
  · intro q m j isDir entry
    rw [isDir_setDir at_] at isDir
    rcases (entry_enter at_ real).mp entry with entry | ⟨rfl, rfl, rfl⟩
    · exact more (sound.up isDir entry)
    · exact more (parent isDir)
  · intro j isDir
    rw [isDir_setDir at_] at isDir
    exact more (sound.self isDir)
  · rw [children_setDir at_]
    by_cases here : j = d
    · subst here
      rw [update_self, List.map_cons]
      exact List.nodup_cons.mpr ⟨new, children_of_dirOf at_ ▸ sound.unique j⟩
    · rw [update_of_ne here]
      exact sound.unique j
  · rw [children_setDir at_]
    by_cases here : j = d
    · subst here
      rw [update_self, List.mem_cons, Prod.mk.injEq, not_or]
      exact ⟨fun same => named same.1.symm, children_of_dirOf at_ ▸ sound.nonempty⟩
    · rw [update_of_ne here]
      exact sound.nonempty
  · rw [dirOf_setDir at_] at dir
    by_cases here : j = d
    · subst here
      rw [update_self] at dir
      cases dir
      rw [List.length_cons, sound.count at_]
    · rw [update_of_ne here] at dir
      exact sound.count dir
  · rw [Ne, inodes_setDir_none at_]
    rw [children_setDir at_] at mem
    by_cases here : j = d
    · subst here
      rw [update_self] at mem
      rcases List.mem_cons.mp mem with same | mem
      · obtain ⟨-, rfl⟩ := Prod.mk.inj same
        exact there
      · exact sound.alive (children_of_dirOf at_ ▸ mem)
    · rw [update_of_ne here] at mem
      exact sound.alive mem
  · rw [Ne, inodes_setDir_none at_]
    exact sound.opened opened
  · obtain ⟨x, was, -, same, -⟩ := inodes_setDir at_ now
    have before := sound.refs was notRoot
    have fds : fdCount (w.setDir d ((n, i) :: c) (count + 1)) j = fdCount w j := rfl
    have names := names j
    rw [same, fds]
    by_cases here : i = j
    · subst here
      simp only [Pi.add_apply, Pi.single_eq_same] at before
      simp only [if_true] at names
      omega
    · simp only [Pi.add_apply, Pi.single_eq_of_ne (Ne.symm here), Nat.add_zero] at before
      simp only [if_neg here] at names
      omega
  · obtain ⟨x, was, -, same, -⟩ := inodes_setDir at_ now
    have before := sound.rootRefs was
    simp only [Pi.add_apply, Pi.single_eq_of_ne (Ne.symm notRoot), Nat.add_zero] at before
    rw [same]
    exact before
  · obtain ⟨x, was, same, -, -, kind⟩ := inodes_setDir at_ now
    have before := sound.nlink was (kind ▸ leaf)
    have names := names j
    rw [same, before]
    by_cases here : i = j
    · subst here
      simp only [Pi.sub_apply, Pi.single_eq_same]
      simp only [if_true] at names
      omega
    · simp only [Pi.sub_apply, Pi.single_eq_of_ne (Ne.symm here)]
      simp only [if_neg here] at names
      omega
  · exact (inodes_setDir_none at_).mpr (sound.fresh beyond)
  · obtain ⟨x, was, -, -, same, -⟩ := inodes_setDir at_ now
    rw [same]
    exact sound.unmounted was

/-- An entry for what is not a directory. -/
theorem Sound.enterLeaf (sound : Sound w loose (held + Pi.single i 1) pend)
    (at_ : w.dirOf d = some (c, count)) (new : n ∉ c.map Prod.fst) (named : n ≠ [])
    (real : Real n) (was : w.inodes i = some x) (leaf : x.isDir = false)
    (reach : ∃ t, (t = w.root ∨ loose = some t) ∧ Under (IsDir w) (Entry w) t d) :
    Sound (w.setDir d ((n, i) :: c) (count + 1)) loose held (pend - Pi.single i 1) := by
  have notDir : ¬IsDir w i := by rw [isDir_iff was, leaf]; exact Bool.false_ne_true
  refine sound.enter at_ new named real (by rw [was]; exact nofun) ?_
    (sound.tree.enterLeaf notDir reach (entry_enter at_ real)) fun isDir => absurd isDir notDir
  rintro rfl
  exact notDir sound.tree.rootDir

/-- An entry for the loose directory, whose parent it names already. -/
theorem Sound.enterDir (sound : Sound w (some i) (held + Pi.single i 1) pend)
    (at_ : w.dirOf d = some (c, count)) (new : n ∉ c.map Prod.fst) (named : n ≠ [])
    (real : Real n) (reach : Under (IsDir w) (Entry w) w.root d)
    (parent : (dotdot, d) ∈ children w i) :
    Sound (w.setDir d ((n, i) :: c) (count + 1)) none held (pend - Pi.single i 1) := by
  obtain ⟨isDir, notRoot⟩ := sound.tree.looseDir rfl
  refine sound.enter at_ new named real ?_ notRoot (sound.tree.attach reach (entry_enter at_ real))
    fun _ => parent
  obtain ⟨⟨c', count'⟩, dir⟩ := Option.ne_none_iff_exists'.mp isDir
  obtain ⟨y, was, -⟩ := inode_of_dirOf dir
  rw [was]
  exact nofun

/-! ### An entry less -/

theorem entry_leave (at_ : w.dirOf d = some (c, count)) (unique : (c.map Prod.fst).Nodup)
    (found : dentryFind c n = some i) {q j : Ino} {m : Name} {k : Nat} :
    Entry (w.setDir d (c.eraseP fun e => e.1 = n) k) q m j ↔
      Entry w q m j ∧ ¬(q = d ∧ m = n ∧ j = i) := by
  unfold Entry
  rw [children_setDir at_]
  by_cases here : q = d
  · subst here
    rw [update_self, mem_eraseP unique, children_of_dirOf at_]
    constructor
    · rintro ⟨⟨mem, other⟩, real⟩
      exact ⟨⟨mem, real⟩, fun same => other same.2.1⟩
    · rintro ⟨⟨mem, real⟩, other⟩
      refine ⟨⟨mem, fun same => other ⟨rfl, same, ?_⟩⟩, real⟩
      obtain rfl : m = n := same
      exact Option.some.inj ((dentryFind_of_mem unique mem).symm.trans found)
  · rw [update_of_ne here]
    exact ⟨fun h => ⟨h, fun same => here same.1⟩, fun h => h.1⟩

/-- **An entry less.** Its reference is the call's now, and the name is pending. -/
theorem Sound.leave (sound : Sound w loose held pend) (at_ : w.dirOf d = some (c, count))
    (found : dentryFind c n = some i) (real : Real n) {loose' : Option Ino}
    (tree : NameTree (IsDir w) (Entry (w.setDir d (c.eraseP fun e => e.1 = n) (count - 1))) w.root
      loose') :
    Sound (w.setDir d (c.eraseP fun e => e.1 = n) (count - 1)) loose' (held + Pi.single i 1)
      (pend + Pi.single i 1) := by
  have kids := children_of_dirOf at_
  have unique : (c.map Prod.fst).Nodup := kids ▸ sound.unique d
  have mem : (n, i) ∈ c := mem_of_dentryFind found
  have notRoot : i ≠ w.root := by
    rintro rfl
    exact sound.tree.top ⟨kids.symm ▸ mem, real⟩
  have left : ∀ {j e}, e ∈ children (w.setDir d (c.eraseP fun e => e.1 = n) (count - 1)) j →
      e ∈ children w j := by
    intro j e mem
    rw [children_setDir at_] at mem
    by_cases here : j = d
    · subst here
      rw [update_self] at mem
      exact kids.symm ▸ ((mem_eraseP unique e).mp mem).1
    · rwa [update_of_ne here] at mem
  have stays : ∀ {j e}, e ∈ children w j → e.1 ≠ n →
      e ∈ children (w.setDir d (c.eraseP fun e => e.1 = n) (count - 1)) j := by
    intro j e mem other
    rw [children_setDir at_]
    by_cases here : j = d
    · subst here
      rw [update_self]
      exact (mem_eraseP unique e).mpr ⟨kids ▸ mem, other⟩
    · rwa [update_of_ne here]
  have names := namings_setDir (l := c.eraseP fun e => e.1 = n) (k := count - 1) at_
    (lt_of_dirOf sound at_)
  refine ⟨⟨?_, ?_, stays sound.rootUp real.2.symm, ?_, fun j => ?_, fun mem => ?_, fun {j c' n'} dir => ?_⟩,
    fun mem => ?_, fun opened => ?_, fun {j z} now notRoot => ?_, fun {z} now => ?_,
    fun {j z} now leaf => ?_, fun {j} beyond => ?_, fun {j z} now => ?_⟩
  · rw [isDir_setDir at_]
    exact tree
  · intro q m j isDir entry
    rw [isDir_setDir at_] at isDir
    exact stays (sound.up isDir ⟨left entry.1, entry.2⟩) real.2.symm
  · intro j isDir
    rw [isDir_setDir at_] at isDir
    exact stays (sound.self isDir) real.1.symm
  · rw [children_setDir at_]
    by_cases here : j = d
    · subst here
      rw [update_self]
      exact unique.sublist (List.eraseP_sublist.map _)
    · rw [update_of_ne here]
      exact sound.unique j
  · exact sound.nonempty (left mem)
  · rw [dirOf_setDir at_] at dir
    by_cases here : j = d
    · subst here
      rw [update_self] at dir
      cases dir
      rw [length_eraseP_found found, sound.count at_]
    · rw [update_of_ne here] at dir
      exact sound.count dir
  · rw [Ne, inodes_setDir_none at_]
    exact sound.alive (left mem)
  · rw [Ne, inodes_setDir_none at_]
    exact sound.opened opened
  · obtain ⟨x, was, -, same, -⟩ := inodes_setDir at_ now
    have before := sound.refs was notRoot
    have fds : fdCount (w.setDir d (c.eraseP fun e => e.1 = n) (count - 1)) j = fdCount w j := rfl
    have names := names j
    rw [countP_eraseP found] at names
    rw [same, fds]
    by_cases here : i = j
    · subst here
      simp only [Pi.add_apply, Pi.single_eq_same]
      simp only [if_true] at names
      omega
    · simp only [Pi.add_apply, Pi.single_eq_of_ne (Ne.symm here), Nat.add_zero]
      simp only [if_neg here] at names
      omega
  · obtain ⟨x, was, -, same, -⟩ := inodes_setDir at_ now
    have before := sound.rootRefs was
    have root : (w.setDir d (c.eraseP fun e => e.1 = n) (count - 1)).root = w.root := rfl
    simp only [root, Pi.add_apply, Pi.single_eq_of_ne (Ne.symm notRoot), Nat.add_zero]
    rw [same]
    exact before
  · obtain ⟨x, was, same, -, -, kind⟩ := inodes_setDir at_ now
    have before := sound.nlink was (kind ▸ leaf)
    have names := names j
    rw [countP_eraseP found] at names
    rw [same, before]
    by_cases here : i = j
    · subst here
      simp only [Pi.add_apply, Pi.single_eq_same]
      simp only [if_true] at names
      omega
    · simp only [Pi.add_apply, Pi.single_eq_of_ne (Ne.symm here)]
      simp only [if_neg here] at names
      omega
  · exact (inodes_setDir_none at_).mpr (sound.fresh beyond)
  · obtain ⟨x, was, -, -, same, -⟩ := inodes_setDir at_ now
    rw [same]
    exact sound.unmounted was

/-- An entry of what is not a directory goes. -/
theorem Sound.leaveLeaf (sound : Sound w loose held pend) (at_ : w.dirOf d = some (c, count))
    (found : dentryFind c n = some i) (real : Real n) (was : w.inodes i = some x)
    (leaf : x.isDir = false) :
    Sound (w.setDir d (c.eraseP fun e => e.1 = n) (count - 1)) loose (held + Pi.single i 1)
      (pend + Pi.single i 1) := by
  have notDir : ¬IsDir w i := by rw [isDir_iff was, leaf]; exact Bool.false_ne_true
  have entries := fun {q j m} => entry_leave (q := q) (j := j) (m := m) (k := count - 1) at_
    (children_of_dirOf at_ ▸ sound.unique d) found
  refine sound.leave at_ found real (sound.tree.leaveLeaf (fun there => (entries.mp there).1) ?_)
  intro q m j isDir there
  refine entries.mpr ⟨there, fun same => ?_⟩
  rw [same.2.2] at isDir
  exact notDir isDir

/-- The entry of an empty directory goes. -/
theorem Sound.leaveEmpty (sound : Sound w loose held pend) (at_ : w.dirOf d = some (c, count))
    (found : dentryFind c n = some i) (real : Real n) (empty : ∀ {m j}, ¬Entry w i m j) :
    Sound (w.setDir d (c.eraseP fun e => e.1 = n) (count - 1)) loose (held + Pi.single i 1)
      (pend + Pi.single i 1) :=
  sound.leave at_ found real (sound.tree.prune empty
    (entry_leave at_ (children_of_dirOf at_ ▸ sound.unique d) found))

/-- A directory is taken from its place; the one it was in is still reached. -/
theorem Sound.leaveDir (sound : Sound w none held pend) (at_ : w.dirOf d = some (c, count))
    (found : dentryFind c n = some i) (real : Real n) (isDir : IsDir w i) :
    Sound (w.setDir d (c.eraseP fun e => e.1 = n) (count - 1)) (some i) (held + Pi.single i 1)
      (pend + Pi.single i 1) ∧
    Under (IsDir (w.setDir d (c.eraseP fun e => e.1 = n) (count - 1)))
      (Entry (w.setDir d (c.eraseP fun e => e.1 = n) (count - 1))) w.root d := by
  have kids := children_of_dirOf at_
  have entry : Entry w d n i := ⟨kids.symm ▸ mem_of_dentryFind found, real⟩
  obtain ⟨tree, reach⟩ := sound.tree.detach isDir entry
    (entry_leave (k := count - 1) at_ (kids ▸ sound.unique d) found)
  refine ⟨sound.leave at_ found real tree, ?_⟩
  rw [isDir_setDir at_]
  exact reach

/-- A loose directory that is empty is let go. -/
theorem Sound.settle (sound : Sound w (some i) held pend)
    (empty : ∀ {m j}, ¬Entry w i m j) : Sound w none held pend :=
  { sound with tree := sound.tree.settle empty }

end AtmKoala.Vfs
