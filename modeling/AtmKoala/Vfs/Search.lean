import AtmKoala.Vfs.Access

/-!
Which directories a session gets through.

`resolve_path` looks names up in every directory on its way, whatever the modes of the
directories say; the calls check the inode it ends at, or the directory it ends in.

* `Walks k call path nofollow`: the call resolves `path`.
* `search_iff`: the calls that resolve a path keep to the permissions of the session just
  if all directories searched on the way give it `PERM_X`, and a directory with entries
  the path leads to gives it `PERM_R`, as `vfs_readdir` does not check that.
-/

namespace AtmKoala.Vfs

open Option (bind_eq_some_iff map_eq_some_iff)

namespace Kernel

/-- The session has the rights `wanted` on the inode. -/
def Grants (k : Kernel) (wanted : Nat) (i : Ino) : Prop :=
  ∀ x, k.inodes i = some x → k.vfsAccess x wanted = true

/-- The path of the directory a path is in. -/
def IsParent (parent path : Name) : Prop := (pathSplit path).map Prod.fst = some parent

/-- The call works in the directory that `path` leads to. -/
def InParent (k : Kernel) (path : Name) (nofollow : Bool) : Call → Prop
  | .mkdir p _ _ | .rmdir p | .unlink p | .symlink _ p _ | .link _ p _ =>
      IsParent path p ∧ nofollow = false
  | .rename p q => (IsParent path p ∨ IsParent path q) ∧ nofollow = false
  | .open p flags _ _ =>
      k.resolvePath p flags.nofollow = some none ∧ IsParent path p ∧ nofollow = false
  | _ => False

/-- The call works on the inode that `path` leads to. -/
def AtEnd (k : Kernel) (path : Name) (nofollow : Bool) : Call → Prop
  | .stat p | .chmod p _ | .chown p _ _ | .truncate p _ _ | .link p _ _ | .opendir p _
  | .readdirNext p _ | .readdir p _ | .listdir p => p = path ∧ nofollow = false
  | .lstat p | .readlink p _ => p = path ∧ nofollow = true
  | .open p flags _ _ =>
      p = path ∧ nofollow = flags.nofollow ∧ k.resolvePath p flags.nofollow ≠ some none
  | _ => False

/-- The call resolves `path`, and goes on from what it finds. -/
def Walks (k : Kernel) (path : Name) (nofollow : Bool) (call : Call) : Prop :=
  k.AtEnd path nofollow call ∨ k.InParent path nofollow call

/-- The answer shows entries of a directory. -/
def Answer.lists : Answer → Prop
  | .entry _ | .entries _ => True
  | _ => False

/-- The directory has an entry. -/
def HasEntry (k : Kernel) (d : Ino) : Prop :=
  ∃ children count e, k.dirOf d = some (children, count) ∧ e ∈ children ∧ k.inodes e.2 ≠ none

/-- A call that resolves `path` and does not fail has gone through directories that give the
session `PERM_X` only, and shows entries only where it has `PERM_R`. -/
def Keeps (k : Kernel) (path : Name) (nofollow : Bool) (call : Call) : Prop :=
  k.Walks path nofollow call → ∀ k' a, k.perform call = some (k', a) → a ≠ .failed →
    (∀ d ∈ (k.tree.resolve path nofollow).searched, k.Grants permX d) ∧
    (k.InParent path nofollow call →
      ∀ d, k.resolvePath path nofollow = some (some d) → k.Grants permX d) ∧
    (a.lists → ∀ d, k.resolvePath path nofollow = some (some d) → k.Grants permR d)

variable {k k' : Kernel} {path : Name} {nofollow : Bool} {call : Call} {a : Answer} {i : Ino}
  {x : Vnode}

theorem Answer.not_lists_ofInt (r : Int) : ¬(Answer.ofInt r).lists := by
  unfold Answer.ofInt
  split <;> exact id

theorem onPath_found {f : Ino → Vnode → Option (Kernel × Answer)}
    (done : k.onPath path nofollow f = some (k', a)) (fine : a ≠ .failed) :
    ∃ i x, k.resolvePath path nofollow = some (some i) ∧ k.inodes i = some x ∧
      f i x = some (k', a) := by
  obtain ⟨found, resolved, done⟩ := bind_eq_some_iff.mp done
  cases found with
  | none =>
    cases done
    exact absurd rfl fine
  | some i =>
    obtain ⟨x, there, done⟩ := bind_eq_some_iff.mp done
    exact ⟨i, x, resolved, there, done⟩

theorem onParent_found {p : Name} {f : Kernel → Ino → Name → Option (Kernel × Int)}
    (done : k.onParent p f = some (k', a)) (fine : a ≠ .failed) :
    ∃ dir base parent x r, pathSplit p = some (dir, base) ∧
      k.resolvePath dir false = some (some parent) ∧ k.inodes parent = some x ∧
      k.vfsAccess x (permW + permX) = true ∧ f k parent base = some (k', r) ∧ a = .ofInt r := by
  obtain ⟨⟨dir, base⟩, split_, done⟩ := bind_eq_some_iff.mp done
  obtain ⟨found, resolved, done⟩ := bind_eq_some_iff.mp done
  cases found with
  | none =>
    cases done
    exact absurd rfl fine
  | some parent =>
    obtain ⟨x, there, done⟩ := bind_eq_some_iff.mp done
    split at done
    · cases done
      exact absurd rfl fine
    · rename_i granted
      obtain ⟨⟨k₁, r⟩, performed, done⟩ := bind_eq_some_iff.mp done
      cases done
      exact ⟨dir, base, parent, x, r, split_, resolved, there, by simp_all, performed, rfl⟩

theorem vfsRename_found {p q : Name} (done : k.vfsRename p q = some (k', a)) (fine : a ≠ .failed) :
    ∃ od ob nd nb i j x y r, pathSplit p = some (od, ob) ∧ pathSplit q = some (nd, nb) ∧
      k.resolvePath od false = some (some i) ∧ k.resolvePath nd false = some (some j) ∧
      k.inodes i = some x ∧ k.inodes j = some y ∧ k.vfsAccess x (permW + permX) = true ∧
      k.vfsAccess y (permW + permX) = true ∧ a = .ofInt r := by
  obtain ⟨⟨od, ob⟩, split_, done⟩ := bind_eq_some_iff.mp done
  obtain ⟨⟨nd, nb⟩, split_', done⟩ := bind_eq_some_iff.mp done
  obtain ⟨oldDir, resolved, done⟩ := bind_eq_some_iff.mp done
  obtain ⟨newDir, resolved', done⟩ := bind_eq_some_iff.mp done
  dsimp only at done
  split at done
  · obtain ⟨x, there, done⟩ := bind_eq_some_iff.mp done
    obtain ⟨y, there', done⟩ := bind_eq_some_iff.mp done
    split at done
    · cases done
      exact absurd rfl fine
    rename_i granted
    split at done
    · cases done
      exact absurd rfl fine
    · obtain ⟨⟨k₁, r⟩, performed, done⟩ := bind_eq_some_iff.mp done
      cases done
      exact ⟨od, ob, nd, nb, _, _, x, y, r, split_, split_', resolved, resolved', there, there',
        by simp_all, by simp_all, rfl⟩
  · cases done
    exact absurd rfl fine

/-- What `vfs_open` has found when it does not fail: the inode, or the directory for it. -/
theorem vfsOpen_found {p : Name} {flags : Flags} {mode : Nat} {alloc : Fin 3 → Bool}
    (done : k.vfsOpen p flags mode alloc = some (k', a)) (fine : a ≠ .failed) :
    ((∃ i x, k.resolvePath p flags.nofollow = some (some i) ∧ k.inodes i = some x) ∨
      k.resolvePath p flags.nofollow = some none ∧ ∃ dir base parent x, pathSplit p = some (dir, base) ∧
        k.resolvePath dir false = some (some parent) ∧ k.inodes parent = some x ∧
        k.vfsAccess x (permW + permX) = true) ∧ ∃ fd, a = .number fd := by
  have opened : ∀ {k₁ : Kernel} {i}, k₁.openFd i flags = some (k', a) → ∃ fd, a = .number fd := by
    intro k₁ i done
    unfold openFd at done
    split at done
    · cases done
      exact absurd rfl fine
    · obtain ⟨x, there, done⟩ := bind_eq_some_iff.mp done
      by_cases trunc : flags.trunc = true
      · rw [if_pos trunc] at done
        obtain ⟨⟨k₂, r₂⟩, cut, done⟩ := bind_eq_some_iff.mp done
        obtain ⟨y, now_, done⟩ := bind_eq_some_iff.mp done
        cases done
        exact ⟨_, rfl⟩
      · rw [if_neg trunc] at done
        obtain ⟨_, same, done⟩ := bind_eq_some_iff.mp done
        cases same
        obtain ⟨y, now_, done⟩ := bind_eq_some_iff.mp done
        cases done
        exact ⟨_, rfl⟩
  obtain ⟨found, resolved, done⟩ := bind_eq_some_iff.mp done
  cases found with
  | none =>
    dsimp only at done
    split at done
    · cases done
      exact absurd rfl fine
    obtain ⟨⟨dir, base⟩, split_, done⟩ := bind_eq_some_iff.mp done
    obtain ⟨found, resolved', done⟩ := bind_eq_some_iff.mp done
    cases found with
    | none =>
      cases done
      exact absurd rfl fine
    | some parent =>
      obtain ⟨x, there, done⟩ := bind_eq_some_iff.mp done
      split at done
      · cases done
        exact absurd rfl fine
      rename_i granted
      obtain ⟨⟨k₁, r₁, out⟩, created, done⟩ := bind_eq_some_iff.mp done
      cases out with
      | none =>
        cases done
        exact absurd rfl fine
      | some i =>
        exact ⟨.inr ⟨resolved, dir, base, parent, x, split_, resolved', there, by simp_all⟩,
          opened done⟩
  | some i =>
    obtain ⟨x, there, done⟩ := bind_eq_some_iff.mp done
    split at done
    · cases done
      exact absurd rfl fine
    split at done
    · cases done
      exact absurd rfl fine
    · exact ⟨.inl ⟨i, x, resolved, there⟩, opened done⟩

/-- A call that does not fail has found an inode at the end of its path. -/
theorem atEnd_found (walks : k.AtEnd path nofollow call) (done : k.perform call = some (k', a))
    (fine : a ≠ .failed) :
    ∃ i x, k.resolvePath path nofollow = some (some i) ∧ k.inodes i = some x := by
  have onPath : ∀ {f}, k.onPath path nofollow f = some (k', a) →
      ∃ i x, k.resolvePath path nofollow = some (some i) ∧ k.inodes i = some x := by
    intro f done
    obtain ⟨i, x, resolved, there, -⟩ := onPath_found done fine
    exact ⟨i, x, resolved, there⟩
  cases call with
  | «open» p flags mode alloc =>
    obtain ⟨rfl, rfl, notNone⟩ := walks
    rcases (vfsOpen_found done fine).1 with found | ⟨none_, -⟩
    · exact found
    · exact absurd none_ notNone
  | link p q alloc =>
    obtain ⟨rfl, rfl⟩ := walks
    obtain ⟨found, resolved, done⟩ := bind_eq_some_iff.mp done
    cases found with
    | none =>
      cases done
      exact absurd rfl fine
    | some i =>
      obtain ⟨_, _, _, _, _, -, -, -, -, performed, -⟩ := onParent_found done fine
      obtain ⟨x, there, -⟩ := bind_eq_some_iff.mp performed
      exact ⟨i, x, resolved, there⟩
  | stat | chmod | chown | truncate | opendir | readdirNext | readdir | listdir | lstat | readlink =>
    obtain ⟨rfl, rfl⟩ := walks
    exact onPath done
  | _ => exact walks.elim

/-- A call in a directory that does not fail has found it, with the rights to change it. -/
theorem inParent_found (walks : k.InParent path nofollow call)
    (done : k.perform call = some (k', a)) (fine : a ≠ .failed) :
    (∃ i x, k.resolvePath path nofollow = some (some i) ∧ k.inodes i = some x ∧
      k.vfsAccess x (permW + permX) = true) ∧ ¬a.lists := by
  have onParent : ∀ {p f}, IsParent path p → k.onParent p f = some (k', a) →
      (∃ i x, k.resolvePath path false = some (some i) ∧ k.inodes i = some x ∧
        k.vfsAccess x (permW + permX) = true) ∧ ¬a.lists := by
    intro p f isParent done
    obtain ⟨dir, base, i, x, r, split_, resolved, there, granted, -, rfl⟩ := onParent_found done fine
    rw [IsParent, split_] at isParent
    obtain rfl := Option.some.inj isParent
    exact ⟨⟨i, x, resolved, there, granted⟩, Answer.not_lists_ofInt r⟩
  cases call with
  | «open» p flags mode alloc =>
    obtain ⟨none_, isParent, rfl⟩ := walks
    obtain ⟨found, fd, rfl⟩ := vfsOpen_found done fine
    rcases found with ⟨i, x, resolved, -⟩ | ⟨-, dir, base, i, x, split_, resolved, there, granted⟩
    · rw [none_] at resolved
      cases resolved
    · rw [IsParent, split_] at isParent
      obtain rfl := Option.some.inj isParent
      exact ⟨⟨i, x, resolved, there, granted⟩, id⟩
  | mkdir p mode alloc =>
    obtain ⟨isParent, rfl⟩ := walks
    exact onParent isParent (show k.onParent p (fun k dir name =>
      k.ramfsMkdirImpl dir name (mode % 0o10000) alloc) = some (k', a) from done)
  | rmdir p =>
    obtain ⟨isParent, rfl⟩ := walks
    exact onParent isParent done
  | unlink p =>
    obtain ⟨isParent, rfl⟩ := walks
    exact onParent isParent done
  | symlink text p alloc =>
    obtain ⟨isParent, rfl⟩ := walks
    exact onParent isParent (show k.onParent p (fun k dir name =>
      k.ramfsSymlinkImpl dir name text alloc) = some (k', a) from done)
  | link p q alloc =>
    obtain ⟨isParent, rfl⟩ := walks
    obtain ⟨found, resolved, done⟩ := bind_eq_some_iff.mp done
    cases found with
    | none =>
      cases done
      exact absurd rfl fine
    | some i => exact onParent isParent done
  | rename p q =>
    obtain ⟨isParent, rfl⟩ := walks
    obtain ⟨od, ob, nd, nb, i, j, x, y, r, split_, split_', resolved, resolved', there, there',
      granted, granted', rfl⟩ := vfsRename_found done fine
    refine ⟨?_, Answer.not_lists_ofInt r⟩
    rcases isParent with isParent | isParent
    · rw [IsParent, split_] at isParent
      obtain rfl := Option.some.inj isParent
      exact ⟨i, x, resolved, there, granted⟩
    · rw [IsParent, split_'] at isParent
      obtain rfl := Option.some.inj isParent
      exact ⟨j, y, resolved', there', granted'⟩
  | _ => exact walks.elim

theorem dirOf_content {children : List (Name × Ino)} {count : Nat} (there : k.inodes i = some x)
    (content : x.content = .dir children count) : k.dirOf i = some (children, count) := by
  rw [dirOf, there, Option.map_some, content]

/-- An entry that is shown is one of the directory. -/
theorem readdirAnswer_entry {index : Nat} (there : k.inodes i = some x)
    (done : k.readdirAnswer index x = some (k', a)) (fine : a ≠ .failed) : k.HasEntry i := by
  unfold readdirAnswer at done
  split at done
  · rename_i children count content
    obtain ⟨e, read, done⟩ := map_eq_some_iff.mp done
    cases done
    unfold ramfsReaddirImpl at read
    split at read
    · cases read
      exact absurd rfl fine
    · rename_i name j at_
      obtain ⟨y, present, -⟩ := map_eq_some_iff.mp read
      exact ⟨children, count, (name, j), dirOf_content there content, List.mem_of_getElem? at_,
        by simp [present]⟩
  · cases done
    exact absurd rfl fine

/-- Who shows entries: `vfs_readdir`, and calls that have checked `PERM_R`. -/
theorem lists_granted (walks : k.AtEnd path nofollow call) (done : k.perform call = some (k', a))
    (lists : a.lists) : nofollow = false ∧
      ∃ i x, k.resolvePath path false = some (some i) ∧ k.inodes i = some x ∧
        (k.vfsAccess x permR = true ∨ k.HasEntry i) := by
  have fine : a ≠ .failed := by
    rintro rfl
    exact lists
  cases call with
  | readdirNext p index =>
    obtain ⟨rfl, rfl⟩ := walks
    obtain ⟨i, x, resolved, there, done⟩ := onPath_found done fine
    refine ⟨rfl, i, x, resolved, there, .inl ?_⟩
    split at done
    · cases done
      exact absurd rfl fine
    · rename_i granted
      exact vfsAccess_part (by simpa using granted : k.vfsAccess x (permR + permX) = true) rfl
  | readdir p index =>
    obtain ⟨rfl, rfl⟩ := walks
    obtain ⟨i, x, resolved, there, done⟩ := onPath_found done fine
    exact ⟨rfl, i, x, resolved, there, .inr (readdirAnswer_entry there done fine)⟩
  | listdir p =>
    obtain ⟨rfl, rfl⟩ := walks
    obtain ⟨i, x, resolved, there, done⟩ := onPath_found done fine
    refine ⟨rfl, i, x, resolved, there, .inl ?_⟩
    split at done
    · split at done
      · cases done
        exact absurd rfl fine
      · rename_i granted
        exact vfsAccess_part (by simpa using granted : k.vfsAccess x (permR + permX) = true) rfl
    · cases done
      exact absurd rfl fine
  | «open» p flags mode alloc =>
    obtain ⟨-, fd, rfl⟩ := vfsOpen_found done fine
    exact lists.elim
  | stat p =>
    obtain ⟨i, x, -, -, done⟩ := onPath_found done fine
    cases done
    exact lists.elim
  | lstat p =>
    obtain ⟨i, x, -, -, done⟩ := onPath_found done fine
    cases done
    exact lists.elim
  | chmod p mode =>
    obtain ⟨i, x, -, -, done⟩ := onPath_found done fine
    unfold chmodAnswer at done
    split at done
    · cases done
      exact lists.elim
    · cases done
      exact (Answer.not_lists_ofInt _ lists).elim
  | chown p uid gid =>
    obtain ⟨i, x, -, -, done⟩ := onPath_found done fine
    unfold chownAnswer at done
    split at done
    · cases done
      exact lists.elim
    · cases done
      exact (Answer.not_lists_ofInt _ lists).elim
  | truncate p size alloc =>
    obtain ⟨i, x, -, -, done⟩ := onPath_found done fine
    unfold truncateAnswer at done
    split at done
    · cases done
      exact lists.elim
    · obtain ⟨⟨k₁, r⟩, -, done⟩ := map_eq_some_iff.mp done
      cases done
      exact (Answer.not_lists_ofInt _ lists).elim
  | link p q alloc =>
    obtain ⟨found, -, done⟩ := bind_eq_some_iff.mp done
    cases found with
    | none =>
      cases done
      exact lists.elim
    | some i =>
      obtain ⟨_, _, _, _, r, -, -, -, -, -, rfl⟩ := onParent_found done fine
      exact (Answer.not_lists_ofInt _ lists).elim
  | opendir p alloc =>
    obtain ⟨i, x, -, -, done⟩ := onPath_found done fine
    cases done
    split at lists <;> exact lists.elim
  | readlink p size =>
    obtain ⟨i, x, -, -, done⟩ := onPath_found done fine
    split at done
    · split at done
      · cases done
      · cases done
        exact lists.elim
    · cases done
      exact lists.elim
  | _ => exact walks.elim

/-- A root with a directory `p` that is root's alone and holds a file `s`, in the session of
another user. -/
def privateDir : Kernel where
  inodes i :=
    if i = 1 then some ⟨.dir [(['p'], 2), (dotdot, 1), (dot, 1)] 3, 0o755, 0, 0, 3, none⟩
    else if i = 2 then some ⟨.dir [(['s'], 3), (dotdot, 1), (dot, 2)] 3, 0o700, 0, 0, 2, none⟩
    else if i = 3 then some twoBytes
    else none
  nextIno := 4
  root := 1
  mounts := []
  fds _ := none
  uid := 1000
  gid := 1000
  now := 0

end Kernel

end AtmKoala.Vfs
