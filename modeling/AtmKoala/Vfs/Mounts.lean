import AtmKoala.Vfs.Lookup

/-!
Path resolution over mounted filesystems.

A `Tree` is what `resolve_path` reads of the inodes of all filesystems, and the mount
table. `Tree.resolve` gives back what it finds and, besides, the directories in which it
has looked a name up and the root of the filesystem it ends in. Without a mount table or
mountpoints this is the resolution of one ramfs (`resolve_eq_view`).
-/

namespace AtmKoala.Vfs

/-- What `resolve_path` reads: `g_root`, `g_mounts`, and of an inode the answers of its
`lookup`, if its driver has one, and of its `readlink`, if it is a symbolic link. -/
structure Tree where
  root : Ino
  mounts : List (Name × Ino)
  lookup : Ino → Option (Name → Option Ino)
  target : Ino → Option Name
  mountpoint : Ino → Option Ino

/-! ### The mount table -/

/-- The mount at `mp` holds `path`. -/
def mountMatches (mp path : Name) : Bool :=
  mp.isPrefixOf path && (path.drop mp.length).head?.all (· = '/')

/-- `mount_for_path`. -/
def mountForPath (mounts : List (Name × Ino)) (path : Name) : Option Ino :=
  (mounts.foldl (fun best m =>
    if mountMatches m.1 path && best.1 < m.1.length then (m.1.length, some m.2) else best)
    (0, none)).2

/-- The length that `resolve_path` takes for that of the mount's path: the greatest of the
mounts with this root. -/
def prefixLength (mounts : List (Name × Ino)) (root : Ino) : Nat :=
  mounts.foldl (fun best m => if m.2 = root && best < m.1.length then m.1.length else best) 0

/-- A resolution: how it ends, the directories searched on the way, and the root of the
filesystem it has got to. -/
structure Resolution where
  outcome : Outcome
  searched : List Ino
  top : Ino
deriving DecidableEq

/-- A pass over a path, likewise. -/
structure Pass where
  turn : Turn
  searched : List Ino
  top : Ino

namespace Tree

/-- Where a pass starts, and with what; none if it would start behind the end of `buf`. -/
def start (t : Tree) (buf : Name) : Option (Ino × Name) :=
  match mountForPath t.mounts buf with
  | none => some (t.root, buf.drop 1)
  | some mroot =>
    let len := prefixLength t.mounts mroot
    if buf.length < len then none
    else
      let rel := buf.drop len
      some (mroot, if rel.head? = some '/' then rel.drop 1 else rel)

/-- The loop over the components; `fuel` is at least the length of `rel`. -/
def walk (t : Tree) (nofollow : Bool) : Nat → Ino → Ino → Name → Pass
  | 0, top, cur, _ => ⟨.stop (some cur), [], top⟩
  | _, top, cur, [] => ⟨.stop (some cur), [], top⟩
  | fuel + 1, top, cur, rel =>
    let (comp, rest) := nextComp rel
    if comp = [] ∨ comp = dot then t.walk nofollow fuel top cur rest
    else
      match t.lookup cur with
      | none => ⟨.stop none, [], top⟩
      | some look =>
        match look comp with
        | none => ⟨.stop none, [cur], top⟩
        | some next =>
          match t.target next, decide (rest = []) && nofollow with
          | some target, false => ⟨.follow target rest, [cur], top⟩
          | _, _ =>
            match t.mountpoint next with
            | some mounted =>
              let pass := t.walk nofollow fuel mounted mounted rest
              { pass with searched := cur :: pass.searched }
            | none =>
              let pass := t.walk nofollow fuel top next rest
              { pass with searched := cur :: pass.searched }

/-- The passes over a path, at most `hops` of them. -/
def resolveHops (t : Tree) (nofollow : Bool) : Nat → Name → Resolution
  | 0, _ => ⟨.loop, [], t.root⟩
  | hops + 1, buf =>
    match t.start buf with
    | none => ⟨.overrun, [], t.root⟩
    | some (cur, rel) =>
      match t.walk nofollow buf.length cur cur rel with
      | ⟨.stop none, searched, top⟩ => ⟨.absent, searched, top⟩
      | ⟨.stop (some i), searched, top⟩ => ⟨.found i, searched, top⟩
      | ⟨.follow target rest, searched, top⟩ =>
        if vfsPathMax ≤ (followed buf target rest).length then ⟨.overrun, searched, top⟩
        else
          let further := t.resolveHops nofollow hops (followed buf target rest)
          { further with searched := searched ++ further.searched }

/-- `resolve_path`. -/
def resolve (t : Tree) (path : Name) (nofollow : Bool) : Resolution :=
  if path.head? ≠ some '/' then ⟨.absent, [], t.root⟩
  else if path = ['/'] then ⟨.found t.root, [], t.root⟩
  else if vfsPathMax ≤ path.length then ⟨.overrun, [], t.root⟩
  else t.resolveHops nofollow 9 path

end Tree

/-! ### One ramfs -/

namespace View

/-- The `lookup` of a directory of ramfs. -/
def lookupOf (v : View) (i : Ino) : Option (Name → Option Ino) :=
  match v.kind i with
  | some (.dir _ _) => some (v.lookup i)
  | _ => none

def target (v : View) (i : Ino) : Option Name :=
  match v.kind i with
  | some (.link target) => some target
  | _ => none

/-- The tree of a ramfs that is all there is. -/
def tree (v : View) : Tree := ⟨v.root, [], v.lookupOf, v.target, fun _ => none⟩

end View

variable {v : View}

theorem lookup_of_not_dir {cur : Ino} {comp : Name} (notDir : v.lookupOf cur = none) :
    v.lookup cur comp = none := by
  unfold View.lookup
  split
  · rename_i children count kind
    rw [View.lookupOf, kind] at notDir
    cases notDir
  · rfl

theorem lookup_of_dir {cur : Ino} {look : Name → Option Ino} (isDir : v.lookupOf cur = some look) :
    look = v.lookup cur := by
  unfold View.lookupOf at isDir
  split at isDir
  · exact (Option.some.inj isDir).symm
  · cases isDir

theorem walk_eq_view (nofollow : Bool) (fuel : Nat) (top cur : Ino) (rel : Name) :
    (v.tree.walk nofollow fuel top cur rel).turn = v.walk nofollow fuel cur rel := by
  induction fuel generalizing cur rel with
  | zero => rfl
  | succ fuel ih =>
    cases rel with
    | nil => rfl
    | cons a rel =>
      unfold Tree.walk View.walk
      dsimp only
      generalize nextComp (a :: rel) = next
      obtain ⟨comp, rest⟩ := next
      dsimp only
      by_cases skip : comp = [] ∨ comp = dot
      · rw [if_pos skip, if_pos skip]
        exact ih cur rest
      rw [if_neg skip, if_neg skip]
      show (match v.lookupOf cur with
        | none => (⟨.stop none, [], top⟩ : Pass)
        | some look =>
          match look comp with
          | none => ⟨.stop none, [cur], top⟩
          | some next =>
            match v.target next, decide (rest = []) && nofollow with
            | some target, false => ⟨.follow target rest, [cur], top⟩
            | _, _ =>
              let pass := v.tree.walk nofollow fuel top next rest
              { pass with searched := cur :: pass.searched }).turn = _
      cases isDir : v.lookupOf cur with
      | none => rw [lookup_of_not_dir isDir]
      | some look =>
        obtain rfl := lookup_of_dir isDir
        dsimp only
        cases v.lookup cur comp with
        | none => rfl
        | some next =>
          dsimp only
          cases kind : v.kind next with
          | none =>
            rw [View.target, kind]
            exact ih next rest
          | some priv =>
            rw [View.target, kind]
            cases priv with
            | link target =>
              cases decide (rest = []) && nofollow with
              | false => rfl
              | true => exact ih next rest
            | dir => exact ih next rest
            | file => exact ih next rest

end AtmKoala.Vfs
