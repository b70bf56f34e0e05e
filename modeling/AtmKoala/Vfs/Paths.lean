import AtmKoala.Vfs.Calls

/-!
Path resolution keeps the tree, and what it hands out is in it.

* `Handed` is what a caller may rely on: the inode is allocated, a directory is reached
  from the root, and the caller owns a reference, unless the inode is the root.
* `walk_sound` is by induction on the components, `resolveHops_sound` on the links
  followed.
* The references of the directories passed on the way are never given back. The
  invariant allows it: it asks for enough references, not for exactly as many.
-/

namespace AtmKoala.Vfs

open Lib
open Option (bind_eq_some_iff)

variable {w w' : World} {held held' : Ino → Nat} {pend : Ino → Int} {cur i r : Ino}

/-- **An inode handed to a call.** -/
structure Handed (w : World) (held : Ino → Nat) (pend : Ino → Int) (i : Ino) : Prop where
  sound : Sound w none (held + owed w i) pend
  there : w.inodes i ≠ none
  reached : IsDir w i → Reached w i

/-- The result of a resolution, the root being `r`. -/
structure Resolved (r : Ino) (w : World) (held : Ino → Nat) (pend : Ino → Int) (out : Option Ino) :
    Prop where
  root : w.root = r
  sound : Sound w none held pend
  handed : ∀ i, out = some i → Handed w held pend i

theorem Handed.forget (handed : Handed w held pend i) : Sound w none held pend :=
  handed.sound.forget fun _ => Nat.le_add_right ..

theorem Handed.resolved (handed : Handed w held pend i) (root : w.root = r) :
    Resolved r w held pend (some i) := by
  refine ⟨root, handed.forget, fun j same => ?_⟩
  obtain rfl := Option.some.inj same
  exact handed

theorem resolved_none (sound : Sound w none held pend) (root : w.root = r) :
    Resolved r w held pend none :=
  ⟨root, sound, nofun⟩

/-- The root is handed out as it is. -/
theorem Sound.handedRoot (sound : Sound w none held pend) : Handed w held pend w.root := by
  refine ⟨?_, ?_, fun _ => .refl⟩
  · rwa [owed_root, add_zero]
  · obtain ⟨⟨c, count⟩, at_⟩ := Option.ne_none_iff_exists'.mp sound.tree.rootDir
    obtain ⟨x, was, -⟩ := inode_of_dirOf at_
    rw [was]
    exact nofun

/-- What `ramfs_lookup` finds in a directory that is reached. -/
theorem ramfsLookup_handed {comp : Name} {out : Option Ino} (sound : Sound w none held pend)
    (reached : Reached w cur) (done : ramfsLookup w cur comp = some (w', out)) :
    w'.root = w.root ∧ Sound w' none held pend ∧
      ∀ i, out = some i → Handed w' held pend i ∧ Sound w' none (held + Pi.single i 1) pend := by
  obtain ⟨⟨c, count⟩, at_, done⟩ := bind_eq_some_iff.mp done
  have kids := children_of_dirOf at_
  dsimp only at done
  split at done
  · cases done
    exact ⟨rfl, sound, nofun⟩
  · rename_i next found
    obtain ⟨w₁, refd, done⟩ := bind_eq_some_iff.mp done
    cases done
    have referenced := sound.ref refd
    have dirs := dirOf_inodeRef refd
    have root : w'.root = w.root := by
      obtain ⟨_, _, rfl⟩ := Option.map_eq_some_iff.mp refd
      rfl
    refine ⟨root, referenced.forget fun _ => Nat.le_add_right .., fun i same => ?_⟩
    obtain rfl := Option.some.inj same
    refine ⟨⟨referenced.forget fun j => Nat.add_le_add_left (owed_le w' next j) _, ?_,
      fun isDir => ?_⟩, referenced⟩
    · obtain ⟨_, _, rfl⟩ := Option.map_eq_some_iff.mp refd
      rw [inodes_setInode_self]
      exact nofun
    · have isDir : IsDir w next := by rwa [IsDir, ← dirs]
      split at found
      · obtain rfl := Option.some.inj found
        exact reached.congr dirs root
      · rename_i real
        have real : Real comp := not_or.mp real
        have entry : Entry w cur comp next := ⟨kids.symm ▸ mem_of_dentryFind found, real⟩
        exact (sound.reached_of_entry entry isDir).congr dirs root

/-- How a pass ends. -/
def Ended (r : Ino) (w : World) (held : Ino → Nat) (pend : Ino → Int) : Turn → Prop
  | .stop found => Resolved r w held pend found
  | .follow _ _ => Resolved r w held pend none

theorem walk_sound {nofollow : Bool} {fuel : Nat} {rel : Name} {turn : Turn}
    (handed : Handed w held pend cur) (root : w.root = r)
    (done : walk w cur nofollow fuel rel = some (w', turn)) : Ended r w' held pend turn := by
  induction fuel generalizing w cur rel with
  | zero =>
    cases done
    exact handed.resolved root
  | succ fuel ih =>
    cases rel with
    | nil =>
      cases done
      exact handed.resolved root
    | cons a rel =>
      unfold walk at done
      dsimp only at done
      split at done
      · exact ih handed root done
      · obtain ⟨x, was, done⟩ := bind_eq_some_iff.mp done
        split at done
        · cases done
          exact resolved_none handed.forget root
        · rename_i kind
          have isDir : IsDir w cur := (isDir_iff was).mpr (by simpa using kind)
          obtain ⟨⟨w₁, found⟩, looked, done⟩ := bind_eq_some_iff.mp done
          obtain ⟨same, sound, next⟩ := ramfsLookup_handed handed.forget (handed.reached isDir) looked
          cases found with
          | none =>
            cases done
            exact resolved_none sound (same.trans root)
          | some i =>
            obtain ⟨handed, referenced⟩ := next i rfl
            obtain ⟨y, now, done⟩ := bind_eq_some_iff.mp done
            split at done
            · obtain ⟨w₂, given, done⟩ := bind_eq_some_iff.mp done
              cases done
              exact resolved_none (referenced.unref given)
                ((referenced.dirOf_unref given).2.1.trans (same.trans root))
            · split at done
              · -- nothing is mounted
                rename_i mounted
                rw [sound.unmounted now] at mounted
                cases mounted
              · exact ih handed (same.trans root) done

theorem resolveHops_sound {nofollow : Bool} {hops : Nat} {buf : Name} {out : Option Ino}
    (sound : Sound w none held pend) (root : w.root = r)
    (done : resolveHops w nofollow hops buf = some (w', out)) : Resolved r w' held pend out := by
  induction hops generalizing w buf with
  | zero =>
    cases done
    exact resolved_none sound root
  | succ hops ih =>
    obtain ⟨⟨w₁, turn⟩, walked, done⟩ := bind_eq_some_iff.mp done
    have ended := walk_sound sound.handedRoot root walked
    cases turn with
    | stop found =>
      cases done
      exact ended
    | follow target rest =>
      dsimp only at done
      split at done
      · cases done
      · exact ih ended.sound ended.root done

/-- **Path resolution** hands out what is in the tree, or nothing. -/
theorem resolvePath_sound {path : Name} {nofollow : Bool} {out : Option Ino}
    (sound : Sound w none held pend) (done : resolvePath w path nofollow = some (w', out)) :
    Resolved w.root w' held pend out := by
  unfold resolvePath at done
  split at done
  · cases done
    exact resolved_none sound rfl
  · split at done
    · cases done
      exact sound.handedRoot.resolved rfl
    · split at done
      · cases done
      · exact resolveHops_sound sound rfl done

end AtmKoala.Vfs
