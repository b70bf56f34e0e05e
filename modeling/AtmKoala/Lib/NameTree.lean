import Mathlib.Logic.Relation

/-!
Trees of named entries, with at most one branch cut off.

`entry p n i` says that node `p` has an entry `n` for node `i`. Some nodes are
directories; those form a tree from `root`, and others may have any number of
entries. While a directory is moved it is `loose`: it has no entry, and what is
below it stays below it.

* `NameTree.acyclic`: no directory is below itself.
* `enterLeaf`, `leaveLeaf`, `prune`, `detach`, `attach`, `settle` and `grow` are the
  changes that keep the tree.
-/

namespace AtmKoala.Lib

variable {ι ν : Type} {dir dir' : ι → Prop} {entry entry' : ι → ν → ι → Prop} {root : ι}
  {loose : Option ι} {d i p q : ι} {n : ν}

/-- Directory `d` has an entry in `p`. -/
def Beneath (dir : ι → Prop) (entry : ι → ν → ι → Prop) (p d : ι) : Prop := dir d ∧ ∃ n, entry p n d

/-- `d` is at or below `t`. -/
def Under (dir : ι → Prop) (entry : ι → ν → ι → Prop) (t d : ι) : Prop :=
  Relation.ReflTransGen (Beneath dir entry) t d

/-- **A tree of directories.** -/
structure NameTree (dir : ι → Prop) (entry : ι → ν → ι → Prop) (root : ι) (loose : Option ι) :
    Prop where
  rootDir : dir root
  looseDir : ∀ {x}, loose = some x → dir x ∧ x ≠ root
  top : ∀ {p n}, ¬entry p n root
  free : ∀ {x p n}, loose = some x → ¬entry p n x
  owner : ∀ {d p q n m}, dir d → entry p n d → entry q m d → p = q ∧ n = m
  reach : ∀ {d n i}, entry d n i → ∃ t, (t = root ∨ loose = some t) ∧ Under dir entry t d

namespace Under

theorem mono (h : Under dir entry p d)
    (more : ∀ {p n d}, dir d → entry p n d → dir' d ∧ entry' p n d) : Under dir' entry' p d := by
  induction h with
  | refl => exact .refl
  | tail _ step ih =>
    obtain ⟨isDir, n, there⟩ := step
    obtain ⟨isDir', there'⟩ := more isDir there
    exact ih.tail ⟨isDir', n, there'⟩

/-- The way down to a directory avoids `i`, or has a rest that starts there. -/
theorem avoid (h : Under dir entry p d)
    (kept : ∀ {p n d}, dir d → d ≠ i → entry p n d → ∃ m, entry' p m d) :
    Under dir entry' p d ∨ Under dir entry' i d := by
  induction h with
  | refl => exact .inl .refl
  | @tail b c _ step ih =>
    obtain ⟨isDir, n, there⟩ := step
    by_cases here : c = i
    · subst here
      exact .inr .refl
    · obtain ⟨m, there'⟩ := kept isDir here there
      exact ih.imp (fun way => way.tail ⟨isDir, m, there'⟩) fun way => way.tail ⟨isDir, m, there'⟩

/-- The way down to another directory does not need one without entries. -/
theorem prune (h : Under dir entry p d) (ne : d ≠ i) (empty : ∀ {m j}, ¬entry i m j)
    (entries : ∀ {p m j}, entry p m j → j ≠ i → entry' p m j) : Under dir entry' p d := by
  induction h with
  | refl => exact .refl
  | @tail b c _ step ih =>
    obtain ⟨isDir, n, there⟩ := step
    have other : b ≠ i := by
      rintro rfl
      exact empty there
    exact (ih other).tail ⟨isDir, n, entries there ne⟩

end Under

namespace NameTree

/-- A directory has one place. -/
theorem acyclic (tree : NameTree dir entry root none) (way : Under dir entry root d) :
    ¬Relation.TransGen (Beneath dir entry) d d := by
  induction way with
  | refl =>
    intro circle
    obtain ⟨p, -, -, n, there⟩ := Relation.TransGen.tail'_iff.mp circle
    exact tree.top there
  | @tail p d _ step ih =>
    intro circle
    obtain ⟨q, rest, isDir, m, there⟩ := Relation.TransGen.tail'_iff.mp circle
    obtain ⟨-, n, there'⟩ := id step
    obtain ⟨rfl, -⟩ := tree.owner isDir there' there
    -- the circle through `d` is one through the directory above it
    exact ih (Relation.TransGen.head' step rest)

/-- Every directory with an entry or without is reached once its parent has entries. -/
theorem reach_of_entry (tree : NameTree dir entry root none) (isDir : dir d) (there : entry p n d) :
    Under dir entry root d := by
  obtain ⟨t, rfl | absurd_, way⟩ := tree.reach there
  · exact way.tail ⟨isDir, n, there⟩
  · cases absurd_

/-- A new entry of what is not a directory. -/
theorem enterLeaf (tree : NameTree dir entry root loose) (leaf : ¬dir i)
    (parent : ∃ t, (t = root ∨ loose = some t) ∧ Under dir entry t d)
    (entries : ∀ {p m j}, entry' p m j ↔ entry p m j ∨ (p = d ∧ m = n ∧ j = i)) :
    NameTree dir entry' root loose := by
  have old : ∀ {p m j}, dir j → entry' p m j → entry p m j := by
    intro p m j isDir there
    rcases entries.mp there with there | ⟨-, -, rfl⟩
    · exact there
    · exact absurd isDir leaf
  have stays : ∀ {t d}, Under dir entry t d → Under dir entry' t d :=
    fun way => way.mono fun isDir there => ⟨isDir, entries.mpr (.inl there)⟩
  refine ⟨tree.rootDir, tree.looseDir, fun there => tree.top (old tree.rootDir there),
    fun is there => tree.free is (old (tree.looseDir is).1 there),
    fun isDir first second => tree.owner isDir (old isDir first) (old isDir second), ?_⟩
  intro p m j there
  rcases entries.mp there with there | ⟨rfl, -, -⟩
  · obtain ⟨t, start, way⟩ := tree.reach there
    exact ⟨t, start, stays way⟩
  · obtain ⟨t, start, way⟩ := parent
    exact ⟨t, start, stays way⟩

/-- Entries of what is not a directory go. -/
theorem leaveLeaf (tree : NameTree dir entry root loose)
    (fewer : ∀ {p m j}, entry' p m j → entry p m j)
    (dirs : ∀ {p m j}, dir j → entry p m j → entry' p m j) : NameTree dir entry' root loose := by
  refine ⟨tree.rootDir, tree.looseDir, fun there => tree.top (fewer there),
    fun is there => tree.free is (fewer there),
    fun isDir first second => tree.owner isDir (fewer first) (fewer second), ?_⟩
  intro p m j there
  obtain ⟨t, start, way⟩ := tree.reach (fewer there)
  exact ⟨t, start, way.mono fun isDir there => ⟨isDir, dirs isDir there⟩⟩

/-- A directory without entries loses its own. -/
theorem prune (tree : NameTree dir entry root loose) (empty : ∀ {m j}, ¬entry i m j)
    (entries : ∀ {p m j}, entry' p m j ↔ entry p m j ∧ ¬(p = d ∧ m = n ∧ j = i)) :
    NameTree dir entry' root loose := by
  have fewer : ∀ {p m j}, entry' p m j → entry p m j := fun there => (entries.mp there).1
  refine ⟨tree.rootDir, tree.looseDir, fun there => tree.top (fewer there),
    fun is there => tree.free is (fewer there),
    fun isDir first second => tree.owner isDir (fewer first) (fewer second), fun {q m j} there => ?_⟩
  obtain ⟨t, start, way⟩ := tree.reach (fewer there)
  have other : q ≠ i := by
    rintro rfl
    exact empty (fewer there)
  exact ⟨t, start, way.prune other empty fun there ne =>
    entries.mpr ⟨there, fun same => ne same.2.2⟩⟩

/-- A directory is cut off; the one it was in is still reached from the root. -/
theorem detach (tree : NameTree dir entry root none) (isDir : dir i) (held : entry d n i)
    (entries : ∀ {p m j}, entry' p m j ↔ entry p m j ∧ ¬(p = d ∧ m = n ∧ j = i)) :
    NameTree dir entry' root (some i) ∧ Under dir entry' root d := by
  have fewer : ∀ {p m j}, entry' p m j → entry p m j := fun there => (entries.mp there).1
  have gone : ∀ {p m}, ¬entry' p m i := by
    intro p m there
    obtain ⟨there, other⟩ := entries.mp there
    obtain ⟨rfl, rfl⟩ := tree.owner isDir there held
    exact other ⟨rfl, rfl, rfl⟩
  have way : ∀ {q m j}, entry q m j → Under dir entry' root q ∨ Under dir entry' i q := by
    intro q m j there
    obtain ⟨t, rfl | none_, way⟩ := tree.reach there
    · exact way.avoid fun _ other there => ⟨_, entries.mpr ⟨there, fun same => other same.2.2⟩⟩
    · cases none_
  have notRoot : i ≠ root := by
    rintro rfl
    exact tree.top held
  refine ⟨⟨tree.rootDir, fun is => ?_, fun there => tree.top (fewer there), fun is there => ?_,
    fun isDir first second => tree.owner isDir (fewer first) (fewer second), fun there => ?_⟩, ?_⟩
  · obtain rfl := Option.some.inj is
    exact ⟨isDir, notRoot⟩
  · obtain rfl := Option.some.inj is
    exact gone there
  · rcases way (fewer there) with fromRoot | fromLoose
    · exact ⟨root, .inl rfl, fromRoot⟩
    · exact ⟨i, .inr rfl, fromLoose⟩
  · rcases way held with fromRoot | fromLoose
    · exact fromRoot
    · -- otherwise `i` would have been below itself
      have below : Under dir entry i d := fromLoose.mono fun isDir there => ⟨isDir, fewer there⟩
      exact absurd (Relation.TransGen.tail' below ⟨isDir, n, held⟩)
        (tree.acyclic (tree.reach_of_entry isDir held))

/-- The loose directory gets an entry in a directory reached from the root. -/
theorem attach (tree : NameTree dir entry root (some i)) (parent : Under dir entry root d)
    (entries : ∀ {p m j}, entry' p m j ↔ entry p m j ∨ (p = d ∧ m = n ∧ j = i)) :
    NameTree dir entry' root none := by
  obtain ⟨isDir, notRoot⟩ := tree.looseDir rfl
  have stays : ∀ {t d}, Under dir entry t d → Under dir entry' t d :=
    fun way => way.mono fun isDir there => ⟨isDir, entries.mpr (.inl there)⟩
  have toLoose : Under dir entry' root i :=
    (stays parent).tail ⟨isDir, n, entries.mpr (.inr ⟨rfl, rfl, rfl⟩)⟩
  refine ⟨tree.rootDir, nofun, fun there => ?_, nofun, fun {j p q m m'} jDir first second => ?_,
    fun there => ?_⟩
  · rcases entries.mp there with there | ⟨-, -, here⟩
    · exact tree.top there
    · exact notRoot here.symm
  · rcases entries.mp first with first | ⟨rfl, rfl, rfl⟩
    · rcases entries.mp second with second | ⟨-, -, rfl⟩
      · exact tree.owner jDir first second
      · exact absurd first (tree.free rfl)
    · rcases entries.mp second with second | ⟨rfl, rfl, -⟩
      · exact absurd second (tree.free rfl)
      · exact ⟨rfl, rfl⟩
  · refine ⟨root, .inl rfl, ?_⟩
    rcases entries.mp there with there | ⟨rfl, -, -⟩
    · obtain ⟨t, rfl | is, way⟩ := tree.reach there
      · exact stays way
      · obtain rfl := Option.some.inj is
        exact toLoose.trans (stays way)
    · exact stays parent

/-- A loose directory without entries need not be kept. -/
theorem settle (tree : NameTree dir entry root (some i)) (empty : ∀ {m j}, ¬entry i m j) :
    NameTree dir entry root none := by
  refine ⟨tree.rootDir, nofun, tree.top, nofun, tree.owner, fun there => ?_⟩
  obtain ⟨t, rfl | is, way⟩ := tree.reach there
  · exact ⟨t, .inl rfl, way⟩
  · obtain rfl := Option.some.inj is
    rcases Relation.ReflTransGen.cases_head way with rfl | ⟨_, ⟨-, _, first⟩, -⟩
    · exact absurd there empty
    · exact absurd first empty

/-- A new directory, which is loose at first. -/
theorem grow (tree : NameTree dir entry root none) (new : ¬dir i) (unnamed : ∀ {p m}, ¬entry p m i)
    (dirs : ∀ {j}, dir' j ↔ dir j ∨ j = i) : NameTree dir' entry root (some i) := by
  have stays : ∀ {t d}, Under dir entry t d → Under dir' entry t d :=
    fun way => way.mono fun isDir there => ⟨dirs.mpr (.inl isDir), there⟩
  refine ⟨dirs.mpr (.inl tree.rootDir), fun is => ?_, tree.top, fun is => ?_,
    fun isDir first second => ?_, fun there => ?_⟩
  · obtain rfl := Option.some.inj is
    refine ⟨dirs.mpr (.inr rfl), ?_⟩
    rintro rfl
    exact new tree.rootDir
  · obtain rfl := Option.some.inj is
    exact unnamed
  · rcases dirs.mp isDir with isDir | rfl
    · exact tree.owner isDir first second
    · exact absurd first unnamed
  · obtain ⟨t, rfl | none_, way⟩ := tree.reach there
    · exact ⟨t, .inl rfl, stays way⟩
    · cases none_

end NameTree

end AtmKoala.Lib
