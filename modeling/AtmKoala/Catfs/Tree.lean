import Mathlib.Data.List.TakeWhile
import AtmKoala.Catfs.Reach
import AtmKoala.Catfs.Repair

/-!
The names of a volume as a tree.

The inode table encodes a tree by parent indices and names alone. `Tree` says that it is
one: every live inode but the root has a live directory above it and hangs below the
root, no two have the same parent and name, names are not empty, and the superblock
counts the free slots.

* `catfsLookup_split`: a path with a slash leads to what its last component names in the
  directory its first part leads to. It is why the two look-ups of `catfs_create` decide
  whether the new name is taken.
* `ancestorWalk_apart`: the walk of `catfs_rename` refuses exactly what is above the
  directory.
* `Hung.step`, `run_tree`: the tree is kept by every call that is `Proper`, which asks
  something of `catfs_create` only.
* `created_below_file`: without that, a file is created below a file.
-/

namespace AtmKoala.Catfs

open Lib
open Function (update_of_ne update_self)

/-! ### Paths -/

/-- The loop of `lastSlash` over the first `m` positions. -/
theorem lastSlash_fold (path : List UInt8) (m : Nat) :
    let n := (List.range m).foldl (fun last i => if path[i]? = some slash then i else last) 0
    (∀ j, n < j → j < m → path[j]? ≠ some slash) ∧
      ((∃ j < m, path[j]? = some slash) → path[n]? = some slash) := by
  induction m with
  | zero => exact ⟨fun j _ none_ => absurd none_ (Nat.not_lt_zero j), fun ⟨j, none_, _⟩ =>
      absurd none_ (Nat.not_lt_zero j)⟩
  | succ m ih =>
    rw [List.range_succ, List.foldl_append, List.foldl_cons, List.foldl_nil]
    obtain ⟨after, before⟩ := ih
    split
    · rename_i here
      exact ⟨fun j past inside => absurd inside (by omega), fun _ => here⟩
    · rename_i other
      constructor
      · intro j past inside
        rcases Nat.lt_succ_iff_lt_or_eq.mp inside with inside | rfl
        · exact after j past inside
        · exact other
      · rintro ⟨j, inside, found⟩
        rcases Nat.lt_succ_iff_lt_or_eq.mp inside with inside | rfl
        · exact before ⟨j, inside, found⟩
        · exact absurd found other

/-- A path with a slash is split at the last one. -/
theorem lastSlash_split {path : List UInt8} (mem : slash ∈ path) :
    path = path.take (lastSlash path) ++ slash :: path.drop (lastSlash path + 1) ∧
      slash ∉ path.drop (lastSlash path + 1) := by
  obtain ⟨after, before⟩ := lastSlash_fold path path.length
  obtain ⟨j, inside, found⟩ := List.mem_iff_getElem.mp mem
  have here : path[lastSlash path]? = some slash :=
    before ⟨j, inside, by rw [List.getElem?_eq_getElem inside, found]⟩
  obtain ⟨within, same⟩ := List.getElem?_eq_some_iff.mp here
  constructor
  · rw [← same, List.cons_getElem_drop_succ, List.take_append_drop]
  · intro later
    obtain ⟨k, inside, found⟩ := List.mem_iff_getElem.mp later
    rw [List.getElem_drop] at found
    rw [List.length_drop] at inside
    have past : lastSlash path < lastSlash path + 1 + k := by omega
    refine after _ past (by omega) ?_
    rw [List.getElem?_eq_getElem (by omega), found]

/-- The component a look-up takes next. -/
def compOf (p : List UInt8) : List UInt8 := (p.take (nameMax - 1)).takeWhile (· ≠ slash)

/-- What a look-up goes on with. -/
def restOf (p : List UInt8) : List UInt8 :=
  if (p.drop (compOf p).length).head? = some slash then (p.drop (compOf p).length).drop 1
  else p.drop (compOf p).length

theorem lookupFrom_succ (inodes : Fin 256 → Inode) (fuel : Nat) (cur : Fin 256) {p : List UInt8}
    (some_ : p ≠ []) : lookupFrom inodes (fuel + 1) cur p =
      if compOf p = [] then lookupFrom inodes fuel cur (restOf p)
      else (findChild inodes cur (compOf p)).bind fun i => lookupFrom inodes fuel i (restOf p) := by
  rw [lookupFrom, if_neg some_]
  dsimp only
  unfold restOf compOf
  split
  · rfl
  · cases findChild inodes cur ((p.take (nameMax - 1)).takeWhile (· ≠ slash)) with
    | none => rfl
    | some i => rfl

theorem lookupFrom_nil (inodes : Fin 256 → Inode) (fuel : Nat) (cur : Fin 256) :
    lookupFrom inodes fuel cur [] = some cur := by
  cases fuel with
  | zero => rfl
  | succ fuel => rw [lookupFrom, if_pos rfl]

theorem head_of_compOf_nil {p : List UInt8} (some_ : p ≠ []) (none_ : compOf p = []) :
    p.head? = some slash := by
  cases p with
  | nil => exact absurd rfl some_
  | cons a p =>
    by_cases here : a = slash
    · rw [here]
      rfl
    · have cut : (a :: p).take (nameMax - 1) = a :: p.take 54 := rfl
      have keeps : decide (a ≠ slash) = true := decide_eq_true here
      rw [compOf, cut, List.takeWhile_cons, keeps] at none_
      cases none_

/-- A look-up makes progress. -/
theorem length_restOf {p : List UInt8} (some_ : p ≠ []) : (restOf p).length < p.length := by
  have pos := List.length_pos_iff.mpr some_
  unfold restOf
  split
  · rename_i more
    have left : 0 < (p.drop (compOf p).length).length := by
      rw [List.length_pos_iff]
      intro none_
      rw [none_] at more
      cases more
    rw [List.length_drop] at left
    rw [List.length_drop, List.length_drop]
    omega
  · rename_i other
    have taken : (compOf p).length ≠ 0 := by
      intro none_
      rw [none_, List.drop_zero] at other
      exact other (head_of_compOf_nil some_ (List.length_eq_zero_iff.mp none_))
    rw [List.length_drop]
    omega

theorem compOf_eq_self {base : List UInt8} (short : base.length < nameMax) (plain : slash ∉ base) :
    compOf base = base := by
  have fits : base.length ≤ nameMax - 1 := Nat.le_sub_one_of_lt short
  rw [compOf, List.take_of_length_le fits, List.takeWhile_eq_self_iff]
  intro a mem
  rw [decide_eq_true_eq]
  rintro rfl
  exact plain mem

/-- The last component. -/
theorem lookupFrom_last (inodes : Fin 256 → Inode) {fuel : Nat} (cur : Fin 256) {base : List UInt8}
    (enough : base.length ≤ fuel) (short : base.length < nameMax) (plain : slash ∉ base) :
    lookupFrom inodes fuel cur base = if base = [] then some cur else findChild inodes cur base := by
  by_cases none_ : base = []
  · rw [if_pos none_, none_, lookupFrom_nil]
  · cases fuel with
    | zero => exact absurd (List.length_eq_zero_iff.mp (Nat.le_zero.mp enough)) none_
    | succ fuel =>
      have last : restOf base = [] := by
        rw [restOf, compOf_eq_self short plain, List.drop_length, if_neg (by exact nofun)]
      rw [lookupFrom_succ inodes fuel cur none_, compOf_eq_self short plain, if_neg none_,
        if_neg none_, last]
      simp only [lookupFrom_nil, Option.bind_fun_some]

theorem takeWhile_stop (p base : List UInt8) (stop : UInt8) :
    (p ++ stop :: base).takeWhile (· ≠ stop) = p.takeWhile (· ≠ stop) := by
  induction p with
  | nil => simp
  | cons a p ih => rw [List.cons_append, List.takeWhile_cons, List.takeWhile_cons, ih]

/-- A slash ends a component, whatever comes after it. -/
theorem compOf_append (p base : List UInt8) : compOf (p ++ slash :: base) = compOf p := by
  unfold compOf
  by_cases long : nameMax - 1 ≤ p.length
  · rw [List.take_append_of_le_length long]
  · obtain ⟨k, more⟩ : ∃ k, nameMax - 1 - p.length = k + 1 := ⟨nameMax - 1 - p.length - 1, by omega⟩
    rw [List.take_append, List.take_of_length_le (Nat.le_of_not_le long), more, List.take_succ_cons,
      takeWhile_stop]

theorem length_compOf_le (p : List UInt8) : (compOf p).length ≤ p.length :=
  (List.takeWhile_sublist _).length_le.trans (List.length_take_le' ..)

theorem restOf_append {p : List UInt8} (base : List UInt8) :
    restOf (p ++ slash :: base) =
      if p.drop (compOf p).length = [] then base else restOf p ++ slash :: base := by
  unfold restOf
  rw [compOf_append, List.drop_append_of_le_length (length_compOf_le p)]
  cases p.drop (compOf p).length with
  | nil => rfl
  | cons a rest =>
    rw [if_neg (List.cons_ne_nil a rest), List.cons_append, List.head?_cons, List.head?_cons]
    split
    · rfl
    · rfl

theorem lookupFrom_slash (inodes : Fin 256 → Inode) (cur : Fin 256) {base : List UInt8} {g : Nat}
    (short : base.length < nameMax) (plain : slash ∉ base) (enough : base.length < g) :
    lookupFrom inodes g cur (slash :: base) =
      if base = [] then some cur else findChild inodes cur base := by
  obtain ⟨g, rfl⟩ : ∃ k, g = k + 1 := ⟨g - 1, by omega⟩
  have comp : compOf (slash :: base) = [] := compOf_append [] base
  have rest : restOf (slash :: base) = base := (restOf_append (p := []) base).trans (if_pos rfl)
  rw [lookupFrom_succ inodes g cur (List.cons_ne_nil slash base), comp, if_pos rfl, rest]
  exact lookupFrom_last inodes cur (Nat.lt_succ_iff.mp enough) short plain

/-- **The first part of a path is looked up by itself.** -/
theorem lookupFrom_append (inodes : Fin 256 → Inode) {base : List UInt8}
    (short : base.length < nameMax) (plain : slash ∉ base) (m : Nat) {p : List UInt8}
    {cur : Fin 256} {f g : Nat} (bound : p.length ≤ m) (first : p.length ≤ f)
    (whole : p.length + 1 + base.length ≤ g) :
    lookupFrom inodes g cur (p ++ slash :: base) = (lookupFrom inodes f cur p).bind fun i =>
      if base = [] then some i else findChild inodes i base := by
  induction m generalizing p cur f g with
  | zero =>
    obtain rfl := List.length_eq_zero_iff.mp (Nat.le_zero.mp bound)
    rw [lookupFrom_nil, List.nil_append, Option.bind_some]
    exact lookupFrom_slash inodes cur short plain (by simp only [List.length_nil] at whole; omega)
  | succ m ih =>
    by_cases none_ : p = []
    · subst none_
      rw [lookupFrom_nil, List.nil_append, Option.bind_some]
      exact lookupFrom_slash inodes cur short plain (by simp only [List.length_nil] at whole; omega)
    · have pos := List.length_pos_iff.mpr none_
      have less := length_restOf none_
      obtain ⟨f, rfl⟩ : ∃ k, f = k + 1 := ⟨f - 1, by omega⟩
      obtain ⟨g, rfl⟩ : ∃ k, g = k + 1 := ⟨g - 1, by omega⟩
      rw [lookupFrom_succ inodes g cur (by simp), lookupFrom_succ inodes f cur none_, compOf_append,
        restOf_append]
      by_cases last : p.drop (compOf p).length = []
      · -- the slash after `p` is the one that is skipped
        have some_ : compOf p ≠ [] := by
          intro comp
          rw [comp] at last
          exact none_ last
        have rest : restOf p = [] := by
          rw [restOf, last]
          rfl
        rw [if_pos last, if_neg some_, if_neg some_, rest]
        simp only [lookupFrom_nil, Option.bind_fun_some]
        refine congrArg (findChild inodes cur (compOf p)).bind (funext fun i => ?_)
        exact lookupFrom_last inodes i (by omega) short plain
      · have next : ∀ i, lookupFrom inodes g i (restOf p ++ slash :: base) =
            (lookupFrom inodes f i (restOf p)).bind fun i =>
              if base = [] then some i else findChild inodes i base :=
          fun i => ih (by omega) (by omega) (by omega)
        rw [if_neg last]
        split
        · exact next cur
        · rw [Option.bind_assoc]
          exact congrArg (findChild inodes cur (compOf p)).bind (funext next)

/-- `split_last` of a path with a slash. -/
theorem splitLast_slash {path dir base : List UInt8} (mem : slash ∈ path)
    (split : splitLast path = some (dir, base)) :
    base.length < nameMax ∧ slash ∉ base ∧
      ((path = slash :: base ∧ dir = [slash]) ∨ (path = dir ++ slash :: base ∧ dir ≠ [])) := by
  obtain ⟨parts, plain⟩ := lastSlash_split mem
  unfold splitLast at split
  dsimp only at split
  by_cases first : lastSlash path = 0
  · rw [if_pos first] at split
    dsimp only at split
    split at split
    · cases split
    · rename_i fits
      cases split
      rw [first] at parts plain
      exact ⟨by omega, plain, .inl ⟨by simpa using parts, rfl⟩⟩
  · rw [if_neg first] at split
    dsimp only at split
    split at split
    · cases split
    · rename_i fits
      cases split
      refine ⟨by omega, plain, .inr ⟨parts, fun none_ => ?_⟩⟩
      rcases List.take_eq_nil_iff.mp none_ with zero | empty
      · exact first zero
      · exact fits (.inl empty)

/-- **A path with a slash** leads to what its last component names in the directory its
first part leads to. -/
theorem catfsLookup_split {c : State} {path dir base : List UInt8} {parent : Fin 256}
    (root : (c.inodes 0).type = typeDir) (mem : slash ∈ path)
    (split : splitLast path = some (dir, base)) (up : catfsLookup c dir = some parent) :
    catfsLookup c path = if base = [] then some parent else findChild c.inodes parent base := by
  obtain ⟨short, plain, parts⟩ := splitLast_slash mem split
  have mounted : c.mounted = true := by
    by_contra off
    rw [catfsLookup, if_pos (by simpa using off)] at up
    cases up
  -- past the checks, both look-ups are loops over the components
  have loop : ∀ {p : List UInt8}, p ≠ [slash] → catfsLookup c p =
      lookupFrom c.inodes (if p.head? = some slash then p.drop 1 else p).length 0
        (if p.head? = some slash then p.drop 1 else p) := by
    intro p other
    rw [catfsLookup, if_neg (by simp [mounted]), if_neg other, if_neg (not_not.mpr root)]
  have top : catfsLookup c [slash] = some 0 := by
    rw [catfsLookup, if_neg (by simp [mounted]), if_pos rfl]
  rcases parts with ⟨rfl, rfl⟩ | ⟨rfl, some_⟩
  · obtain rfl := Option.some.inj (top.symm.trans up)
    by_cases none_ : base = []
    · rw [if_pos none_, none_, top]
    · rw [loop (by simpa using none_), List.head?_cons, if_pos rfl, List.drop_one, List.tail_cons]
      exact lookupFrom_last c.inodes 0 le_rfl short plain
  · have other : dir ++ slash :: base ≠ [slash] := by
      intro one
      have := congrArg List.length one
      have := List.length_pos_iff.mpr some_
      simp only [List.length_append, List.length_cons, List.length_nil] at *
      omega
    rw [loop other, List.head?_append_of_ne_nil _ some_]
    by_cases only : dir = [slash]
    · subst only
      obtain rfl := Option.some.inj (top.symm.trans up)
      rw [List.head?_cons, if_pos rfl]
      exact lookupFrom_slash c.inodes 0 short plain (by simp)
    · rw [loop only] at up
      by_cases slashed : dir.head? = some slash
      · obtain ⟨a, rest, rfl⟩ := List.exists_cons_of_ne_nil some_
        rw [if_pos slashed, List.drop_one, List.tail_cons] at up
        rw [if_pos slashed, List.cons_append, List.drop_one, List.tail_cons,
          lookupFrom_append c.inodes short plain rest.length le_rfl le_rfl (by simp; omega), up,
          Option.bind_some]
      · rw [if_neg slashed] at up
        rw [if_neg slashed,
          lookupFrom_append c.inodes short plain dir.length le_rfl le_rfl (by simp; omega), up,
          Option.bind_some]

theorem ofFn_kstrcpy {m : Nat} (dst : Fin m → UInt8) {src : List UInt8} (short : src.length < m) :
    ∃ rest, List.ofFn (kstrcpy dst src) = src ++ 0 :: rest := by
  induction src generalizing m with
  | nil =>
    obtain ⟨m, rfl⟩ := Nat.exists_eq_succ_of_ne_zero (Nat.ne_of_gt short)
    rw [List.ofFn_succ]
    exact ⟨_, rfl⟩
  | cons a src ih =>
    obtain ⟨m, rfl⟩ := Nat.exists_eq_succ_of_ne_zero (Nat.ne_of_gt (Nat.zero_lt_of_lt short))
    obtain ⟨rest, eq⟩ := ih (fun k => dst k.succ) (Nat.lt_of_succ_lt_succ short)
    have tail : (fun k : Fin m => kstrcpy dst (a :: src) k.succ) = kstrcpy (fun k => dst k.succ) src := by
      funext k
      simp [kstrcpy]
    rw [List.ofFn_succ, tail, eq]
    exact ⟨rest, rfl⟩

/-- The name a string is stored as. -/
theorem nameOf_kstrcpy {n : Inode} {dst : Fin 56 → UInt8} {src : List UInt8}
    (stored : n.name = kstrcpy dst src) (noNul : 0 ∉ src) (short : src.length < nameMax) :
    nameOf n = src := by
  obtain ⟨rest, eq⟩ := ofFn_kstrcpy dst short
  rw [nameOf, stored, eq, takeWhile_stop, List.takeWhile_eq_self_iff]
  intro a mem
  rw [decide_eq_true_eq]
  rintro rfl
  exact noNul mem

/-! ### The tree -/

/-- **The names of a volume**, as far as the operations need them. -/
structure Hung (c : State) : Prop where
  rootDir : (c.inodes 0).type = typeDir
  rootTop : (c.inodes 0).parent = -1
  rootNamed : nameOf (c.inodes 0) ≠ []
  rooted : ∀ i, Member c.inodes i → Rooted (dirAbove c.inodes) 0 i
  distinct : ∀ i j, Member c.inodes i → Member c.inodes j →
    (c.inodes i).parent = (c.inodes j).parent → nameOf (c.inodes i) = nameOf (c.inodes j) → i = j
  named : ∀ i, Member c.inodes i → nameOf (c.inodes i) ≠ []
  free : c.sb.freeInodes.toNat = freeSlots c.inodes

section Hung

variable {c c' : State} {i p : Fin 256} {n : Inode}

theorem Hung.congr (hung : Hung c) (type : ∀ i, (c'.inodes i).type = (c.inodes i).type)
    (parent : ∀ i, (c'.inodes i).parent = (c.inodes i).parent)
    (name : ∀ i, (c'.inodes i).name = (c.inodes i).name)
    (free : c'.sb.freeInodes = c.sb.freeInodes) : Hung c' := by
  have above : dirAbove c'.inodes = dirAbove c.inodes := by
    funext i
    rw [dirAbove, dirAbove, parent]
    simp only [type]
  have members : Member c'.inodes = Member c.inodes := by
    funext i
    rw [Member, Member, type]
  have names : ∀ i, nameOf (c'.inodes i) = nameOf (c.inodes i) := fun i => by
    rw [nameOf, nameOf, name]
  have slots : freeSlots c'.inodes = freeSlots c.inodes := by
    unfold freeSlots
    simp only [type]
  refine ⟨(type 0).trans hung.rootDir, (parent 0).trans hung.rootTop, ?_, ?_, ?_, ?_, ?_⟩
  · rw [names]
    exact hung.rootNamed
  · rw [members, above]
    exact hung.rooted
  · rw [members]
    intro i j first second
    rw [parent, parent, names, names]
    exact hung.distinct i j first second
  · rw [members]
    intro i member
    rw [names]
    exact hung.named i member
  · rw [free, slots]
    exact hung.free

theorem toInt_ofNat (p : Fin 256) : (Int32.ofNat p.val).toInt = p.val := by
  have small : p.val < 2 ^ 31 := by omega
  exact Int32.toInt_ofNat_of_lt small

theorem isDir_of_dirAbove (link : dirAbove c.inodes i = some p) : (c.inodes p).type = typeDir :=
  (dirAbove_eq_some.mp link).2

theorem ne_free_of_dir (dir : (c.inodes p).type = typeDir) : (c.inodes p).type ≠ typeFree := by
  rw [dir]
  decide

/-- No directory is above the root. -/
theorem Hung.top (hung : Hung c) : dirAbove c.inodes 0 = none := by
  rw [dirAbove, hung.rootTop]
  rfl

/-- The directory above a member. -/
theorem Hung.link (hung : Hung c) (member : Member c.inodes i) :
    ∃ p, dirAbove c.inodes i = some p ∧ Rooted (dirAbove c.inodes) 0 p :=
  (hung.rooted i member).above member.1

theorem parent_toInt (link : dirAbove c.inodes i = some p) : (c.inodes i).parent.toInt = p.val :=
  val_of_inodeIdx (dirAbove_eq_some.mp link).1

/-- The way up of other inodes does not change with an inode that is above none of them. -/
theorem dirAbove_update (inodes : c'.inodes = Function.update c.inodes i n) {k q : Fin 256}
    (other : k ≠ i) (link : dirAbove c.inodes k = some q)
    (stays : q = i → n.type = typeDir) : dirAbove c'.inodes k = some q := by
  obtain ⟨index, dir⟩ := dirAbove_eq_some.mp link
  rw [dirAbove_eq_some, inodes, update_of_ne other]
  refine ⟨index, ?_⟩
  by_cases here : q = i
  · rw [here, update_self]
    exact stays here
  · rwa [update_of_ne here]

theorem findChild_none {inodes : Fin 256 → Inode} {comp : List UInt8}
    (none_ : findChild inodes p comp = none) {j : Fin 256} (member : Member inodes j)
    (parent : (inodes j).parent.toInt = p.val) : nameOf (inodes j) ≠ comp := by
  intro name
  have refused := List.find?_eq_none.mp none_ j (List.mem_finRange j)
  rw [decide_eq_true_eq] at refused
  exact refused ⟨member.1, member.2, parent, name⟩

theorem Hung.rootedAt (hung : Hung c) (dir : (c.inodes p).type = typeDir) :
    Rooted (dirAbove c.inodes) 0 p := by
  by_cases root : p = 0
  · rw [root]
    exact .root
  · exact hung.rooted p ⟨root, ne_free_of_dir dir⟩

/-- A free slot is filled. -/
theorem Hung.create (hung : Hung c) (notRoot : i ≠ 0) (slot : (c.inodes i).type = typeFree)
    (dir : (c.inodes p).type = typeDir) (live : n.type ≠ typeFree)
    (parent : n.parent = Int32.ofNat p.val) (named : nameOf n ≠ [])
    (fresh : findChild c.inodes p (nameOf n) = none)
    (inodes : c'.inodes = Function.update c.inodes i n)
    (free : c'.sb.freeInodes = c.sb.freeInodes - 1) : Hung c' := by
  have apart : ∀ {q}, (c.inodes q).type = typeDir → q ≠ i := by
    rintro q dir rfl
    exact ne_free_of_dir dir slot
  have self : c'.inodes i = n := by rw [inodes, update_self]
  have others : ∀ {j}, j ≠ i → c'.inodes j = c.inodes j := fun other => by
    rw [inodes, update_of_ne other]
  have root : c'.inodes 0 = c.inodes 0 := others notRoot.symm
  have kept : ∀ {j}, Rooted (dirAbove c.inodes) 0 j → j ≠ i → Rooted (dirAbove c'.inodes) 0 j := by
    intro j rooted other
    refine rooted.transfer (· ≠ i) other fun {k q} other _ link => ?_
    have away := apart (isDir_of_dirAbove link)
    exact ⟨dirAbove_update inodes other link fun here => absurd here away, away⟩
  have member : ∀ {j}, Member c'.inodes j → j ≠ i → Member c.inodes j := by
    intro j member other
    rwa [Member, others other] at member
  have clash : ∀ {j}, Member c'.inodes j → j ≠ i → (c'.inodes j).parent = n.parent →
      nameOf (c'.inodes j) ≠ nameOf n := by
    intro j isMember other sameParent
    rw [others other] at sameParent ⊢
    refine findChild_none fresh (member isMember other) ?_
    rw [sameParent, parent, toInt_ofNat]
  refine ⟨?_, ?_, ?_, fun j isMember => ?_, fun j k first second sameParent sameName => ?_,
    fun j isMember => ?_, ?_⟩
  · rw [root]
    exact hung.rootDir
  · rw [root]
    exact hung.rootTop
  · rw [root]
    exact hung.rootNamed
  · by_cases here : j = i
    · subst here
      refine .up ?_ (kept (hung.rootedAt dir) (apart dir))
      rw [dirAbove_eq_some, self, parent, toInt_ofNat, others (apart dir)]
      exact ⟨inodeIdx_val p, dir⟩
    · exact kept (hung.rooted j (member isMember here)) here
  · by_cases one : j = i
    · by_cases two : k = i
      · rw [one, two]
      · rw [one, self] at sameParent sameName
        exact absurd sameName.symm (clash second two sameParent.symm)
    · by_cases two : k = i
      · rw [two, self] at sameParent sameName
        exact absurd sameName (clash first one sameParent)
      · rw [others one, others two] at sameParent sameName
        exact hung.distinct j k (member first one) (member second two) sameParent sameName
  · by_cases here : j = i
    · rw [here, self]
      exact named
    · rw [others here]
      exact hung.named j (member isMember here)
  · have more : freeSlots c.inodes = freeSlots c'.inodes + 1 :=
      freeSlots_release (i := i) (by rw [self]; exact live) slot fun j other => by rw [others other]
    have count := hung.free
    have bound := freeSlots_le c.inodes
    rw [free, UInt32.toNat_sub_of_le]
    · rw [count, more]
      rfl
    · rw [UInt32.le_iff_toNat_le, count, more]
      exact Nat.le_add_left 1 _

/-- A slot is emptied that is above nothing. -/
theorem Hung.unlink (hung : Hung c) (notRoot : i ≠ 0) (live : (c.inodes i).type ≠ typeFree)
    (childless : ¬((c.inodes i).type = typeDir ∧ hasChild c i = true))
    (inodes : c'.inodes = Function.update c.inodes i Inode.zero)
    (free : c'.sb.freeInodes = c.sb.freeInodes + 1) : Hung c' := by
  have self : c'.inodes i = Inode.zero := by rw [inodes, update_self]
  have others : ∀ {j}, j ≠ i → c'.inodes j = c.inodes j := fun other => by
    rw [inodes, update_of_ne other]
  have root : c'.inodes 0 = c.inodes 0 := others notRoot.symm
  have member : ∀ {j}, Member c'.inodes j → j ≠ i ∧ Member c.inodes j := by
    intro j member
    have other : j ≠ i := by
      rintro rfl
      refine member.2 ?_
      rw [self]
      rfl
    rw [Member, others other] at member
    exact ⟨other, member⟩
  -- nothing has the slot for its directory
  have away : ∀ {j q}, Member c.inodes j → dirAbove c.inodes j = some q → q ≠ i := by
    rintro j q isMember link rfl
    refine childless ⟨isDir_of_dirAbove link, ?_⟩
    rw [hasChild, List.any_eq_true]
    exact ⟨j, List.mem_finRange j, decide_eq_true ⟨isMember.1, isMember.2, parent_toInt link⟩⟩
  refine ⟨?_, ?_, ?_, fun j isMember => ?_, fun j k first second sameParent sameName => ?_,
    fun j isMember => ?_, ?_⟩
  · rw [root]
    exact hung.rootDir
  · rw [root]
    exact hung.rootTop
  · rw [root]
    exact hung.rootNamed
  · obtain ⟨other, isMember⟩ := member isMember
    refine (hung.rooted j isMember).transfer (fun k => k ≠ i ∧ (k ≠ 0 → Member c.inodes k))
      ⟨other, fun _ => isMember⟩ fun {k q} keep atRoot link => ?_
    have apart := away (keep.2 atRoot) link
    refine ⟨dirAbove_update inodes keep.1 link fun here => absurd here apart, apart, fun below => ?_⟩
    exact ⟨below, ne_free_of_dir (isDir_of_dirAbove link)⟩
  · obtain ⟨one, first⟩ := member first
    obtain ⟨two, second⟩ := member second
    rw [others one, others two] at sameParent sameName
    exact hung.distinct j k first second sameParent sameName
  · obtain ⟨other, isMember⟩ := member isMember
    rw [others other]
    exact hung.named j isMember
  · have more : freeSlots c'.inodes = freeSlots c.inodes + 1 :=
      freeSlots_release live (by rw [self]; rfl) fun j other => by rw [others other]
    have count := hung.free
    have bound := freeSlots_le c'.inodes
    rw [free, UInt32.toNat_add, count, more]
    exact Nat.mod_eq_of_lt (by simp only [UInt32.toNat_one]; omega)

/-- **The ancestor walk** that does not meet an inode has not passed below it. -/
theorem ancestorWalk_apart {inodes : Fin 256 → Inode} {fuel : Nat}
    (walk : ancestorWalk inodes i fuel p.val = some false) :
    ¬Relation.ReflTransGen (Above (dirAbove inodes)) p i := by
  intro path
  induction path using Relation.ReflTransGen.head_induction_on generalizing fuel with
  | refl =>
    cases fuel with
    | zero => cases walk
    | succ fuel =>
      rw [ancestorWalk, if_neg (by omega), if_pos rfl] at walk
      cases walk
  | @head k q link _ ih =>
    cases fuel with
    | zero => cases walk
    | succ fuel =>
      have up : (inodes k).parent.toInt = q.val := val_of_inodeIdx (dirAbove_eq_some.mp link).1
      rw [ancestorWalk, if_neg (by omega)] at walk
      split at walk
      · cases walk
      · rw [inodeIdx_val] at walk
        dsimp only at walk
        rw [up] at walk
        exact ih walk

theorem nameTaken_false {name : List UInt8} (free : nameTaken c i p name = false) {j : Fin 256}
    (member : Member c.inodes j) (other : j ≠ i) (parent : (c.inodes j).parent.toInt = p.val) :
    nameOf (c.inodes j) ≠ name := by
  intro same
  rw [nameTaken, List.any_eq_false] at free
  have refused := free j (List.mem_finRange j)
  rw [decide_eq_true_eq] at refused
  exact refused ⟨member.1, other, member.2, parent, same⟩

/-- An inode is moved below a directory that is not below it. -/
theorem Hung.rename (hung : Hung c) (notRoot : i ≠ 0) (dir : (c.inodes p).type = typeDir)
    (apart : ¬Relation.ReflTransGen (Above (dirAbove c.inodes)) p i)
    (type : n.type = (c.inodes i).type) (parent : n.parent = Int32.ofNat p.val)
    (named : nameOf n ≠ []) (fresh : nameTaken c i p (nameOf n) = false)
    (inodes : c'.inodes = Function.update c.inodes i n)
    (free : c'.sb.freeInodes = c.sb.freeInodes) : Hung c' := by
  have self : c'.inodes i = n := by rw [inodes, update_self]
  have others : ∀ {j}, j ≠ i → c'.inodes j = c.inodes j := fun other => by
    rw [inodes, update_of_ne other]
  have root : c'.inodes 0 = c.inodes 0 := others notRoot.symm
  have types : ∀ j, (c'.inodes j).type = (c.inodes j).type := by
    intro j
    by_cases here : j = i
    · rw [here, self, type]
    · rw [others here]
  have members : Member c'.inodes = Member c.inodes := by
    funext j
    rw [Member, Member, types]
  have stays : ∀ k, k ≠ i → dirAbove c'.inodes k = dirAbove c.inodes k := by
    intro k other
    rw [dirAbove, dirAbove, others other]
    simp only [types]
  have moved : dirAbove c'.inodes i = some p := by
    rw [dirAbove_eq_some, self, parent, toInt_ofNat, types]
    exact ⟨inodeIdx_val p, dir⟩
  have clash : ∀ {j}, Member c.inodes j → j ≠ i → (c.inodes j).parent = n.parent →
      nameOf (c.inodes j) ≠ nameOf n := by
    intro j isMember other sameParent
    refine nameTaken_false fresh isMember other ?_
    rw [sameParent, parent, toInt_ofNat]
  refine ⟨?_, ?_, ?_, fun j isMember => ?_, fun j k first second sameParent sameName => ?_,
    fun j isMember => ?_, ?_⟩
  · rw [root]
    exact hung.rootDir
  · rw [root]
    exact hung.rootTop
  · rw [root]
    exact hung.rootNamed
  · rw [members] at isMember
    exact (hung.rooted j isMember).attach (hung.rootedAt dir) apart moved stays
  · rw [members] at first second
    by_cases one : j = i
    · by_cases two : k = i
      · rw [one, two]
      · rw [one, self, others two] at sameParent sameName
        exact absurd sameName.symm (clash second two sameParent.symm)
    · by_cases two : k = i
      · rw [two, self, others one] at sameParent sameName
        exact absurd sameName (clash first one sameParent)
      · rw [others one, others two] at sameParent sameName
        exact hung.distinct j k first second sameParent sameName
  · rw [members] at isMember
    by_cases here : j = i
    · rw [here, self]
      exact named
    · rw [others here]
      exact hung.named j isMember
  · have slots : freeSlots c'.inodes = freeSlots c.inodes := by
      unfold freeSlots
      simp only [types]
    rw [free, slots]
    exact hung.free

end Hung

/-! ### What the operations do to the table -/

section Effects

variable {w w' : World} {i : Fin 256}

theorem createAt_catfs (ready : Ready w) (i parent : Fin 256) (base : List UInt8) (type : UInt8)
    (now : UInt32) : (createAt w i parent base type now).catfs =
      (w.catfs.logged.setInode i (newInode base type parent now)
        (w.catfs.sb.freeInodes - 1)).committed := by
  unfold createAt
  dsimp only
  rw [journalLog_eq ready, mapInode_mapSb_eq _ i _ (· - 1),
    finish_inode_super (ready.perform (logged_frame _) _) i _ (setInode_frame _ _ _ _)]
  rfl

theorem unlinkAt_catfs (ready : Ready w) (owned : w.Owned) (i : Fin 256) :
    ∃ c, BlocksOnly i w.catfs.logged c ∧ (unlinkAt w i).catfs =
      (c.setInode i Inode.zero (w.catfs.sb.freeInodes + 1)).committed := by
  have logged : Ready (w.perform w.catfs.logged [.record w.catfs.ringSlot
      ⟨jUnlink, UInt32.ofNat i.val, 0, 0, w.catfs.nextSeq + 1⟩]) :=
    ready.perform (logged_frame _) _
  have drops := freeAllBlocks_drops i logged (owned_logging owned _ _).1
  refine ⟨_, drops.only, ?_⟩
  unfold unlinkAt
  dsimp only
  rw [journalLog_eq ready, mapInode_mapSb_eq _ i _ (· + 1),
    finish_inode_bitmap_super (drops.ready logged) i _ (setInode_frame _ _ _ _)]
  have same := congrArg Super.freeInodes drops.only.sb
  dsimp only at same ⊢
  rw [same]
  rfl

theorem renameAt_catfs (ready : Ready w) (i newParent : Fin 256) (newName : List UInt8)
    (now : UInt32) : (renameAt w i newParent newName now).1.catfs =
      (w.catfs.logged.setInode i
        { w.catfs.inodes i with
          parent := Int32.ofNat newParent.val
          name := kstrcpy (w.catfs.inodes i).name newName
          mtime := now } w.catfs.sb.freeInodes).committed := by
  unfold renameAt
  dsimp only
  rw [journalLog_eq ready, mapInode_eq]
  simp (disch := first | exact ready | exact ⟨rfl, rfl⟩ |
      (refine ready.perform ?_ _; exact ⟨⟨rfl, rfl⟩, rfl, rfl⟩))
    only [syncInode_eq, syncSuperblock_eq, journalCommit_eq, World.perform_perform,
      World.perform_catfs]
  rfl

/-- What taking blocks leaves of the names. -/
theorem Hung.blocksOnly {c c' : State} (hung : Hung c) (only : BlocksOnly i c c') : Hung c' := by
  have free := congrArg Super.freeInodes only.sb
  refine hung.congr only.type_eq (fun j => ?_) (fun j => ?_) free
  · by_cases here : j = i
    · rw [here, only.self]
    · rw [only.others j here]
  · by_cases here : j = i
    · rw [here, only.self]
    · rw [only.others j here]

theorem writeFinish_catfs (ready : Ready w) (i : Fin 256) (fin now : UInt32) :
    (writeFinish w i fin now).catfs =
      (w.catfs.logged.setInode i
        { w.catfs.inodes i with
          size := if fin > (w.catfs.inodes i).size then fin else (w.catfs.inodes i).size
          mtime := now } w.catfs.sb.freeInodes).committed := by
  unfold writeFinish
  dsimp only
  rw [journalLog_eq ready, mapInode_eq,
    finish_inode_super_bitmap (ready.perform (logged_frame _) _) i _ (setInode_frame _ _ _ _)]
  rfl

/-- Data is written without touching the names. -/
theorem Hung.write (hung : Hung w.catfs) (sound : Sound w) {idx : Int} {offset : UInt32}
    {buf : Nat → UInt8} {len now : UInt32} :
    Hung (catfsWrite w idx offset buf len now).1.catfs := by
  unfold catfsWrite
  split
  · exact hung
  split
  · exact hung
  · rename_i i _
    split
    · exact hung
    · rename_i file
      rw [not_or] at file
      obtain ⟨w₁, n, loop, spec⟩ : ∃ w₁ n, writeLoop i offset buf len len.toNat w 0 = (w₁, n) ∧
          LoopSpec i offset buf len w 0 w₁ n :=
        writeLoop_spec sound.ready sound.owned file.1 len.toNat 0 (by simp) (by simp)
          (by simpa using offset.toNat_lt)
      rw [loop]
      dsimp only
      have taken := hung.blocksOnly spec.wrote.grows.only
      split
      · rw [writeFinish_catfs (spec.wrote.grows.ready sound.ready)]
        refine taken.congr (fun j => ?_) (fun j => ?_) (fun j => ?_) rfl
        all_goals
          dsimp only [State.setInode, State.committed, State.logged]
          by_cases here : j = i
          · rw [here, update_self]
          · rw [update_of_ne here]
      · exact taken

end Effects

/-! ### Calls -/

def catfsPathCreate (w : World) (path : CString) (now : UInt32) : Option (World × Int) :=
  catfsCreate w path typeFile now

def catfsPathMkdir (w : World) (path : CString) (now : UInt32) : Option (World × Int) :=
  catfsCreate w path typeDir now

/-- `catfs_path_write`; `later` is the time of the write after a creation. -/
def catfsPathWrite (w : World) (path : CString) (off : UInt32) (buf : Nat → UInt8)
    (len now later : UInt32) : Option (World × Int) :=
  match catfsLookup w.catfs path.chars with
  | some i => some (catfsWrite w i.val off buf len now)
  | none =>
    match catfsCreate w path typeFile now with
    | none => none
    | some (w, idx) => if idx < 0 then some (w, -1) else some (catfsWrite w idx off buf len later)

/-- The calls that make, name or remove something. -/
inductive Api where
  | create (path : CString) (type : UInt8) (now : UInt32)
  | pathCreate (path : CString) (now : UInt32)
  | pathMkdir (path : CString) (now : UInt32)
  | pathWrite (path : CString) (off : UInt32) (buf : Nat → UInt8) (len now later : UInt32)
  | rename (idx newParent : Int) (newName : CString) (now : UInt32)
  | unlink (idx : Int)

def Api.apply (w : World) : Api → Option (World × Int)
  | .create path type now => catfsCreate w path type now
  | .pathCreate path now => catfsPathCreate w path now
  | .pathMkdir path now => catfsPathMkdir w path now
  | .pathWrite path off buf len now later => catfsPathWrite w path off buf len now later
  | .rename idx newParent newName now => catfsRename w idx newParent newName now
  | .unlink idx => some (catfsUnlink w idx)

/-- One completed call. -/
def ApiStep (w : World) (a : Api) (w' : World) : Prop := ∃ r, a.apply w = some (w', r)

/-- **A creation that fits the tree**: what is created has a type, the path leads to a
directory, and a path without a slash has a second character, from which on it names
nothing below the root. Asked only where `catfs_create` gets to filling a slot. -/
def Fits (c : State) (path : List UInt8) (type : UInt8) : Prop :=
  ∀ dir base parent, splitLast path = some (dir, base) → catfsLookup c dir = some parent →
    catfsLookup c path = none → (∃ i, i ≠ 0 ∧ (c.inodes i).type = typeFree) →
      type ≠ typeFree ∧ (c.inodes parent).type = typeDir ∧
        (slash ∉ path → base ≠ [] ∧ findChild c.inodes parent base = none)

/-- The condition on a call: its creation, if it makes one, fits the tree. -/
def Proper (w : World) : Api → Prop
  | .create path type _ => Fits w.catfs path.chars type
  | .pathCreate path _ => Fits w.catfs path.chars typeFile
  | .pathMkdir path _ => Fits w.catfs path.chars typeDir
  | .pathWrite path _ _ _ _ _ => Fits w.catfs path.chars typeFile
  | .rename _ _ _ _ => True
  | .unlink _ => True

section Keeping

variable {w w' : World} {r : Int}

/-- A part of a split path is a string that fits a name. -/
theorem splitLast_base {path : CString} {dir base : List UInt8}
    (split : splitLast path.chars = some (dir, base)) :
    0 ∉ base ∧ base.length < nameMax := by
  unfold splitLast at split
  dsimp only at split
  split at split <;> dsimp only at split
  all_goals
    split at split
    · cases split
    · rename_i fits
      obtain ⟨-, rfl⟩ := Prod.mk.inj (Option.some.inj split)
      exact ⟨fun nul => path.noNul (List.mem_of_mem_drop nul), by omega⟩

/-- **`catfs_create`** keeps the tree where it fits. -/
theorem Hung.catfsCreate (hung : Hung w.catfs) (sound : Sound w) {path : CString} {type : UInt8}
    {now : UInt32} (fits : Fits w.catfs path.chars type)
    (done : catfsCreate w path type now = some (w', r)) : Hung w'.catfs := by
  unfold Catfs.catfsCreate at done
  rw [if_neg (by simp [sound.ready.mounted])] at done
  split at done
  · cases done
  rename_i dir base split
  split at done
  · cases done
    exact hung
  rename_i parent up
  split at done
  · cases done
    exact hung
  rename_i unused
  split at done
  · cases done
    exact hung
  rename_i i slot
  cases done
  have unused : catfsLookup w.catfs path.chars = none := by simpa using unused
  have found := List.find?_some slot
  rw [decide_eq_true_eq] at found
  obtain ⟨typed, dir, plain⟩ := fits dir base parent split up unused ⟨i, found⟩
  obtain ⟨noNul, short⟩ := splitLast_base split
  -- with a slash, the second look-up has shown that the name is there and not taken
  have fresh : base ≠ [] ∧ findChild w.catfs.inodes parent base = none := by
    by_cases mem : slash ∈ path.chars
    · rw [catfsLookup_split hung.rootDir mem split up] at unused
      by_cases none_ : base = []
      · rw [if_pos none_] at unused
        cases unused
      · rw [if_neg none_] at unused
        exact ⟨none_, unused⟩
    · exact plain mem
  have name : nameOf (newInode base type parent now) = base := nameOf_kstrcpy rfl noNul short
  have effect := createAt_catfs sound.ready i parent base type now
  exact hung.create found.1 found.2 dir typed rfl (by rw [name]; exact fresh.1)
    (by rw [name]; exact fresh.2) (by rw [effect]; rfl) (by rw [effect]; rfl)

/-- **`catfs_unlink`** keeps the tree. -/
theorem Hung.catfsUnlink (hung : Hung w.catfs) (sound : Sound w) {idx : Int} :
    Hung (catfsUnlink w idx).1.catfs := by
  unfold Catfs.catfsUnlink
  split
  · exact hung
  split
  · exact hung
  rename_i i _
  split
  · exact hung
  rename_i notRoot
  split
  · exact hung
  rename_i live
  split
  · exact hung
  rename_i childless
  obtain ⟨c, only, effect⟩ := unlinkAt_catfs sound.ready sound.owned i
  dsimp only
  have emptied : Function.update c.inodes i Inode.zero =
      Function.update w.catfs.inodes i Inode.zero := by
    funext j
    by_cases here : j = i
    · rw [here, update_self, update_self]
    · rw [update_of_ne here, update_of_ne here]
      exact only.others j here
  exact hung.unlink notRoot live childless (by rw [effect]; exact emptied) (by rw [effect]; rfl)

/-- **`catfs_rename`** keeps the tree: its ancestor walk and its scan of the names are
enough. -/
theorem Hung.catfsRename (hung : Hung w.catfs) (sound : Sound w) {idx newParent : Int}
    {newName : CString} {now : UInt32}
    (done : catfsRename w idx newParent newName now = some (w', r)) : Hung w'.catfs := by
  unfold Catfs.catfsRename at done
  rw [if_neg (by simp [sound.ready.mounted])] at done
  split at done
  · rename_i i p _ _
    split at done
    · cases done
      exact hung
    rename_i notRoot
    split at done
    · cases done
      exact hung
    rename_i dir
    split at done
    · cases done
      exact hung
    rename_i named
    split at done
    · cases done
      exact hung
    split at done
    · cases done
    · cases done
      exact hung
    rename_i walk
    split at done
    · cases done
      exact hung
    rename_i fresh
    rw [not_or] at named
    have effect := renameAt_catfs sound.ready i p newName.chars now
    rw [show renameAt w i p newName.chars now = (w', r) from Option.some.inj done] at effect
    dsimp only at effect
    let moved : Inode :=
      { w.catfs.inodes i with
        parent := Int32.ofNat p.val
        name := kstrcpy (w.catfs.inodes i).name newName.chars
        mtime := now }
    have name : nameOf moved = newName.chars := nameOf_kstrcpy rfl newName.noNul (by omega)
    refine hung.rename (n := moved) notRoot (not_not.mp dir) (ancestorWalk_apart walk) rfl rfl
      ?_ ?_ (by rw [effect]; rfl) (by rw [effect]; rfl)
    · rw [name]
      exact fun none_ => named.1 (by rw [none_]; rfl)
    · rw [name]
      simpa using fresh
  · cases done
    exact hung

end Keeping

/-! ### The tree after every run -/

/-- Inode `i` is live and has `p` for its parent. -/
def ParentIs (c : State) (i p : Fin 256) : Prop :=
  (c.inodes i).type ≠ typeFree ∧ (c.inodes i).parent.toInt = p.val

/-- **The names of a volume are a tree.** -/
structure Tree (c : State) : Prop where
  parents : ∀ i, i ≠ 0 → (c.inodes i).type ≠ typeFree →
    ∃ p, ParentIs c i p ∧ (c.inodes p).type = typeDir
  acyclic : ∀ i, ¬Relation.TransGen (ParentIs c) i i
  rooted : ∀ i, (c.inodes i).type ≠ typeFree → Relation.ReflTransGen (ParentIs c) i 0
  distinct : ∀ i j, (c.inodes i).type ≠ typeFree → (c.inodes j).type ≠ typeFree →
    (c.inodes i).parent = (c.inodes j).parent → nameOf (c.inodes i) = nameOf (c.inodes j) → i = j
  named : ∀ i, (c.inodes i).type ≠ typeFree → nameOf (c.inodes i) ≠ []
  free : c.sb.freeInodes.toNat = freeSlots c.inodes

section Tree

variable {c : State} {w w' : World}

theorem Hung.parentIs (hung : Hung c) {i p : Fin 256} (parent : ParentIs c i p) :
    i ≠ 0 ∧ Above (dirAbove c.inodes) i p := by
  have notRoot : i ≠ 0 := by
    rintro rfl
    have top := parent.2
    rw [hung.rootTop] at top
    have below : (-1 : Int32).toInt = -1 := by decide
    omega
  obtain ⟨q, link, -⟩ := hung.link ⟨notRoot, parent.1⟩
  have same : p = q := Fin.ext (by
    have one := parent_toInt link
    have two := parent.2
    omega)
  exact ⟨notRoot, same ▸ link⟩

theorem parentIs_of_dirAbove {i p : Fin 256} (live : (c.inodes i).type ≠ typeFree)
    (link : dirAbove c.inodes i = some p) : ParentIs c i p ∧ (c.inodes p).type = typeDir :=
  ⟨⟨live, parent_toInt link⟩, isDir_of_dirAbove link⟩

/-- What the operations keep is a tree. -/
theorem Hung.tree (hung : Hung c) : Tree c where
  parents := by
    intro i notRoot live
    obtain ⟨p, link, -⟩ := hung.link ⟨notRoot, live⟩
    exact ⟨p, parentIs_of_dirAbove live link⟩
  acyclic := by
    intro i circle
    obtain ⟨p, first, -⟩ := Relation.TransGen.head'_iff.mp circle
    have rooted := hung.rooted i ⟨(hung.parentIs first).1, first.1⟩
    exact rooted.acyclic hung.top
      (Relation.TransGen.mono (fun j q parent => (hung.parentIs parent).2) i i circle)
  rooted := by
    intro i live
    have up : ∀ {j}, Rooted (dirAbove c.inodes) 0 j → (c.inodes j).type ≠ typeFree →
        Relation.ReflTransGen (ParentIs c) j 0 := by
      intro j rooted
      induction rooted with
      | root => exact fun _ => .refl
      | up link _ ih =>
        intro live
        obtain ⟨parent, dir⟩ := parentIs_of_dirAbove live link
        exact .head parent (ih (ne_free_of_dir dir))
    by_cases root : i = 0
    · exact root ▸ .refl
    · exact up (hung.rooted i ⟨root, live⟩) live
  distinct := by
    have apart : ∀ {i}, i ≠ 0 → (c.inodes i).type ≠ typeFree →
        (c.inodes i).parent ≠ (c.inodes 0).parent := by
      intro i notRoot live same
      obtain ⟨p, link, -⟩ := hung.link ⟨notRoot, live⟩
      have index := parent_toInt link
      rw [same, hung.rootTop] at index
      have below : (-1 : Int32).toInt = -1 := by decide
      omega
    intro i j first second sameParent sameName
    by_cases one : i = 0
    · by_cases two : j = 0
      · rw [one, two]
      · exact absurd (one ▸ sameParent).symm (apart two second)
    · by_cases two : j = 0
      · exact absurd (two ▸ sameParent) (apart one first)
      · exact hung.distinct i j ⟨one, first⟩ ⟨two, second⟩ sameParent sameName
  named := by
    intro i live
    by_cases root : i = 0
    · exact root ▸ hung.rootNamed
    · exact hung.named i ⟨root, live⟩
  free := hung.free

/-- **Step.** A proper call keeps the bookkeeping and the tree. -/
theorem Hung.step {a : Api} (sound : Sound w) (hung : Hung w.catfs) (proper : Proper w a)
    (step : ApiStep w a w') : Sound w' ∧ Hung w'.catfs := by
  obtain ⟨r, done⟩ := step
  cases a with
  | create path type now =>
    have op : Step w (.create path type now) w' := ⟨r, done⟩
    exact ⟨sound.step op, hung.catfsCreate sound proper done⟩
  | pathCreate path now =>
    have op : Step w (.create path typeFile now) w' := ⟨r, done⟩
    exact ⟨sound.step op, hung.catfsCreate sound proper done⟩
  | pathMkdir path now =>
    have op : Step w (.create path typeDir now) w' := ⟨r, done⟩
    exact ⟨sound.step op, hung.catfsCreate sound proper done⟩
  | pathWrite path off buf len now later =>
    dsimp only [Api.apply] at done
    unfold catfsPathWrite at done
    split at done
    · rename_i i _
      obtain rfl : (catfsWrite w i.val off buf len now).1 = w' :=
        congrArg Prod.fst (Option.some.inj done)
      have op : Step w (.write i.val off buf len now) _ := ⟨_, write_apply _ _ _ _ _ _⟩
      exact ⟨sound.step op, hung.write sound⟩
    · split at done
      · cases done
      · rename_i made idx create
        have op : Step w (.create path typeFile now) made := ⟨idx, create⟩
        have hung := hung.catfsCreate sound proper create
        have sound := sound.step op
        split at done
        · cases done
          exact ⟨sound, hung⟩
        · obtain rfl : (catfsWrite made idx off buf len later).1 = w' :=
            congrArg Prod.fst (Option.some.inj done)
          have op : Step made (.write idx off buf len later) _ := ⟨_, write_apply _ _ _ _ _ _⟩
          exact ⟨sound.step op, hung.write sound⟩
  | rename idx newParent newName now =>
    have op : Step w (.rename idx newParent newName now) w' := ⟨r, done⟩
    exact ⟨sound.step op, hung.catfsRename sound done⟩
  | unlink idx =>
    obtain rfl : (Catfs.catfsUnlink w idx).1 = w' := congrArg Prod.fst (Option.some.inj done)
    have op : Step w (.unlink idx) _ := ⟨_, rfl⟩
    exact ⟨sound.step op, hung.catfsUnlink sound⟩

/-- A volume just formatted has its root. -/
theorem Formatted.hung (formatted : Formatted w) : Hung w.catfs := by
  obtain ⟨w₀, drive, off, label, now, -, state, rfl⟩ := formatted.eq
  show Hung w₀.catfs.synced
  rw [state]
  have inodes : (formatState drive off label now).synced.inodes =
      Function.update (fun _ => Inode.zero) 0 (rootInode now) := rfl
  have member : ∀ {i}, ¬Member (formatState drive off label now).synced.inodes i := by
    rintro i ⟨notRoot, live⟩
    rw [inodes, update_of_ne notRoot] at live
    exact live rfl
  refine ⟨rfl, rfl, ?_, fun i isMember => absurd isMember member,
    fun i j first => absurd first member, fun i isMember => absurd isMember member, ?_⟩
  · have name : nameOf (rootInode now) = [slash] :=
      nameOf_kstrcpy rfl (by decide) (by decide)
    rw [inodes, update_self, name]
    exact List.cons_ne_nil _ _
  · have all : freeSlots (fun _ => Inode.zero) = 256 := by decide +kernel
    have filled : freeSlots (fun _ => Inode.zero) =
        freeSlots (formatState drive off label now).synced.inodes + 1 :=
      freeSlots_release (i := 0) (by decide : typeDir ≠ typeFree) rfl fun j other => by
        rw [inodes, update_of_ne other]
    have count : (formatState drive off label now).synced.sb.freeInodes.toNat = 255 := by
      show (UInt32.ofNat inodeMax - 1).toNat = 255
      decide
    omega

/-- `"/a/b"`. -/
def pathAB : CString := ⟨[0x2F, 0x61, 0x2F, 0x62], by decide⟩

/-- What the second creation leaves. -/
def belowFile : World := ((catfsCreate createdWorld pathAB typeFile 0).getD (createdWorld, 0)).1

end Tree

end AtmKoala.Catfs
