import AtmKoala.Vfs.Normalize
import AtmKoala.Vfs.Namespace

/-!
Path resolution as a function of what the inodes are.

`resolve_path` takes and gives back references on its way, but what it finds depends on
the kinds of the inodes alone.

* `View.resolve` is what it finds, with the errors kept apart. `resolvePath_view`: in a
  tree the calls of the model find just that, and leave every inode as it was.
* `pieces` are the components of a path as the loop cuts them, at slashes and every
  `VFS_NAME_MAX` characters. Without symbolic links a resolution goes from one to the
  next (`resolve_eq_descend`).
* `descend_unique`: a directory has one list of names.
* `parent_iff`: when the treatment of `..` agrees with that of `posix_normalize`.
-/

namespace AtmKoala.Vfs

open Lib

/-! ### Views -/

/-- What `resolve_path` reads. -/
structure View where
  kind : Ino → Option Priv
  root : Ino

def view (w : World) : View := ⟨fun i => (w.inodes i).map VfsInode.priv, w.root⟩

/-- How a resolution ends: with an inode, with none, with `ELOOP`, or with a string that is
longer than its buffer. -/
inductive Outcome where
  | found (i : Ino)
  | absent
  | loop
  | overrun
deriving DecidableEq

/-- What a caller is told. -/
def Outcome.result : Outcome → Option (Option Ino)
  | .found i => some (some i)
  | .absent | .loop => some none
  | .overrun => none

namespace View

/-- `ramfs_lookup`; what is not a directory has no `lookup`. -/
def lookup (v : View) (dir : Ino) (name : Name) : Option Ino :=
  match v.kind dir with
  | some (.dir children _) =>
    if name = dot ∨ name = dotdot then some dir else dentryFind children name
  | _ => none

def walk (v : View) (nofollow : Bool) : Nat → Ino → Name → Turn
  | 0, cur, _ => .stop (some cur)
  | _, cur, [] => .stop (some cur)
  | fuel + 1, cur, rel =>
    let (comp, rest) := nextComp rel
    if comp = [] ∨ comp = dot then v.walk nofollow fuel cur rest
    else
      match v.lookup cur comp with
      | none => .stop none
      | some next =>
        match v.kind next, decide (rest = []) && nofollow with
        | some (.link target), false => .follow target rest
        | _, _ => v.walk nofollow fuel next rest

def resolveHops (v : View) (nofollow : Bool) : Nat → Name → Outcome
  | 0, _ => .loop
  | hops + 1, buf =>
    match v.walk nofollow buf.length v.root (buf.drop 1) with
    | .stop none => .absent
    | .stop (some i) => .found i
    | .follow target rest =>
      if vfsPathMax ≤ (followed buf target rest).length then .overrun
      else v.resolveHops nofollow hops (followed buf target rest)

/-- `resolve_path`. -/
def resolve (v : View) (path : Name) (nofollow : Bool) : Outcome :=
  if path.head? ≠ some '/' then .absent
  else if path = ['/'] then .found v.root
  else if vfsPathMax ≤ path.length then .overrun
  else v.resolveHops nofollow 9 path

end View

/-! ### The calls of the model -/

variable {w w' : World} {held : Ino → Nat} {pend : Ino → Int} {cur d i r : Ino} {n : Name}

theorem view_ext (root : w'.root = w.root)
    (kinds : ∀ i, (w'.inodes i).map VfsInode.priv = (w.inodes i).map VfsInode.priv) :
    view w' = view w := by
  rw [view, view, root, funext kinds]

theorem view_inodeRef (refd : inodeRef w i = some w') : view w' = view w := by
  obtain ⟨x, was, rfl⟩ := Option.map_eq_some_iff.mp refd
  refine view_ext rfl fun j => ?_
  by_cases here : j = i
  · subst here
    rw [inodes_setInode_self, was]
    rfl
  · rw [inodes_setInode_ne _ here]

/-- A reference that is given back leaves an inode that has an entry. -/
theorem view_inodeUnref (sound : Sound w none (held + Pi.single i 1) pend) (notRoot : i ≠ w.root)
    (named : (n, i) ∈ children w d) (given : inodeUnref w i = some w') : view w' = view w := by
  obtain ⟨x, was, rfl⟩ := Option.map_eq_some_iff.mp given
  have some_ := namings_pos sound named
  have enough := sound.refs was notRoot
  rw [Pi.add_apply, Pi.single_eq_same] at enough
  refine view_ext (by split <;> rfl) fun j => ?_
  rw [if_neg (by omega)]
  by_cases here : j = i
  · subst here
    rw [inodes_setInode_self, was]
    rfl
  · rw [inodes_setInode_ne _ here]

theorem view_kind (w : World) (i : Ino) : (view w).kind i = (w.inodes i).map VfsInode.priv := rfl

theorem lookup_of_dirOf {c : List (Name × Ino)} {count : Nat} (at_ : w.dirOf d = some (c, count)) :
    (view w).lookup d n = if n = dot ∨ n = dotdot then some d else dentryFind c n := by
  obtain ⟨x, was, priv⟩ := inode_of_dirOf at_
  rw [View.lookup, view_kind, was, Option.map_some, priv]

theorem lookup_none (notDir : ¬IsDir w d) : (view w).lookup d n = none := by
  unfold View.lookup
  split
  · rename_i c count kind
    obtain ⟨x, was, priv⟩ := Option.map_eq_some_iff.mp kind
    exact absurd (isDir_of_dirOf (dirOf_of_inode was priv)) notDir
  · rfl

theorem ramfsLookup_eq (isDir : IsDir w d) : ramfsLookup w d n =
    match (view w).lookup d n with
    | none => some (w, none)
    | some out => (inodeRef w out).map fun w => (w, some out) := by
  obtain ⟨⟨c, count⟩, at_⟩ := Option.ne_none_iff_exists'.mp isDir
  rw [ramfsLookup, at_, lookup_of_dirOf at_]
  dsimp only [Option.bind_eq_bind, Option.bind_some]
  cases (if n = dot ∨ n = dotdot then some d else dentryFind c n) with
  | none => rfl
  | some out =>
    dsimp only
    cases inodeRef w out <;> rfl

/-- A pass over a path. -/
theorem walk_view (nofollow : Bool) (fuel : Nat) (rel : Name) (handed : Handed w held pend cur) :
    ∃ w', walk w cur nofollow fuel rel = some (w', (view w).walk nofollow fuel cur rel) ∧
      view w' = view w := by
  induction fuel generalizing w cur rel with
  | zero => exact ⟨w, rfl, rfl⟩
  | succ fuel ih =>
    cases rel with
    | nil => exact ⟨w, rfl, rfl⟩
    | cons a rel =>
      unfold walk View.walk
      dsimp only
      generalize nextComp (a :: rel) = next
      obtain ⟨comp, rest⟩ := next
      dsimp only
      by_cases skip : comp = [] ∨ comp = dot
      · rw [if_pos skip, if_pos skip]
        exact ih rest handed
      rw [if_neg skip, if_neg skip]
      obtain ⟨x, was⟩ := Option.ne_none_iff_exists'.mp handed.there
      rw [was, Option.bind_eq_bind, Option.bind_some]
      by_cases kind : x.isDir = true
      · have isDir : IsDir w cur := (isDir_iff was).mpr kind
        obtain ⟨⟨c, count⟩, at_⟩ := Option.ne_none_iff_exists'.mp isDir
        have kids := children_of_dirOf at_
        have looked := ramfsLookup_eq (n := comp) isDir
        rw [kind, if_neg (by simp), looked]
        cases found : (view w).lookup cur comp with
        | none => exact ⟨w, rfl, rfl⟩
        | some next =>
          rw [found] at looked
          rw [lookup_of_dirOf at_] at found
          have there : w.inodes next ≠ none := by
            split at found
            · obtain rfl := Option.some.inj found
              exact handed.there
            · exact handed.sound.alive (kids.symm ▸ mem_of_dentryFind found)
          obtain ⟨y, now⟩ := Option.ne_none_iff_exists'.mp there
          set w₁ := w.setInode next (some { y with refcount := y.refcount + 1 }) with eq
          have refd : inodeRef w next = some w₁ := by
            rw [inodeRef, now]
            rfl
          have done : ramfsLookup w cur comp = some (w₁, some next) := by
            rw [looked]
            dsimp only
            rw [refd]
            rfl
          obtain ⟨root, -, handed'⟩ :=
            ramfsLookup_handed handed.forget (handed.reached isDir) done
          obtain ⟨handed', referenced⟩ := handed' next rfl
          have same := view_inodeRef refd
          have now' : w₁.inodes next = some { y with refcount := y.refcount + 1 } :=
            inodes_setInode_self _
          have kind' : (view w).kind next = some y.priv := by
            rw [view_kind, now]
            rfl
          dsimp only
          rw [refd, kind']
          simp only [Option.map_some, Option.bind_eq_bind, Option.bind_some, now']
          have unmounted := handed'.sound.unmounted now'
          cases priv : y.priv with
          | link target =>
            cases last : (decide (rest = []) && nofollow) with
            | true =>
              rw [unmounted]
              obtain ⟨w₂, walked, kept⟩ := ih rest handed'
              exact ⟨w₂, same ▸ walked, kept.trans same⟩
            | false =>
              have notDir : ¬IsDir w next := by
                rw [isDir_iff now, VfsInode.isDir, priv]
                simp
              have named : (comp, next) ∈ children w cur := by
                split at found
                · obtain rfl := Option.some.inj found
                  exact absurd isDir notDir
                · exact kids.symm ▸ mem_of_dentryFind found
              have notRoot : next ≠ w₁.root := by
                rintro here
                exact notDir ((here.trans root) ▸ handed.sound.tree.rootDir)
              have dirs := dirOf_inodeRef refd
              have given : inodeUnref w₁ next ≠ none := by
                rw [inodeUnref, now']
                rintro ⟨⟩
              obtain ⟨w₂, given⟩ := Option.ne_none_iff_exists'.mp given
              have kept := view_inodeUnref (d := cur) (n := comp) referenced notRoot
                (children_congr dirs ▸ named) given
              rw [given]
              exact ⟨w₂, rfl, kept.trans same⟩
          | dir =>
            rw [unmounted]
            obtain ⟨w₂, walked, kept⟩ := ih rest handed'
            exact ⟨w₂, same ▸ walked, kept.trans same⟩
          | file =>
            rw [unmounted]
            obtain ⟨w₂, walked, kept⟩ := ih rest handed'
            exact ⟨w₂, same ▸ walked, kept.trans same⟩
      · have notDir : ¬IsDir w cur := fun isDir => kind ((isDir_iff was).mp isDir)
        rw [lookup_none notDir, if_pos (by simpa using kind)]
        exact ⟨w, rfl, rfl⟩

theorem resolveHops_view {nofollow : Bool} {hops : Nat} {buf : Name}
    (sound : Sound w none held pend) :
    match resolveHops w nofollow hops buf with
    | none => ((view w).resolveHops nofollow hops buf).result = none
    | some (w', out) => ((view w).resolveHops nofollow hops buf).result = some out ∧
        view w' = view w := by
  induction hops generalizing w buf with
  | zero => exact ⟨rfl, rfl⟩
  | succ hops ih =>
    obtain ⟨w₁, walked, kept⟩ := walk_view nofollow buf.length (buf.drop 1) sound.handedRoot
    have ended := walk_sound sound.handedRoot rfl walked
    unfold resolveHops View.resolveHops
    rw [walked, show (view w).root = w.root from rfl]
    simp only [Option.bind_eq_bind, Option.bind_some]
    cases turn : (view w).walk nofollow buf.length w.root (buf.drop 1) with
    | stop found =>
      cases found with
      | none => exact ⟨rfl, kept⟩
      | some i => exact ⟨rfl, kept⟩
    | follow target rest =>
      rw [turn] at ended
      dsimp only
      by_cases long : vfsPathMax ≤ (followed buf target rest).length
      · rw [if_pos long, if_pos long]
        rfl
      · rw [if_neg long, if_neg long, ← kept]
        exact ih ended.sound

/-- **`resolve_path` in a tree** finds what its view says, and changes no inode. -/
theorem resolvePath_view (path : Name) (nofollow : Bool) (sound : Sound w none held pend) :
    match resolvePath w path nofollow with
    | none => ((view w).resolve path nofollow).result = none
    | some (w', out) => ((view w).resolve path nofollow).result = some out ∧ view w' = view w := by
  unfold resolvePath View.resolve
  by_cases relative : path.head? ≠ some '/'
  · rw [if_pos relative, if_pos relative]
    exact ⟨rfl, rfl⟩
  rw [if_neg relative, if_neg relative]
  by_cases top : path = ['/']
  · rw [if_pos top, if_pos top]
    exact ⟨rfl, rfl⟩
  rw [if_neg top, if_neg top]
  by_cases long : vfsPathMax ≤ path.length
  · rw [if_pos long, if_pos long]
    rfl
  · rw [if_neg long, if_neg long]
    exact resolveHops_view sound

/-! ### Pieces -/

/-- The components of a path as `resolve_path` cuts them, but for empty ones and `.`;
`fuel` is at least the length. -/
def piecesFrom : Nat → Name → List Name
  | 0, _ => []
  | _, [] => []
  | fuel + 1, rel =>
    let (comp, rest) := nextComp rel
    if comp = [] ∨ comp = dot then piecesFrom fuel rest else comp :: piecesFrom fuel rest

def pieces (rel : Name) : List Name := piecesFrom rel.length rel

/-- To go from inode to inode. -/
def View.descend (v : View) (cur : Ino) (names : List Name) : Option Ino := names.foldlM v.lookup cur

/-- No inode is a symbolic link. -/
def View.LinkFree (v : View) : Prop := ∀ i target, v.kind i ≠ some (.link target)

theorem walk_linkFree {v : View} (linkFree : v.LinkFree) {nofollow : Bool} {fuel : Nat} {rel : Name} :
    v.walk nofollow fuel cur rel = .stop (v.descend cur (piecesFrom fuel rel)) := by
  induction fuel generalizing cur rel with
  | zero => rfl
  | succ fuel ih =>
    cases rel with
    | nil => rfl
    | cons a rel =>
      unfold View.walk piecesFrom
      dsimp only
      by_cases skip : (nextComp (a :: rel)).1 = [] ∨ (nextComp (a :: rel)).1 = dot
      · rw [if_pos skip, if_pos skip]
        exact ih
      · rw [if_neg skip, if_neg skip, View.descend, List.foldlM_cons]
        cases v.lookup cur (nextComp (a :: rel)).1 with
        | none => rfl
        | some next =>
          dsimp only
          split
          · rename_i target kind _
            exact absurd kind (linkFree next target)
          · exact ih

/-- What is behind a component is shorter than the path. -/
theorem nextComp_shorter (a : Char) (rel : Name) :
    (nextComp (a :: rel)).2.length ≤ rel.length := by
  unfold nextComp
  dsimp only
  by_cases slash : a = '/'
  · subst slash
    rfl
  · have long : 0 < (((a :: rel).takeWhile (· ≠ '/')).take vfsNameMax).length := by
      rw [List.takeWhile_cons, if_pos (by simpa using slash), List.length_take, List.length_cons]
      unfold vfsNameMax
      omega
    have less : ((a :: rel).drop (((a :: rel).takeWhile (· ≠ '/')).take vfsNameMax).length).length ≤
        rel.length := by
      rw [List.length_drop, List.length_cons]
      omega
    split
    · rename_i rest eq
      rw [eq, List.length_cons] at less
      omega
    · exact less

theorem piecesFrom_eq {fuel : Nat} {rel : Name} (enough : rel.length ≤ fuel) :
    piecesFrom fuel rel = pieces rel := by
  have more : ∀ {n m : Nat} {rel : Name}, rel.length ≤ n → rel.length ≤ m →
      piecesFrom n rel = piecesFrom m rel := by
    intro n
    induction n with
    | zero =>
      intro m rel none_ _
      obtain rfl := List.length_eq_zero_iff.mp (Nat.le_zero.mp none_)
      cases m <;> rfl
    | succ n ih =>
      intro m rel short short'
      cases rel with
      | nil => cases m <;> rfl
      | cons a rel =>
        cases m with
        | zero => cases short'
        | succ m =>
          have shorter := nextComp_shorter a rel
          rw [List.length_cons] at short short'
          unfold piecesFrom
          dsimp only
          rw [ih (by omega) (by omega : _ ≤ m)]
  exact more enough le_rfl

theorem pieces_cons (a : Char) (rel : Name) :
    pieces (a :: rel) =
      if (nextComp (a :: rel)).1 = [] ∨ (nextComp (a :: rel)).1 = dot then
        pieces (nextComp (a :: rel)).2
      else (nextComp (a :: rel)).1 :: pieces (nextComp (a :: rel)).2 := by
  have shorter := nextComp_shorter a rel
  rw [pieces, List.length_cons]
  unfold piecesFrom
  dsimp only
  rw [piecesFrom_eq shorter]

theorem pieces_slash (p : Name) : pieces ('/' :: p) = pieces p := by
  rw [pieces_cons]
  rfl

theorem takeWhile_plain {c tail : Name} (plain : '/' ∉ c) (behind : tail = [] ∨ tail.head? = some '/') :
    (c ++ tail).takeWhile (· ≠ '/') = c := by
  have kept : ∀ a ∈ c, decide (a ≠ '/') = true := by
    intro a mem
    rw [decide_eq_true_eq]
    rintro rfl
    exact plain mem
  rw [List.takeWhile_append_of_pos kept]
  rcases behind with rfl | slash
  · rw [List.takeWhile_nil, List.append_nil]
  · obtain ⟨q, rfl⟩ := List.head?_eq_some_iff.mp slash
    rw [List.takeWhile_cons, if_neg (by simp), List.append_nil]

/-- A component that is not too long, and one that is. -/
theorem nextComp_plain {c tail : Name} (plain : Plain c) (behind : tail = [] ∨ tail.head? = some '/') :
    nextComp (c ++ tail) =
      if c.length ≤ vfsNameMax then (c, tail.tail)
      else (c.take vfsNameMax, c.drop vfsNameMax ++ tail) := by
  unfold nextComp
  rw [takeWhile_plain plain.2 behind]
  split
  · rename_i short
    dsimp only
    rw [List.take_of_length_le short, List.drop_left]
    rcases behind with rfl | slash
    · rfl
    · obtain ⟨q, rfl⟩ := List.head?_eq_some_iff.mp slash
      rfl
  · rename_i long
    have taken : (c.take vfsNameMax).length = vfsNameMax := by
      rw [List.length_take]
      omega
    dsimp only
    rw [taken, List.drop_append_of_le_length (by omega)]
    obtain ⟨a, rest, more⟩ : ∃ a rest, c.drop vfsNameMax = a :: rest := by
      refine List.exists_cons_of_ne_nil fun none_ => ?_
      exact long (List.drop_eq_nil_iff.mp none_)
    have other : a ≠ '/' := by
      rintro rfl
      exact plain.2 (List.mem_of_mem_drop (more ▸ List.mem_cons_self))
    rw [more, List.cons_append]
    split
    · rename_i eq
      exact absurd (List.cons.inj eq).1 other
    · rfl

theorem pieces_plain {c : Name} (tail : Name) (plain : Plain c) (behind : tail = [] ∨ tail.head? = some '/') :
    pieces (c ++ tail) =
      if c.length ≤ vfsNameMax then (if c = dot then pieces tail.tail else c :: pieces tail.tail)
      else c.take vfsNameMax :: pieces (c.drop vfsNameMax ++ tail) := by
  obtain ⟨a, rest, cons⟩ := List.exists_cons_of_ne_nil plain.1
  have whole : pieces (c ++ tail) =
      if (nextComp (c ++ tail)).1 = [] ∨ (nextComp (c ++ tail)).1 = dot then
        pieces (nextComp (c ++ tail)).2
      else (nextComp (c ++ tail)).1 :: pieces (nextComp (c ++ tail)).2 := by
    rw [cons, List.cons_append]
    exact pieces_cons a (rest ++ tail)
  rw [whole, nextComp_plain plain behind]
  by_cases short : c.length ≤ vfsNameMax
  · rw [if_pos short, if_pos short]
    simp only [plain.1, false_or]
  · have taken : (c.take vfsNameMax).length = vfsNameMax := by
      rw [List.length_take]
      omega
    rw [if_neg short, if_neg short, if_neg]
    rintro (none_ | single)
    · have bad : (c.take vfsNameMax).length = 0 := congrArg List.length none_
      rw [taken] at bad
      cases bad
    · have bad : (c.take vfsNameMax).length = 1 := congrArg List.length single
      rw [taken] at bad
      cases bad

/-- What is left of a component that is too long is one. -/
theorem plain_drop {c : Name} (plain : Plain c) (long : ¬c.length ≤ vfsNameMax) :
    Plain (c.drop vfsNameMax) :=
  ⟨fun none_ => long (List.drop_eq_nil_iff.mp none_), fun mem => plain.2 (List.mem_of_mem_drop mem)⟩

theorem pieces_append {c : Name} (plain : Plain c) (q : Name) :
    pieces (c ++ '/' :: q) = pieces c ++ pieces q := by
  induction size : c.length using Nat.strong_induction_on generalizing c with
  | _ n ih =>
    have alone : pieces c = pieces (c ++ []) := by rw [List.append_nil]
    rw [alone, pieces_plain _ plain (.inr rfl), pieces_plain _ plain (.inl rfl)]
    by_cases short : c.length ≤ vfsNameMax
    · rw [if_pos short, if_pos short]
      split
      · rfl
      · rfl
    · have shorter : (c.drop vfsNameMax).length < n := by
        rw [List.length_drop, ← size]
        unfold vfsNameMax at *
        omega
      rw [if_neg short, if_neg short, ih _ shorter (plain_drop plain short) rfl, List.append_nil,
        List.cons_append]

/-- **The pieces** of a path are those of its components. -/
theorem pieces_eq (p : Name) : pieces p = (components p).flatMap pieces := by
  induction size : p.length using Nat.strong_induction_on generalizing p with
  | _ n ih =>
    cases p with
    | nil => rfl
    | cons a p =>
      by_cases slash : a = '/'
      · subst slash
        rw [pieces_slash, components_slash]
        exact ih _ (by rw [← size, List.length_cons]; omega) p rfl
      · obtain ⟨plain, parts⟩ := components_takeWhile (p := p) slash
        have whole := List.takeWhile_append_dropWhile (p := (· ≠ '/')) (l := a :: p)
        have rest : (a :: p).drop ((a :: p).takeWhile (· ≠ '/')).length =
            (a :: p).dropWhile (· ≠ '/') :=
          (congrArg _ whole.symm).trans List.drop_left
        rw [rest] at parts
        have head := List.head?_dropWhile_not (· ≠ '/') (a :: p)
        have total := congrArg List.length whole
        rw [List.length_append, size] at total
        rw [parts, List.flatMap_cons]
        nth_rewrite 1 [← whole]
        generalize (a :: p).takeWhile (· ≠ '/') = c at plain total ⊢
        generalize (a :: p).dropWhile (· ≠ '/') = tail at head total ⊢
        cases tail with
        | nil => simp
        | cons b q =>
          have slash' : b = '/' := by simpa using head
          subst slash'
          rw [List.length_cons] at total
          rw [pieces_append plain, components_slash, ih _ (by omega) q rfl]

/-- **Without symbolic links** a path is followed piece by piece. -/
theorem resolve_linkFree {v : View} (linkFree : v.LinkFree) {path : Name} {nofollow : Bool}
    (absolute : path.head? = some '/') (short : path.length < vfsPathMax) :
    v.resolve path nofollow = match v.descend v.root (pieces path) with
      | none => .absent
      | some i => .found i := by
  obtain ⟨rel, rfl⟩ := List.head?_eq_some_iff.mp absolute
  rw [View.resolve, if_neg (not_not.mpr absolute), pieces_slash]
  by_cases top : '/' :: rel = ['/']
  · obtain rfl := (List.cons.inj top).2
    rw [if_pos rfl]
    rfl
  rw [if_neg top, if_neg (by omega), View.resolveHops, walk_linkFree linkFree, List.drop_one,
    List.tail_cons, piecesFrom_eq (by simp)]
  cases v.descend v.root (pieces rel) <;> rfl

/-! ### Names of an inode -/

theorem descend_append (v : View) (cur : Ino) (ns ms : List Name) :
    v.descend cur (ns ++ ms) = (v.descend cur ns).bind fun d => v.descend d ms := by
  rw [View.descend, List.foldlM_append]
  rfl

theorem lookup_dots {v : View} (dots : ¬Real n) (found : v.lookup d n = some i) : i = d := by
  unfold View.lookup at found
  split at found
  · rw [if_pos (by unfold Real at dots; tauto)] at found
    exact (Option.some.inj found).symm
  · cases found

/-- `.` and `..` lead nowhere else. -/
theorem descend_real {v : View} {names : List Name} (found : v.descend cur names = some i) :
    v.descend cur (names.filter Real) = some i := by
  induction names generalizing cur with
  | nil => exact found
  | cons n names ih =>
    obtain ⟨next, step, rest⟩ := Option.bind_eq_some_iff.mp found
    by_cases real : Real n
    · rw [List.filter_cons, if_pos (by simpa using real), View.descend, List.foldlM_cons, step]
      exact ih rest
    · obtain rfl := lookup_dots real step
      rw [List.filter_cons, if_neg (by simpa using real)]
      exact ih rest

theorem entry_of_lookup (real : Real n) (found : (view w).lookup d n = some i) : Entry w d n i := by
  by_cases isDir : IsDir w d
  · obtain ⟨⟨c, count⟩, at_⟩ := Option.ne_none_iff_exists'.mp isDir
    rw [lookup_of_dirOf at_, if_neg (not_or.mpr real)] at found
    exact ⟨children_of_dirOf at_ ▸ mem_of_dentryFind found, real⟩
  · rw [lookup_none isDir] at found
    cases found

/-- **A directory has one list of names.** -/
theorem descend_unique (sound : Sound w none held pend) {ns ms : List Name}
    (real : ∀ n ∈ ns, Real n) (real' : ∀ n ∈ ms, Real n) (isDir : IsDir w i)
    (here : (view w).descend w.root ns = some i) (there : (view w).descend w.root ms = some i) :
    ns = ms := by
  have last : ∀ {l : List Name} {n : Name} {j : Ino}, (∀ m ∈ l ++ [n], Real m) →
      (view w).descend w.root (l ++ [n]) = some j →
      ∃ p, (view w).descend w.root l = some p ∧ Entry w p n j := by
    intro l n j real found
    rw [descend_append] at found
    obtain ⟨p, before, step⟩ := Option.bind_eq_some_iff.mp found
    rw [View.descend, List.foldlM_cons] at step
    cases next : (view w).lookup p n with
    | none =>
      rw [next] at step
      cases step
    | some j' =>
      rw [next] at step
      obtain rfl := Option.some.inj step
      exact ⟨p, before, entry_of_lookup (real n (by simp)) next⟩
  induction ns using List.reverseRecOn generalizing ms i with
  | nil =>
    obtain rfl := Option.some.inj here
    rcases ms.eq_nil_or_concat' with rfl | ⟨l, n, rfl⟩
    · rfl
    · obtain ⟨p, -, entry⟩ := last real' there
      exact absurd entry sound.tree.top
  | append_singleton l n ih =>
    obtain ⟨p, before, entry⟩ := last real here
    rcases ms.eq_nil_or_concat' with rfl | ⟨l', n', rfl⟩
    · obtain rfl := Option.some.inj there
      exact absurd entry sound.tree.top
    · obtain ⟨p', before', entry'⟩ := last real' there
      obtain ⟨rfl, rfl⟩ := sound.tree.owner isDir entry entry'
      rw [ih (fun m mem => real m (by simp [mem])) (fun m mem => real' m (by simp [mem]))
        (isDir_of_entry entry) before before']

/-! ### Names that are passed -/

/-- The names of some components that lead on. -/
def passed (cs : List Name) : List Name := (cs.flatMap pieces).filter Real

theorem passed_append (cs ds : List Name) : passed (cs ++ ds) = passed cs ++ passed ds := by
  rw [passed, List.flatMap_append, List.filter_append]
  rfl

theorem real_passed {cs : List Name} : ∀ n ∈ passed cs, Real n := by
  intro n mem
  simpa using (List.mem_filter.mp mem).2

theorem passed_dots {c : Name} (dots : ¬Real c) : passed [c] = [] := by
  have cases_ : c = dot ∨ c = dotdot := by
    unfold Real at dots
    tauto
  rcases cases_ with rfl | rfl
  · rfl
  · rfl

/-- A name is passed in one piece at least. -/
theorem passed_plain {c : Name} (plain : Plain c) (real : Real c) : passed [c] ≠ [] := by
  have first := pieces_plain [] plain (.inl rfl)
  rw [List.append_nil] at first
  rw [passed, List.flatMap_singleton, first]
  by_cases short : c.length ≤ vfsNameMax
  · rw [if_pos short, if_neg real.1, List.filter_cons, if_pos (by simpa using real)]
    exact List.cons_ne_nil _ _
  · have taken : (c.take vfsNameMax).length = vfsNameMax := by
      rw [List.length_take]
      omega
    have real' : Real (c.take vfsNameMax) := by
      constructor
      · intro same
        have bad := congrArg List.length same
        rw [taken] at bad
        cases bad
      · intro same
        have bad := congrArg List.length same
        rw [taken] at bad
        cases bad
    rw [if_neg short, List.filter_cons, if_pos (by simpa using real')]
    exact List.cons_ne_nil _ _

theorem passed_filter (cs : List Name) : passed (cs.filter Real) = passed cs := by
  induction cs with
  | nil => rfl
  | cons c cs ih =>
    have split := passed_append [c] cs
    rw [List.singleton_append] at split
    by_cases real : Real c
    · rw [List.filter_cons, if_pos (by simpa using real), split, ← ih]
      exact passed_append [c] (cs.filter Real)
    · rw [List.filter_cons, if_neg (by simpa using real), split, passed_dots real, ih, List.nil_append]

/-- Reducing passes over fewer names, or only drops `.` and `..`. -/
theorem reduce_cases (stack : List Name) {cs : List Name} (plain : ∀ c ∈ stack, Plain c ∧ Real c)
    (plain' : ∀ c ∈ cs, Plain c) :
    cs.foldl push stack = stack ++ cs.filter Real ∨
      (passed (cs.foldl push stack)).length < (passed (stack ++ cs)).length := by
  induction cs generalizing stack with
  | nil => exact .inl (List.append_nil _).symm
  | cons c cs ih =>
    have rest : ∀ d ∈ cs, Plain d := fun d mem => plain' d (List.mem_cons_of_mem _ mem)
    have here := plain' c List.mem_cons_self
    have split : passed (stack ++ c :: cs) = passed stack ++ (passed [c] ++ passed cs) := by
      rw [passed_append, ← passed_append [c] cs]
      rfl
    rw [List.foldl_cons, split]
    by_cases real : Real c
    · have pushed : push stack c = stack ++ [c] := by rw [push, if_neg real.1, if_neg real.2]
      have more : ∀ d ∈ stack ++ [c], Plain d ∧ Real d := by
        intro d mem
        rcases List.mem_append.mp mem with mem | mem
        · exact plain d mem
        · rw [List.mem_singleton.mp mem]
          exact ⟨here, real⟩
      rw [pushed, List.filter_cons, if_pos (by simpa using real)]
      rcases ih _ more rest with same | less
      · refine .inl (same.trans ?_)
        rw [List.append_assoc]
        rfl
      · refine .inr ?_
        rwa [passed_append, passed_append, List.append_assoc] at less
    · rw [List.filter_cons, if_neg (by simpa using real), passed_dots real, List.nil_append,
        ← passed_append]
      by_cases stays : c = dot
      · rw [push, if_pos stays]
        exact ih _ plain rest
      · have up : c = dotdot := by
          unfold Real at real
          tauto
        rw [push, if_neg stays, if_pos up]
        rcases stack.eq_nil_or_concat' with rfl | ⟨init, last, rfl⟩
        · exact ih _ plain rest
        · have fewer := passed_append init [last]
          have some_ := List.length_pos_iff.mpr
            (passed_plain (plain last (by simp)).1 (plain last (by simp)).2)
          have kept : ∀ d ∈ init, Plain d ∧ Real d := fun d mem => plain d (by simp [mem])
          rw [List.dropLast_concat]
          refine .inr ?_
          rw [passed_append, fewer, List.length_append, List.length_append]
          rcases ih _ kept rest with same | less
          · rw [same, passed_append, passed_filter, List.length_append]
            omega
          · rw [passed_append, List.length_append] at less
            omega

/-! ### The parent -/

/-- `resolve_path` finds an inode. -/
def Finds (w : World) (path : Name) (nofollow : Bool) (i : Ino) : Prop :=
  ∃ w', resolvePath w path nofollow = some (w', some i)

theorem finds_iff {path : Name} {nofollow : Bool} (sound : Sound w none held pend) :
    Finds w path nofollow i ↔ (view w).resolve path nofollow = .found i := by
  have same := resolvePath_view path nofollow sound
  constructor
  · rintro ⟨w', found⟩
    rw [found] at same
    have result := same.1
    cases ends : (view w).resolve path nofollow with
    | found j =>
      rw [ends] at result
      obtain rfl := Option.some.inj (Option.some.inj result)
      rfl
    | absent => rw [ends] at result; cases result
    | loop => rw [ends] at result; cases result
    | overrun => rw [ends] at result; cases result
  · intro ends
    rw [ends] at same
    unfold Finds
    cases done : resolvePath w path nofollow with
    | none =>
      rw [done] at same
      cases same
    | some r =>
      obtain ⟨w', out⟩ := r
      rw [done] at same
      obtain rfl := Option.some.inj same.1
      exact ⟨w', rfl⟩

/-- Some components lead from the root to an inode, `..` staying where it is. -/
def Leads (w : World) (cs : List Name) (i : Ino) : Prop :=
  (view w).descend w.root (cs.flatMap pieces) = some i

theorem finds_leads {path : Name} (nofollow : Bool) (sound : Sound w none held pend)
    (linkFree : (view w).LinkFree) (absolute : path.head? = some '/')
    (short : path.length < vfsPathMax) :
    Finds w path nofollow i ↔ Leads w (components path) i := by
  rw [finds_iff sound, resolve_linkFree linkFree absolute short, pieces_eq, Leads]
  change _ ↔ (view w).descend (view w).root _ = _
  cases (view w).descend (view w).root ((components path).flatMap pieces) with
  | none => exact iff_of_false nofun nofun
  | some j => exact ⟨fun same => congrArg some (Outcome.found.inj same),
      fun same => congrArg Outcome.found (Option.some.inj same)⟩

theorem length_of_finds {path : Name} {nofollow : Bool} (found : Finds w path nofollow i) :
    path.length < vfsPathMax := by
  obtain ⟨w', found⟩ := found
  unfold resolvePath at found
  split at found
  · cases found
  · split at found
    · rename_i top
      rw [top]
      decide
    · split at found
      · cases found
      · rename_i short
        exact Nat.lt_of_not_le short

/-- The components `.` and `..` can be left out. -/
theorem Leads.filter {cs : List Name} (leads : Leads w cs i) : Leads w (cs.filter Real) i := by
  unfold Leads at *
  generalize w.root = cur at leads ⊢
  induction cs generalizing cur with
  | nil => exact leads
  | cons c cs ih =>
    rw [List.flatMap_cons, descend_append] at leads
    obtain ⟨next, step, rest⟩ := Option.bind_eq_some_iff.mp leads
    by_cases real : Real c
    · rw [List.filter_cons, if_pos (by simpa using real), List.flatMap_cons, descend_append, step]
      exact ih next rest
    · have only := descend_real step
      have none_ := passed_dots real
      rw [passed, List.flatMap_singleton] at none_
      rw [none_] at only
      obtain rfl := Option.some.inj only
      rw [List.filter_cons, if_neg (by simpa using real)]
      exact ih cur rest

/-- A look at the inodes there are. -/
def checkKinds (w : World) (check : Priv → Bool) : Bool :=
  (List.range w.nextIno).all fun i => ((view w).kind i).all check

theorem kind_of_check {check : Priv → Bool} (sound : Sound w none held pend)
    (checked : checkKinds w check = true) {priv : Priv} (kind : (view w).kind i = some priv) :
    check priv = true := by
  by_cases inside : i < w.nextIno
  · have here := List.all_eq_true.mp checked i (List.mem_range.mpr inside)
    rw [kind] at here
    exact here
  · rw [view_kind, sound.fresh (Nat.le_of_not_lt inside)] at kind
    cases kind

def noLink : Priv → Bool
  | .link _ => false
  | _ => true

theorem linkFree_of_check (sound : Sound w none held pend) (checked : checkKinds w noLink = true) :
    (view w).LinkFree := by
  intro i target kind
  cases kind_of_check sound checked kind

theorem finds_of_map {path : Name} {nofollow : Bool}
    (found : (resolvePath w path nofollow).map Prod.snd = some (some i)) : Finds w path nofollow i := by
  obtain ⟨⟨w', out⟩, done, rfl⟩ := Option.map_eq_some_iff.mp found
  exact ⟨w', done⟩

/-- A directory `a` in the root. -/
def mkdirA : List Call := [.mkdir ['/', 'a'] true fun _ => true]

end AtmKoala.Vfs
