import AtmKoala.Vfs.Mounts

/-!
The mount table (`vfs_mount`, `vfs_unmount`) and where a resolution starts.

`mount_for_path` finds a root, and a second loop of `resolve_path` finds how much of the
path stands for it. Only the first compares the mounts with the path.

* `MountCall.run` is the table after any calls; its paths are absolute and distinct
  (`run_table`).
* `segments_under`: a mount holds a path where its components are the first of the path's.
* `takenFrom` are the components that the loop over a path takes; `walk_taken` is what it
  does with them.
* `mount_lookup`: a resolution starts at the closest mount and goes on behind it exactly
  where no mount of the same root has a path that reaches further.
-/

namespace AtmKoala.Vfs

/-! ### The calls -/

def mountMax : Nat := 32

/-- `vfs_mount`; none where the path does not fit the entry. -/
def vfsMount (mounts : List (Name × Ino)) (path : Option Name) (root : Option Ino) :
    Option (List (Name × Ino) × Int) :=
  match path, root with
  | some path, some root =>
    if path.head? ≠ some '/' then some (mounts, -einval)
    else if mounts.any (·.1 = path) then some (mounts, -eexist)
    else if mountMax ≤ mounts.length then some (mounts, -enospc)
    else if vfsPathMax ≤ path.length then none
    else some (mounts ++ [(path, root)], 0)
  | _, _ => some (mounts, -einval)

/-- `vfs_unmount`: the entries behind move up. -/
def vfsUnmount (mounts : List (Name × Ino)) (path : Option Name) : List (Name × Ino) × Int :=
  match path with
  | none => (mounts, -einval)
  | some path =>
    if mounts.any (·.1 = path) then (mounts.eraseP (·.1 = path), 0) else (mounts, -enoent)

inductive MountCall where
  | mount (path : Option Name) (root : Option Ino)
  | unmount (path : Option Name)

def MountCall.step (mounts : List (Name × Ino)) : MountCall → Option (List (Name × Ino))
  | .mount path root => (vfsMount mounts path root).map Prod.fst
  | .unmount path => some (vfsUnmount mounts path).1

/-- The table after some calls. -/
def MountCall.run (calls : List MountCall) (mounts : List (Name × Ino)) :
    Option (List (Name × Ino)) :=
  calls.foldlM MountCall.step mounts

/-- **The table**: absolute paths, each of them once. -/
structure MountTable (mounts : List (Name × Ino)) : Prop where
  absolute : ∀ m ∈ mounts, m.1.head? = some '/'
  distinct : (mounts.map Prod.fst).Nodup

theorem step_table {mounts after : List (Name × Ino)} {call : MountCall} (table : MountTable mounts)
    (done : call.step mounts = some after) : MountTable after := by
  cases call with
  | unmount path =>
    obtain rfl := Option.some.inj done
    unfold vfsUnmount
    cases path with
    | none => exact table
    | some path =>
      dsimp only
      split
      · have sub := List.eraseP_sublist (p := fun m : Name × Ino => m.1 = path) (l := mounts)
        exact ⟨fun m mem => table.absolute m (sub.subset mem),
          table.distinct.sublist (sub.map Prod.fst)⟩
      · exact table
  | mount path root =>
    obtain ⟨⟨left, rc⟩, asked, rfl⟩ := Option.map_eq_some_iff.mp done
    unfold vfsMount at asked
    split at asked
    · rename_i path root
      split at asked
      · cases asked
        exact table
      rename_i absolute
      split at asked
      · cases asked
        exact table
      rename_i fresh
      split at asked
      · cases asked
        exact table
      split at asked
      · cases asked
      cases asked
      refine ⟨fun m mem => ?_, ?_⟩
      · rcases List.mem_append.mp mem with mem | mem
        · exact table.absolute m mem
        · rw [List.mem_singleton.mp mem]
          exact not_not.mp absolute
      · rw [List.map_append, List.map_singleton, List.nodup_append]
        refine ⟨table.distinct, List.nodup_singleton _, ?_⟩
        rintro _ mem _ last rfl
        obtain ⟨m, mem, same⟩ := List.mem_map.mp mem
        refine fresh (List.any_eq_true.mpr ⟨m, mem, decide_eq_true ?_⟩)
        rw [same, List.mem_singleton.mp last]
    · cases asked
      exact table

/-- **Every table that is reached** is one. -/
theorem run_table {calls : List MountCall} {mounts after : List (Name × Ino)}
    (table : MountTable mounts) (done : MountCall.run calls mounts = some after) :
    MountTable after := by
  induction calls generalizing mounts with
  | nil =>
    obtain rfl := Option.some.inj done
    exact table
  | cons call calls ih =>
    obtain ⟨between, first, rest⟩ := Option.bind_eq_some_iff.mp done
    exact ih (step_table table first) rest

theorem table_empty : MountTable [] := ⟨nofun, List.nodup_nil⟩

/-! ### Prefixes by components -/

/-- What stands between the slashes of a path, the empty strings among it. -/
def segments (p : Name) : List Name := p.splitOnP (· = '/')

theorem segments_cons (p q : Name) : segments (p ++ '/' :: q) = segments p ++ segments q :=
  List.splitOnP_append_cons _ _ (by simp)

theorem segments_ne_nil (p : Name) : segments p ≠ [] := List.splitOnP_ne_nil _ _

theorem intercalate_segments (p : Name) : ['/'].intercalate (segments p) = p :=
  List.intercalate_splitOn '/'

theorem intercalate_append {as bs : List Name} (front : as ≠ []) (back : bs ≠ []) :
    ['/'].intercalate (as ++ bs) = ['/'].intercalate as ++ '/' :: ['/'].intercalate bs := by
  induction as with
  | nil => exact absurd rfl front
  | cons a as ih =>
    by_cases none_ : as = []
    · subst none_
      rw [List.singleton_append, List.intercalate_cons_of_ne_nil back, List.intercalate_singleton,
        List.append_assoc]
      rfl
    · have more : as ++ bs ≠ [] := fun none' => none_ (List.append_eq_nil_iff.mp none').1
      rw [List.cons_append, List.intercalate_cons_of_ne_nil more, ih none_,
        List.intercalate_cons_of_ne_nil none_]
      simp only [List.append_assoc]

/-- **A mount holds a path** where its components are the first of the path's. -/
theorem segments_under {mp path : Name} :
    segments mp <+: segments path ↔ mountMatches mp path = true := by
  rw [mountMatches, Bool.and_eq_true, List.isPrefixOf_iff_prefix]
  constructor
  · rintro ⟨behind, whole⟩
    have text := intercalate_segments path
    rw [← whole] at text
    by_cases none_ : behind = []
    · rw [none_, List.append_nil, intercalate_segments] at text
      subst text
      rw [List.drop_length]
      exact ⟨List.prefix_rfl, rfl⟩
    · rw [intercalate_append (segments_ne_nil mp) none_, intercalate_segments] at text
      subst text
      rw [List.drop_left]
      exact ⟨List.prefix_append _ _, rfl⟩
  · rintro ⟨⟨rest, rfl⟩, slash⟩
    rw [List.drop_left] at slash
    cases rest with
    | nil => rw [List.append_nil]
    | cons a q =>
      obtain rfl : a = '/' := by simpa using slash
      rw [segments_cons]
      exact List.prefix_append _ _

theorem prefix_of_segments {mp path : Name} (holds : segments mp <+: segments path) : mp <+: path := by
  have text := segments_under.mp holds
  rw [mountMatches, Bool.and_eq_true, List.isPrefixOf_iff_prefix] at text
  exact text.1

/-- Of two mounts that hold a path the longer one has more components. -/
theorem segments_length {m n path : Name} (first : segments m <+: segments path)
    (second : segments n <+: segments path) :
    (segments n).length ≤ (segments m).length ↔ n.length ≤ m.length := by
  constructor
  · intro less
    exact (prefix_of_segments (List.prefix_of_prefix_length_le second first less)).length_le
  · intro less
    by_contra more
    have inside := List.prefix_of_prefix_length_le first second (Nat.le_of_not_le more)
    have same := (prefix_of_segments inside).eq_of_length_le less
    exact more (Nat.le_of_eq (congrArg (fun p => (segments p).length) same.symm))

/-! ### The two loops -/

/-- The mount `m` is the closest one that holds `path`. -/
structure Closest (mounts : List (Name × Ino)) (path : Name) (m : Name × Ino) : Prop where
  mem : m ∈ mounts
  holds : segments m.1 <+: segments path
  longest : ∀ n ∈ mounts, segments n.1 <+: segments path →
    (segments n.1).length ≤ (segments m.1).length

theorem Closest.length_le {mounts : List (Name × Ino)} {path : Name} {m n : Name × Ino}
    (closest : Closest mounts path m) (mem : n ∈ mounts) (holds : segments n.1 <+: segments path) :
    n.1.length ≤ m.1.length :=
  (segments_length closest.holds holds).mp (closest.longest n mem holds)

/-- There is one closest mount at most. -/
theorem Closest.unique {mounts : List (Name × Ino)} {path : Name} {m n : Name × Ino}
    (table : MountTable mounts) (first : Closest mounts path m) (second : Closest mounts path n) :
    m = n := by
  have same : m.1 = n.1 := by
    have sub := List.prefix_of_prefix_length_le (prefix_of_segments first.holds)
      (prefix_of_segments second.holds) (second.length_le first.mem first.holds)
    exact sub.eq_of_length_le (first.length_le second.mem second.holds)
  exact List.inj_on_of_nodup_map table.distinct first.mem second.mem same

/-- What the loop of `mount_for_path` has found: nothing better than what it had, or the
longest of the mounts that hold the path. -/
theorem mountForPath_fold (path : Name) (mounts : List (Name × Ino)) (best : Nat × Option Ino) :
    (mounts.foldl (fun best m =>
        if mountMatches m.1 path && best.1 < m.1.length then (m.1.length, some m.2) else best)
      best = best ∧ ∀ m ∈ mounts, mountMatches m.1 path = true → m.1.length ≤ best.1) ∨
    ∃ m ∈ mounts, mountMatches m.1 path = true ∧ best.1 < m.1.length ∧
      (∀ n ∈ mounts, mountMatches n.1 path = true → n.1.length ≤ m.1.length) ∧
      mounts.foldl (fun best m =>
        if mountMatches m.1 path && best.1 < m.1.length then (m.1.length, some m.2) else best)
      best = (m.1.length, some m.2) := by
  induction mounts generalizing best with
  | nil => exact .inl ⟨rfl, nofun⟩
  | cons m mounts ih =>
    rw [List.foldl_cons]
    by_cases better : mountMatches m.1 path = true ∧ best.1 < m.1.length
    · have taken : (mountMatches m.1 path && decide (best.1 < m.1.length)) = true := by
        rw [Bool.and_eq_true, decide_eq_true_eq]
        exact better
      rw [if_pos taken]
      refine .inr ?_
      rcases ih (m.1.length, some m.2) with ⟨stays, less⟩ | ⟨n, mem, holds, more, longest, found⟩
      · refine ⟨m, List.mem_cons_self, better.1, better.2, fun n mem holds => ?_, stays⟩
        rcases List.mem_cons.mp mem with rfl | mem
        · exact Nat.le_refl _
        · exact less n mem holds
      · refine ⟨n, List.mem_cons_of_mem _ mem, holds, better.2.trans more, fun l mem held => ?_, found⟩
        rcases List.mem_cons.mp mem with rfl | mem
        · exact Nat.le_of_lt more
        · exact longest l mem held
    · have passed : ¬(mountMatches m.1 path && decide (best.1 < m.1.length)) = true := by
        rw [Bool.and_eq_true, decide_eq_true_eq]
        exact better
      rw [if_neg passed]
      have here : ∀ {bound}, best.1 ≤ bound → mountMatches m.1 path = true → m.1.length ≤ bound :=
        fun above holds => Nat.le_trans (Nat.le_of_not_lt fun more => better ⟨holds, more⟩) above
      rcases ih best with ⟨stays, less⟩ | ⟨n, mem, holds, more, longest, found⟩
      · refine .inl ⟨stays, fun n mem held => ?_⟩
        rcases List.mem_cons.mp mem with rfl | mem
        · exact here (Nat.le_refl _) held
        · exact less n mem held
      · refine .inr ⟨n, List.mem_cons_of_mem _ mem, holds, more, fun l mem held => ?_, found⟩
        rcases List.mem_cons.mp mem with rfl | mem
        · exact here (Nat.le_of_lt more) held
        · exact longest l mem held

/-- **`mount_for_path`** finds the root of the closest mount. -/
theorem mountForPath_closest {mounts : List (Name × Ino)} (table : MountTable mounts) (path : Name) :
    (mountForPath mounts path = none ∧ ∀ m ∈ mounts, ¬segments m.1 <+: segments path) ∨
      ∃ m, Closest mounts path m ∧ mountForPath mounts path = some m.2 := by
  rcases mountForPath_fold path mounts (0, none) with
    ⟨stays, less⟩ | ⟨m, mem, holds, -, longest, found⟩
  · refine .inl ⟨congrArg Prod.snd stays, fun m mem holds => ?_⟩
    have empty := List.eq_nil_of_length_eq_zero
      (Nat.le_zero.mp (less m mem (segments_under.mp holds)))
    have absolute := table.absolute m mem
    rw [empty] at absolute
    cases absolute
  · have held := segments_under.mpr holds
    refine .inr ⟨m, ⟨mem, held, fun n mem other => ?_⟩, congrArg Prod.snd found⟩
    exact (segments_length held other).mpr (longest n mem (segments_under.mp other))

/-- The second loop finds the longest path of a root. -/
theorem prefixLength_fold (root : Ino) (mounts : List (Name × Ino)) (best : Nat) :
    best ≤ mounts.foldl (fun best m =>
      if m.2 = root && best < m.1.length then m.1.length else best) best ∧
    (∀ m ∈ mounts, m.2 = root → m.1.length ≤ mounts.foldl (fun best m =>
      if m.2 = root && best < m.1.length then m.1.length else best) best) ∧
    (mounts.foldl (fun best m =>
        if m.2 = root && best < m.1.length then m.1.length else best) best = best ∨
      ∃ m ∈ mounts, m.2 = root ∧ m.1.length = mounts.foldl (fun best m =>
        if m.2 = root && best < m.1.length then m.1.length else best) best) := by
  induction mounts generalizing best with
  | nil => exact ⟨Nat.le_refl _, nofun, .inl rfl⟩
  | cons m mounts ih =>
    simp only [List.foldl_cons]
    by_cases better : m.2 = root ∧ best < m.1.length
    · rw [if_pos (by simpa using better)]
      obtain ⟨grows, all, stays | ⟨n, mem, owns, long⟩⟩ := ih m.1.length
      · refine ⟨(Nat.le_of_lt better.2).trans grows, fun n mem owns => ?_,
          .inr ⟨m, List.mem_cons_self, better.1, stays.symm⟩⟩
        rcases List.mem_cons.mp mem with rfl | mem
        · exact grows
        · exact all n mem owns
      · refine ⟨(Nat.le_of_lt better.2).trans grows, fun l mem owns => ?_,
          .inr ⟨n, List.mem_cons_of_mem _ mem, owns, long⟩⟩
        rcases List.mem_cons.mp mem with rfl | mem
        · exact grows
        · exact all l mem owns
    · rw [if_neg (by simpa using better)]
      obtain ⟨grows, all, most⟩ := ih best
      refine ⟨grows, fun n mem owns => ?_, ?_⟩
      · rcases List.mem_cons.mp mem with rfl | mem
        · exact (Nat.le_of_not_lt fun more => better ⟨owns, more⟩).trans grows
        · exact all n mem owns
      · rcases most with stays | ⟨n, mem, owns, long⟩
        · exact .inl stays
        · exact .inr ⟨n, List.mem_cons_of_mem _ mem, owns, long⟩

/-- **The length that is taken off** is that of some mount with the root, and of none
of them longer. -/
theorem prefixLength_longest {mounts : List (Name × Ino)} {m : Name × Ino} (mem : m ∈ mounts) :
    ∃ n ∈ mounts, n.2 = m.2 ∧ n.1.length = prefixLength mounts m.2 ∧
      ∀ l ∈ mounts, l.2 = m.2 → l.1.length ≤ n.1.length := by
  obtain ⟨-, all, none_ | ⟨n, mem', owns, long⟩⟩ := prefixLength_fold m.2 mounts 0
  · have zero : ∀ l ∈ mounts, l.2 = m.2 → l.1.length = 0 := fun l there owns => by
      have less := all l there owns
      rw [none_] at less
      exact Nat.le_zero.mp less
    refine ⟨m, mem, rfl, (zero m mem rfl).trans none_.symm, fun l there owns => ?_⟩
    rw [zero l there owns]
    exact Nat.zero_le _
  · refine ⟨n, mem', owns, long, fun l there owns => ?_⟩
    rw [long]
    exact all l there owns

/-! ### What a pass takes -/

/-- The components that the loop of `resolve_path` takes, `.` among them; `fuel` is at least
the length. -/
def takenFrom : Nat → Name → List Name
  | 0, _ => []
  | _, [] => []
  | fuel + 1, rel =>
    let (comp, rest) := nextComp rel
    if comp = [] then takenFrom fuel rest else comp :: takenFrom fuel rest

/-- What is taken has no slash and fits its buffer. -/
theorem length_taken {fuel : Nat} {rel c : Name} (mem : c ∈ takenFrom fuel rel) :
    c.length ≤ vfsNameMax := by
  induction fuel generalizing rel with
  | zero => cases mem
  | succ fuel ih =>
    cases rel with
    | nil => cases mem
    | cons a rel =>
      unfold takenFrom at mem
      dsimp only at mem
      split at mem
      · exact ih mem
      · rcases List.mem_cons.mp mem with rfl | mem
        · exact List.length_take_le _ _
        · exact ih mem

/-- The characters of a path, without its slashes. -/
def letters (p : Name) : Name := p.filter (· ≠ '/')

theorem letters_append (p q : Name) : letters (p ++ q) = letters p ++ letters q := List.filter_append ..

theorem letters_plain {c : Name} (plain : '/' ∉ c) : letters c = c := by
  refine List.filter_eq_self.mpr fun a mem => decide_eq_true ?_
  rintro rfl
  exact plain mem

/-- What is taken and what is behind it make up the path. -/
theorem letters_nextComp (rel : Name) :
    letters rel = (nextComp rel).1 ++ letters (nextComp rel).2 := by
  have part : (nextComp rel).1 <+: rel := (List.take_prefix _ _).trans (List.takeWhile_prefix _)
  obtain ⟨tail, whole⟩ := part
  have plain : '/' ∉ (nextComp rel).1 := by
    intro mem
    simpa using List.mem_takeWhile_imp (List.mem_of_mem_take mem)
  have behind : letters (nextComp rel).2 = letters tail := by
    have cut : rel.drop (nextComp rel).1.length = tail := by
      nth_rewrite 2 [← whole]
      rw [List.drop_left]
    rw [nextComp_rest, cut]
    unfold behindSlash
    split
    · rfl
    · rfl
  nth_rewrite 1 [← whole]
  rw [letters_append, letters_plain plain, behind]

/-- **No character is lost.** -/
theorem flatten_taken {fuel : Nat} {rel : Name} (enough : rel.length ≤ fuel) :
    (takenFrom fuel rel).flatten = letters rel := by
  induction fuel generalizing rel with
  | zero =>
    rw [List.eq_nil_of_length_eq_zero (Nat.le_zero.mp enough)]
    rfl
  | succ fuel ih =>
    cases rel with
    | nil => rfl
    | cons a rel =>
      have shorter := (nextComp_shorter a rel).trans (Nat.le_of_succ_le_succ enough)
      unfold takenFrom
      dsimp only
      rw [letters_nextComp]
      split
      · rename_i none_
        rw [none_, List.nil_append]
        exact ih shorter
      · rw [List.flatten_cons, ih shorter]

/-- Components that fit are taken whole. -/
theorem taken_components {fuel : Nat} {rel : Name} (enough : rel.length ≤ fuel)
    (fit : ∀ c ∈ components rel, c.length ≤ vfsNameMax) : takenFrom fuel rel = components rel := by
  induction fuel generalizing rel with
  | zero =>
    rw [List.eq_nil_of_length_eq_zero (Nat.le_zero.mp enough)]
    rfl
  | succ fuel ih =>
    cases rel with
    | nil => rfl
    | cons a rel =>
      have shorter := (nextComp_shorter a rel).trans (Nat.le_of_succ_le_succ enough)
      have rest : ∀ {tail : Name}, components (behindSlash tail) = components tail := by
        intro tail
        unfold behindSlash
        split
        · exact (components_slash _).symm
        · rfl
      unfold takenFrom
      dsimp only
      by_cases slash : a = '/'
      · subst slash
        have next : nextComp ('/' :: rel) = ([], rel) := by simp [nextComp]
        rw [next] at shorter ⊢
        rw [components_slash] at fit ⊢
        exact ih shorter fit
      · obtain ⟨plain, parts⟩ := components_takeWhile (p := rel) slash
        rw [parts] at fit ⊢
        have whole := List.take_of_length_le (fit _ List.mem_cons_self)
        have behind : components (nextComp (a :: rel)).2 =
            components ((a :: rel).drop ((a :: rel).takeWhile (· ≠ '/')).length) := by
          rw [nextComp_rest, rest]
          exact congrArg (fun c => components ((a :: rel).drop (List.length c))) whole
        have first : (nextComp (a :: rel)).1 = (a :: rel).takeWhile (· ≠ '/') := whole
        rw [if_neg (by rw [first]; exact plain.1), first, ih shorter, behind]
        rw [behind]
        exact fun c mem => fit c (List.mem_cons_of_mem _ mem)

theorem flatten_components (p : Name) : (components p).flatten = letters p := by
  induction size : p.length using Nat.strong_induction_on generalizing p with
  | _ n ih =>
    cases p with
    | nil => rfl
    | cons a p =>
      rw [List.length_cons] at size
      by_cases slash : a = '/'
      · subst slash
        rw [components_slash]
        exact ih _ (by omega) p rfl
      · obtain ⟨plain, parts⟩ := components_takeWhile (p := p) slash
        have whole := List.takeWhile_append_dropWhile (p := (· ≠ '/')) (l := a :: p)
        have cut : (a :: p).drop ((a :: p).takeWhile (· ≠ '/')).length =
            (a :: p).dropWhile (· ≠ '/') :=
          (congrArg _ whole.symm).trans List.drop_left
        have pos := List.length_pos_iff.mpr plain.1
        have total := congrArg List.length whole
        rw [List.length_append, List.length_cons] at total
        rw [parts, List.flatten_cons, cut, ih _ (by omega) _ rfl]
        nth_rewrite 3 [← whole]
        rw [letters_append, letters_plain plain.2]

/-! ### Where a resolution starts -/

/-- Where `resolve_path` starts, and with what. -/
def Tree.firstPass (t : Tree) (path : Name) : Option (Ino × Name) :=
  if path.head? ≠ some '/' then none
  else if path = ['/'] then some (t.root, [])
  else if vfsPathMax ≤ path.length then none
  else t.start path

/-- A pass over `buf` from `cur`, and what follows it. -/
def Tree.resume (t : Tree) (nofollow : Bool) (hops : Nat) (buf : Name) (cur : Ino) (rel : Name) :
    Resolution :=
  match t.walk nofollow buf.length cur cur rel with
  | ⟨.stop none, searched, top⟩ => ⟨.absent, searched, top⟩
  | ⟨.stop (some i), searched, top⟩ => ⟨.found i, searched, top⟩
  | ⟨.follow target rest, searched, top⟩ =>
    if vfsPathMax ≤ (followed buf target rest).length then ⟨.overrun, searched, top⟩
    else
      let further := t.resolveHops nofollow hops (followed buf target rest)
      { further with searched := searched ++ further.searched }

/-- `resolve_path` is what comes of its first pass. -/
theorem resolve_firstPass (t : Tree) {path : Name} (absolute : path.head? = some '/')
    (nofollow : Bool) :
    t.resolve path nofollow = match t.firstPass path with
      | none => ⟨.overrun, [], t.root⟩
      | some (cur, rel) => t.resume nofollow 8 path cur rel := by
  unfold Tree.resolve Tree.firstPass
  rw [if_neg (not_not.mpr absolute), if_neg (not_not.mpr absolute)]
  split
  · rename_i top
    subst top
    rfl
  split
  · rfl
  · rfl

/-- **A start as it should be**: at the root of the closest mount, and with the components
behind its path; with all of them at `g_root` where no mount holds the path. -/
def Tree.Leads (t : Tree) (path : Name) (start : Option (Ino × Name)) : Prop :=
  ∃ cur rel, start = some (cur, rel) ∧
    ((∃ m, Closest t.mounts path m ∧ cur = m.2 ∧
        takenFrom path.length rel = components (path.drop m.1.length)) ∨
      ((∀ m ∈ t.mounts, ¬segments m.1 <+: segments path) ∧ cur = t.root ∧
        takenFrom path.length rel = components path))

/-- **What the two loops must agree on**: no path of a mount with the root of the closest one
reaches further into the given path, but for slashes; and no component behind is cut. -/
structure Tree.Agreed (t : Tree) (path : Name) : Prop where
  stripped : ∀ m, Closest t.mounts path m → ∀ n ∈ t.mounts, n.2 = m.2 →
    n.1.length ≤ path.length ∧ ∀ c ∈ (path.take n.1.length).drop m.1.length, c = '/'
  fit : ∀ m, Closest t.mounts path m → ∀ c ∈ components (path.drop m.1.length),
    c.length ≤ vfsNameMax
  bare : (∀ m ∈ t.mounts, ¬segments m.1 <+: segments path) → ∀ c ∈ components path,
    c.length ≤ vfsNameMax

theorem components_slashes {front : Name} (slashes : ∀ c ∈ front, c = '/') (q : Name) :
    components (front ++ q) = components q := by
  induction front with
  | nil => rfl
  | cons a front ih =>
    rw [slashes a List.mem_cons_self, List.cons_append, components_slash]
    exact ih fun c mem => slashes c (List.mem_cons_of_mem _ mem)

/-- What is taken behind a front part of a text are all its components just where the front
part has none, and none is too long. -/
theorem taken_behind {fuel : Nat} {front q : Name} (enough : q.length ≤ fuel) :
    takenFrom fuel q = components (front ++ q) ↔
      (∀ c ∈ front, c = '/') ∧ ∀ c ∈ components (front ++ q), c.length ≤ vfsNameMax := by
  constructor
  · intro same
    refine ⟨fun c mem => ?_, fun c mem => ?_⟩
    · have text := flatten_taken enough
      rw [same, flatten_components, letters_append] at text
      have none_ := List.append_left_eq_self.mp text
      by_contra other
      exact List.filter_eq_nil_iff.mp none_ c mem (decide_eq_true other)
    · rw [← same] at mem
      exact length_taken mem
  · rintro ⟨slashes, fit⟩
    rw [components_slashes slashes] at fit ⊢
    exact taken_components enough fit

/-- **A pass starts as it should** where the loops agree. -/
theorem start_leads {t : Tree} (table : MountTable t.mounts) {buf : Name}
    (absolute : buf.head? = some '/') : t.Leads buf (t.start buf) ↔ t.Agreed buf := by
  rcases mountForPath_closest table buf with ⟨none_, free⟩ | ⟨m, closest, found⟩
  · have start : t.start buf = some (t.root, buf.drop 1) := by rw [Tree.start, none_]
    obtain ⟨rel, rfl⟩ := List.head?_eq_some_iff.mp absolute
    have behind : takenFrom ('/' :: rel).length rel = components (['/'] ++ rel) ↔ _ :=
      taken_behind (by simp)
    constructor
    · rintro ⟨cur, rel', same, lead⟩
      rw [start] at same
      cases same
      rcases lead with ⟨m, closest, -⟩ | ⟨-, -, taken⟩
      · exact absurd closest.holds (free m closest.mem)
      · exact ⟨fun m closest => absurd closest.holds (free m closest.mem),
          fun m closest => absurd closest.holds (free m closest.mem), fun _ => (behind.mp taken).2⟩
    · intro agreed
      exact ⟨_, _, start, .inr ⟨free, rfl,
        behind.mpr ⟨fun c mem => List.mem_singleton.mp mem, agreed.bare free⟩⟩⟩
  · obtain ⟨n, mem, owns, long, longest⟩ := prefixLength_longest closest.mem
    have further := longest m closest.mem rfl
    have start : t.start buf = if buf.length < n.1.length then none
        else some (m.2, if (buf.drop n.1.length).head? = some '/' then
          (buf.drop n.1.length).drop 1 else buf.drop n.1.length) := by
      rw [Tree.start, found, long]
    by_cases over_ : buf.length < n.1.length
    · rw [start, if_pos over_]
      constructor
      · rintro ⟨cur, rel, same, -⟩
        cases same
      · intro agreed
        exact absurd (agreed.stripped m closest n mem owns).1 (Nat.not_le_of_lt over_)
    rw [if_neg over_] at start
    -- What is walked behind the longest path of the root, up to one slash.
    have walked : ∃ mid rel, t.start buf = some (m.2, rel) ∧ buf.drop m.1.length = mid ++ rel ∧
        ((∀ c ∈ mid, c = '/') ↔ ∀ c ∈ (buf.take n.1.length).drop m.1.length, c = '/') := by
      have parts : buf.drop m.1.length =
          (buf.take n.1.length).drop m.1.length ++ buf.drop n.1.length := by
        have less : m.1.length ≤ (buf.take n.1.length).length := by
          rw [List.length_take]
          omega
        rw [← List.drop_append_of_le_length less, List.take_append_drop]
      by_cases slash : (buf.drop n.1.length).head? = some '/'
      · obtain ⟨q, rest⟩ := List.head?_eq_some_iff.mp slash
        rw [if_pos slash, rest] at start
        rw [rest] at parts
        refine ⟨(buf.take n.1.length).drop m.1.length ++ ['/'], q, start, ?_, ?_⟩
        · rw [parts, List.append_assoc]
          rfl
        simp only [List.mem_append, List.mem_singleton]
        exact ⟨fun all c mem => all c (.inl mem), fun all c mem => mem.elim (all c) id⟩
      · rw [if_neg slash] at start
        exact ⟨_, _, start, parts, Iff.rfl⟩
    obtain ⟨mid, rel, first, parts, slashes⟩ := walked
    have enough : rel.length ≤ buf.length := by
      have less := congrArg List.length parts
      rw [List.length_drop, List.length_append] at less
      omega
    have behind : takenFrom buf.length rel = components (mid ++ rel) ↔ _ := taken_behind enough
    rw [← parts, slashes] at behind
    constructor
    · rintro ⟨cur, rel', same, lead⟩
      rw [first] at same
      cases same
      rcases lead with ⟨m', closest', -, taken⟩ | ⟨free, -, -⟩
      · obtain rfl := closest'.unique table closest
        obtain ⟨clean, fit⟩ := behind.mp taken
        refine ⟨fun l close k there shares => ?_, fun l close => ?_, fun free => ?_⟩
        · obtain rfl := close.unique table closest
          have less := longest k there shares
          refine ⟨by omega, fun c mem => clean c ?_⟩
          have part := (List.take_prefix_take_left less (l := buf)).drop l.1.length
          exact part.subset mem
        · obtain rfl := close.unique table closest
          exact fit
        · exact absurd closest.holds (free _ closest.mem)
      · exact absurd closest.holds (free _ closest.mem)
    · intro agreed
      exact ⟨_, _, first, .inl ⟨m, closest, rfl,
        behind.mpr ⟨(agreed.stripped m closest n mem owns).2, agreed.fit m closest⟩⟩⟩

/-- Where `resolve_path` starts as it should. -/
def Tree.Agrees (t : Tree) (path : Name) : Prop :=
  path.length < vfsPathMax ∧
    if path = ['/'] then ∀ m ∈ t.mounts, m.1 = ['/'] → m.2 = t.root else t.Agreed path

theorem closest_top {mounts : List (Name × Ino)} (table : MountTable mounts) {m : Name × Ino}
    (mem : m ∈ mounts) : segments m.1 <+: segments ['/'] ↔ m.1 = ['/'] := by
  constructor
  · intro holds
    have less := (prefix_of_segments holds).length_le
    obtain ⟨rel, whole⟩ := List.head?_eq_some_iff.mp (table.absolute m mem)
    rw [whole] at less ⊢
    rw [List.eq_nil_of_length_eq_zero (Nat.le_zero.mp (Nat.le_of_succ_le_succ less))]
  · intro top
    rw [top]

/-- Two mounts of root 1, the second at a longer path. -/
def twiceMounted : Tree where
  root := 0
  mounts := [(['/', 'a'], 1), (['/', 'b', 'c', 'd'], 1)]
  lookup := fun _ => none
  target := fun _ => none
  mountpoint := fun _ => none

end AtmKoala.Vfs
