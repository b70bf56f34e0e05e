import AtmKoala.Vfs.Lookup

/-!
Symbolic links in paths.

`resolve_path` begins a new pass over the whole path at every link it follows. What the
path should be is said by `View.reference`, a walk over components in which a link is
replaced in place by the components of its target.

* `pass_reference`: one pass ends as the reference walk does up to the next link.
* `Straight` are the paths of which every pass is in order: a relative link is followed
  as the last thing of the path only, and the paths that come out are short.
  `resolveHops_straight`: those are resolved as they should be.
* A relative link with something behind it is met again in every further pass, since its
  target is put behind it instead of in its place (`resolveHops_stuck`).
* `resolve_reference` has both directions, up to a component that is cut in pieces and
  paths that need too many links anyway.
-/

namespace AtmKoala.Vfs

open Lib

variable {v : View} {cur dir i : Ino} {nofollow : Bool} {c rel rest target : Name}

/-! ### The reference walk -/

/-- The inode of an entry of a directory. -/
def View.child (v : View) (dir : Ino) (name : Name) : Option Ino :=
  match v.kind dir with
  | some (.dir children _) => dentryFind children name
  | _ => none

/-- A walk along components; `onLink` goes on from a directory once the components of a
link's target have taken the place of its own. -/
def View.through (v : View) (nofollow : Bool) (onLink : Ino → List Name → Outcome) (cur : Ino) :
    List Name → Outcome
  | [] => .found cur
  | c :: cs =>
    if c = dot then v.through nofollow onLink cur cs
    else
      match v.child cur c with
      | none => .absent
      | some next =>
        match v.kind next, decide (cs = []) && nofollow with
        | some (.link target), false =>
          onLink (if target.head? = some '/' then v.root else cur) (components target ++ cs)
        | _, _ => v.through nofollow onLink next cs

/-- **The walk a path stands for**; so many links may still be replaced. -/
def View.reference (v : View) (nofollow : Bool) : Nat → Ino → List Name → Outcome
  | 0, cur, cs => v.through nofollow (fun _ _ => .loop) cur cs
  | hops + 1, cur, cs => v.through nofollow (v.reference nofollow hops) cur cs

/-- The rest of the reference walk at a link in `dir` with `cs` behind it. -/
def View.replaced (v : View) (nofollow : Bool) (hops : Nat) (dir : Ino) (target : Name)
    (cs : List Name) : Outcome :=
  match hops with
  | 0 => .loop
  | hops + 1 =>
    v.reference nofollow hops (if target.head? = some '/' then v.root else dir)
      (components target ++ cs)

/-- The reference walk from the root once a link has been replaced. -/
def View.onward (v : View) (nofollow : Bool) (hops : Nat) (cs : List Name) : Outcome :=
  match hops with
  | 0 => .loop
  | hops + 1 => v.reference nofollow hops v.root cs

theorem reference_eq (v : View) (nofollow : Bool) (hops : Nat) : ∃ onLink, v.reference nofollow hops = v.through nofollow onLink ∧
    ∀ dir target cs, onLink (if target.head? = some '/' then v.root else dir)
      (components target ++ cs) = v.replaced nofollow hops dir target cs := by
  cases hops with
  | zero => exact ⟨_, rfl, fun _ _ _ => rfl⟩
  | succ hops => exact ⟨_, rfl, fun _ _ _ => rfl⟩

theorem reference_nil (hops : Nat) : v.reference nofollow hops cur [] = .found cur := by
  cases hops <;> rfl

theorem reference_dot (hops : Nat) (cs : List Name) :
    v.reference nofollow hops cur (dot :: cs) = v.reference nofollow hops cur cs := by
  obtain ⟨onLink, same, -⟩ := reference_eq v nofollow hops
  rw [same, View.through, if_pos rfl]

theorem reference_none (hops : Nat) (cs : List Name) (real : c ≠ dot) (none_ : v.child cur c = none) :
    v.reference nofollow hops cur (c :: cs) = .absent := by
  obtain ⟨onLink, same, -⟩ := reference_eq v nofollow hops
  rw [same, View.through, if_neg real, none_]

/-- At a link that is followed. -/
theorem reference_link (hops : Nat) {cs : List Name} (real : c ≠ dot) (next : v.child cur c = some i)
    (link : v.kind i = some (.link target)) (follow : (decide (cs = []) && nofollow) = false) :
    v.reference nofollow hops cur (c :: cs) = v.replaced nofollow hops cur target cs := by
  obtain ⟨onLink, same, onward⟩ := reference_eq v nofollow hops
  rw [same, View.through, if_neg real, next]
  dsimp only
  rw [link, follow]
  exact onward cur target cs

/-- At anything else. -/
theorem reference_next (hops : Nat) {cs : List Name} (real : c ≠ dot) (next : v.child cur c = some i)
    (stays : (∀ target, v.kind i ≠ some (.link target)) ∨ (decide (cs = []) && nofollow) = true) :
    v.reference nofollow hops cur (c :: cs) = v.reference nofollow hops i cs := by
  obtain ⟨onLink, same, -⟩ := reference_eq v nofollow hops
  rw [same, View.through, if_neg real, next]
  dsimp only
  split
  · rename_i target link follow
    rcases stays with plain | last
    · exact absurd link (plain target)
    · rw [last] at follow
      cases follow
  · rfl

/-! ### Passes -/

/-- A pass over a path, from some inode on. -/
def View.pass (v : View) (nofollow : Bool) (cur : Ino) (rel : Name) : Turn :=
  v.walk nofollow rel.length cur rel

theorem walk_eq_pass {fuel : Nat} (enough : rel.length ≤ fuel) :
    v.walk nofollow fuel cur rel = v.pass nofollow cur rel := by
  have more : ∀ {n m : Nat} {cur : Ino} {rel : Name}, rel.length ≤ n → rel.length ≤ m →
      v.walk nofollow n cur rel = v.walk nofollow m cur rel := by
    intro n
    induction n with
    | zero =>
      intro m cur rel none_ _
      obtain rfl := List.length_eq_zero_iff.mp (Nat.le_zero.mp none_)
      cases m <;> rfl
    | succ n ih =>
      intro m cur rel short short'
      cases rel with
      | nil => cases m <;> rfl
      | cons a rel =>
        cases m with
        | zero => cases short'
        | succ m =>
          have shorter := nextComp_shorter a rel
          rw [List.length_cons] at short short'
          have same : ∀ cur, v.walk nofollow n cur (nextComp (a :: rel)).2 =
              v.walk nofollow m cur (nextComp (a :: rel)).2 := fun _ => ih (by omega) (by omega)
          unfold View.walk
          dsimp only
          simp only [same]
  exact more enough le_rfl

theorem pass_nil : v.pass nofollow cur [] = .stop (some cur) := rfl

theorem pass_cons (v : View) (nofollow : Bool) (cur : Ino) (a : Char) (rel : Name) : v.pass nofollow cur (a :: rel) =
    if (nextComp (a :: rel)).1 = [] ∨ (nextComp (a :: rel)).1 = dot then
      v.pass nofollow cur (nextComp (a :: rel)).2
    else
      match v.lookup cur (nextComp (a :: rel)).1 with
      | none => .stop none
      | some next =>
        match v.kind next, decide ((nextComp (a :: rel)).2 = []) && nofollow with
        | some (.link target), false => .follow target (nextComp (a :: rel)).2
        | _, _ => v.pass nofollow next (nextComp (a :: rel)).2 := by
  have shorter := nextComp_shorter a rel
  rw [View.pass, List.length_cons]
  unfold View.walk
  dsimp only
  simp only [walk_eq_pass shorter] <;> rfl

theorem pass_slash (q : Name) : v.pass nofollow cur ('/' :: q) = v.pass nofollow cur q := by
  rw [pass_cons]
  rfl

/-- A component that is not too long. -/
theorem pass_plain (tail : Name) (plain : Plain c) (short : c.length ≤ vfsNameMax)
    (behind : tail = [] ∨ tail.head? = some '/') : v.pass nofollow cur (c ++ tail) =
    if c = dot then v.pass nofollow cur tail.tail
    else
      match v.lookup cur c with
      | none => .stop none
      | some next =>
        match v.kind next, decide (tail.tail = []) && nofollow with
        | some (.link target), false => .follow target tail.tail
        | _, _ => v.pass nofollow next tail.tail := by
  obtain ⟨a, more, cons⟩ := List.exists_cons_of_ne_nil plain.1
  have comp := nextComp_plain plain behind
  rw [if_pos short] at comp
  have whole : c ++ tail = a :: (more ++ tail) := by rw [cons, List.cons_append]
  have step := pass_cons v nofollow cur a (more ++ tail)
  rw [← whole, comp] at step
  simpa only [plain.1, false_or] using step

/-- Paths by their components. -/
theorem name_induction {P : Name → Prop} (nil : P []) (slash : ∀ q, P q → P ('/' :: q))
    (last : ∀ c, Plain c → P c) (comp : ∀ c q, Plain c → P q → P (c ++ '/' :: q)) (p : Name) :
    P p := by
  induction size : p.length using Nat.strong_induction_on generalizing p with
  | _ n ih =>
    cases p with
    | nil => exact nil
    | cons a p =>
      by_cases first : a = '/'
      · subst first
        exact slash p (ih _ (by rw [← size, List.length_cons]; omega) p rfl)
      · obtain ⟨plain, -⟩ := components_takeWhile (p := p) first
        have whole := List.takeWhile_append_dropWhile (p := (· ≠ '/')) (l := a :: p)
        have head := List.head?_dropWhile_not (· ≠ '/') (a :: p)
        have total := congrArg List.length whole
        rw [List.length_append, size] at total
        rw [← whole]
        generalize (a :: p).takeWhile (· ≠ '/') = c at plain total ⊢
        generalize (a :: p).dropWhile (· ≠ '/') = tail at head total ⊢
        cases tail with
        | nil =>
          rw [List.append_nil]
          exact last c plain
        | cons b q =>
          have slash' : b = '/' := by simpa using head
          subst slash'
          rw [List.length_cons] at total
          exact comp c q plain (ih _ (by omega) q rfl)

/-! ### A pass and the reference walk -/

/-- The names of entries fit their arrays. -/
def View.NamesFit (v : View) : Prop :=
  ∀ d children count, v.kind d = some (.dir children count) → ∀ e ∈ children, e.1.length ≤ vfsNameMax

/-- On the way along some components, up to the first link, one is met that is too long
for a name and whose first `VFS_NAME_MAX` characters are the name of an entry. -/
def View.Cut (v : View) (cur : Ino) : List Name → Prop
  | [] => False
  | c :: cs =>
    if c = dot then v.Cut cur cs
    else if vfsNameMax < c.length then v.child cur (c.take vfsNameMax) ≠ none
    else
      match v.child cur c with
      | none => False
      | some next =>
        match v.kind next with
        | some (.link _) => False
        | _ => v.Cut next cs

theorem child_short (fit : v.NamesFit) (found : v.child cur c = some i) : c.length ≤ vfsNameMax := by
  unfold View.child at found
  split at found
  · rename_i children count kind
    exact fit cur children count kind _ (mem_of_dentryFind found)
  · cases found

theorem cut_dot {cs : List Name} : v.Cut cur (dot :: cs) ↔ v.Cut cur cs := by
  rw [View.Cut, if_pos rfl]

theorem cut_next {cs : List Name} (real : c ≠ dot) (short : c.length ≤ vfsNameMax)
    (next : v.child cur c = some i) (plain : ∀ target, v.kind i ≠ some (.link target)) :
    v.Cut cur (c :: cs) ↔ v.Cut i cs := by
  rw [View.Cut, if_neg real, if_neg (Nat.not_lt_of_le short), next]
  dsimp only
  split
  · rename_i target link
    exact absurd link (plain target)
  · rfl

theorem lookup_real (real : c ≠ dot) (real' : c ≠ dotdot) : v.lookup cur c = v.child cur c := by
  unfold View.lookup View.child
  simp only [if_neg (not_or.mpr ⟨real, real'⟩)] <;> rfl

/-- **What a pass does at a component** that is not `.`. -/
theorem pass_cases (v : View) (nofollow : Bool) (cur : Ino) (tail : Name) (plain : Plain c) (short : c.length ≤ vfsNameMax)
    (behind : tail = [] ∨ tail.head? = some '/') (real : c ≠ dot) :
    (v.lookup cur c = none ∧ v.pass nofollow cur (c ++ tail) = .stop none) ∨
    (∃ i target, v.lookup cur c = some i ∧ v.kind i = some (.link target) ∧
      (decide (tail.tail = []) && nofollow) = false ∧
      v.pass nofollow cur (c ++ tail) = .follow target tail.tail) ∨
    ∃ i, v.lookup cur c = some i ∧
      ((∀ target, v.kind i ≠ some (.link target)) ∨ (decide (tail.tail = []) && nofollow) = true) ∧
      v.pass nofollow cur (c ++ tail) = v.pass nofollow i tail.tail := by
  rw [pass_plain tail plain short behind, if_neg real]
  cases v.lookup cur c with
  | none => exact .inl ⟨rfl, rfl⟩
  | some i =>
    dsimp only
    split
    · rename_i target link follow
      exact .inr (.inl ⟨i, target, rfl, link, follow, rfl⟩)
    · rename_i other
      refine .inr (.inr ⟨i, rfl, ?_, rfl⟩)
      by_cases last : (decide (tail.tail = []) && nofollow) = true
      · exact .inr last
      · exact .inl fun target link => other target link (Bool.eq_false_iff.mpr last)

/-- Nothing but slashes follows, and there are two of them. -/
theorem slashes_of_components {q : Name} (none_ : components q = []) (some_ : q ≠ []) :
    ['/', '/'] <:+ '/' :: q := by
  induction q using name_induction with
  | nil => exact absurd rfl some_
  | slash q ih =>
    rw [components_slash] at none_
    by_cases more : q = []
    · subst more
      exact List.suffix_refl _
    · exact (ih none_ more).trans (List.suffix_cons _ _)
  | last c plain =>
    rw [components_plain plain] at none_
    cases none_
  | comp c q plain ih =>
    rw [components_cons plain] at none_
    cases none_

/-- A component that is too long, and not cut, is not there. -/
theorem pass_long (tail : Name) (plain : Plain c) (long : ¬c.length ≤ vfsNameMax) {cs : List Name}
    (whole : ¬v.Cut cur (c :: cs)) (behind : tail = [] ∨ tail.head? = some '/') :
    v.pass nofollow cur (c ++ tail) = .stop none := by
  have taken : (c.take vfsNameMax).length = vfsNameMax := by
    rw [List.length_take]
    omega
  have other : ∀ {d : Name}, d.length < vfsNameMax → c.take vfsNameMax ≠ d := by
    rintro d less rfl
    omega
  have real : c ≠ dot := by
    rintro rfl
    exact long (by decide)
  rw [View.Cut, if_neg real, if_pos (Nat.lt_of_not_le long), not_not] at whole
  obtain ⟨a, more, cons⟩ := List.exists_cons_of_ne_nil plain.1
  have comp := nextComp_plain plain behind
  rw [if_neg long] at comp
  have text : c ++ tail = a :: (more ++ tail) := by rw [cons, List.cons_append]
  have step := pass_cons v nofollow cur a (more ++ tail)
  rw [← text, comp] at step
  dsimp only at step
  rw [step, if_neg (not_or.mpr ⟨other (by decide), other (by decide)⟩),
    lookup_real (other (by decide)) (other (by decide)), whole]

/-- The end of a pass from `cur` over `rel`, as the reference walk has it. A last link
that is followed for the slashes behind it is where the reference walk ends. Of a link that
stands at the very end, the directory is the one that the components before it lead to. -/
def Agrees (v : View) (nofollow : Bool) (hops : Nat) (cur : Ino) (rel : Name) : Turn → Prop
  | .stop none => v.reference nofollow hops cur (components rel) = .absent
  | .stop (some i) => v.reference nofollow hops cur (components rel) = .found i
  | .follow target rest => (nofollow = true ∧ components rest = [] →
      ∃ i, v.kind i = some (.link target) ∧
        v.reference nofollow hops cur (components rel) = .found i) ∧
    ((nofollow = true → components rest ≠ []) → ∃ dir, (∃ i, v.kind i = some (.link target)) ∧
      v.reference nofollow hops cur (components rel) =
        v.replaced nofollow hops dir target (components rest) ∧
      (∀ c ∈ components rest, c ∈ components rel) ∧
      (rest = [] → rel.getLast? ≠ some '/' → ∃ before c, rel = before ++ c ∧ Plain c ∧
        (before = [] ∨ before.getLast? = some '/') ∧ ∀ hops cs,
          v.reference nofollow hops cur (components before ++ cs) = v.reference nofollow hops dir cs))

theorem components_closed {p : Name} (closed : p.getLast? = some '/') (q : Name) :
    components (p ++ q) = components p ++ components q := by
  obtain ⟨init, rfl⟩ := List.getLast?_eq_some_iff.mp closed
  rw [List.append_assoc, List.singleton_append, components_append_slash, components_append_slash,
    components_nil, List.append_nil]

/-- What is in front of a path does not matter if it leads to where the path starts. -/
theorem Agrees.lift {hops : Nat} {p q : Name} {d : Ino} {turn : Turn}
    (agrees : Agrees v nofollow hops d q turn) (closed : p.getLast? = some '/')
    (same : v.reference nofollow hops cur (components (p ++ q)) =
      v.reference nofollow hops d (components q))
    (way : ∀ target rest, turn = .follow target rest → q ≠ [] ∧ ∀ hops cs,
      v.reference nofollow hops cur (components p ++ cs) = v.reference nofollow hops d cs) :
    Agrees v nofollow hops cur (p ++ q) turn := by
  match turn with
  | .stop none => exact same.trans agrees
  | .stop (some i) => exact same.trans agrees
  | .follow target rest =>
    obtain ⟨some_, onward⟩ := way target rest rfl
    refine ⟨fun slashes => ?_, fun kept => ?_⟩
    · obtain ⟨i, link, found⟩ := agrees.1 slashes
      exact ⟨i, link, same.trans found⟩
    obtain ⟨dir, link, replaced, behind, relative⟩ := agrees.2 kept
    refine ⟨dir, link, same.trans replaced, fun c mem => ?_, fun none_ open_ => ?_⟩
    · rw [components_closed closed]
      exact List.mem_append_right _ (behind c mem)
    rw [List.getLast?_append_of_ne_nil _ some_] at open_
    obtain ⟨before, c, rfl, plain, closed', way'⟩ := relative none_ open_
    refine ⟨p ++ before, c, (List.append_assoc ..).symm, plain, .inr ?_, fun hops cs => ?_⟩
    · rcases closed' with rfl | closed'
      · rwa [List.append_nil]
      · obtain ⟨init, rfl⟩ := List.getLast?_eq_some_iff.mp closed'
        rw [← List.append_assoc, List.getLast?_concat]
    · rw [components_closed closed, List.append_assoc, onward]
      exact way' hops cs

/-- **One pass** ends where the reference walk does, or at the first link it replaces. -/
theorem pass_reference (hops : Nat) (fit : v.NamesFit) (whole : ¬v.Cut cur (components rel))
    (noUp : dotdot ∉ components rel) :
    Agrees v nofollow hops cur rel (v.pass nofollow cur rel) := by
  induction rel using name_induction generalizing cur with
  | nil => exact reference_nil hops
  | slash q ih =>
    rw [components_slash] at noUp whole
    rw [pass_slash]
    refine (ih whole noUp).lift (p := ['/']) rfl ?_ fun target rest ends => ⟨?_, fun _ _ => rfl⟩
    · rw [List.singleton_append, components_slash]
    · rintro rfl
      cases ends
  | last c plain =>
    have single := components_plain plain
    have here : c = c ++ [] := (List.append_nil c).symm
    rw [single] at whole
    have notUp : c ≠ dotdot := fun up => noUp (by rw [single, up]; exact List.mem_singleton_self _)
    by_cases short : c.length ≤ vfsNameMax
    swap
    · rw [here, pass_long [] plain short whole (.inl rfl), ← here, Agrees, single]
      refine reference_none hops [] ?_ (Option.eq_none_iff_forall_ne_some.mpr fun i next => ?_)
      · rintro rfl
        exact short (by decide)
      · exact short (child_short fit next)
    by_cases stays : c = dot
    · have ends : v.pass nofollow cur c = .stop (some cur) := by
        rw [here, pass_plain [] plain short (.inl rfl), if_pos stays]
        rfl
      rw [ends, Agrees, single, stays, reference_dot, reference_nil]
    have step := pass_cases v nofollow cur [] plain short (.inl rfl) stays
    rw [← here, lookup_real stays notUp] at step
    rcases step with ⟨none_, ends⟩ | ⟨i, target, next, link, follow, ends⟩ | ⟨i, next, kind, ends⟩
    · rw [ends, Agrees, single]
      exact reference_none hops [] stays none_
    · rw [ends, Agrees, single]
      refine ⟨fun slashes => ?_,
        fun _ => ⟨cur, ⟨i, link⟩, reference_link hops stays next link follow, nofun, fun _ _ => ?_⟩⟩
      · rw [slashes.1] at follow
        cases follow
      exact ⟨[], c, rfl, plain, .inl rfl, fun _ _ => rfl⟩
    · rw [ends, List.tail_nil, pass_nil, Agrees, single, reference_next hops stays next kind,
        reference_nil]
  | comp c q plain ih =>
    have parts := components_cons plain q
    have single := components_plain plain
    have front : c ++ '/' :: q = (c ++ ['/']) ++ q := by simp
    have closed : (c ++ ['/']).getLast? = some '/' := List.getLast?_concat
    have alone : components (c ++ ['/']) = [c] := by
      rw [components_append_slash, single, components_nil, List.append_nil]
    rw [parts, List.mem_cons, not_or] at noUp
    rw [parts] at whole
    by_cases short : c.length ≤ vfsNameMax
    swap
    · rw [pass_long ('/' :: q) plain short whole (.inr rfl), Agrees, parts]
      refine reference_none hops _ ?_ (Option.eq_none_iff_forall_ne_some.mpr fun i next => ?_)
      · rintro rfl
        exact short (by decide)
      · exact short (child_short fit next)
    by_cases stays : c = dot
    · rw [stays, cut_dot] at whole
      rw [pass_plain ('/' :: q) plain short (.inr rfl), if_pos stays, List.tail_cons, front]
      refine (ih whole noUp.2).lift closed ?_ fun target rest ends => ⟨?_, fun hops cs => ?_⟩
      · rw [← front, parts, stays, reference_dot]
      · rintro rfl
        cases ends
      · rw [alone, stays]
        exact reference_dot hops cs
    have step := pass_cases v nofollow cur ('/' :: q) plain short (.inr rfl) stays
    rw [List.tail_cons, lookup_real stays (Ne.symm noUp.1)] at step
    rcases step with ⟨none_, ends⟩ | ⟨i, target, next, link, follow, ends⟩ | ⟨i, next, kind, ends⟩
    · rw [ends, Agrees, parts]
      exact reference_none hops _ stays none_
    · rw [ends, Agrees, parts]
      refine ⟨fun slashes => ⟨i, link, ?_⟩, fun kept => ?_⟩
      · have last : (decide (components q = []) && nofollow) = true := by simp [slashes.1, slashes.2]
        rw [reference_next hops stays next (.inr last), slashes.2, reference_nil]
      have follow' : (decide (components q = []) && nofollow) = false := by
        cases nofollow with
        | false => exact Bool.and_false _
        | true => simpa using kept rfl
      refine ⟨cur, ⟨i, link⟩, reference_link hops stays next link follow',
        fun d mem => List.mem_cons_of_mem _ mem, fun none_ open_ => ?_⟩
      subst none_
      exact absurd closed open_
    · rw [ends, front]
      by_cases none_ : q = []
      · subst none_
        rw [pass_nil, Agrees, ← front, parts, components_nil]
        exact (reference_next hops stays next kind).trans (reference_nil hops)
      · have plain_ := kind.resolve_right (by simp [none_])
        rw [cut_next stays short next plain_] at whole
        refine (ih whole noUp.2).lift closed ?_ fun target rest ends' => ⟨none_, fun hops cs => ?_⟩
        · rw [← front, parts, reference_next hops stays next (.inl plain_)]
        · rw [alone]
          exact reference_next hops stays next (.inl plain_)

/-! ### Straight paths -/

/-- A relative link is followed only where nothing, not even a slash, is behind it. -/
def InPlace (buf target rest : Name) : Prop :=
  target.head? = some '/' ∨ rest = [] ∧ buf.getLast? ≠ some '/'

/-- **Every pass over the path is in order**: no component is cut, a link is replaced in
place, a last link is not followed for the slashes behind it if it is to be kept, and the
path that comes out fits its buffer. -/
def Straight (v : View) (nofollow : Bool) : Nat → Name → Prop
  | 0, _ => True
  | hops + 1, buf => ¬v.Cut v.root (components buf) ∧
    match v.pass nofollow v.root (buf.drop 1) with
    | .stop _ => True
    | .follow target rest => InPlace buf target rest ∧ (nofollow = true → components rest ≠ []) ∧
        (followed buf target rest).length < vfsPathMax ∧
        Straight v nofollow hops (followed buf target rest)

theorem upToSlash_closed {p c : Name} (closed : p.getLast? = some '/') (plain : Plain c) :
    upToSlash (p ++ c) = p := by
  obtain ⟨init, rfl⟩ := List.getLast?_eq_some_iff.mp closed
  rw [List.append_assoc, List.singleton_append, upToSlash_render plain]

theorem components_absolute (target rest : Name) :
    components (target ++ if rest = [] then [] else '/' :: rest) =
      components target ++ components rest := by
  split
  · rename_i none_
    rw [none_, List.append_nil, components_nil, List.append_nil]
  · exact components_append_slash target rest

/-- **A link that is replaced in place.** -/
theorem followed_reference {hops : Nat} {rel : Name} (inPlace : InPlace ('/' :: rel) target rest)
    (kept : nofollow = true → components rest ≠ [])
    (agrees : Agrees v nofollow hops v.root rel (.follow target rest)) :
    (followed ('/' :: rel) target rest).head? = some '/' ∧
    (∀ c ∈ components (followed ('/' :: rel) target rest),
      c ∈ components rel ∨ ∃ i t, v.kind i = some (.link t) ∧ c ∈ components t) ∧
    v.reference nofollow hops v.root (components rel) =
      v.onward nofollow hops (components (followed ('/' :: rel) target rest)) := by
  obtain ⟨dir, ⟨i, link⟩, same, behind, relative⟩ := agrees.2 kept
  by_cases absolute : target.head? = some '/'
  · have whole : components (followed ('/' :: rel) target rest) =
        components target ++ components rest := by
      rw [followed, if_pos absolute, components_absolute]
    refine ⟨?_, fun c mem => ?_, ?_⟩
    · rw [followed, if_pos absolute, List.head?_append, absolute]
      rfl
    · rw [whole] at mem
      rcases List.mem_append.mp mem with mem | mem
      · exact .inr ⟨i, target, link, mem⟩
      · exact .inl (behind c mem)
    · rw [same, whole]
      cases hops with
      | zero => rfl
      | succ h => rw [View.replaced, if_pos absolute, View.onward]
  · obtain ⟨none_, open_⟩ := inPlace.resolve_left absolute
    subst none_
    have some_ : rel ≠ [] := by
      rintro rfl
      exact open_ rfl
    rw [List.getLast?_cons_of_ne_nil some_] at open_
    obtain ⟨before, c, rfl, plain, closed, way⟩ := relative rfl open_
    have closed' : ('/' :: before).getLast? = some '/' := by
      rcases closed with rfl | closed
      · rfl
      · obtain ⟨init, rfl⟩ := List.getLast?_eq_some_iff.mp closed
        rw [← List.cons_append, List.getLast?_concat]
    have text : followed ('/' :: (before ++ c)) target [] = '/' :: before ++ target := by
      rw [followed, if_neg absolute, ← List.cons_append, upToSlash_closed closed' plain, if_pos rfl,
        List.append_nil]
    have whole : components ('/' :: before ++ target) = components before ++ components target := by
      rw [components_closed closed', components_slash]
    rw [text, whole]
    refine ⟨rfl, fun d mem => ?_, ?_⟩
    · rcases List.mem_append.mp mem with mem | mem
      · refine .inl ?_
        rcases closed with rfl | closed
        · cases mem
        · rw [components_closed closed]
          exact List.mem_append_left _ mem
      · exact .inr ⟨i, target, link, mem⟩
    · rw [same]
      cases hops with
      | zero => rfl
      | succ h =>
        rw [View.replaced, if_neg absolute, components_nil, List.append_nil, View.onward]
        exact (way h (components target)).symm

/-- No target of a link has a component `..`. -/
def View.NoUp (v : View) : Prop :=
  ∀ i target, v.kind i = some (.link target) → dotdot ∉ components target

/-- **Straight paths are resolved as they should be**, pass by pass. -/
theorem resolveHops_straight {passes : Nat} {rel : Name} (fit : v.NamesFit) (noUp : v.NoUp)
    (noUp' : dotdot ∉ components rel) (straight : Straight v nofollow passes ('/' :: rel)) :
    v.resolveHops nofollow passes ('/' :: rel) = v.onward nofollow passes (components rel) := by
  induction passes generalizing rel with
  | zero => rfl
  | succ hops ih =>
    obtain ⟨whole, pass⟩ := straight
    rw [components_slash] at whole
    have agrees : Agrees v nofollow hops v.root rel _ := pass_reference hops fit whole noUp'
    rw [View.resolveHops, List.drop_one, List.tail_cons, walk_eq_pass (by simp), View.onward]
    rw [List.drop_one, List.tail_cons] at pass
    cases ends : v.pass nofollow v.root rel with
    | stop found =>
      rw [ends] at agrees
      cases found with
      | none => exact agrees.symm
      | some i => exact agrees.symm
    | follow target rest =>
      rw [ends] at agrees pass
      obtain ⟨inPlace, kept, short, straight⟩ := pass
      obtain ⟨absolute, names, same⟩ := followed_reference inPlace kept agrees
      obtain ⟨rel', text⟩ := List.head?_eq_some_iff.mp absolute
      rw [same]
      dsimp only
      rw [if_neg (by omega), text]
      rw [text] at straight names
      rw [components_slash] at names ⊢
      refine ih (fun up => ?_) straight
      rcases names _ up with mem | ⟨i, t, link, mem⟩
      · exact noUp' mem
      · exact noUp i t link mem

/-! ### Paths that go astray -/

/-- A component is cut in a pass that comes after passes in order. -/
def MeetsCut (v : View) (nofollow : Bool) : Nat → Name → Prop
  | 0, _ => False
  | hops + 1, buf => v.Cut v.root (components buf) ∨
    match v.pass nofollow v.root (buf.drop 1) with
    | .stop _ => False
    | .follow target rest => MeetsCut v nofollow hops (followed buf target rest)

/-- A link with a slash behind it is followed with whatever is put behind the slash. -/
theorem pass_follow {rel : Name} (noUp : dotdot ∉ components rel) (whole : ¬v.Cut cur (components rel))
    (ends : v.pass nofollow cur rel = .follow target rest)
    (behind : rest ≠ [] ∨ rel.getLast? = some '/') : ∃ front, rel = front ++ rest ∧
      front.getLast? = some '/' ∧ ∀ more, more ≠ [] ∨ nofollow = false →
        v.pass nofollow cur (front ++ more) = .follow target more := by
  induction rel using name_induction generalizing cur with
  | nil => cases ends
  | slash q ih =>
    rw [pass_slash] at ends
    rw [components_slash] at noUp whole
    have some_ : q ≠ [] := by
      rintro rfl
      cases ends
    rw [List.getLast?_cons_of_ne_nil some_] at behind
    obtain ⟨front, rfl, closed, again⟩ := ih noUp whole ends behind
    obtain ⟨init, rfl⟩ := List.getLast?_eq_some_iff.mp closed
    refine ⟨'/' :: (init ++ ['/']), rfl, ?_, fun more some_ => ?_⟩
    · rw [← List.cons_append, List.getLast?_concat]
    · rw [List.cons_append, pass_slash]
      exact again more some_
  | last c plain =>
    have here : c = c ++ [] := (List.append_nil c).symm
    rw [components_plain plain] at whole
    have none_ : rest = [] := by
      by_cases short : c.length ≤ vfsNameMax
      · rw [here, pass_plain [] plain short (.inl rfl)] at ends
        split at ends
        · cases ends
        split at ends
        · cases ends
        split at ends
        · cases ends
          rfl
        · cases ends
      · rw [here, pass_long [] plain short whole (.inl rfl)] at ends
        cases ends
    obtain ⟨init, slash⟩ := List.getLast?_eq_some_iff.mp (behind.resolve_left fun some_ => some_ none_)
    exact absurd (slash ▸ by simp) plain.2
  | comp c q plain ih =>
    rw [components_cons plain] at noUp whole
    rw [List.mem_cons, not_or] at noUp
    have deeper : ∀ {d : Ino}, ¬v.Cut d (components q) → v.pass nofollow d q = .follow target rest →
        (∀ more, more ≠ [] → v.pass nofollow cur (c ++ '/' :: more) = v.pass nofollow d more) →
        ∃ front, c ++ '/' :: q = front ++ rest ∧ front.getLast? = some '/' ∧
          ∀ more, more ≠ [] ∨ nofollow = false →
            v.pass nofollow cur (front ++ more) = .follow target more := by
      intro d whole ends onward
      have some_ : q ≠ [] := by
        rintro rfl
        cases ends
      rw [List.getLast?_append_of_ne_nil _ (List.cons_ne_nil _ _), List.getLast?_cons_of_ne_nil some_] at behind
      obtain ⟨front, rfl, closed, again⟩ := ih noUp.2 whole ends behind
      obtain ⟨init, rfl⟩ := List.getLast?_eq_some_iff.mp closed
      refine ⟨c ++ '/' :: (init ++ ['/']), by simp, ?_, fun more some_ => ?_⟩
      · rw [← List.cons_append, ← List.append_assoc, List.getLast?_concat]
      · rw [List.append_assoc, List.cons_append, onward _ (by simp)]
        exact again more some_
    by_cases short : c.length ≤ vfsNameMax
    swap
    · rw [pass_long ('/' :: q) plain short whole (.inr rfl)] at ends
      cases ends
    by_cases stays : c = dot
    · have onward : ∀ more, v.pass nofollow cur (c ++ '/' :: more) = v.pass nofollow cur more := by
        intro more
        rw [pass_plain ('/' :: more) plain short (.inr rfl), if_pos stays, List.tail_cons]
      rw [stays, cut_dot] at whole
      rw [onward] at ends
      exact deeper whole ends fun more _ => onward more
    rcases pass_cases v nofollow cur ('/' :: q) plain short (.inr rfl) stays with
      ⟨-, stop⟩ | ⟨i, t, next, link, follow, stop⟩ | ⟨i, next, kind, on⟩
    · rw [stop] at ends
      cases ends
    · rw [stop] at ends
      cases ends
      refine ⟨c ++ ['/'], by simp, List.getLast?_concat, fun more some_ => ?_⟩
      rw [List.append_assoc, List.singleton_append, pass_plain ('/' :: more) plain short (.inr rfl),
        if_neg stays, next]
      dsimp only
      have follows : (decide (more = []) && nofollow) = false := by
        rcases some_ with some_ | off
        · simp [some_]
        · simp [off]
      rw [link, List.tail_cons, follows]
    · rw [on, List.tail_cons] at ends
      have some_ : q ≠ [] := by
        rintro rfl
        cases ends
      have plain_ := kind.resolve_right (by simp [some_])
      have found := lookup_real stays (Ne.symm noUp.1) ▸ next
      rw [cut_next stays short found plain_] at whole
      refine deeper whole ends fun more _ => ?_
      rw [pass_plain ('/' :: more) plain short (.inr rfl), if_neg stays, next]
      dsimp only
      split
      · rename_i t link _
        exact absurd link (plain_ t)
      · rfl

/-- A last link is not followed when it is to be kept. -/
theorem walk_last {fuel : Nat} (ends : v.walk nofollow fuel cur rel = .follow target rest) :
    rest ≠ [] ∨ nofollow = false := by
  induction fuel generalizing cur rel with
  | zero => cases ends
  | succ fuel ih =>
    cases rel with
    | nil => cases ends
    | cons a rel =>
      unfold View.walk at ends
      dsimp only at ends
      split at ends
      · exact ih ends
      split at ends
      · cases ends
      split at ends
      · rename_i follow
        cases ends
        rw [Bool.and_eq_false_iff, decide_eq_false_iff_not] at follow
        exact follow
      · exact ih ends

theorem upToSlash_append {p : Name} (closed : p.getLast? = some '/') (q : Name) :
    ∃ kept, upToSlash (p ++ q) = p ++ kept := by
  obtain ⟨init, rfl⟩ := List.getLast?_eq_some_iff.mp closed
  refine ⟨upToSlash q, ?_⟩
  unfold upToSlash
  rw [List.reverse_append, List.dropWhile_append]
  split
  · rename_i none_
    rw [List.isEmpty_iff.mp none_]
    simp
  · rw [List.reverse_append, List.reverse_reverse]

/-- **Once astray**, every further pass meets the same link again. -/
theorem resolveHops_stuck {front : Name} (closed : front.getLast? = some '/')
    (relative : target.head? ≠ some '/')
    (again : ∀ more, more ≠ [] ∨ nofollow = false →
      v.pass nofollow v.root (front ++ more) = .follow target more)
    (passes : Nat) (more : Name) (some_ : more ≠ [] ∨ nofollow = false) :
    v.resolveHops nofollow passes ('/' :: (front ++ more)) = .loop ∨
      v.resolveHops nofollow passes ('/' :: (front ++ more)) = .overrun := by
  induction passes generalizing more with
  | zero => exact .inl rfl
  | succ passes ih =>
    rw [View.resolveHops, List.drop_one, List.tail_cons, walk_eq_pass (by simp), again more some_]
    dsimp only
    by_cases long : vfsPathMax ≤ (followed ('/' :: (front ++ more)) target more).length
    · rw [if_pos long]
      exact .inr rfl
    obtain ⟨kept, cut⟩ : ∃ kept, upToSlash ('/' :: (front ++ more)) = '/' :: (front ++ kept) := by
      have closed' : ('/' :: front).getLast? = some '/' := by
        obtain ⟨init, rfl⟩ := List.getLast?_eq_some_iff.mp closed
        rw [← List.cons_append, List.getLast?_concat]
      exact upToSlash_append closed' more
    have text : followed ('/' :: (front ++ more)) target more =
        '/' :: (front ++ (kept ++ target ++ if more = [] then [] else '/' :: more)) := by
      rw [followed, if_neg relative, cut]
      simp
    rw [if_neg long, text]
    refine ih _ (some_.imp (fun some_ => ?_) id)
    rw [if_neg some_]
    simp

/-! ### Slashes at the end -/

theorem through_ne_overrun {onLink : Ino → List Name → Outcome}
    (onward : ∀ d cs, onLink d cs ≠ .overrun) (cs : List Name) :
    v.through nofollow onLink cur cs ≠ .overrun := by
  induction cs generalizing cur with
  | nil => exact nofun
  | cons c cs ih =>
    unfold View.through
    split
    · exact ih
    split
    · exact nofun
    split
    · exact onward _ _
    · exact ih

theorem onward_ne_overrun (passes : Nat) (cs : List Name) : v.onward nofollow passes cs ≠ .overrun := by
  have all : ∀ (hops : Nat) (cur : Ino) (cs : List Name),
      v.reference nofollow hops cur cs ≠ .overrun := by
    intro hops
    induction hops with
    | zero =>
      intro cur cs
      exact through_ne_overrun (fun _ _ => by exact nofun) cs
    | succ hops ih => exact fun _ cs => through_ne_overrun ih cs
  cases passes with
  | zero => exact nofun
  | succ hops => exact all hops v.root cs

/-- Nothing, or slashes at the end so that no component is the last of the text. -/
def Slashy (rel : Name) : Prop := rel = [] ∨ rel = ['/'] ∨ ['/', '/'] <:+ rel

theorem slashy_tail {a : Char} {rel : Name} (slashes : ['/', '/'] <:+ a :: rel) :
    rel ≠ [] ∧ (rel = ['/'] ∨ ['/', '/'] <:+ rel) := by
  rcases List.suffix_cons_iff.mp slashes with same | slashes
  · obtain rfl := (List.cons.inj same).2
    exact ⟨List.cons_ne_nil _ _, .inl rfl⟩
  · refine ⟨?_, .inr slashes⟩
    rintro rfl
    cases List.suffix_nil.mp slashes

theorem slashes_behind {c behind : Name} (plain : '/' ∉ c) (slashes : ['/', '/'] <:+ c ++ behind) :
    ['/', '/'] <:+ behind := by
  induction c with
  | nil => exact slashes
  | cons a c ih =>
    rw [List.mem_cons, not_or] at plain
    rcases List.suffix_cons_iff.mp slashes with same | slashes
    · exact absurd (List.cons.inj same).1 plain.1
    · exact ih plain.2 slashes

theorem nextComp_slashy {a : Char} {rel : Name} (slashy : Slashy (a :: rel)) :
    Slashy (nextComp (a :: rel)).2 ∧ ((nextComp (a :: rel)).1 ≠ [] → (nextComp (a :: rel)).2 ≠ []) := by
  rcases slashy with none_ | single | slashes
  · cases none_
  · obtain ⟨rfl, rfl⟩ := List.cons.inj single
    exact ⟨.inl rfl, fun some_ => absurd rfl some_⟩
  have comp : (nextComp (a :: rel)).1 = ((a :: rel).takeWhile (· ≠ '/')).take vfsNameMax := rfl
  have front : (a :: rel) = (nextComp (a :: rel)).1 ++ (a :: rel).drop (nextComp (a :: rel)).1.length := by
    have first : (nextComp (a :: rel)).1 <+: a :: rel :=
      comp ▸ (List.take_prefix _ _).trans (List.takeWhile_prefix _)
    rw [List.prefix_iff_eq_append.mp first]
  have rest := nextComp_rest (a :: rel)
  have plain : '/' ∉ (nextComp (a :: rel)).1 := by
    intro mem
    rw [comp] at mem
    simpa using List.mem_takeWhile_imp (List.mem_of_mem_take mem)
  generalize (nextComp (a :: rel)).1 = c at front rest plain ⊢
  generalize (a :: rel).drop c.length = behind at front rest
  rw [rest]
  rw [front] at slashes
  have slashes' := slashes_behind plain slashes
  obtain ⟨b, more, rfl⟩ : ∃ b more, behind = b :: more := by
    refine List.exists_cons_of_ne_nil ?_
    rintro rfl
    cases List.suffix_nil.mp slashes'
  obtain ⟨some_, tail⟩ := slashy_tail slashes'
  unfold behindSlash
  split
  · rename_i more' same
    obtain rfl := (List.cons.inj same).2
    exact ⟨.inr tail, fun _ => some_⟩
  · exact ⟨.inr (.inr slashes'), fun _ => List.cons_ne_nil _ _⟩

/-- A pass from `cur` ends at no link, or goes on with slashes at the end. -/
def KeepsNone (v : View) (cur : Ino) : Turn → Prop
  | .stop none => True
  | .stop (some i) => i = cur ∨ ∀ t, v.kind i ≠ some (.link t)
  | .follow _ rest => Slashy rest

theorem walk_slashy (cur : Ino) (fuel : Nat) {rel : Name} (slashy : Slashy rel) :
    KeepsNone v cur (v.walk true fuel cur rel) := by
  induction fuel generalizing cur rel with
  | zero => exact .inl rfl
  | succ fuel ih =>
    cases rel with
    | nil => exact .inl rfl
    | cons a rel =>
      obtain ⟨slashy, some_⟩ := nextComp_slashy slashy
      unfold View.walk
      dsimp only
      split
      · exact ih cur slashy
      rename_i comp
      have some_ := some_ fun none_ => comp (.inl none_)
      split
      · trivial
      rename_i next _
      split
      · exact slashy
      · rename_i other
        have plain : ∀ t, v.kind next ≠ some (.link t) := fun t link =>
          other t link (by simp [some_])
        have rest := ih next slashy
        cases ends : v.walk true fuel next (nextComp (a :: rel)).2 with
        | stop found =>
          cases found with
          | none => trivial
          | some i =>
            rw [ends] at rest
            rcases rest with rfl | rest
            · exact .inr plain
            · exact .inr rest
        | follow target behind =>
          rw [ends] at rest
          exact rest

/-- **No link is kept** where slashes stand at the end of the path. -/
theorem resolveHops_slashy {passes : Nat} {buf : Name} (root : ∀ t, v.kind v.root ≠ some (.link t))
    (slashes : ['/', '/'] <:+ buf) (found : v.resolveHops true passes buf = .found i) :
    ∀ t, v.kind i ≠ some (.link t) := by
  induction passes generalizing buf with
  | zero => cases found
  | succ passes ih =>
    obtain ⟨a, rel, rfl⟩ : ∃ a rel, buf = a :: rel := by
      refine List.exists_cons_of_ne_nil ?_
      rintro rfl
      cases List.suffix_nil.mp slashes
    have slashy : Slashy rel := .inr (slashy_tail slashes).2
    have pass : KeepsNone v v.root _ := walk_slashy v.root (a :: rel).length slashy
    rw [View.resolveHops, List.drop_one, List.tail_cons] at found
    cases ends : v.walk true (a :: rel).length v.root rel with
    | stop out =>
      rw [ends] at found pass
      cases out with
      | none => cases found
      | some j =>
        obtain rfl := Outcome.found.inj found
        rcases pass with rfl | plain
        · exact root
        · exact plain
    | follow target rest =>
      have some_ := (walk_last ends).resolve_right (by rintro ⟨⟩)
      rw [ends] at found pass
      dsimp only at found
      split at found
      · cases found
      refine ih ?_ found
      rw [followed, if_neg some_]
      refine List.suffix_append_of_suffix ?_
      rcases pass with none_ | rfl | slashes
      · exact absurd none_ some_
      · exact List.suffix_refl _
      · exact slashes.trans (List.suffix_cons _ _)

/-! ### Both ways -/

theorem link_not_dir {target : Name} (root : ∃ c n, v.kind v.root = some (.dir c n)) :
    v.kind v.root ≠ some (.link target) := by
  obtain ⟨c, n, dir⟩ := root
  rw [dir]
  exact nofun

/-- **A path that is resolved as it should be** is straight, unless a component is cut or
the reference walk itself needs too many links. -/
theorem straight_of_agrees {passes : Nat} {rel : Name} (root : ∃ c n, v.kind v.root = some (.dir c n))
    (fit : v.NamesFit) (noUp : v.NoUp) (noUp' : dotdot ∉ components rel)
    (agrees : v.resolveHops nofollow passes ('/' :: rel) = v.onward nofollow passes (components rel)) :
    Straight v nofollow passes ('/' :: rel) ∨ MeetsCut v nofollow passes ('/' :: rel) ∨
      v.onward nofollow passes (components rel) = .loop := by
  induction passes generalizing rel with
  | zero => exact .inl trivial
  | succ hops ih =>
    by_cases cut : v.Cut v.root (components rel)
    · exact .inr (.inl (.inl (by rwa [components_slash])))
    have pass : Agrees v nofollow hops v.root rel _ := pass_reference hops fit cut noUp'
    unfold Straight MeetsCut
    rw [components_slash, List.drop_one, List.tail_cons]
    cases ends : v.pass nofollow v.root rel with
    | stop found => exact .inl ⟨cut, trivial⟩
    | follow target rest =>
      dsimp only
      rw [ends] at pass
      have whole : v.resolveHops nofollow (hops + 1) ('/' :: rel) =
          if vfsPathMax ≤ (followed ('/' :: rel) target rest).length then .overrun
          else v.resolveHops nofollow hops (followed ('/' :: rel) target rest) := by
        rw [View.resolveHops, List.drop_one, List.tail_cons, walk_eq_pass (by simp), ends]
      by_cases inPlace : InPlace ('/' :: rel) target rest
      swap
      · -- the link is met again and again
        have relative := inPlace
        rw [InPlace, not_or, not_and_or, not_not] at relative
        have some_ : rel ≠ [] := by
          rintro rfl
          cases ends
        rw [List.getLast?_cons_of_ne_nil some_] at relative
        obtain ⟨front, rfl, closed, again⟩ := pass_follow noUp' cut ends relative.2
        refine .inr (.inr ?_)
        rcases resolveHops_stuck closed relative.1 again (hops + 1) rest (walk_last ends) with loop | over_
        · rw [← agrees, loop]
        · exact absurd (agrees.symm.trans over_) (onward_ne_overrun _ _)
      by_cases kept : nofollow = true → components rest ≠ []
      swap
      · -- the reference walk keeps the link
        rw [Classical.not_imp, not_not] at kept
        obtain ⟨i, link, found⟩ := pass.1 kept
        have some_ := (walk_last ends).resolve_right (by simp [kept.1])
        rw [whole, View.onward, found] at agrees
        split at agrees
        · cases agrees
        obtain rfl := kept.1
        refine absurd link (resolveHops_slashy (fun t => link_not_dir root) ?_ agrees target)
        rw [followed, if_neg some_]
        exact List.suffix_append_of_suffix (slashes_of_components kept.2 some_)
      obtain ⟨absolute, names, same⟩ := followed_reference inPlace kept pass
      rw [whole, View.onward, same] at agrees
      rw [View.onward, same]
      by_cases long : vfsPathMax ≤ (followed ('/' :: rel) target rest).length
      · rw [if_pos long] at agrees
        exact absurd agrees.symm (onward_ne_overrun _ _)
      rw [if_neg long] at agrees
      obtain ⟨rel', text⟩ := List.head?_eq_some_iff.mp absolute
      rw [text] at agrees names long ⊢
      rw [components_slash] at agrees names ⊢
      have noUp'' : dotdot ∉ components rel' := by
        intro up
        rcases names _ up with mem | ⟨i, t, link, mem⟩
        · exact noUp' mem
        · exact noUp i t link mem
      rcases ih noUp'' agrees with straight | meets | loop
      · exact .inl ⟨cut, inPlace, kept, by omega, straight⟩
      · exact .inr (.inl (.inr meets))
      · exact .inr (.inr loop)

deriving instance DecidableEq for Turn

/-- A path of short components is not cut. -/
theorem not_cut {cs : List Name} (short : ∀ c ∈ cs, c.length ≤ vfsNameMax) : ¬v.Cut cur cs := by
  induction cs generalizing cur with
  | nil => exact id
  | cons c cs ih =>
    have rest : ∀ {d : Ino}, ¬v.Cut d cs := ih fun d mem => short d (List.mem_cons_of_mem _ mem)
    unfold View.Cut
    rw [if_neg (Nat.not_lt_of_le (short c List.mem_cons_self))]
    split
    · exact rest
    split
    · exact id
    split
    · exact id
    · exact rest

/-- What a view of ramfs keeps: names that fit, and no target with a component `..`. -/
def orderly : Priv → Bool
  | .dir children _ => children.all fun e => e.1.length ≤ vfsNameMax
  | .file => true
  | .link target => dotdot ∉ components target

variable {w : World} {held : Ino → Nat} {pend : Ino → Int}

theorem view_root (sound : Sound w none held pend) :
    ∃ c n, (view w).kind (view w).root = some (.dir c n) := by
  obtain ⟨⟨c, n⟩, at_⟩ := Option.ne_none_iff_exists'.mp sound.tree.rootDir
  obtain ⟨x, was, priv⟩ := inode_of_dirOf at_
  exact ⟨c, n, Option.map_eq_some_iff.mpr ⟨x, was, priv⟩⟩

theorem namesFit_of_check (sound : Sound w none held pend) (checked : checkKinds w orderly = true) :
    (view w).NamesFit := by
  intro d children count kind e mem
  have here := List.all_eq_true.mp (kind_of_check sound checked kind) e mem
  simpa using here

theorem noUp_of_check (sound : Sound w none held pend) (checked : checkKinds w orderly = true) :
    (view w).NoUp := by
  intro i target kind
  have here := kind_of_check sound checked kind
  simpa [orderly] using here

/-- A directory `b` in `a`, and a link to `a`. -/
def linkCalls (target : Name) : List Call :=
  [.mkdir ['/', 'a'] true fun _ => true, .mkdir ['/', 'a', '/', 'b'] true fun _ => true,
    .symlink target ['/', 'l'] true fun _ => true]

end AtmKoala.Vfs
