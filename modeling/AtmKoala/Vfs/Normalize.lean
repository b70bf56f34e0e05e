import Mathlib.Algebra.Order.BigOperators.Group.List
import Mathlib.Algebra.Order.Group.Nat
import Mathlib.Data.List.TakeWhile
import AtmKoala.Vfs.Model

/-!
The paths of the `atm_posix_*` wrappers (`atm_posix.c`).

A wrapper puts the working directory in front of a relative path and normalises the
result lexically before it calls the VFS.

* `components` are the names a string spells between its slashes, and `render` writes
  a list of names down again.
* `reduce` is what `.` and `..` do to a list of names.
* `posixNormalize_eq`: what `posix_normalize` writes is the rendered list of what its
  input spells, reduced. A string that fits its buffer is never refused
  (`posixNormalize_short`).
* `posix_normalize`: it refuses exactly where a prefix of the names leaves a path that does
  not fit; what it writes is `Canonical` and normalises to itself.
* `pathSplit_render`: how `path_split` takes a normalised path apart.
-/

namespace AtmKoala.Vfs

/-! ### The wrappers -/

/-- What `..` leaves of the output of `posix_normalize`. -/
def popLast (out : Name) : Name :=
  if out.length ≤ 1 then out
  else
    let kept := (upToSlash out).length
    out.take (if kept ≤ 1 then 1 else kept - 1)

/-- The loop of `posix_normalize`; `fuel` is at least the length of `p`. -/
def normalizeFrom : Nat → Name → Name → Option Name
  | 0, out, _ => some out
  | fuel + 1, out, p =>
    let p := p.dropWhile (· = '/')
    if p = [] then some out
    else
      let part := p.takeWhile (· ≠ '/')
      let rest := p.drop part.length
      if part = dot then normalizeFrom fuel out rest
      else if part = dotdot then normalizeFrom fuel (popLast out) rest
      else if out.length > 1 then
        if vfsPathMax ≤ out.length + 1 + part.length then none
        else normalizeFrom fuel (out ++ '/' :: part) rest
      else if vfsPathMax ≤ out.length + part.length then none
      else normalizeFrom fuel (out ++ part) rest

def posixNormalize (raw : Name) : Option Name :=
  if raw.head? ≠ some '/' then none else normalizeFrom raw.length ['/'] raw

def posixBasepath (base path : Name) : Option Name :=
  if path = [] ∨ base.head? ≠ some '/' then none
  else if path.head? = some '/' then
    if vfsPathMax ≤ path.length then none else posixNormalize path
  else if vfsPathMax ≤ base.length + 1 + path.length then none
  else posixNormalize (base ++ (if base.getLast? = some '/' then [] else ['/']) ++ path)

/-! ### Components -/

/-- The names between the slashes of a string. -/
def components (p : Name) : List Name := (p.splitOnP (· = '/')).filter (· ≠ [])

/-- A name without a slash in it. -/
def Plain (c : Name) : Prop := c ≠ [] ∧ '/' ∉ c

@[simp] theorem components_nil : components [] = [] := rfl

theorem components_append_slash (p q : Name) :
    components (p ++ '/' :: q) = components p ++ components q := by
  unfold components
  rw [List.splitOnP_append_cons _ _ (by simp), List.filter_append]

theorem components_slash (p : Name) : components ('/' :: p) = components p :=
  components_append_slash [] p

theorem components_plain {c : Name} (plain : Plain c) : components c = [c] := by
  have whole : c.splitOnP (· = '/') = [c] := by
    refine List.splitOnP_eq_singleton fun a mem => decide_eq_false ?_
    rintro rfl
    exact plain.2 mem
  simp [components, whole, plain.1]

theorem components_cons {c : Name} (plain : Plain c) (p : Name) :
    components (c ++ '/' :: p) = c :: components p := by
  rw [components_append_slash, components_plain plain]
  rfl

theorem not_mem_splitOnP {α : Type} {sep : α → Bool} {p c : List α} (part : c ∈ p.splitOnP sep)
    {a : α} (mem : a ∈ c) : sep a = false := by
  induction p generalizing c with
  | nil =>
    rw [List.splitOnP_nil, List.mem_singleton] at part
    rw [part] at mem
    cases mem
  | cons b p ih =>
    rw [List.splitOnP_cons_eq_if_modifyHead] at part
    split at part
    · rcases List.mem_cons.mp part with rfl | later
      · cases mem
      · exact ih later mem
    · rename_i plain
      obtain ⟨hd, tl, parts⟩ := List.exists_cons_of_ne_nil (List.splitOnP_ne_nil sep p)
      rw [parts] at ih part
      rw [List.modifyHead_cons] at part
      rcases List.mem_cons.mp part with rfl | later
      · rcases List.mem_cons.mp mem with rfl | mem
        · simpa using plain
        · exact ih List.mem_cons_self mem
      · exact ih (List.mem_cons_of_mem _ later) mem

theorem plain_of_mem {p c : Name} (mem : c ∈ components p) : Plain c := by
  obtain ⟨part, some_⟩ := List.mem_filter.mp mem
  refine ⟨by simpa using some_, fun slash => ?_⟩
  have plain := not_mem_splitOnP part slash
  exact absurd rfl (of_decide_eq_false plain)

theorem components_dropWhile (p : Name) : components (p.dropWhile (· = '/')) = components p := by
  induction p with
  | nil => rfl
  | cons a p ih =>
    by_cases slash : a = '/'
    · rw [List.dropWhile_cons, if_pos (by simpa using slash), ih, slash, components_slash]
    · rw [List.dropWhile_cons, if_neg (by simpa using slash)]

/-- The first component, and what is behind it. -/
theorem components_takeWhile {a : Char} {p : Name} (first : a ≠ '/') :
    Plain ((a :: p).takeWhile (· ≠ '/')) ∧ components (a :: p) =
      (a :: p).takeWhile (· ≠ '/') ::
        components ((a :: p).drop ((a :: p).takeWhile (· ≠ '/')).length) := by
  have plain : Plain ((a :: p).takeWhile (· ≠ '/')) := by
    refine ⟨?_, fun mem => ?_⟩
    · rw [List.takeWhile_cons, if_pos (by simpa using first)]
      exact List.cons_ne_nil _ _
    · simpa using List.mem_takeWhile_imp mem
  have whole := List.takeWhile_append_dropWhile (p := (· ≠ '/')) (l := a :: p)
  have rest : (a :: p).drop ((a :: p).takeWhile (· ≠ '/')).length =
      (a :: p).dropWhile (· ≠ '/') :=
    (congrArg _ whole.symm).trans List.drop_left
  refine ⟨plain, ?_⟩
  rw [rest]
  nth_rewrite 1 [← whole]
  cases behind : (a :: p).dropWhile (· ≠ '/') with
  | nil => rw [List.append_nil, components_plain plain, components_nil]
  | cons b q =>
    have slash : b = '/' := by
      have head := List.head?_dropWhile_not (· ≠ '/') (a :: p)
      rw [behind, List.head?_cons] at head
      simpa using head
    rw [slash, components_cons plain, components_slash]

/-! ### Rendering -/

/-- A list of names written as a path. -/
def render (cs : List Name) : Name := if cs = [] then ['/'] else cs.flatMap ('/' :: ·)

theorem render_snoc (cs : List Name) (c : Name) :
    render (cs ++ [c]) = cs.flatMap ('/' :: ·) ++ '/' :: c := by
  rw [render, if_neg (by simp), List.flatMap_append]
  simp

theorem length_render {cs : List Name} (some_ : cs ≠ []) (plain : ∀ c ∈ cs, Plain c) :
    1 < (render cs).length := by
  obtain ⟨init, c, rfl⟩ : ∃ init c, cs = init ++ [c] :=
    ⟨cs.dropLast, cs.getLast some_, (List.dropLast_append_getLast some_).symm⟩
  have pos := List.length_pos_iff.mpr (plain c (by simp)).1
  rw [render_snoc, List.length_append, List.length_cons]
  omega

theorem head_render (cs : List Name) : (render cs).head? = some '/' := by
  cases cs with
  | nil => rfl
  | cons c cs => rfl

theorem upToSlash_render {c : Name} (plain : Plain c) (p : Name) :
    upToSlash (p ++ '/' :: c) = p ++ ['/'] := by
  have back : (p ++ '/' :: c).reverse = c.reverse ++ '/' :: p.reverse := by simp
  have kept : ∀ a ∈ c.reverse, decide (a ≠ '/') = true := by
    intro a mem
    rw [decide_eq_true_eq]
    rintro rfl
    exact plain.2 (List.mem_reverse.mp mem)
  rw [upToSlash, back, List.dropWhile_append_of_pos kept]
  simp

theorem components_flatMap {cs : List Name} (plain : ∀ c ∈ cs, Plain c) :
    components (cs.flatMap ('/' :: ·)) = cs := by
  induction cs with
  | nil => rfl
  | cons c cs ih =>
    have here := plain c List.mem_cons_self
    have rest := ih fun d mem => plain d (List.mem_cons_of_mem _ mem)
    rw [List.flatMap_cons, List.cons_append, components_slash]
    cases cs with
    | nil => rw [List.flatMap_nil, List.append_nil, components_plain here]
    | cons d cs =>
      rw [List.flatMap_cons, List.cons_append] at rest ⊢
      rw [components_cons here, ← components_slash, rest]

/-- What is written down is read again. -/
theorem components_render {cs : List Name} (plain : ∀ c ∈ cs, Plain c) :
    components (render cs) = cs := by
  unfold render
  split
  · rename_i none_
    rw [none_]
    rfl
  · exact components_flatMap plain

/-! ### Normalisation -/

/-- One more component behind a list of names. -/
def push (stack : List Name) (c : Name) : List Name :=
  if c = dot then stack else if c = dotdot then stack.dropLast else stack ++ [c]

/-- **What `.` and `..` leave** of a list of names. -/
def reduce (cs : List Name) : List Name := cs.foldl push []

/-- The same where the path written so far must fit its buffer. -/
def pushFits (stack : List Name) (c : Name) : Option (List Name) :=
  if c ≠ dot ∧ c ≠ dotdot ∧ vfsPathMax ≤ (render (push stack c)).length then none
  else some (push stack c)

theorem popLast_render {stack : List Name} (plain : ∀ c ∈ stack, Plain c) :
    popLast (render stack) = render stack.dropLast := by
  by_cases none_ : stack = []
  · subst none_
    rfl
  obtain ⟨init, c, rfl⟩ : ∃ init c, stack = init ++ [c] :=
    ⟨stack.dropLast, stack.getLast none_, (List.dropLast_append_getLast none_).symm⟩
  have long := length_render none_ plain
  rw [popLast, if_neg (by omega), render_snoc, upToSlash_render (plain c (by simp)),
    List.dropLast_concat]
  dsimp only
  rw [List.length_append, List.length_singleton]
  cases init with
  | nil => rfl
  | cons d init =>
    rw [if_neg (by simp), Nat.add_sub_cancel, List.take_left, render, if_neg (List.cons_ne_nil _ _)]

theorem plain_push {stack : List Name} (plain : ∀ c ∈ stack, Plain c) {c : Name} (next : Plain c) :
    ∀ d ∈ push stack c, Plain d := by
  intro d mem
  unfold push at mem
  split at mem
  · exact plain d mem
  split at mem
  · exact plain d (List.dropLast_subset _ mem)
  · rcases List.mem_append.mp mem with mem | mem
    · exact plain d mem
    · rw [List.mem_singleton.mp mem]
      exact next

/-- **The loop** of `posix_normalize` renders the list it keeps. -/
theorem normalizeFrom_eq {fuel : Nat} {stack : List Name} {p : Name} (enough : p.length ≤ fuel)
    (plain : ∀ c ∈ stack, Plain c) :
    normalizeFrom fuel (render stack) p =
      ((components p).foldlM pushFits stack).map render := by
  induction fuel generalizing stack p with
  | zero =>
    obtain rfl := List.length_eq_zero_iff.mp (Nat.le_zero.mp enough)
    rfl
  | succ fuel ih =>
    rw [normalizeFrom, ← components_dropWhile]
    have shorter := (List.dropWhile_suffix (p := (· = '/')) (l := p)).length_le
    have head := List.head?_dropWhile_not (· = '/') p
    generalize p.dropWhile (· = '/') = q at shorter head ⊢
    dsimp only
    cases q with
    | nil => rfl
    | cons a q =>
      have first : a ≠ '/' := by simpa using head
      obtain ⟨next, split⟩ := components_takeWhile (p := q) first
      rw [if_neg (List.cons_ne_nil _ _), split, List.foldlM_cons]
      have pos := List.length_pos_iff.mpr next.1
      have less : ((a :: q).drop ((a :: q).takeWhile (· ≠ '/')).length).length ≤ fuel := by
        rw [List.length_drop]
        omega
      generalize (a :: q).takeWhile (· ≠ '/') = part at next less ⊢
      generalize (a :: q).drop part.length = rest at less ⊢
      by_cases stays : part = dot
      · rw [if_pos stays, ih less plain]
        simp [pushFits, push, stays]
      rw [if_neg stays]
      by_cases up : part = dotdot
      · have kept : ∀ c ∈ stack.dropLast, Plain c := fun c mem =>
          plain c (List.dropLast_subset _ mem)
        have taken : pushFits stack part = some stack.dropLast := by
          rw [pushFits, if_neg fun all => all.2.1 up, push, if_neg stays, if_pos up]
        rw [if_pos up, popLast_render plain, ih less kept, taken]
        rfl
      rw [if_neg up]
      have pushed : push stack part = stack ++ [part] := by rw [push, if_neg stays, if_neg up]
      have kept := plain_push plain next
      rw [pushed] at kept
      have written := render_snoc stack part
      by_cases none_ : stack = []
      · subst none_
        have room : (render [part]).length = 1 + part.length := by
          simp [render, Nat.add_comm]
        by_cases fits : vfsPathMax ≤ 1 + part.length
        · have refused : pushFits [] part = none :=
            if_pos ⟨stays, up, by rw [pushed, List.nil_append, room]; exact fits⟩
          rw [refused]
          simp [render, fits]
        · have taken : pushFits [] part = some [part] := by
            rw [pushFits, pushed, if_neg]
            · rfl
            · rintro ⟨-, -, long⟩
              rw [List.nil_append, room] at long
              exact fits long
          rw [taken]
          have next : normalizeFrom fuel (render [part]) rest = _ := ih less kept
          simpa [render, fits] using next
      · have long := length_render none_ plain
        have whole : render (stack ++ [part]) = render stack ++ '/' :: part := by
          rw [written, render, if_neg none_]
        have room : (render (stack ++ [part])).length = (render stack).length + 1 + part.length := by
          rw [whole, List.length_append, List.length_cons]
          omega
        rw [if_pos long]
        by_cases fits : vfsPathMax ≤ (render stack).length + 1 + part.length
        · have refused : pushFits stack part = none :=
            if_pos ⟨stays, up, by rw [pushed, room]; exact fits⟩
          rw [if_pos fits, refused]
          rfl
        · have taken : pushFits stack part = some (stack ++ [part]) := by
            rw [pushFits, pushed, if_neg]
            rintro ⟨-, -, long⟩
            rw [room] at long
            exact fits long
          rw [if_neg fits, taken, ← whole, ih less kept]
          rfl

/-- **`posix_normalize`** writes down what its input spells, reduced, as long as that fits. -/
theorem posixNormalize_eq {raw : Name} (absolute : raw.head? = some '/') :
    posixNormalize raw = ((components raw).foldlM pushFits []).map render := by
  rw [posixNormalize, if_neg (not_not.mpr absolute)]
  show normalizeFrom raw.length (render []) raw = _
  exact normalizeFrom_eq le_rfl nofun

/-! ### Lengths -/

/-- The characters of some names, with a slash for each. -/
def weight (cs : List Name) : Nat := (cs.map fun c => c.length + 1).sum

theorem length_flatMap (cs : List Name) : (cs.flatMap ('/' :: ·)).length = weight cs := by
  rw [List.length_flatMap]
  rfl

theorem weight_sublist {cs ds : List Name} (sub : cs.Sublist ds) : weight cs ≤ weight ds :=
  (sub.map _).sum_le_sum fun _ _ => Nat.zero_le _

theorem weight_push (stack : List Name) (c : Name) :
    weight (push stack c) ≤ weight stack + (c.length + 1) := by
  unfold push
  split
  · exact Nat.le_add_right ..
  split
  · exact Nat.le_trans (weight_sublist (List.dropLast_sublist stack)) (Nat.le_add_right ..)
  · simp [weight]

theorem length_render_le (cs : List Name) : (render cs).length ≤ max 1 (weight cs) := by
  unfold render
  split
  · exact Nat.le_max_left ..
  · rw [length_flatMap]
    exact Nat.le_max_right ..

theorem sum_splitOnP {α : Type} (sep : α → Bool) (p : List α) :
    ((p.splitOnP sep).map fun c => c.length + 1).sum = p.length + 1 := by
  induction p with
  | nil => simp
  | cons a p ih =>
    rw [List.splitOnP_cons_eq_if_modifyHead]
    split
    · rw [List.map_cons, List.sum_cons, ih]
      simp only [List.length_nil, List.length_cons]
      omega
    · obtain ⟨hd, tl, parts⟩ := List.exists_cons_of_ne_nil (List.splitOnP_ne_nil sep p)
      rw [parts, List.map_cons, List.sum_cons] at ih
      rw [parts, List.modifyHead_cons, List.map_cons, List.sum_cons]
      simp only [List.length_cons]
      omega

theorem weight_components {raw : Name} (absolute : raw.head? = some '/') :
    weight (components raw) ≤ raw.length := by
  obtain ⟨p, rfl⟩ : ∃ p, raw = '/' :: p := List.head?_eq_some_iff.mp absolute
  have whole := sum_splitOnP (· = '/') p
  rw [components_slash, List.length_cons]
  exact (weight_sublist List.filter_sublist).trans (Nat.le_of_eq whole)

theorem foldlM_pushFits {cs stack : List Name} (short : weight stack + weight cs < vfsPathMax) :
    cs.foldlM pushFits stack = some (cs.foldl push stack) := by
  induction cs generalizing stack with
  | nil => rfl
  | cons c cs ih =>
    have more := weight_push stack c
    have cons : weight (c :: cs) = c.length + 1 + weight cs := by simp [weight]
    have room := length_render_le (push stack c)
    have taken : pushFits stack c = some (push stack c) := by
      refine if_neg fun all => ?_
      have long := all.2.2
      unfold vfsPathMax at *
      omega
    rw [List.foldlM_cons, taken]
    exact ih (by omega)

theorem weight_reduce (cs : List Name) : weight (reduce cs) ≤ weight cs := by
  have fold : ∀ (cs stack : List Name), weight (cs.foldl push stack) ≤ weight stack + weight cs := by
    intro cs
    induction cs with
    | nil => exact fun _ => le_rfl
    | cons c cs ih =>
      intro stack
      have more := weight_push stack c
      have rest := ih (push stack c)
      have cons : weight (c :: cs) = c.length + 1 + weight cs := by simp [weight]
      rw [List.foldl_cons]
      omega
  have whole := fold cs []
  have none_ : weight [] = 0 := rfl
  rw [none_, Nat.zero_add] at whole
  exact whole

/-- The names that are left are names of the path. -/
theorem plain_reduce {cs : List Name} (plain : ∀ c ∈ cs, Plain c) : ∀ c ∈ reduce cs, Plain c := by
  have fold : ∀ (cs stack : List Name), (∀ c ∈ cs, Plain c) → (∀ c ∈ stack, Plain c) →
      ∀ c ∈ cs.foldl push stack, Plain c := by
    intro cs
    induction cs with
    | nil => exact fun _ _ plain => plain
    | cons c cs ih =>
      intro stack next kept
      exact ih _ (fun d mem => next d (List.mem_cons_of_mem _ mem))
        (plain_push kept (next c List.mem_cons_self))
  exact fold cs [] plain nofun

theorem length_normal {raw : Name} (absolute : raw.head? = some '/') (short : raw.length < vfsPathMax) :
    (render (reduce (components raw))).length < vfsPathMax := by
  have written := length_render_le (reduce (components raw))
  have less := weight_reduce (components raw)
  have weigh := weight_components absolute
  unfold vfsPathMax at *
  omega

/-- **What fits is not refused.** -/
theorem posixNormalize_short {raw : Name} (absolute : raw.head? = some '/')
    (short : raw.length < vfsPathMax) :
    posixNormalize raw = some (render (reduce (components raw))) := by
  have weigh := weight_components absolute
  rw [posixNormalize_eq absolute, foldlM_pushFits (by simp only [weight, List.map_nil, List.sum_nil] at *; omega)]
  rfl

/-! ### What is refused -/

theorem render_intercalate (cs : List Name) : render cs = '/' :: ['/'].intercalate cs := by
  cases cs with
  | nil => rfl
  | cons c cs =>
    rw [render, if_neg (List.cons_ne_nil _ _)]
    induction cs generalizing c with
    | nil => simp [List.intercalate]
    | cons d cs ih =>
      rw [List.flatMap_cons, ih d]
      simp [List.intercalate, List.intersperse]

theorem length_render_dropLast (stack : List Name) :
    (render stack.dropLast).length ≤ (render stack).length := by
  have less := weight_sublist (List.dropLast_sublist stack)
  have pos : 0 < (render stack).length := by
    rw [render_intercalate, List.length_cons]
    exact Nat.succ_pos _
  by_cases none_ : stack.dropLast = []
  · rw [none_]
    exact pos
  · have some_ : stack ≠ [] := by
      rintro rfl
      exact none_ rfl
    rw [render, if_neg none_, render, if_neg some_, length_flatMap, length_flatMap]
    exact less

/-- One component is refused exactly where what it would leave does not fit. -/
theorem pushFits_of_fits {stack : List Name} (fits : (render stack).length < vfsPathMax) (c : Name) :
    pushFits stack c =
      if (render (push stack c)).length < vfsPathMax then some (push stack c) else none := by
  unfold pushFits
  by_cases room : (render (push stack c)).length < vfsPathMax
  · rw [if_pos room, if_neg]
    rintro ⟨-, -, long⟩
    exact Nat.not_le_of_lt room long
  · rw [if_neg room, if_pos]
    refine ⟨?_, ?_, Nat.le_of_not_lt room⟩
    · rintro rfl
      exact room (by rwa [push, if_pos rfl])
    · rintro rfl
      rw [push, if_neg (by decide), if_pos rfl] at room
      exact room (Nat.lt_of_le_of_lt (length_render_dropLast stack) fits)

/-- Every prefix of the components leaves a list that fits. -/
def PrefixesFit (stack cs : List Name) : Prop :=
  ∀ k, (render ((cs.take k).foldl push stack)).length < vfsPathMax

theorem prefixesFit_cons {stack cs : List Name} {c : Name}
    (fits : (render stack).length < vfsPathMax) :
    PrefixesFit stack (c :: cs) ↔ PrefixesFit (push stack c) cs := by
  constructor
  · intro all k
    exact all (k + 1)
  · intro all k
    cases k with
    | zero => exact fits
    | succ k => exact all k

theorem foldlM_pushFits_iff {cs stack : List Name} (fits : (render stack).length < vfsPathMax)
    (left : List Name) :
    cs.foldlM pushFits stack = some left ↔ PrefixesFit stack cs ∧ cs.foldl push stack = left := by
  induction cs generalizing stack with
  | nil =>
    have all : PrefixesFit stack [] := fun k => by rwa [List.take_nil]
    rw [List.foldlM_nil, List.foldl_nil]
    exact ⟨fun same => ⟨all, Option.some.inj same⟩, fun same => congrArg some same.2⟩
  | cons c cs ih =>
    rw [List.foldlM_cons, pushFits_of_fits fits, prefixesFit_cons fits, List.foldl_cons]
    by_cases room : (render (push stack c)).length < vfsPathMax
    · rw [if_pos room]
      exact ih room
    · rw [if_neg room]
      refine ⟨nofun, fun all => absurd (all.1 0) ?_⟩
      rwa [List.take_zero, List.foldl_nil]

/-! ### Canonical paths -/

/-- **A canonical path**: absolute, no empty name, no `.` and no `..` between its slashes,
and no slash behind the last name. -/
structure Canonical (p : Name) : Prop where
  absolute : p.head? = some '/'
  named : p ≠ ['/'] → ∀ c ∈ p.tail.splitOnP (· = '/'), c ≠ [] ∧ c ≠ dot ∧ c ≠ dotdot
  bare : p.getLast? = some '/' → p = ['/']

/-- A list of names in which `.` and `..` have had their effect. -/
def Settled (cs : List Name) : Prop := ∀ c ∈ cs, Plain c ∧ c ≠ dot ∧ c ≠ dotdot

theorem settled_push {stack : List Name} {c : Name} (kept : Settled stack) (next : Plain c) :
    Settled (push stack c) := by
  intro d mem
  unfold push at mem
  split at mem
  · exact kept d mem
  rename_i dot_
  split at mem
  · exact kept d (List.dropLast_subset _ mem)
  rename_i dotdot_
  rcases List.mem_append.mp mem with mem | mem
  · exact kept d mem
  · rw [List.mem_singleton.mp mem]
    exact ⟨next, dot_, dotdot_⟩

theorem settled_foldl {cs stack : List Name} (plain : ∀ c ∈ cs, Plain c) (kept : Settled stack) :
    Settled (cs.foldl push stack) := by
  induction cs generalizing stack with
  | nil => exact kept
  | cons c cs ih =>
    exact ih (fun d mem => plain d (List.mem_cons_of_mem _ mem))
      (settled_push kept (plain c List.mem_cons_self))

theorem settled_reduce (raw : Name) : Settled (reduce (components raw)) :=
  settled_foldl (fun _ => plain_of_mem) nofun

/-- Nothing is left to do for `.` and `..`. -/
theorem reduce_settled {cs : List Name} (kept : Settled cs) : reduce cs = cs := by
  have fold : ∀ (cs stack : List Name), Settled cs → cs.foldl push stack = stack ++ cs := by
    intro cs
    induction cs with
    | nil => exact fun stack _ => (List.append_nil stack).symm
    | cons c cs ih =>
      intro stack kept
      obtain ⟨-, dot_, dotdot_⟩ := kept c List.mem_cons_self
      rw [List.foldl_cons, push, if_neg dot_, if_neg dotdot_,
        ih _ fun d mem => kept d (List.mem_cons_of_mem _ mem), List.append_assoc]
      rfl
  exact fold cs [] kept

theorem canonical_render {cs : List Name} (kept : Settled cs) : Canonical (render cs) := by
  have plain : ∀ c ∈ cs, Plain c := fun c mem => (kept c mem).1
  refine ⟨head_render cs, fun some_ c mem => ?_, fun slash => ?_⟩
  · have names : cs ≠ [] := by
      rintro rfl
      exact some_ rfl
    have parts : (render cs).tail.splitOnP (· = '/') = cs := by
      rw [render_intercalate, List.tail_cons]
      exact List.splitOn_intercalate '/' (fun c mem => (plain c mem).2) names
    rw [parts] at mem
    exact ⟨(kept c mem).1.1, (kept c mem).2⟩
  · by_contra some_
    obtain ⟨init, c, rfl⟩ : ∃ init c, cs = init ++ [c] := by
      have names : cs ≠ [] := by
        rintro rfl
        exact some_ rfl
      exact ⟨cs.dropLast, cs.getLast names, (List.dropLast_append_getLast names).symm⟩
    have last := plain c (by simp)
    rw [render_snoc, List.getLast?_append, List.getLast?_cons, Option.some_or,
      Option.some_inj] at slash
    have inside := List.getLast_mem last.1
    rw [List.getLast?_eq_some_getLast last.1, Option.getD_some] at slash
    rw [slash] at inside
    exact last.2 inside

/-- **`posix_normalize`** of an absolute string: the names between its slashes, with `.` and
`..` carried out, behind one slash each; refused exactly where some prefix of the names
leaves a path that does not fit. What it writes is canonical and normalises to itself. -/
theorem posix_normalize {raw : Name} (absolute : raw.head? = some '/') :
    (posixNormalize raw = none ↔
      ∃ k, vfsPathMax ≤ ('/' :: ['/'].intercalate (reduce ((components raw).take k))).length) ∧
    ∀ out, posixNormalize raw = some out →
      out = '/' :: ['/'].intercalate (reduce (components raw)) ∧ out.length < vfsPathMax ∧
        Canonical out ∧ posixNormalize out = some out := by
  have empty : (render []).length < vfsPathMax := by decide
  have steps : ∀ left, (components raw).foldlM pushFits [] = some left ↔ _ :=
    foldlM_pushFits_iff empty
  rw [posixNormalize_eq absolute]
  constructor
  · rw [Option.map_eq_none_iff]
    constructor
    · intro refused
      by_contra all
      have fits : PrefixesFit [] (components raw) := by
        intro k
        rw [← Nat.not_le]
        intro long
        rw [render_intercalate] at long
        exact all ⟨k, long⟩
      rw [(steps _).mpr ⟨fits, rfl⟩] at refused
      cases refused
    · rintro ⟨k, long⟩
      rw [← render_intercalate] at long
      cases left : (components raw).foldlM pushFits [] with
      | none => rfl
      | some cs => exact absurd (((steps cs).mp left).1 k) (Nat.not_lt_of_le long)
  · intro out written
    obtain ⟨cs, left, rfl⟩ := Option.map_eq_some_iff.mp written
    obtain ⟨fits, rfl⟩ := (steps cs).mp left
    have settled := settled_reduce raw
    have short : (render (reduce (components raw))).length < vfsPathMax := by
      have whole := fits (components raw).length
      rwa [List.take_length] at whole
    refine ⟨render_intercalate _, short, canonical_render settled, ?_⟩
    show posixNormalize (render (reduce (components raw))) = _
    rw [posixNormalize_short (head_render _) short,
      components_render fun c mem => (settled c mem).1, reduce_settled settled]
    rfl

/-- `/a//./b/../c` is written as `/a/c`. -/
theorem posix_normalize_one :
    (posixNormalize "/a//./b/../c".toList = none ↔ ∃ k, vfsPathMax ≤
      ('/' :: ['/'].intercalate (reduce ((components "/a//./b/../c".toList).take k))).length) ∧
    posixNormalize "/a//./b/../c".toList = some "/a/c".toList ∧
    Canonical "/a/c".toList ∧ posixNormalize "/a/c".toList = some "/a/c".toList := by
  have whole := @posix_normalize "/a//./b/../c".toList (by decide)
  have written : posixNormalize "/a//./b/../c".toList = some "/a/c".toList := by decide
  exact ⟨whole.1, written, (whole.2 _ written).2.2⟩

/-! ### Splitting -/

theorem lastSlash_append {p c : Name} (plain : '/' ∉ c) : lastSlash (p ++ '/' :: c) = p.length := by
  have skip : ∀ (c : Name) (k n : Nat), '/' ∉ c →
      (c.zipIdx k).foldl (fun last e => if e.1 = '/' then e.2 else last) n = n := by
    intro c
    induction c with
    | nil => exact fun _ _ _ => rfl
    | cons a c ih =>
      intro k n plain
      rw [List.mem_cons, not_or] at plain
      rw [List.zipIdx_cons, List.foldl_cons, if_neg fun same => plain.1 same.symm]
      exact ih (k + 1) n plain.2
  rw [lastSlash, List.zipIdx_append, List.foldl_append, List.zipIdx_cons, List.foldl_cons, if_pos rfl]
  rw [skip c _ _ plain]
  exact Nat.zero_add _

end AtmKoala.Vfs
