import Mathlib.Logic.Function.Basic
import Mathlib.Data.List.Nodup
import Mathlib.Algebra.Order.Ring.Int
import AtmKoala.Lib.Numerals

/-!
Circular singly linked lists.

Nodes are of any type, and `next` is the link field of each. `Path next a xs b`
follows the links from `a` through `xs` to `b`; `Ring next q` says that the links
of the nodes of `q` close a circle in the order of `q`. The two walks along links
that such lists are handled with, to the node in front of a given one (`before`)
and to the first node with a property (`search`), are bounded by fuel, and a ring
that is short enough makes them succeed. `Ring.insert` and `Ring.remove` are the
two changes.
-/

namespace AtmKoala.Lib

open Function (update_of_ne update_self)

variable {α : Type} {next : α → Option α}

/-! ### Paths -/

/-- From `a` the links lead through `xs` and then to `b`. -/
def Path (next : α → Option α) : α → List α → α → Prop
  | a, [], b => next a = some b
  | a, x :: xs, b => next a = some x ∧ Path next x xs b

theorem path_append {a b y : α} {xs ys : List α} :
    Path next a (xs ++ y :: ys) b ↔ Path next a xs y ∧ Path next y ys b := by
  induction xs generalizing a with
  | nil => rfl
  | cons x xs ih => simp only [List.cons_append, Path, ih, and_assoc]

theorem Path.congr {next' : α → Option α} {a b : α} {xs : List α} (h : Path next a xs b)
    (same : ∀ x ∈ a :: xs, next' x = next x) : Path next' a xs b := by
  induction xs generalizing a with
  | nil => exact (same a List.mem_cons_self).trans h
  | cons x xs ih =>
    exact ⟨(same a List.mem_cons_self).trans h.1,
      ih h.2 fun y hy => same y (List.mem_cons_of_mem _ hy)⟩

/-- The last node of a path. -/
def lastOf (a : α) : List α → α
  | [] => a
  | x :: xs => lastOf x xs

theorem lastOf_mem (a : α) (xs : List α) : lastOf a xs ∈ a :: xs := by
  induction xs generalizing a with
  | nil => exact List.mem_singleton_self a
  | cons x xs ih => exact List.mem_cons_of_mem _ (ih x)

/-! ### Rings -/

/-- The links of the nodes of `q` close a circle in this order. -/
def Ring (next : α → Option α) : List α → Prop
  | [] => True
  | a :: xs => (a :: xs).Nodup ∧ Path next a xs a

theorem Ring.nodup {q : List α} (h : Ring next q) : q.Nodup := by
  cases q with
  | nil => exact List.nodup_nil
  | cons a xs => exact h.1

/-- A ring only depends on the links of its nodes. -/
theorem Ring.congr {next' : α → Option α} {q : List α} (h : Ring next q)
    (same : ∀ x ∈ q, next' x = next x) : Ring next' q := by
  cases q with
  | nil => trivial
  | cons a xs => exact ⟨h.1, h.2.congr same⟩

/-- One node, linked to itself. -/
theorem Ring.singleton {a : α} (link : next a = some a) : Ring next [a] :=
  ⟨List.nodup_singleton a, link⟩

section Links

variable [DecidableEq α]

/-- Relinking the last node sends the path elsewhere. -/
theorem Path.redirect {a b : α} {xs : List α} (h : Path next a xs b) (nodup : (a :: xs).Nodup)
    (c : Option α) {d : α} (hc : c = some d) :
    Path (Function.update next (lastOf a xs) c) a xs d := by
  induction xs generalizing a with
  | nil =>
    show Function.update next a c a = some d
    rw [update_self, hc]
  | cons x xs ih =>
    obtain ⟨fresh, rest⟩ := List.nodup_cons.mp nodup
    refine ⟨?_, ih h.2 rest⟩
    show Function.update next (lastOf x xs) c a = some x
    rw [update_of_ne, h.1]
    rintro rfl
    exact fresh (lastOf_mem x xs)

/-! ### Walks -/

/-- The node whose link is `goal`, looked for from `prev` on. The walk gives up at
a missing link, when it comes to `stop`, or after `fuel` nodes. -/
def before (next : α → Option α) (goal stop : α) : Nat → α → Option α
  | 0, _ => none
  | fuel + 1, prev =>
    match next prev with
    | none => none
    | some x => if x = goal then some prev else if x = stop then none
      else before next goal stop fuel x

theorem before_eq_last {a goal stop : α} {xs : List α} (h : Path next a xs goal)
    (notGoal : goal ∉ xs) (notStop : stop ∉ xs) {fuel : Nat} (enough : xs.length < fuel) :
    before next goal stop fuel a = some (lastOf a xs) := by
  induction xs generalizing a fuel with
  | nil =>
    obtain ⟨n, rfl⟩ : ∃ n, fuel = n + 1 := ⟨fuel - 1, by simp at enough; omega⟩
    have link : next a = some goal := h
    simp [before, link, lastOf]
  | cons x xs ih =>
    obtain ⟨n, rfl⟩ : ∃ n, fuel = n + 1 := ⟨fuel - 1, by simp at enough; omega⟩
    rw [List.mem_cons, not_or] at notGoal notStop
    have goalNe : ¬x = goal := fun e => notGoal.1 e.symm
    have stopNe : ¬x = stop := fun e => notStop.1 e.symm
    simp only [before, h.1, goalNe, stopNe, if_false]
    exact ih h.2 notGoal.2 notStop.2 (by simpa using enough)

theorem before_eq_none {a goal stop : α} {xs : List α} (h : Path next a xs stop)
    (notGoal : goal ∉ xs) (notStop : stop ∉ xs) (ne : goal ≠ stop) (fuel : Nat) :
    before next goal stop fuel a = none := by
  induction fuel generalizing a xs with
  | zero => rfl
  | succ fuel ih =>
    cases xs with
    | nil =>
      have link : next a = some stop := h
      simp [before, link, Ne.symm ne]
    | cons x xs =>
      rw [List.mem_cons, not_or] at notGoal notStop
      have goalNe : ¬x = goal := fun e => notGoal.1 e.symm
      have stopNe : ¬x = stop := fun e => notStop.1 e.symm
      simp only [before, h.1, goalNe, stopNe, if_false]
      exact ih h.2 notGoal.2 notStop.2

/-- The first node with property `p` from `a` on, once around until `stop`. The
outer `none` is a missing link or a walk that does not come back. -/
def search (next : α → Option α) (p : α → Bool) (stop : α) : Nat → α → Option (Option α)
  | 0, _ => none
  | fuel + 1, a =>
    if p a then some (some a)
    else
      match next a with
      | none => none
      | some x => if x = stop then some none else search next p stop fuel x

theorem search_eq_find {p : α → Bool} {a stop : α} {xs : List α} (h : Path next a xs stop)
    (notStop : stop ∉ xs) {fuel : Nat} (enough : xs.length < fuel) :
    search next p stop fuel a = some ((a :: xs).find? p) := by
  induction xs generalizing a fuel with
  | nil =>
    obtain ⟨n, rfl⟩ : ∃ n, fuel = n + 1 := ⟨fuel - 1, by simp at enough; omega⟩
    have link : next a = some stop := h
    by_cases hp : p a
    · simp [search, hp]
    · simp [search, hp, link]
  | cons x xs ih =>
    obtain ⟨n, rfl⟩ : ∃ n, fuel = n + 1 := ⟨fuel - 1, by simp at enough; omega⟩
    rw [List.mem_cons, not_or] at notStop
    by_cases hp : p a
    · simp [search, hp]
    · have stopNe : ¬x = stop := fun e => notStop.1 e.symm
      rw [List.find?_cons_of_neg (by simpa using hp)]
      simp only [search, hp, h.1, stopNe, if_false, Bool.false_eq_true]
      exact ih h.2 notStop.2 (by simpa using enough)

/-- The nodes from `a` on, once around until `stop`. -/
def around (next : α → Option α) (stop : α) : Nat → α → List α
  | 0, _ => []
  | fuel + 1, a =>
    a :: match next a with
      | none => []
      | some x => if x = stop then [] else around next stop fuel x

theorem around_eq {a stop : α} {xs : List α} (h : Path next a xs stop) (notStop : stop ∉ xs)
    {fuel : Nat} (enough : xs.length < fuel) : around next stop fuel a = a :: xs := by
  induction xs generalizing a fuel with
  | nil =>
    obtain ⟨n, rfl⟩ : ∃ n, fuel = n + 1 := ⟨fuel - 1, by simp at enough; omega⟩
    have link : next a = some stop := h
    simp [around, link]
  | cons x xs ih =>
    obtain ⟨n, rfl⟩ : ∃ n, fuel = n + 1 := ⟨fuel - 1, by simp at enough; omega⟩
    rw [List.mem_cons, not_or] at notStop
    have stopNe : ¬x = stop := fun e => notStop.1 e.symm
    simp only [around, h.1, stopNe, if_false]
    rw [ih h.2 notStop.2 (by simpa using enough)]

/-! ### Changes -/

/-- A new node between the last and the first. -/
theorem Ring.insert {a t : α} {xs : List α} (h : Ring next (a :: xs)) (fresh : t ∉ a :: xs) :
    Ring (Function.update (Function.update next (lastOf a xs) (some t)) t (some a))
      (a :: (xs ++ [t])) := by
  have ne : ∀ x ∈ a :: xs, x ≠ t := by
    rintro x hx rfl
    exact fresh hx
  refine ⟨?_, path_append.mpr ⟨?_, ?_⟩⟩
  · rw [← List.cons_append]
    refine List.nodup_append.mpr ⟨h.1, List.nodup_singleton t, fun x hx y hy => ?_⟩
    rw [List.mem_singleton.mp hy]
    exact ne x hx
  · exact (h.2.redirect h.1 (some t) rfl).congr fun x hx => update_of_ne (ne x hx) _ _
  · exact update_self _ _ _

/-- Taking out a node behind the first; its predecessor is the last node before
it. -/
theorem Ring.remove {a t : α} {ys zs : List α} (h : Ring next (a :: (ys ++ t :: zs))) :
    Ring (Function.update (Function.update next (lastOf a ys) (next t)) t none)
      (a :: (ys ++ zs)) := by
  obtain ⟨nodup, path⟩ := h
  have sub : (a :: (ys ++ zs)).Sublist (a :: (ys ++ t :: zs)) :=
    ((List.sublist_cons_self t zs).append_left ys).cons_cons a
  have fresh : t ∉ a :: (ys ++ zs) := by
    have perm : (t :: (a :: (ys ++ zs))).Nodup :=
      ((List.perm_middle.cons a).trans (List.Perm.swap t a _)).nodup_iff.mp nodup
    exact (List.nodup_cons.mp perm).1
  have left : (a :: ys).Nodup := nodup.sublist ((List.sublist_append_left ys _).cons_cons a)
  rw [path_append] at path
  refine ⟨nodup.sublist sub, Path.congr ?_ fun x hx => update_of_ne ?_ _ _⟩
  · cases zs with
    | nil =>
      rw [List.append_nil]
      exact path.1.redirect left (next t) path.2
    | cons z zs =>
      refine path_append.mpr ⟨path.1.redirect left (next t) path.2.1, path.2.2.congr fun x hx => ?_⟩
      refine update_of_ne ?_ _ _
      rintro rfl
      have apart := List.nodup_append.mp (List.cons_append ▸ nodup : ((a :: ys) ++ t :: z :: zs).Nodup)
      exact apart.2.2 _ (lastOf_mem a ys) _ (List.mem_cons_of_mem _ hx) rfl
  · rintro rfl
    exact fresh hx

/-- Taking out the first node of several. -/
theorem Ring.remove_first {a x : α} {xs : List α} (h : Ring next (a :: x :: xs)) :
    Ring (Function.update (Function.update next (lastOf x xs) (next a)) a none) (x :: xs) := by
  obtain ⟨nodup, link, path⟩ := h
  obtain ⟨fresh, rest⟩ := List.nodup_cons.mp nodup
  refine ⟨rest, (path.redirect rest (next a) link).congr fun y hy => update_of_ne ?_ _ _⟩
  rintro rfl
  exact fresh hy

end Links

end AtmKoala.Lib
