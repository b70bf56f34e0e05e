import Mathlib.Logic.Function.Basic
import Mathlib.Data.Fin.Basic
import Mathlib.Data.Nat.ModEq
import Mathlib.Algebra.Order.Ring.Int
import AtmKoala.Lib.Numerals

/-!
Circular buffers of fixed capacity.

A buffer is a function on `Fin c`; the elements stored are the `count` ones from
the index `tail` on, going around (`contents`). `takeFrom` and `putAt` are the two
copying loops, one element a round; `takeFrom_eq` and `contents_putAt` say what
they do to the contents.
-/

namespace AtmKoala.Lib

variable {α : Type} {c : Nat} [NeZero c]

/-- The index `n` places after `t`. -/
def ahead (t : Fin c) (n : Nat) : Fin c := t + Fin.ofNat c n

theorem val_ahead (t : Fin c) (n : Nat) : (ahead t n).val = (t.val + n) % c := by
  simp [ahead, Fin.val_add]

@[simp] theorem ahead_zero (t : Fin c) : ahead t 0 = t := by
  ext
  rw [val_ahead, Nat.add_zero, Nat.mod_eq_of_lt t.isLt]

theorem ahead_ahead (t : Fin c) (m n : Nat) : ahead (ahead t m) n = ahead t (m + n) := by
  ext
  rw [val_ahead, val_ahead, val_ahead, Nat.mod_add_mod, Nat.add_assoc]

/-- Within one round the indices are distinct. -/
theorem ahead_inj {t : Fin c} {m n : Nat} (hm : m < c) (hn : n < c) (h : ahead t m = ahead t n) :
    m = n := by
  have eq := congrArg Fin.val h
  rw [val_ahead, val_ahead] at eq
  have eq' : m % c = n % c := Nat.ModEq.add_left_cancel' t.val eq
  rwa [Nat.mod_eq_of_lt hm, Nat.mod_eq_of_lt hn] at eq'

/-- The `count` elements from `t` on. -/
def contents (buf : Fin c → α) (t : Fin c) (count : Nat) : List α :=
  (List.range count).map fun i => buf (ahead t i)

@[simp] theorem length_contents (buf : Fin c → α) (t : Fin c) (count : Nat) :
    (contents buf t count).length = count := by
  simp [contents]

@[simp] theorem contents_zero (buf : Fin c → α) (t : Fin c) : contents buf t 0 = [] := rfl

theorem contents_succ (buf : Fin c → α) (t : Fin c) (n : Nat) :
    contents buf t (n + 1) = buf t :: contents buf (ahead t 1) n := by
  simp [contents, List.range_succ_eq_map, List.map_map, Function.comp_def, ahead_ahead, Nat.add_comm]

/-- The contents split anywhere. -/
theorem contents_add (buf : Fin c → α) (t : Fin c) (m n : Nat) :
    contents buf t (m + n) = contents buf t m ++ contents buf (ahead t m) n := by
  simp [contents, List.range_add, List.map_map, Function.comp_def, ahead_ahead]

theorem contents_congr {buf buf' : Fin c → α} {t : Fin c} {count : Nat}
    (same : ∀ i, i < count → buf' (ahead t i) = buf (ahead t i)) :
    contents buf' t count = contents buf t count :=
  List.map_congr_left fun i mem => same i (List.mem_range.mp mem)

/-! ### The copying loops -/

/-- Take `n` elements from `t` on; also the index reached. -/
def takeFrom (buf : Fin c → α) : Nat → Fin c → List α × Fin c
  | 0, t => ([], t)
  | n + 1, t => ((buf t) :: (takeFrom buf n (t + 1)).1, (takeFrom buf n (t + 1)).2)

/-- Store elements from `h` on; also the index reached. -/
def putAt (buf : Fin c → α) : List α → Fin c → (Fin c → α) × Fin c
  | [], h => (buf, h)
  | x :: xs, h => putAt (Function.update buf h x) xs (h + 1)

theorem add_one_eq_ahead (t : Fin c) : t + 1 = ahead t 1 := rfl

theorem takeFrom_eq (buf : Fin c → α) (n : Nat) (t : Fin c) :
    takeFrom buf n t = (contents buf t n, ahead t n) := by
  induction n generalizing t with
  | zero => simp [takeFrom]
  | succ n ih =>
    rw [takeFrom, ih, add_one_eq_ahead, ahead_ahead, contents_succ, Nat.add_comm 1 n]

theorem putAt_index (buf : Fin c → α) (xs : List α) (h : Fin c) :
    (putAt buf xs h).2 = ahead h xs.length := by
  induction xs generalizing buf h with
  | nil => simp [putAt]
  | cons x xs ih =>
    rw [putAt, ih, add_one_eq_ahead, ahead_ahead, List.length_cons, Nat.add_comm 1]

theorem putAt_append (buf : Fin c → α) (xs ys : List α) (h : Fin c) :
    putAt buf (xs ++ ys) h = putAt (putAt buf xs h).1 ys (putAt buf xs h).2 := by
  induction xs generalizing buf h with
  | nil => rfl
  | cons x xs ih => exact ih _ _

/-- **Storing behind the contents appends to them**, as long as there is room. -/
theorem contents_putAt (buf : Fin c → α) (xs : List α) (t : Fin c) (count : Nat)
    (room : count + xs.length ≤ c) :
    contents (putAt buf xs (ahead t count)).1 t (count + xs.length) =
      contents buf t count ++ xs := by
  induction xs generalizing buf count with
  | nil => simp [putAt]
  | cons x xs ih =>
    rw [List.length_cons] at room
    have kept : contents (Function.update buf (ahead t count) x) t count = contents buf t count := by
      refine contents_congr fun i below => Function.update_of_ne ?_ _ _
      intro same
      have := ahead_inj (by omega) (by omega) same
      omega
    have stored : contents (Function.update buf (ahead t count) x) t (count + 1) =
        contents buf t count ++ [x] := by
      rw [contents_add, kept, contents_succ, contents_zero, Function.update_self]
    rw [putAt, add_one_eq_ahead, ahead_ahead, List.length_cons]
    rw [show count + (xs.length + 1) = count + 1 + xs.length by omega, ih _ _ (by omega), stored,
      List.append_assoc, List.singleton_append]

end AtmKoala.Lib
