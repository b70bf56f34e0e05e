import Mathlib.Data.Fintype.Card
import Mathlib.Data.List.FinRange

/-!
A table of slots, searched from the front.

* `entryOf`: the entry with a key, in the first slot that has one.
* `Distinct`: no two slots have entries with the same key. Then the entry does not
  depend on the slot (`entryOf_eq_some_iff`), and putting one and removing one are what
  they are for a map (`Distinct.put`, `Distinct.remove`).
* `Distinct.room`: more slots than keys leave a slot free.
-/

namespace AtmKoala.Lib

open Function (update_of_ne update_self)

variable {n : Nat} {α κ : Type} [DecidableEq κ] {key : α → κ} {s : Fin n → Option α} {i : Fin n}
  {a : α} {k : κ}

/-- The first slot whose entry has the key. -/
def slotOf (key : α → κ) (s : Fin n → Option α) (k : κ) : Option (Fin n) :=
  (List.finRange n).find? fun i => (s i).any (key · = k)

def entryOf (key : α → κ) (s : Fin n → Option α) (k : κ) : Option α := (slotOf key s k).bind s

def Distinct (key : α → κ) (s : Fin n → Option α) : Prop :=
  ∀ i j a b, s i = some a → s j = some b → key a = key b → i = j

theorem slotOf_some (found : slotOf key s k = some i) : ∃ a, s i = some a ∧ key a = k := by
  have holds := List.find?_some found
  cases stored : s i with
  | none =>
    rw [stored] at holds
    cases holds
  | some a =>
    rw [stored, Option.any_some] at holds
    exact ⟨a, rfl, of_decide_eq_true holds⟩

theorem slotOf_none (none_ : slotOf key s k = none) (stored : s i = some a) : key a ≠ k := by
  intro same
  have absent := List.find?_eq_none.mp none_ i (List.mem_finRange i)
  rw [stored, Option.any_some, decide_eq_true same] at absent
  exact absent rfl

theorem Distinct.slot_eq (distinct : Distinct key s) (stored : s i = some a) :
    slotOf key s (key a) = some i := by
  cases found : slotOf key s (key a) with
  | none => exact absurd rfl (slotOf_none found stored)
  | some j =>
    obtain ⟨b, stored', same⟩ := slotOf_some found
    rw [distinct i j a b stored stored' same.symm]

theorem entryOf_eq_some_iff (distinct : Distinct key s) :
    entryOf key s k = some a ↔ ∃ i, s i = some a ∧ key a = k := by
  constructor
  · intro found
    obtain ⟨i, slot, stored⟩ := Option.bind_eq_some_iff.mp found
    obtain ⟨b, stored', same⟩ := slotOf_some slot
    obtain rfl := Option.some.inj (stored.symm.trans stored')
    exact ⟨i, stored, same⟩
  · rintro ⟨i, stored, rfl⟩
    unfold entryOf
    rw [distinct.slot_eq stored]
    exact stored

theorem entryOf_eq_none_iff : entryOf key s k = none ↔ slotOf key s k = none := by
  constructor
  · intro absent
    cases slot : slotOf key s k with
    | none => rfl
    | some i =>
      obtain ⟨a, stored, -⟩ := slotOf_some slot
      unfold entryOf at absent
      rw [slot, Option.bind_some, stored] at absent
      cases absent
  · intro none_
    unfold entryOf
    rw [none_]
    rfl

/-- **An entry is put** in the slot of its key, or in any free one if there is none. -/
theorem Distinct.put (distinct : Distinct key s)
    (slot : slotOf key s (key a) = some i ∨ slotOf key s (key a) = none ∧ s i = none) :
    Distinct key (Function.update s i (some a)) ∧
      ∀ k, entryOf key (Function.update s i (some a)) k = if k = key a then some a else entryOf key s k := by
  -- wherever the key was, it was in slot `i`
  have only : ∀ j b, s j = some b → key b = key a → j = i := by
    intro j b stored same
    rcases slot with here | ⟨absent, -⟩
    · obtain ⟨c, stored', same'⟩ := slotOf_some here
      exact distinct j i b c stored stored' (same.trans same'.symm)
    · exact absurd same (slotOf_none absent stored)
  have others : ∀ j b, j = i → s j = some b → key b = key a := by
    rintro j b rfl stored
    rcases slot with here | ⟨-, free⟩
    · obtain ⟨c, stored', same⟩ := slotOf_some here
      obtain rfl := Option.some.inj (stored.symm.trans stored')
      exact same
    · rw [free] at stored
      cases stored
  have distinct' : Distinct key (Function.update s i (some a)) := by
    intro j l b c first second same
    by_cases hj : j = i <;> by_cases hl : l = i
    · exact hj.trans hl.symm
    · rw [hj, update_self] at first
      rw [update_of_ne hl] at second
      obtain rfl := Option.some.inj first
      exact absurd (only l c second same.symm) hl
    · rw [hl, update_self] at second
      rw [update_of_ne hj] at first
      obtain rfl := Option.some.inj second
      exact absurd (only j b first same) hj
    · rw [update_of_ne hj] at first
      rw [update_of_ne hl] at second
      exact distinct j l b c first second same
  refine ⟨distinct', fun k => Option.ext fun b => ?_⟩
  rw [entryOf_eq_some_iff distinct']
  by_cases here : k = key a
  · rw [if_pos here]
    constructor
    · rintro ⟨j, stored, same⟩
      by_cases hj : j = i
      · rw [hj, update_self] at stored
        exact stored
      · rw [update_of_ne hj] at stored
        exact absurd (only j b stored (same.trans here)) hj
    · intro same
      obtain rfl := Option.some.inj same
      exact ⟨i, update_self .., here.symm⟩
  · rw [if_neg here, entryOf_eq_some_iff distinct]
    constructor
    · rintro ⟨j, stored, same⟩
      by_cases hj : j = i
      · rw [hj, update_self] at stored
        obtain rfl := Option.some.inj stored
        exact absurd same.symm here
      · rw [update_of_ne hj] at stored
        exact ⟨j, stored, same⟩
    · rintro ⟨j, stored, same⟩
      have hj : j ≠ i := fun hj => here (same.symm.trans (others j b hj stored))
      exact ⟨j, (update_of_ne hj ..).trans stored, same⟩

/-- **An entry is removed.** -/
theorem Distinct.remove (distinct : Distinct key s) (stored : s i = some a) :
    Distinct key (Function.update s i none) ∧
      ∀ k, entryOf key (Function.update s i none) k = if k = key a then none else entryOf key s k := by
  have kept : ∀ j b, Function.update s i none j = some b → j ≠ i ∧ s j = some b := by
    intro j b held
    by_cases hj : j = i
    · rw [hj, update_self] at held
      cases held
    · rw [update_of_ne hj] at held
      exact ⟨hj, held⟩
  have distinct' : Distinct key (Function.update s i none) := fun j l b c first second =>
    distinct j l b c (kept j b first).2 (kept l c second).2
  refine ⟨distinct', fun k => Option.ext fun b => ?_⟩
  rw [entryOf_eq_some_iff distinct']
  by_cases here : k = key a
  · rw [if_pos here]
    refine iff_of_false ?_ nofun
    rintro ⟨j, held, same⟩
    obtain ⟨hj, held'⟩ := kept j b held
    exact hj (distinct j i b a held' stored (same.trans here))
  · rw [if_neg here, entryOf_eq_some_iff distinct]
    constructor
    · rintro ⟨j, held, same⟩
      exact ⟨j, (kept j b held).2, same⟩
    · rintro ⟨j, held, same⟩
      have hj : j ≠ i := by
        rintro rfl
        obtain rfl := Option.some.inj (held.symm.trans stored)
        exact here same.symm
      exact ⟨j, (update_of_ne hj ..).trans held, same⟩

omit [DecidableEq κ] in
/-- **More slots than keys** leave one free. -/
theorem Distinct.room [Fintype κ] (distinct : Distinct key s) (more : Fintype.card κ < n) :
    ∃ i, s i = none := by
  by_contra full
  have stored : ∀ i, ∃ a, s i = some a := fun i =>
    Option.ne_none_iff_exists'.mp fun none_ => full ⟨i, none_⟩
  choose f stored using stored
  have inj : Function.Injective fun i => key (f i) := fun i j same =>
    distinct i j _ _ (stored i) (stored j) same
  have le := Fintype.card_le_of_injective _ inj
  rw [Fintype.card_fin] at le
  omega

end AtmKoala.Lib
