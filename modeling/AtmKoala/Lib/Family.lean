import Mathlib.Logic.Function.Basic
import Mathlib.Tactic.Set

/-!
Parents, children, and who is told how a child ended.

Members live in slots that are used again. A member has an identity, at most one
parent, and once it has ended a status; it stays in its slot until its parent
reaps it. A log records births, ends and reapings.

* `Change`: what can happen to the household;
* `Lawful household log`: identities are not used twice, parents are alive, and
  the log tells the truth about everybody;
* `Lawful.change`: every change keeps this.

A member can be ended again while it waits in its slot; the first time counts
(`firstEnd`).
-/

namespace AtmKoala.Lib.Family

variable {ι α σ : Type}

structure Member (α σ : Type) where
  id : α
  parent : Option α
  /-- The status of its end. -/
  ended : Option σ

inductive Event (α σ : Type) where
  | born (child parent : α)
  | ended (who : α) (status : σ)
  | reaped (parent child : α) (status : σ)
deriving DecidableEq

/-- The status of the first end of `who` in the log. -/
def firstEnd [DecidableEq α] (log : List (Event α σ)) (who : α) : Option σ :=
  log.findSome? fun
    | .ended a status => if a = who then some status else none
    | _ => none

section

variable [DecidableEq α]

theorem firstEnd_append (log more : List (Event α σ)) (who : α) :
    firstEnd (log ++ more) who = (firstEnd log who).or (firstEnd more who) :=
  List.findSome?_append

@[simp] theorem firstEnd_born (child parent who : α) :
    firstEnd [(.born child parent : Event α σ)] who = none := rfl

@[simp] theorem firstEnd_reaped (parent child who : α) (status : σ) :
    firstEnd [.reaped parent child status] who = none := rfl

@[simp] theorem firstEnd_ended (a who : α) (status : σ) :
    firstEnd [.ended a status] who = if a = who then some status else none := by
  simp [firstEnd]

end

/-- An event of a log that has grown by one is the new one or an old one. -/
theorem snoc_split {β : Type} {log l₁ l₂ : List β} {e f : β} (split : log ++ [e] = l₁ ++ f :: l₂) :
    (l₁ = log ∧ f = e ∧ l₂ = []) ∨ ∃ l, log = l₁ ++ f :: l ∧ l₂ = l ++ [e] := by
  rcases List.eq_nil_or_concat l₂ with rfl | ⟨l, e', rfl⟩
  · obtain ⟨rfl, same⟩ := List.append_inj' split rfl
    exact .inl ⟨rfl, (List.singleton_inj.mp same).symm, rfl⟩
  · rw [List.concat_eq_append, ← List.cons_append, ← List.append_assoc] at split
    obtain ⟨eq, same⟩ := List.append_inj' split rfl
    rw [List.concat_eq_append, List.singleton_inj.mp same]
    exact .inr ⟨l, eq, rfl⟩

/-! ### The household -/

abbrev Household (ι α σ : Type) := ι → Option (Member α σ)

/-- Somebody with this identity lives in the household and has not ended. -/
def Lives (people : Household ι α σ) (a : α) : Prop :=
  ∃ i m, people i = some m ∧ m.id = a ∧ m.ended = none

/-- The identity is taken: it is the root's, or somebody was born with it. -/
def Known (root : α) (log : List (Event α σ)) (a : α) : Prop :=
  a = root ∨ ∃ p, .born a p ∈ log

theorem Known.append {root : α} {log more : List (Event α σ)} {a : α} (known : Known root log a) :
    Known root (log ++ more) a :=
  known.imp_right fun ⟨p, mem⟩ => ⟨p, List.mem_append_left _ mem⟩

/-- A slot for somebody new: free, or held by a member that has ended and has no
parent. -/
def Vacant (people : Household ι α σ) (i : ι) : Prop :=
  ∀ m, people i = some m → m.ended.isSome ∧ m.parent = none

/-- The member in slot `i` has ended: its children have no parent any more, and
those of them that have ended themselves may be gone. -/
def Buried [DecidableEq ι] [DecidableEq α] (people : Household ι α σ) (i : ι) (who : α) (status : σ)
    (people' : Household ι α σ) : Prop :=
  ∀ j, match people j with
    | none => people' j = none
    | some m =>
      let m' : Member α σ := if j = i then { m with ended := some status } else m
      if m.parent = some who then
        people' j = some { m' with parent := none } ∨ m'.ended.isSome ∧ people' j = none
      else people' j = some m'

/-- What can happen. -/
inductive Change [DecidableEq ι] [DecidableEq α] (root : α) (people : Household ι α σ) (log : List (Event α σ)) :
    List (Event α σ) → Household ι α σ → Prop where
  | still : Change root people log [] people
  | birth (i : ι) (child parent : α) : Vacant people i → ¬Known root log child →
      Lives people parent →
      Change root people log [.born child parent]
        (Function.update people i (some ⟨child, some parent, none⟩))
  | clear (i : ι) : Vacant people i → Change root people log [] (Function.update people i none)
  | death (i : ι) (m : Member α σ) (status : σ) (people' : Household ι α σ) :
      people i = some m → m.ended = none → m.id ≠ root → Buried people i m.id status people' →
      Change root people log [.ended m.id status] people'
  | again (i : ι) (m : Member α σ) (status : σ) : people i = some m → m.ended.isSome →
      Change root people log [.ended m.id status] people
  | reap (i : ι) (m : Member α σ) (parent : α) (status : σ) : people i = some m →
      m.parent = some parent → m.ended = some status →
      Change root people log [.reaped parent m.id status] (Function.update people i none)

/-- **The truth of the log.** -/
structure Lawful [DecidableEq α] (root : α) (people : Household ι α σ) (log : List (Event α σ)) :
    Prop where
  rootLives : Lives people root
  distinct : ∀ {i j m n}, people i = some m → people j = some n → m.id = n.id → i = j
  /-- The parent of a member is the one it was born to, or nobody. -/
  recorded : ∀ {i m}, people i = some m →
    m.id = root ∨ ∃ p, .born m.id p ∈ log ∧ (m.parent = none ∨ m.parent = some p)
  rootUnborn : ∀ p, .born root p ∉ log
  once : ∀ {c p p'}, .born c p ∈ log → .born c p' ∈ log → p = p'
  ancestors : ∀ {c p}, .born c p ∈ log → Known root log p
  parentLives : ∀ {i m p}, people i = some m → m.parent = some p → Lives people p
  /-- The first end counts. -/
  status : ∀ {i m}, people i = some m → firstEnd log m.id = m.ended
  endedKnown : ∀ {a st}, firstEnd log a = some st → Known root log a
  /-- The child of a living parent keeps its slot until it is reaped. -/
  held : ∀ {c p}, .born c p ∈ log → Lives people p →
    (∃ i m, people i = some m ∧ m.id = c ∧ m.parent = some p) ∨ ∃ st, .reaped p c st ∈ log
  gone : ∀ {p c st}, .reaped p c st ∈ log →
    (∀ i m, people i = some m → m.id ≠ c) ∧ Known root log c
  /-- Only its parent is told about a child, once, and its first status. -/
  told : ∀ {l₁ p c st l₂}, log = l₁ ++ .reaped p c st :: l₂ →
    .born c p ∈ l₁ ∧ firstEnd l₁ c = some st ∧ ∀ p' st', .reaped p' c st' ∉ l₁ ++ l₂

namespace Lawful

variable [DecidableEq α] {root : α} {people people' : Household ι α σ}
  {log more : List (Event α σ)}

theorem known_of_member (lawful : Lawful root people log) {i : ι} {m : Member α σ}
    (member : people i = some m) : Known root log m.id :=
  (lawful.recorded member).imp_right fun ⟨p, mem, _⟩ => ⟨p, mem⟩

/-- A log that grows by an event other than a reaping. -/
theorem told_snoc (lawful : Lawful root people log) {e : Event α σ}
    (quiet : ∀ p c st, e ≠ .reaped p c st) {l₁ l₂ : List (Event α σ)} {p c : α} {st : σ}
    (split : log ++ [e] = l₁ ++ .reaped p c st :: l₂) :
    .born c p ∈ l₁ ∧ firstEnd l₁ c = some st ∧ ∀ p' st', .reaped p' c st' ∉ l₁ ++ l₂ := by
  rcases snoc_split split with ⟨-, same, -⟩ | ⟨l, eq, rfl⟩
  · exact absurd same.symm (quiet p c st)
  · obtain ⟨born, first, apart⟩ := lawful.told eq
    refine ⟨born, first, fun p' st' mem => ?_⟩
    rw [← List.append_assoc, List.mem_append, List.mem_singleton] at mem
    exact mem.elim (apart p' st') fun same => quiet p' c st' same.symm

/-! ### Changes -/

variable {i : ι}

/-- Another end of a member that has ended already. -/
theorem again (lawful : Lawful root people log) {m : Member α σ} {status : σ}
    (member : people i = some m) (ended : m.ended.isSome) :
    Lawful root people (log ++ [.ended m.id status]) := by
  obtain ⟨st, eq⟩ := Option.isSome_iff_exists.mp ended
  have first : firstEnd log m.id = some st := (lawful.status member).trans eq
  have sameEnd : ∀ a, firstEnd (log ++ [.ended m.id status]) a = firstEnd log a := by
    intro a
    rw [firstEnd_append, firstEnd_ended]
    by_cases h : m.id = a
    · rw [← h, first, Option.some_or]
    · rw [if_neg h, Option.or_none]
  have old : ∀ {e : Event α σ}, (∀ a st, e ≠ .ended a st) → e ∈ log ++ [.ended m.id status] →
      e ∈ log := by
    intro e other mem
    rw [List.mem_append, List.mem_singleton] at mem
    exact mem.resolve_right (other _ _)
  refine ⟨lawful.rootLives, lawful.distinct, ?_, ?_, ?_, ?_, lawful.parentLives, ?_, ?_, ?_, ?_, ?_⟩
  · intro j n member
    refine (lawful.recorded member).imp_right ?_
    rintro ⟨p, born, same⟩
    exact ⟨p, List.mem_append_left _ born, same⟩
  · exact fun p mem => lawful.rootUnborn p (old (by simp) mem)
  · exact fun mem mem' => lawful.once (old (by simp) mem) (old (by simp) mem')
  · exact fun mem => (lawful.ancestors (old (by simp) mem)).append
  · intro j n member
    rw [sameEnd]
    exact lawful.status member
  · intro a st ended
    rw [sameEnd] at ended
    exact (lawful.endedKnown ended).append
  · intro c p mem alive
    exact (lawful.held (old (by simp) mem) alive).imp_right fun ⟨st, reaped⟩ =>
      ⟨st, List.mem_append_left _ reaped⟩
  · intro p c st mem
    obtain ⟨away, known⟩ := lawful.gone (old (by simp) mem)
    exact ⟨away, known.append⟩
  · intro l₁ p c st l₂ split
    exact lawful.told_snoc (by simp) split

variable [DecidableEq ι]

theorem birth (lawful : Lawful root people log) {child parent : α} (vacant : Vacant people i)
    (fresh : ¬Known root log child) (alive : Lives people parent) :
    Lawful root (Function.update people i (some ⟨child, some parent, none⟩))
      (log ++ [.born child parent]) := by
  set people' := Function.update people i (some ⟨child, some parent, none⟩) with people'_eq
  have self : people' i = some ⟨child, some parent, none⟩ := Function.update_self ..
  have other : ∀ j, j ≠ i → people' j = people j := fun j ne => Function.update_of_ne ne ..
  have newborn : ∀ {m}, people' i = some m → m = ⟨child, some parent, none⟩ := by
    intro m member
    exact (Option.some.inj (self.symm.trans member)).symm
  have unborn : ∀ p, .born child p ∉ log := fun p mem => fresh (.inr ⟨p, mem⟩)
  have notRoot : child ≠ root := fun h => fresh (.inl h)
  have stranger : ∀ {j m}, people j = some m → m.id ≠ child := by
    rintro j m member rfl
    exact fresh (lawful.known_of_member member)
  have mem_log : ∀ {e}, e ∈ log ++ [Event.born child parent] ↔ e ∈ log ∨ e = .born child parent := by
    simp
  -- Whoever lived still does, and nobody but the newborn has come to live.
  have lives : ∀ {a}, Lives people a → Lives people' a := by
    rintro a ⟨j, m, member, id, running⟩
    refine ⟨j, m, (other j ?_).trans member, id, running⟩
    rintro rfl
    have ended := (vacant m member).1
    rw [running] at ended
    cases ended
  have lived : ∀ {a}, a ≠ child → Lives people' a → Lives people a := by
    rintro a ne ⟨j, m, member, rfl, running⟩
    by_cases h : j = i
    · subst h
      rw [newborn member] at ne
      exact absurd rfl ne
    · exact ⟨j, m, (other j h).symm.trans member, rfl, running⟩
  refine ⟨lives lawful.rootLives, ?_, ?_, ?_, ?_, ?_, ?_, ?_, ?_, ?_, ?_, ?_⟩
  · intro j k m n member member' same
    by_cases hj : j = i
    · by_cases hk : k = i
      · rw [hj, hk]
      · subst hj
        rw [newborn member] at same
        exact absurd same.symm (stranger ((other k hk).symm.trans member'))
    · by_cases hk : k = i
      · subst hk
        rw [newborn member'] at same
        exact absurd same (stranger ((other j hj).symm.trans member))
      · exact lawful.distinct ((other j hj).symm.trans member) ((other k hk).symm.trans member') same
  · intro j m member
    by_cases h : j = i
    · subst h
      rw [newborn member]
      exact .inr ⟨parent, mem_log.mpr (.inr rfl), .inr rfl⟩
    · refine (lawful.recorded ((other j h).symm.trans member)).imp_right ?_
      rintro ⟨p, born, same⟩
      exact ⟨p, mem_log.mpr (.inl born), same⟩
  · intro p mem
    rcases mem_log.mp mem with old | new
    · exact lawful.rootUnborn p old
    · exact notRoot (Event.born.inj new).1.symm
  · intro c p p' mem mem'
    rcases mem_log.mp mem with old | new
    · rcases mem_log.mp mem' with old' | new'
      · exact lawful.once old old'
      · obtain ⟨rfl, -⟩ := Event.born.inj new'
        exact absurd old (unborn p)
    · obtain ⟨rfl, rfl⟩ := Event.born.inj new
      rcases mem_log.mp mem' with old' | new'
      · exact absurd old' (unborn p')
      · exact (Event.born.inj new').2.symm
  · intro c p mem
    rcases mem_log.mp mem with old | new
    · exact (lawful.ancestors old).append
    · obtain ⟨-, rfl⟩ := Event.born.inj new
      obtain ⟨j, m, member, rfl, -⟩ := alive
      exact (lawful.known_of_member member).append
  · intro j m p member hasParent
    by_cases h : j = i
    · subst h
      rw [newborn member] at hasParent
      exact lives (Option.some.inj hasParent ▸ alive)
    · exact lives (lawful.parentLives ((other j h).symm.trans member) hasParent)
  · intro j m member
    rw [firstEnd_append, firstEnd_born, Option.or_none]
    by_cases h : j = i
    · subst h
      rw [newborn member]
      cases ended : firstEnd log child with
      | none => rfl
      | some st => exact absurd (lawful.endedKnown ended) fresh
    · exact lawful.status ((other j h).symm.trans member)
  · intro a st ended
    rw [firstEnd_append, firstEnd_born, Option.or_none] at ended
    exact (lawful.endedKnown ended).append
  · intro c p mem alive'
    rcases mem_log.mp mem with old | new
    · have notNew : p ≠ child := fun h => fresh (h ▸ lawful.ancestors old)
      rcases lawful.held old (lived notNew alive') with ⟨j, m, member, id, hasParent⟩ | ⟨st, reaped⟩
      · refine .inl ⟨j, m, (other j ?_).trans member, id, hasParent⟩
        rintro rfl
        rw [(vacant m member).2] at hasParent
        cases hasParent
      · exact .inr ⟨st, mem_log.mpr (.inl reaped)⟩
    · obtain ⟨rfl, rfl⟩ := Event.born.inj new
      exact .inl ⟨i, _, self, rfl, rfl⟩
  · intro p c st mem
    rcases mem_log.mp mem with old | new
    · obtain ⟨away, known⟩ := lawful.gone old
      refine ⟨fun j m member => ?_, known.append⟩
      by_cases h : j = i
      · subst h
        rw [newborn member]
        rintro rfl
        exact fresh known
      · exact away j m ((other j h).symm.trans member)
    · cases new
  · intro l₁ p c st l₂ split
    exact lawful.told_snoc (by simp) split

/-- A slot whose member has ended is emptied, and the log says so if the member had
a parent. -/
theorem remove (lawful : Lawful root people log)
    (ended : ∀ m, people i = some m → m.ended.isSome)
    (quiet : more = [] ∧ (∀ m, people i = some m → m.parent = none) ∨
      ∃ m parent status, people i = some m ∧ m.parent = some parent ∧ m.ended = some status ∧
        more = [.reaped parent m.id status]) :
    Lawful root (Function.update people i none) (log ++ more) := by
  set people' := Function.update people i none with people'_eq
  have stays : ∀ {j m}, people' j = some m → j ≠ i ∧ people j = some m := by
    intro j m member
    by_cases h : j = i
    · subst h
      rw [people'_eq, Function.update_self] at member
      cases member
    · exact ⟨h, (Function.update_of_ne h ..).symm.trans member⟩
  have other : ∀ j, j ≠ i → people' j = people j := fun j ne => Function.update_of_ne ne ..
  have lives : ∀ {a}, Lives people a ↔ Lives people' a := by
    intro a
    constructor
    · rintro ⟨j, m, member, id, running⟩
      refine ⟨j, m, (other j ?_).trans member, id, running⟩
      rintro rfl
      have := ended m member
      rw [running] at this
      cases this
    · rintro ⟨j, m, member, id, running⟩
      exact ⟨j, m, (stays member).2, id, running⟩
  have noBirth : ∀ {c p}, .born c p ∈ log ++ more → .born c p ∈ log := by
    intro c p mem
    rcases List.mem_append.mp mem with old | new
    · exact old
    · rcases quiet with ⟨rfl, -⟩ | ⟨m, parent, status, -, -, -, rfl⟩
      · cases new
      · simp at new
  have sameEnd : ∀ a, firstEnd (log ++ more) a = firstEnd log a := by
    intro a
    rcases quiet with ⟨rfl, -⟩ | ⟨m, parent, status, -, -, -, rfl⟩
    · rw [List.append_nil]
    · rw [firstEnd_append, firstEnd_reaped, Option.or_none]
  refine ⟨lives.mp lawful.rootLives, ?_, ?_, fun p mem => lawful.rootUnborn p (noBirth mem),
    fun mem mem' => lawful.once (noBirth mem) (noBirth mem'),
    fun mem => (lawful.ancestors (noBirth mem)).append, ?_, ?_, ?_, ?_, ?_, ?_⟩
  · intro j k m n member member' same
    exact lawful.distinct (stays member).2 (stays member').2 same
  · intro j m member
    refine (lawful.recorded (stays member).2).imp_right ?_
    rintro ⟨p, born, same⟩
    exact ⟨p, List.mem_append_left _ born, same⟩
  · intro j m p member hasParent
    exact lives.mp (lawful.parentLives (stays member).2 hasParent)
  · intro j m member
    rw [sameEnd]
    exact lawful.status (stays member).2
  · intro a st first
    rw [sameEnd] at first
    exact (lawful.endedKnown first).append
  · intro c p mem alive
    rcases lawful.held (noBirth mem) (lives.mpr alive) with
      ⟨j, m, member, id, hasParent⟩ | ⟨st, reaped⟩
    · by_cases h : j = i
      · subst h
        rcases quiet with ⟨-, orphan⟩ | ⟨n, parent, status, member', hasParent', -, rfl⟩
        · rw [orphan m member] at hasParent
          cases hasParent
        · obtain rfl : m = n := Option.some.inj (member.symm.trans member')
          obtain rfl : p = parent := Option.some.inj (hasParent.symm.trans hasParent')
          right
          exact ⟨status, List.mem_append_right _ (List.mem_singleton.mpr (by rw [id]))⟩
      · exact .inl ⟨j, m, (other j h).trans member, id, hasParent⟩
    · exact .inr ⟨st, List.mem_append_left _ reaped⟩
  · intro p c st mem
    rcases List.mem_append.mp mem with old | new
    · obtain ⟨away, known⟩ := lawful.gone old
      exact ⟨fun j m member => away j m (stays member).2, known.append⟩
    · rcases quiet with ⟨rfl, -⟩ | ⟨n, parent, status, member', -, -, rfl⟩
      · cases new
      · obtain ⟨-, rfl, -⟩ := Event.reaped.inj (List.mem_singleton.mp new)
        refine ⟨fun j m member same => ?_, (lawful.known_of_member member').append⟩
        exact (stays member).1 (lawful.distinct (stays member).2 member' same)
  · intro l₁ p c st l₂ split
    rcases quiet with ⟨rfl, -⟩ | ⟨n, parent, status, member', hasParent, endedWith, rfl⟩
    · rw [List.append_nil] at split
      exact lawful.told split
    have notReaped : ∀ p' st', .reaped p' n.id st' ∉ log := fun p' st' mem =>
      (lawful.gone mem).1 i n member' rfl
    rcases snoc_split split with ⟨rfl, same, rfl⟩ | ⟨l, eq, rfl⟩
    · obtain ⟨rfl, rfl, rfl⟩ := Event.reaped.inj same
      rw [List.append_nil]
      refine ⟨?_, by rw [lawful.status member', endedWith], notReaped⟩
      rcases lawful.recorded member' with isRoot | ⟨p', born, none' | some'⟩
      · obtain ⟨j, m, member, id, running⟩ := lawful.rootLives
        obtain rfl := lawful.distinct member member' (id.trans isRoot.symm)
        obtain rfl : m = n := Option.some.inj (member.symm.trans member')
        rw [running] at endedWith
        cases endedWith
      · rw [none'] at hasParent
        cases hasParent
      · obtain rfl : p' = p := Option.some.inj (some'.symm.trans hasParent)
        exact born
    · obtain ⟨born, first, apart⟩ := lawful.told eq
      refine ⟨born, first, fun p' st' mem => ?_⟩
      rw [← List.append_assoc, List.mem_append, List.mem_singleton] at mem
      rcases mem with old | new
      · exact apart p' st' old
      · obtain ⟨-, rfl, -⟩ := Event.reaped.inj new
        exact notReaped p st (eq ▸ List.mem_append_right _ List.mem_cons_self)

/-- **The end of a member.** -/
theorem death (lawful : Lawful root people log) {m : Member α σ} {status : σ}
    (member : people i = some m) (running : m.ended = none) (notRoot : m.id ≠ root)
    (buried : Buried people i m.id status people') :
    Lawful root people' (log ++ [.ended m.id status]) := by
  -- Where the members of the new household come from.
  have before : ∀ {j n'}, people' j = some n' → ∃ n, people j = some n ∧ n'.id = n.id ∧
      n'.ended = (if j = i then some status else n.ended) ∧
      n'.parent = if n.parent = some m.id then none else n.parent := by
    intro j n' member'
    have rule := buried j
    cases was : people j with
    | none =>
      rw [was] at rule
      rw [rule] at member'
      cases member'
    | some n =>
      rw [was] at rule
      refine ⟨n, rfl, ?_⟩
      dsimp only at rule
      split at rule
      · rename_i child
        rcases rule with kept | ⟨-, lost⟩
        · obtain rfl := Option.some.inj (member'.symm.trans kept)
          rw [if_pos child]
          split <;> exact ⟨rfl, rfl, rfl⟩
        · rw [lost] at member'
          cases member'
      · rename_i stranger
        obtain rfl := Option.some.inj (member'.symm.trans rule)
        rw [if_neg stranger]
        split <;> exact ⟨rfl, rfl, rfl⟩
  have self : people i = some m := member
  have lives : ∀ {a}, Lives people' a ↔ a ≠ m.id ∧ Lives people a := by
    intro a
    constructor
    · rintro ⟨j, n', member', rfl, alive⟩
      obtain ⟨n, was, id, endedEq, -⟩ := before member'
      by_cases h : j = i
      · rw [if_pos h, alive] at endedEq
        cases endedEq
      · rw [if_neg h, alive] at endedEq
        refine ⟨fun same => h (lawful.distinct was self (id.symm.trans same)), ?_⟩
        exact ⟨j, n, was, id.symm, endedEq.symm⟩
    · rintro ⟨ne, j, n, was, rfl, alive⟩
      have other : j ≠ i := by
        rintro rfl
        exact ne (congrArg Member.id (Option.some.inj (was.symm.trans self)))
      have rule := buried j
      rw [was] at rule
      dsimp only at rule
      rw [if_neg other] at rule
      split at rule
      · rcases rule with kept | ⟨gone, -⟩
        · exact ⟨j, _, kept, rfl, alive⟩
        · rw [alive] at gone
          cases gone
      · exact ⟨j, n, rule, rfl, alive⟩
  have unended : firstEnd log m.id = none := by rw [lawful.status self, running]
  have old : ∀ {e : Event α σ}, (∀ a st, e ≠ .ended a st) → e ∈ log ++ [.ended m.id status] →
      e ∈ log := by
    intro e other mem
    rw [List.mem_append, List.mem_singleton] at mem
    exact mem.resolve_right (other _ _)
  refine ⟨lives.mpr ⟨Ne.symm notRoot, lawful.rootLives⟩, ?_, ?_, ?_, ?_, ?_, ?_, ?_, ?_, ?_, ?_, ?_⟩
  · intro j k n n' member member' same
    obtain ⟨o, was, id, -⟩ := before member
    obtain ⟨o', was', id', -⟩ := before member'
    exact lawful.distinct was was' (id.symm.trans (same.trans id'))
  · intro j n' member'
    obtain ⟨n, was, id, -, parentEq⟩ := before member'
    rw [id]
    refine (lawful.recorded was).imp_right ?_
    rintro ⟨p, born, same⟩
    refine ⟨p, List.mem_append_left _ born, ?_⟩
    rw [parentEq]
    split
    · exact .inl rfl
    · exact same
  · exact fun p mem => lawful.rootUnborn p (old (by simp) mem)
  · exact fun mem mem' => lawful.once (old (by simp) mem) (old (by simp) mem')
  · exact fun mem => (lawful.ancestors (old (by simp) mem)).append
  · intro j n' p member' hasParent
    obtain ⟨n, was, -, -, parentEq⟩ := before member'
    rw [hasParent] at parentEq
    split at parentEq
    · cases parentEq
    · rename_i stranger
      refine lives.mpr ⟨?_, lawful.parentLives was parentEq.symm⟩
      rintro rfl
      exact stranger parentEq.symm
  · intro j n' member'
    obtain ⟨n, was, id, endedEq, -⟩ := before member'
    rw [firstEnd_append, firstEnd_ended, id, endedEq]
    by_cases h : j = i
    · subst h
      obtain rfl : n = m := Option.some.inj (was.symm.trans self)
      rw [unended, Option.none_or, if_pos rfl, if_pos rfl]
    · have other : m.id ≠ n.id := fun same => h (lawful.distinct was self same.symm)
      rw [if_neg other, if_neg h, Option.or_none, lawful.status was]
  · intro a st first
    rw [firstEnd_append, firstEnd_ended] at first
    by_cases h : m.id = a
    · exact h ▸ (lawful.known_of_member self).append
    · rw [if_neg h, Option.or_none] at first
      exact (lawful.endedKnown first).append
  · intro c p mem alive
    obtain ⟨ne, alive⟩ := lives.mp alive
    rcases lawful.held (old (by simp) mem) alive with ⟨j, n, was, id, hasParent⟩ | ⟨st, reaped⟩
    · have rule := buried j
      rw [was] at rule
      dsimp only at rule
      have stranger : n.parent ≠ some m.id := by
        rw [hasParent]
        exact fun same => ne (Option.some.inj same)
      rw [if_neg stranger] at rule
      refine .inl ⟨j, _, rule, ?_, ?_⟩
      · split <;> exact id
      · split <;> exact hasParent
    · exact .inr ⟨st, List.mem_append_left _ reaped⟩
  · intro p c st mem
    obtain ⟨away, known⟩ := lawful.gone (old (by simp) mem)
    refine ⟨fun j n' member' => ?_, known.append⟩
    obtain ⟨n, was, id, -⟩ := before member'
    rw [id]
    exact away j n was
  · intro l₁ p c st l₂ split
    exact lawful.told_snoc (by simp) split

/-- **Every change keeps the log true.** -/
theorem change (lawful : Lawful root people log) (changed : Change root people log more people') :
    Lawful root people' (log ++ more) := by
  cases changed with
  | still => simpa using lawful
  | birth i child parent vacant fresh alive => exact lawful.birth vacant fresh alive
  | clear i vacant =>
    exact lawful.remove (fun m member => (vacant m member).1)
      (.inl ⟨rfl, fun m member => (vacant m member).2⟩)
  | death i m status _ member running notRoot buried =>
    exact lawful.death member running notRoot buried
  | again i m status member ended => exact lawful.again member ended
  | reap i m parent status member hasParent ended =>
    refine lawful.remove (fun n member' => ?_) (.inr ⟨m, parent, status, member, hasParent, ended, rfl⟩)
    rw [Option.some.inj (member'.symm.trans member), ended]
    rfl

end Lawful

end AtmKoala.Lib.Family
