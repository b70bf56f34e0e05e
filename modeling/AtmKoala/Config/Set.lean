import AtmKoala.Config.Model

/-!
What `cfg_set` keeps: a property of all sections that one key of a section keeps, and a
property of all pairs.
-/

namespace AtmKoala.Config

open Lib

variable {key val name : Bytes} {cfg : CfgFile} {sec : Section}

/-- What holds of all elements, and behind `f` of the one it is used on. -/
theorem forall_onFirst {α : Type} {P : α → Prop} {p : α → Bool} {f : α → α} {l : List α}
    (all : ∀ a ∈ l, P a) (kept : ∀ a, p a = true → P a → P (f a)) : ∀ a ∈ onFirst p f l, P a := by
  induction l with
  | nil => exact all
  | cons b l ih =>
    have rest := fun a mem => all a (List.mem_cons_of_mem _ mem)
    rw [onFirst]
    split
    · rename_i here
      intro a mem
      rcases List.mem_cons.mp mem with rfl | old
      · exact kept b here (all b List.mem_cons_self)
      · exact rest a old
    · intro a mem
      rcases List.mem_cons.mp mem with rfl | old
      · exact all a List.mem_cons_self
      · exact ih rest a old

theorem length_onFirst {α : Type} (p : α → Bool) (f : α → α) (l : List α) :
    (onFirst p f l).length = l.length := by
  induction l with
  | nil => rfl
  | cons b l ih =>
    rw [onFirst]
    split
    · rfl
    · rw [List.length_cons, List.length_cons, ih]

/-- What holds of all pairs of a section, and of a new one, holds behind `setKey`. -/
theorem setKey_pairs {P : Pair → Prop} (all : ∀ kv ∈ sec.entries, P kv) (new : P ⟨key, val⟩) :
    ∀ kv ∈ (setKey key val sec).2.entries, P kv := by
  unfold setKey
  split
  · refine forall_onFirst all fun kv same _ => ?_
    rw [← of_decide_eq_true same] at new
    exact new
  · split
    · exact all
    · intro kv mem
      rcases List.mem_append.mp mem with old | last
      · exact all kv old
      · cases List.mem_singleton.mp last
        exact new

theorem setKey_name (key val : Bytes) (sec : Section) : (setKey key val sec).2.name = sec.name := by
  unfold setKey
  split
  · rfl
  · split
    · rfl
    · rfl

theorem setKey_few (few : sec.entries.length ≤ cfgMaxKeys) :
    (setKey key val sec).2.entries.length ≤ cfgMaxKeys := by
  unfold setKey
  split
  · dsimp only
    rw [length_onFirst]
    exact few
  · split
    · exact few
    · dsimp only
      rw [List.length_append, List.length_singleton]
      omega

/-- A property of sections that `setKey` keeps, and an empty section has, holds behind
`cfg_set`. -/
theorem cfgSet_sections {P : Section → Prop} (all : ∀ sec ∈ cfg, P sec) (empty : P ⟨name, []⟩)
    (kept : ∀ sec, P sec → P (setKey key val sec).2) : ∀ sec ∈ (cfgSet cfg name key val).2, P sec := by
  unfold cfgSet
  dsimp only
  split
  · exact forall_onFirst all fun sec _ => kept sec
  · split
    · exact all
    · refine forall_onFirst (fun sec mem => ?_) fun sec _ => kept sec
      rcases List.mem_append.mp mem with old | last
      · exact all sec old
      · cases List.mem_singleton.mp last
        exact empty

theorem length_cfgSet (few : cfg.length ≤ cfgMaxSections) :
    (cfgSet cfg name key val).2.length ≤ cfgMaxSections := by
  unfold cfgSet
  dsimp only
  split
  · rw [length_onFirst]
    exact few
  · split
    · exact few
    · rw [length_onFirst, List.length_append, List.length_singleton]
      omega

end AtmKoala.Config
