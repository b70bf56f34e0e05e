import Mathlib.Logic.Function.Basic

/-!
Exclusive ownership of numbered resources.

Places `K` hold resource numbers, `nil` standing for none; `marked` says which
numbers an allocator considers taken. In a `Ledger` no number is held twice,
every number held is marked, and every mark other than that of `nil` is held
somewhere. Two rules keep a ledger: `Ledger.fill` puts an unmarked number into
an empty place, `Ledger.drop` empties a set of places and unmarks what they
held. `Ledger.congr` moves it along pointwise equal descriptions.
-/

namespace AtmKoala.Lib

open Function (update_of_ne update_self)

variable {K V : Type}

/-- The places `s` and the marks agree, and nothing is held twice. -/
structure Ledger (nil : V) (s : K → V) (marked : V → Prop) : Prop where
  inj : ∀ {k l}, s k ≠ nil → s k = s l → k = l
  held : ∀ {k}, s k ≠ nil → marked (s k)
  reserved : marked nil
  owned : ∀ {v}, marked v → v ≠ nil → ∃ k, s k = v

namespace Ledger

variable {nil : V} {s s' : K → V} {marked marked' : V → Prop}

/-- Whatever a place holds is marked. -/
theorem marked_of (h : Ledger nil s marked) (k : K) : marked (s k) := by
  by_cases hk : s k = nil
  · rw [hk]
    exact h.reserved
  · exact h.held hk

/-- An unmarked number is held nowhere. -/
theorem ne_of_not_marked (h : Ledger nil s marked) {v : V} (fresh : ¬marked v) (k : K) :
    s k ≠ v := by
  intro hk
  exact fresh (hk ▸ h.marked_of k)

theorem ne_nil_of_not_marked (h : Ledger nil s marked) {v : V} (fresh : ¬marked v) : v ≠ nil := by
  intro hv
  exact fresh (hv ▸ h.reserved)

theorem congr (h : Ledger nil s marked) (same : s' = s) (marks : ∀ v, marked' v ↔ marked v) :
    Ledger nil s' marked' where
  inj := by
    rw [same]
    exact h.inj
  held := by
    rw [same]
    intro k hk
    exact (marks _).mpr (h.held hk)
  reserved := (marks _).mpr h.reserved
  owned := by
    rw [same]
    intro v hv hne
    exact h.owned ((marks _).mp hv) hne

/-- **Fill.** An unmarked number goes into an empty place. -/
theorem fill [DecidableEq K] (h : Ledger nil s marked) {k : K} {v : V} (empty : s k = nil)
    (fresh : ¬marked v) (filled : s' = Function.update s k v)
    (marks : ∀ u, marked' u ↔ marked u ∨ u = v) : Ledger nil s' marked' where
  inj := by
    intro a b ha hab
    rw [filled] at ha hab
    by_cases hak : a = k
    · by_cases hbk : b = k
      · rw [hak, hbk]
      · rw [hak, update_self, update_of_ne hbk] at hab
        exact absurd hab.symm (h.ne_of_not_marked fresh b)
    · by_cases hbk : b = k
      · rw [hbk, update_self, update_of_ne hak] at hab
        exact absurd hab (h.ne_of_not_marked fresh a)
      · rw [update_of_ne hak] at ha
        rw [update_of_ne hak, update_of_ne hbk] at hab
        exact h.inj ha hab
  held := by
    intro a ha
    rw [filled] at ha ⊢
    by_cases hak : a = k
    · rw [hak, update_self]
      exact (marks _).mpr (Or.inr rfl)
    · rw [update_of_ne hak] at ha ⊢
      exact (marks _).mpr (Or.inl (h.held ha))
  reserved := (marks _).mpr (Or.inl h.reserved)
  owned := by
    intro u hu hne
    rcases (marks u).mp hu with old | rfl
    · obtain ⟨a, ha⟩ := h.owned old hne
      have hak : a ≠ k := by
        rintro rfl
        exact hne (ha.symm.trans empty)
      exact ⟨a, by rw [filled, update_of_ne hak, ha]⟩
    · exact ⟨k, by rw [filled, update_self]⟩

/-- **Drop.** The places in `D` are emptied and what they held is unmarked. -/
theorem drop (h : Ledger nil s marked) {D : K → Prop} (keep : ∀ k, ¬D k → s' k = s k)
    (gone : ∀ k, D k → s' k = nil)
    (marks : ∀ v, marked' v ↔ marked v ∧ ¬(v ≠ nil ∧ ∃ k, D k ∧ s k = v)) :
    Ledger nil s' marked' where
  inj := by
    intro a b ha hab
    have hDa : ¬D a := fun d => ha (gone a d)
    have hDb : ¬D b := fun d => ha (hab.trans (gone b d))
    rw [keep a hDa] at ha hab
    rw [keep b hDb] at hab
    exact h.inj ha hab
  held := by
    intro a ha
    have hDa : ¬D a := fun d => ha (gone a d)
    rw [keep a hDa] at ha ⊢
    refine (marks _).mpr ⟨h.held ha, ?_⟩
    rintro ⟨-, b, hDb, hb⟩
    exact hDa (h.inj ha hb.symm ▸ hDb)
  reserved := (marks _).mpr ⟨h.reserved, fun bad => bad.1 rfl⟩
  owned := by
    intro v hv hne
    obtain ⟨old, notGone⟩ := (marks v).mp hv
    obtain ⟨k, hk⟩ := h.owned old hne
    have hDk : ¬D k := fun d => notGone ⟨hne, k, d, hk⟩
    exact ⟨k, (keep k hDk).trans hk⟩

end Ledger

end AtmKoala.Lib
