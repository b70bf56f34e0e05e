import Mathlib.Logic.Relation

/-!
Trees given by parent links.

`parent` sends a node to the node above it, if it has one. A node is `Rooted` if
following the links leads to the root.

* `Rooted.acyclic`: below a root without a parent no node is above itself.
* `Rooted.attach` and `Rooted.transfer`: moving a node with everything below it, and
  taking nodes away.
* `Swept` is what one pass in the order of the nodes removes if it removes the nodes
  without a parent: the order decides what goes with them. `rooted_sweep_iff` says
  when the pass leaves a tree.
-/

namespace AtmKoala.Lib

variable {ι : Type} {parent parent' : ι → Option ι} {root i j p : ι}

/-- The links lead from the node to the root. -/
inductive Rooted (parent : ι → Option ι) (root : ι) : ι → Prop where
  | root : Rooted parent root root
  | up {i p : ι} (link : parent i = some p) (above : Rooted parent root p) : Rooted parent root i

/-- `p` is right above `i`. -/
def Above (parent : ι → Option ι) (i p : ι) : Prop := parent i = some p

namespace Rooted

/-- Every node but the root has a rooted node above it. -/
theorem above (h : Rooted parent root i) (ne : i ≠ root) :
    ∃ p, parent i = some p ∧ Rooted parent root p := by
  cases h with
  | root => exact absurd rfl ne
  | up link above => exact ⟨_, link, above⟩

/-- Nodes stay rooted if the nodes of a part closed under the links keep theirs. -/
theorem transfer (keep : ι → Prop) (h : Rooted parent root i) (kept : keep i)
    (step : ∀ {i p}, keep i → i ≠ root → parent i = some p → parent' i = some p ∧ keep p) :
    Rooted parent' root i := by
  induction h with
  | root => exact .root
  | @up i p link above ih =>
    by_cases atRoot : i = root
    · subst atRoot
      exact .root
    · obtain ⟨link', kept'⟩ := step kept atRoot link
      exact .up link' (ih kept')

/-- **No circles**: no node is above itself. -/
theorem acyclic (h : Rooted parent root i) (noParent : parent root = none) :
    ¬Relation.TransGen (Above parent) i i := by
  induction h with
  | root =>
    intro circle
    obtain ⟨p, link, -⟩ := Relation.TransGen.head'_iff.mp circle
    have impossible := noParent.symm.trans link
    cases impossible
  | @up i p link above ih =>
    intro circle
    obtain ⟨q, link', rest⟩ := Relation.TransGen.head'_iff.mp circle
    obtain rfl := Option.some.inj (Eq.trans (Eq.symm link) link')
    -- the circle through `i` is one through `p`
    exact ih (Relation.TransGen.tail' rest link)

/-- **Move.** A node is put below a rooted node that is not below it; everything rooted
stays rooted. -/
theorem attach (h : Rooted parent root j) (target : Rooted parent root p)
    (apart : ¬Relation.ReflTransGen (Above parent) p i) (moved : parent' i = some p)
    (others : ∀ k, k ≠ i → parent' k = parent k) : Rooted parent' root j := by
  have targetStays : Rooted parent' root p := by
    refine target.transfer (fun k => ¬Relation.ReflTransGen (Above parent) k i) apart ?_
    intro k q notBelow _ link
    have other : k ≠ i := by
      rintro rfl
      exact notBelow .refl
    exact ⟨(others k other).trans link, fun path => notBelow (.head link path)⟩
  induction h with
  | root => exact .root
  | @up k q link _ ih =>
    by_cases here : k = i
    · subst here
      exact .up moved targetStays
    · exact .up ((others k here).trans link) ih

end Rooted

/-! ### Sweeping -/

/-- What a pass in the order of the nodes removes from `mem`: nodes without a parent,
and nodes whose parent went before them. -/
inductive Swept [LT ι] (parent : ι → Option ι) (mem : ι → Prop) : ι → Prop where
  | lost {i : ι} (member : mem i) (none_ : parent i = none) : Swept parent mem i
  | behind {i p : ι} (member : mem i) (link : parent i = some p) (before : p < i)
      (gone : Swept parent mem p) : Swept parent mem i

section Sweep

variable [LT ι] {mem : ι → Prop}

theorem Swept.member (h : Swept parent mem i) : mem i := by
  cases h with
  | lost member _ => exact member
  | behind member _ _ _ => exact member

theorem Rooted.not_swept (h : Rooted parent root i) (out : ¬mem root) : ¬Swept parent mem i := by
  intro gone
  induction gone with
  | lost member none_ =>
    cases h with
    | root => exact out member
    | up link _ =>
      have impossible := none_.symm.trans link
      cases impossible
  | behind member link _ _ ih =>
    cases h with
    | root => exact out member
    | up link' above =>
      obtain rfl := Option.some.inj (link'.symm.trans link)
      exact ih above

/-- **Sweep.** The pass leaves rooted nodes only exactly if it removes every node that
is not rooted. -/
theorem rooted_sweep_iff (out : ¬mem root)
    (left : ∀ {i p}, ¬Swept parent mem i → (parent' i = some p ↔ parent i = some p ∧ ¬Swept parent mem p)) :
    (∀ i, mem i → ¬Swept parent mem i → Rooted parent' root i) ↔
      ∀ i, mem i → Rooted parent root i ∨ Swept parent mem i := by
  constructor
  · intro all i member
    by_cases gone : Swept parent mem i
    · exact .inr gone
    · refine .inl ((all i member gone).transfer (fun k => ¬Swept parent mem k) gone ?_)
      exact fun kept _ link => (left kept).mp link
  · intro all i member stays
    have rooted := (all i member).resolve_right stays
    refine rooted.transfer (fun k => Rooted parent root k) rooted ?_
    intro k q above ne link
    obtain ⟨q', link', above'⟩ := above.above ne
    obtain rfl := Option.some.inj (link.symm.trans link')
    exact ⟨(left (above.not_swept out)).mpr ⟨link, above'.not_swept out⟩, above'⟩

end Sweep

end AtmKoala.Lib
