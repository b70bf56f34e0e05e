import Mathlib.Data.Nat.Count
import Mathlib.Data.Set.Card
import AtmKoala.Paging.Map

/-!
All tables of a user space.

`paging_create_user_space` copies the tables of the kernel, puts its own ones in place of
the first four page directories and opens the way to the window for user mode. After that
only entries of `pd[1]` change, one for each span of the window that gets a page table.

* `perform_preserves`: what the calls write, as an induction rule.
* `Linked` is the invariant: the directory entries of the window lead to the page tables
  that are there, and all others are the kernel's.
* `pagingUserMappedBytes_eq`: the count of `paging_user_mapped_bytes` is that of the pages.
* `page_map_run` puts this together with the pages of `Map` for every run.
-/

namespace AtmKoala.Paging

open Lib
open Function (update_of_ne update_self)

/-- An entry of an upper table: one of the kernel's, or one that leads to a table of the
space, open to user mode or not. -/
inductive Link where
  | kernel (entry : Nat)
  | own (user : Bool)
deriving DecidableEq

/-- The tables of the kernel. -/
structure KernelTables where
  pml4 : Nat → Nat
  pdpt : Nat → Nat
  pd : Fin 4 → Nat → Nat

/-- A user space with its upper tables. -/
structure Tables where
  pml4 : Nat → Link
  pdpt : Nat → Link
  space : UserSpace

/-- `paging_create_user_space`, when there is memory and the kernel has its four page
directories. -/
def pagingCreateTables (k : KernelTables) : Tables where
  pml4 := Function.update (fun i => .kernel (k.pml4 i)) 0 (.own true)
  pdpt i := if i < 4 then .own (i = 1) else .kernel (k.pdpt i)
  space := pagingCreateUserSpace k.pd

/-- `paging_user_mapped_bytes`. -/
def pagingUserMappedBytes (s : UserSpace) : Nat :=
  if !s.valid then 0
  else
    ((List.range atmUserPtCount).map fun slot =>
      match s.userPt slot with
      | none => 0
      | some table => Nat.count (fun i => (table i).present = true) 512).sum * atmPageSize

/-- One call on the space, with a record of what the successful ones have mapped. -/
def tableStep (t : Tables × PageMap) (op : Op) (t' : Tables × PageMap) : Prop :=
  t' = ({ t.1 with space := (op.perform t.1.space).1 },
    if (op.perform t.1.space).2 = 0 then op.effect t.2 else t.2)

/-! ### What is expected -/

/-- When a call succeeds. -/
def Accepted (s : UserSpace) (pages : PageMap) : Op → Prop
  | .map va _ _ _ alloc =>
    userWindow va = true ∧ va % atmPageSize = 0 ∧ (s.userPt (userPtSlot va) ≠ none ∨ alloc = true)
  | .unmap va => userWindow va = true ∧ va % atmPageSize = 0 ∧ s.userPt (userPtSlot va) ≠ none
  | .release va | .protect va _ _ => pages va ≠ none

/-- The entry that `paging_user_translate` reports for a page. -/
def Page.entry (x : Page) : Pte := ⟨x.frame, true, x.writable, true, x.noExec⟩

/-- The tables of the kernel are as they were copied, up to the directory entries of the
window. -/
structure Copied (created t : Tables) : Prop where
  pml4 : t.pml4 = created.pml4
  pdpt : t.pdpt = created.pdpt
  pd : ∀ i k, ¬(i = 1 ∧ k < atmUserPtCount) → t.space.pd i k = created.space.pd i k

variable {s s' : UserSpace} {pages : PageMap} {va : Nat} {e : Pte} {op : Op} {k : KernelTables}
  {kpd : Fin 4 → Nat → Nat}

/-! ### What the calls write -/

/-- **What a call writes**: a table for the span of its page, an entry of it, which belongs
to user mode if it is present, and the count of pages. -/
theorem perform_preserves {P : UserSpace → Prop} (op : Op) (holds : P s)
    (table : ∀ s s' alloc, userWindow op.va = true → withTable s op.va alloc = some s' → P s → P s')
    (entry : ∀ s e, (e.present = true → e.user = true) → P s → P (s.setPte op.va e))
    (count : ∀ s n, P s → P { s with mappedPages := n }) : P (op.perform s).1 := by
  cases op with
  | map va phys writable noExec alloc =>
    unfold Op.perform pagingMapUserPage
    dsimp only
    split
    · exact holds
    · rename_i fails
      split
      · exact holds
      · have inside : userWindow va = true := by
          simp only [Bool.or_eq_true, Bool.not_eq_true', not_or] at fails
          exact Bool.of_not_eq_false fails.1.2
        cases done : withTable s va alloc with
        | none => exact holds
        | some s' =>
          have set := entry s' ⟨pageMask phys, true, writable, true, noExec⟩ (fun _ => rfl)
            (table s s' alloc inside done holds)
          dsimp only
          split
          · exact count _ _ set
          · exact set
  | unmap va =>
    unfold Op.perform pagingUnmapUserPage
    dsimp only
    split
    · exact holds
    · split
      · exact holds
      · exact entry s .zero nofun holds
  | release va =>
    unfold Op.perform pagingReleaseUserPage
    dsimp only
    split
    · exact holds
    · split
      · exact holds
      · split
        · exact holds
        · exact entry s .zero nofun holds
  | protect va writable noExec =>
    unfold Op.perform pagingProtectUserPage
    dsimp only
    split
    · exact holds
    · split
      · exact holds
      · split
        · exact holds
        · exact entry s _ (fun _ => rfl) holds

/-- The directory entries of the window lead to the tables that are there; all others are
the kernel's. Entries that are present belong to user mode. -/
structure Linked (kpd : Fin 4 → Nat → Nat) (s : UserSpace) : Prop where
  tables : ∀ slot, slot < atmUserPtCount →
    s.pd 1 slot = if (s.userPt slot).isSome then .table slot else .kernel (kpd 1 slot)
  kernel : ∀ i k, ¬(i = 1 ∧ k < atmUserPtCount) → s.pd i k = .kernel (kpd i k)
  user : ∀ slot table i, s.userPt slot = some table → (table i).present = true → (table i).user = true

namespace Linked

theorem fresh (kpd : Fin 4 → Nat → Nat) : Linked kpd (pagingCreateUserSpace kpd) where
  tables _ _ := rfl
  kernel _ _ _ := rfl
  user _ _ _ there := nomatch there

theorem withTable_ {alloc : Bool} (linked : Linked kpd s) (inside : userWindow va = true)
    (done : withTable s va alloc = some s') : Linked kpd s' := by
  unfold withTable at done
  split at done
  · exact Option.some.inj done ▸ linked
  · split at done
    · cases done
    · obtain rfl := Option.some.inj done
      refine ⟨fun slot less => ?_, fun i k outside => ?_, fun slot table i there present => ?_⟩
      · by_cases here : slot = userPtSlot va
        · subst here
          simp
        · simpa [here] using linked.tables slot less
      · rw [← linked.kernel i k outside]
        by_cases here : i = 1
        · subst here
          have other : k ≠ userPtSlot va := by
            rintro rfl
            exact outside ⟨rfl, slot_lt inside⟩
          simp [other]
        · simp [here]
      · dsimp only at there
        by_cases here : slot = userPtSlot va
        · subst here
          rw [update_self] at there
          obtain rfl := Option.some.inj there
          cases present
        · rw [update_of_ne here] at there
          exact linked.user slot table i there present

theorem setPte (linked : Linked kpd s) (va : Nat) (user : e.present = true → e.user = true) :
    Linked kpd (s.setPte va e) where
  tables slot less := by
    rw [show (s.setPte va e).pd = s.pd from rfl, linked.tables slot less]
    congr 1
    unfold UserSpace.setPte
    by_cases here : slot = userPtSlot va
    · subst here
      simp
    · simp [here]
  kernel := linked.kernel
  user slot table i there present := by
    unfold UserSpace.setPte at there
    dsimp only at there
    by_cases here : slot = userPtSlot va
    · subst here
      rw [update_self] at there
      obtain ⟨old, was, rfl⟩ := Option.map_eq_some_iff.mp there
      by_cases page : i = userPtPage va
      · subst page
        rw [update_self] at present ⊢
        exact user present
      · rw [update_of_ne page] at present ⊢
        exact linked.user _ old i was present
    · rw [update_of_ne here] at there
      exact linked.user slot table i there present

theorem perform (linked : Linked kpd s) (op : Op) : Linked kpd (op.perform s).1 :=
  perform_preserves op linked (fun _ _ _ inside done linked => linked.withTable_ inside done)
    (fun _ _ user linked => linked.setPte op.va user)
    fun _ _ linked => ⟨linked.tables, linked.kernel, linked.user⟩

end Linked

/-- There is an entry for every page whose span has a table. -/
theorem entry_ne_none (inside : userWindow va = true) :
    s.entry va ≠ none ↔ s.userPt (userPtSlot va) ≠ none := by
  unfold UserSpace.entry
  rw [if_neg (Nat.not_le_of_lt (slot_lt inside)), ne_eq, Option.map_eq_none_iff]

/-- A page is mapped if its entry is present. -/
theorem Shows.present (shows_ : Shows s pages) (inside : userWindow va = true)
    (aligned : va % atmPageSize = 0) (there : s.entry va = some e) :
    pages va ≠ none ↔ e.present = true ∧ e.user = true := by
  rw [← shows_.entries va inside aligned, there, Option.bind_some, Pte.page, ← Bool.and_eq_true]
  split
  · rename_i holds
    exact iff_of_true (by rintro ⟨⟩) holds
  · rename_i fails
    exact iff_of_false (fun some_ => some_ rfl) fails

/-- The test that all calls begin with. -/
theorem guard_iff (valid : s.valid = true) :
    (!s.valid || !userWindow va || va % atmPageSize ≠ 0) = true ↔
      ¬(userWindow va = true ∧ va % atmPageSize = 0) := by
  cases inside : userWindow va with
  | true => simp [valid]
  | false => simp

theorem refused (s : UserSpace) : ¬(s, (-1 : Int)).2 = 0 := fun zero => absurd zero (by decide : ¬(-1 : Int) = 0)

theorem withTable_ne_none {alloc : Bool} :
    withTable s va alloc ≠ none ↔ s.userPt (userPtSlot va) ≠ none ∨ alloc = true := by
  unfold withTable
  cases s.userPt (userPtSlot va) with
  | some table => simp
  | none => cases alloc <;> simp

theorem pagingMapUserPage_zero {phys : Nat} {writable noExec alloc : Bool} (valid : s.valid = true) :
    (pagingMapUserPage s va phys writable noExec alloc).2 = 0 ↔
      userWindow va = true ∧ va % atmPageSize = 0 ∧ (s.userPt (userPtSlot va) ≠ none ∨ alloc = true) := by
  unfold pagingMapUserPage
  by_cases proper : userWindow va = true ∧ va % atmPageSize = 0
  · rw [if_neg (fun fails => (guard_iff valid).mp fails proper),
      if_neg (Nat.not_le_of_lt (slot_lt proper.1)), ← withTable_ne_none, ← and_assoc, and_iff_right proper]
    cases withTable s va alloc with
    | none => simp
    | some s' => simp
  · rw [if_pos ((guard_iff valid).mpr proper)]
    exact iff_of_false (refused s) fun ok => proper ⟨ok.1, ok.2.1⟩

theorem pagingUnmapUserPage_zero (valid : s.valid = true) :
    (pagingUnmapUserPage s va).2 = 0 ↔
      userWindow va = true ∧ va % atmPageSize = 0 ∧ s.userPt (userPtSlot va) ≠ none := by
  unfold pagingUnmapUserPage
  by_cases proper : userWindow va = true ∧ va % atmPageSize = 0
  · rw [if_neg (fun fails => (guard_iff valid).mp fails proper), ← entry_ne_none proper.1, ← and_assoc,
      and_iff_right proper]
    cases s.entry va with
    | none => simp
    | some old => simp
  · rw [if_pos ((guard_iff valid).mpr proper)]
    exact iff_of_false (refused s) fun ok => proper ⟨ok.1, ok.2.1⟩

/-- What `paging_release_user_page` and `paging_protect_user_page` find for a page that is not
mapped, and for one that is. -/
theorem Shows.found (shows_ : Shows s pages) (va : Nat) :
    pages va = none ∧ ((!s.valid || !userWindow va || va % atmPageSize ≠ 0) = true ∨ s.entry va = none ∨
      ∃ old, s.entry va = some old ∧ (!old.present || !old.user) = true) ∨
    pages va ≠ none ∧ ¬(!s.valid || !userWindow va || va % atmPageSize ≠ 0) = true ∧
      ∃ old, s.entry va = some old ∧ ¬(!old.present || !old.user) = true := by
  rw [guard_iff shows_.valid, not_not]
  by_cases proper : userWindow va = true ∧ va % atmPageSize = 0
  · cases there : s.entry va with
    | none =>
      have nothing := shows_.entries va proper.1 proper.2
      rw [there] at nothing
      exact .inl ⟨nothing.symm, .inr (.inl rfl)⟩
    | some old =>
      have present := shows_.present proper.1 proper.2 there
      by_cases mapped : pages va ≠ none
      · obtain ⟨here, user⟩ := present.mp mapped
        exact .inr ⟨mapped, proper, old, rfl, by simp [here, user]⟩
      · refine .inl ⟨not_not.mp mapped, .inr (.inr ⟨old, rfl, ?_⟩)⟩
        rw [present] at mapped
        by_contra fails
        exact mapped (by simpa using fails)
  · refine .inl ⟨?_, .inl proper⟩
    by_contra some_
    exact proper (shows_.outside va some_)

theorem Shows.pagingReleaseUserPage_zero (shows_ : Shows s pages) :
    (pagingReleaseUserPage s va).2 = 0 ↔ pages va ≠ none := by
  unfold pagingReleaseUserPage
  rcases shows_.found va with ⟨nothing, fails⟩ | ⟨mapped, passes, old, there, present⟩
  · refine iff_of_false ?_ (not_not.mpr nothing)
    split
    · exact refused s
    · rename_i passes
      rcases fails with fails | there | ⟨old, there, absent⟩
      · exact absurd fails passes
      · rw [there]
        exact refused s
      · rw [there]
        dsimp only
        rw [if_pos absent]
        exact refused s
  · rw [if_neg passes, there]
    dsimp only
    rw [if_neg present]
    exact iff_of_true rfl mapped

theorem Shows.pagingProtectUserPage_zero (shows_ : Shows s pages) (writable noExec : Bool) :
    (pagingProtectUserPage s va writable noExec).2 = 0 ↔ pages va ≠ none := by
  rw [← shows_.pagingReleaseUserPage_zero]
  unfold pagingProtectUserPage pagingReleaseUserPage
  split
  · rfl
  · split
    · rfl
    · split
      · rfl
      · rfl

/-- **When a call succeeds.** -/
theorem Shows.accepted (shows_ : Shows s pages) (op : Op) :
    (op.perform s).2 = 0 ↔ Accepted s pages op := by
  cases op with
  | map va phys writable noExec alloc => exact pagingMapUserPage_zero shows_.valid
  | unmap va => exact pagingUnmapUserPage_zero shows_.valid
  | release va => exact shows_.pagingReleaseUserPage_zero
  | protect va writable noExec => exact shows_.pagingProtectUserPage_zero writable noExec

/-! ### Translation -/

/-- **Translation** reads the map. -/
theorem Shows.translate_eq (shows_ : Shows s pages) (va : Nat) :
    pagingUserTranslate s va =
      (pages (pageBase va)).map fun x => (x.frame + va % atmPageSize, x.entry) := by
  cases there : pages (pageBase va) with
  | none => exact shows_.translate_none there
  | some x =>
    have inside := shows_.window there
    have shown := shows_.entries (pageBase va) (window_pageBase.trans inside) (pageBase_mod va)
    rw [entry_pageBase inside, there] at shown
    obtain ⟨e, at_, page⟩ := Option.bind_eq_some_iff.mp shown
    unfold Pte.page at page
    split at page
    · rename_i present
      obtain rfl := Option.some.inj page
      simp only [Bool.and_eq_true] at present
      obtain ⟨addr, _, writable, _, noExec⟩ := e
      obtain ⟨rfl, rfl⟩ : _ = true ∧ _ = true := present
      simp [pagingUserTranslate, shows_.valid, inside, at_, Page.entry]
    · cases page

/-! ### Counting -/

/-- Counting row by row. -/
theorem count_mul (p : Nat → Prop) [DecidablePred p] (m n : Nat) :
    ((List.range m).map fun i => Nat.count (fun j => p (i * n + j)) n).sum = Nat.count p (m * n) := by
  induction m with
  | zero => simp
  | succ m ih => rw [List.range_succ, List.map_append, List.sum_append, ih, Nat.succ_mul, Nat.count_add]; simp

/-- What is counted below a bound, as a set. -/
theorem ncard_eq_count (p : Nat → Prop) [DecidablePred p] (n : Nat) :
    {i | i < n ∧ p i}.ncard = Nat.count p n := by
  rw [Nat.count_eq_card_filter_range, ← Set.ncard_coe_finset]
  congr 1
  ext i
  simp

/-- The address of the `n`-th page of the window. -/
def pageAt (n : Nat) : Nat := atmUserBase + n * atmPageSize

theorem pageAt_injective : Function.Injective pageAt := by
  intro m n same
  unfold pageAt atmPageSize at same
  omega

/-- Slot and place of the `n`-th page. -/
theorem pageAt_split {slot i : Nat} (slot_lt : slot < atmUserPtCount) (i_lt : i < 512) :
    userWindow (pageAt (slot * 512 + i)) = true ∧ pageAt (slot * 512 + i) % atmPageSize = 0 ∧
      userPtSlot (pageAt (slot * 512 + i)) = slot ∧ userPtPage (pageAt (slot * 512 + i)) = i := by
  have bound : slot < 64 := slot_lt
  rw [window_iff]
  unfold userPtSlot userPtPage pageAt atmUserBase atmPageSize
  omega

theorem pageAt_of_window (inside : userWindow va = true) (aligned : va % atmPageSize = 0) :
    ∃ n, n < atmUserPtCount * 512 ∧ pageAt n = va := by
  rw [window_iff] at inside
  have count : atmUserPtCount = 64 := rfl
  refine ⟨(va - atmUserBase) / atmPageSize, ?_, ?_⟩
  · rw [count]
    unfold atmUserBase atmPageSize
    omega
  · unfold pageAt atmUserBase
    unfold atmPageSize at aligned ⊢
    omega

/-- The pages of one table. -/
theorem count_table (shows_ : Shows s pages) (linked : Linked kpd s) {slot : Nat}
    (less : slot < atmUserPtCount) :
    (match s.userPt slot with
      | none => 0
      | some table => Nat.count (fun i => (table i).present = true) 512) =
      Nat.count (fun i => pages (pageAt (slot * 512 + i)) ≠ none) 512 := by
  have entry : ∀ i, i < 512 → s.entry (pageAt (slot * 512 + i)) = (s.userPt slot).map fun table => table i := by
    intro i bound
    obtain ⟨-, -, sameSlot, samePage⟩ := pageAt_split less bound
    unfold UserSpace.entry
    rw [sameSlot, samePage, if_neg (Nat.not_le_of_lt less)]
  cases there : s.userPt slot with
  | none =>
    dsimp only
    rw [Nat.count_eq_card_filter_range, eq_comm, Finset.card_eq_zero, Finset.filter_eq_empty_iff]
    intro i bound some_
    have bound := Finset.mem_range.mp bound
    obtain ⟨inside, aligned, -, -⟩ := pageAt_split less bound
    have nothing := shows_.entries _ inside aligned
    rw [entry i bound, there] at nothing
    exact some_ nothing.symm
  | some table =>
    dsimp only
    rw [Nat.count_eq_card_filter_range, Nat.count_eq_card_filter_range]
    refine congrArg Finset.card (Finset.filter_congr fun i bound => ?_)
    have bound := Finset.mem_range.mp bound
    obtain ⟨inside, aligned, -, -⟩ := pageAt_split less bound
    have here := entry i bound
    rw [there] at here
    rw [shows_.present inside aligned here]
    exact ⟨fun present => ⟨present, linked.user slot table i there present⟩, fun both => both.1⟩

/-- **Counting the pages.** -/
theorem pagingUserMappedBytes_eq (shows_ : Shows s pages) (linked : Linked kpd s) :
    pagingUserMappedBytes s = {va | pages va ≠ none}.ncard * atmPageSize := by
  have image : {va | pages va ≠ none} = pageAt '' {n | n < atmUserPtCount * 512 ∧ pages (pageAt n) ≠ none} := by
    ext va
    constructor
    · intro some_
      obtain ⟨inside, aligned⟩ := shows_.outside va some_
      obtain ⟨n, bound, rfl⟩ := pageAt_of_window inside aligned
      exact ⟨n, ⟨bound, some_⟩, rfl⟩
    · rintro ⟨n, ⟨-, some_⟩, rfl⟩
      exact some_
  rw [image, Set.ncard_image_of_injective _ pageAt_injective, ncard_eq_count, ← count_mul]
  unfold pagingUserMappedBytes
  rw [if_neg (by simp [shows_.valid])]
  refine congrArg (fun n => n * atmPageSize) (congrArg List.sum ?_)
  exact List.map_congr_left fun slot mem => count_table shows_ linked (List.mem_range.mp mem)

/-! ### Every run -/

variable {ops : List Op} {t : Tables × PageMap}

theorem Copied.refl (t : Tables) : Copied t t := ⟨rfl, rfl, fun _ _ _ => rfl⟩

/-- What holds of a space in every state reached. -/
theorem tables_run (run : Run tableStep Anything (pagingCreateTables k, fun _ => none) ops t) :
    Shows t.1.space t.2 ∧ Linked k.pd t.1.space ∧ Copied (pagingCreateTables k) t.1 := by
  refine run.invariant (P := fun t => Shows t.1.space t.2 ∧ Linked k.pd t.1.space ∧
    Copied (pagingCreateTables k) t.1) ⟨Shows.fresh k.pd, Linked.fresh k.pd, Copied.refl _⟩ ?_
  rintro t op _ ⟨shows_, linked, copied⟩ - rfl
  have linked' := linked.perform op
  refine ⟨shows_.perform op, linked', copied.pml4, copied.pdpt, fun i n outside => ?_⟩
  exact linked'.kernel i n outside

/-- **The user page map.** After every sequence of calls on a new space, translation reads
the map of the pages, on which each call that succeeds has its effect at its own page only;
the mapped bytes are those of the pages; the tables of the kernel are as they were copied;
and a call succeeds as `Accepted` says. -/
theorem page_map_run (run : Run tableStep Anything (pagingCreateTables k, fun _ => none) ops t) :
    (∀ va, pagingUserTranslate t.1.space va =
      (t.2 (pageBase va)).map fun x => (x.frame + va % atmPageSize, x.entry)) ∧
    (∀ va, t.2 va ≠ none → userWindow va = true ∧ va % atmPageSize = 0) ∧
    pagingUserMappedBytes t.1.space = {va | t.2 va ≠ none}.ncard * atmPageSize ∧
    Copied (pagingCreateTables k) t.1 ∧
    ∀ op : Op, (op.perform t.1.space).2 = 0 ↔ Accepted t.1.space t.2 op := by
  obtain ⟨shows_, linked, copied⟩ := tables_run run
  exact ⟨shows_.translate_eq, shows_.outside, pagingUserMappedBytes_eq shows_ linked, copied,
    shows_.accepted⟩

/-- A page is mapped, protected and looked up in a fresh space. -/
theorem page_map_run_one :
    ∃ t, Run tableStep Anything (pagingCreateTables ⟨fun _ => 3, fun _ => 3, fun _ _ => 0x83⟩, fun _ => none)
        [.map 0x40200000 0x5000 true true true, .protect 0x40200000 false true] t ∧
      pagingUserTranslate t.1.space 0x40200123 = some (0x5123, ⟨0x5000, true, false, true, true⟩) ∧
      pagingUserMappedBytes t.1.space = {va | t.2 va ≠ none}.ncard * atmPageSize := by
  have run : Run tableStep Anything (pagingCreateTables ⟨fun _ => 3, fun _ => 3, fun _ _ => 0x83⟩, fun _ => none)
      [.map 0x40200000 0x5000 true true true, .protect 0x40200000 false true] _ :=
    ((Run.nil _).snoc trivial rfl).snoc trivial rfl
  obtain ⟨translate, -, bytes, -⟩ := page_map_run run
  refine ⟨_, run, ?_, bytes⟩
  rw [translate]
  decide

end AtmKoala.Paging
