import AtmKoala.Paging.Tables

/-!
New pages of a user space.

The loader, `brk` and `mmap` ask the kernel heap for a page and map it, page by page. What
the heap answers is a function of the number of the request; `paging_map_user_page` may ask
for one more page, which becomes a table.

* `mapPage_spec`: one page. It is mapped, or one of the requests was answered with null.
* `Filled` says what a row of new pages makes of the map, and `overPages_spec` that the
  loops do this up to the page where they stop.
-/

namespace AtmKoala.Paging

open Lib
open Function (update_of_ne update_self)

def atmUserStackTop : Nat := atmUserTop - 0x1000
def atmUserAnonBase : Nat := atmUserBase + 0x01000000

/-- A user space, the memory, and how often the heap was asked for a page. -/
structure Space where
  tables : UserSpace
  mem : Memory
  asked : Nat

/-- `kmemset`. -/
def kmemset (m : Memory) (a : Nat) (v : UInt8) (n : Nat) : Memory :=
  fun x => if a ≤ x ∧ x < a + n then v else m x

/-- Whether `paging_map_user_page` asks for a table. -/
def needsTable (s : UserSpace) (va : Nat) : Bool :=
  s.valid && userWindow va && va % atmPageSize = 0 && (s.userPt (userPtSlot va)).isNone

/-- The number of requests for a page that is not there: it may need a table. -/
def pageRequests (s : UserSpace) (va : Nat) : Nat := if (s.userPt (userPtSlot va)).isNone then 2 else 1

section

variable (heap : Nat → Option Nat)

/-- `paging_map_user_page`, with what the heap answers. -/
def mapUserPage (m : Space) (va phys : Nat) (writable noExec : Bool) : Space × Int :=
  match pagingMapUserPage m.tables va phys writable noExec (heap m.asked).isSome with
  | (tables, rc) =>
    ({ m with tables, asked := if needsTable m.tables va then m.asked + 1 else m.asked }, rc)

/-- A page from the heap is mapped at `va`, cleared or not. With `skip` a page that is there
already is left alone. -/
def mapPage (cleared skip writable noExec : Bool) (m : Space) (va : Nat) : Space × Int :=
  if skip && (pagingUserTranslate m.tables va).isSome then (m, 0)
  else
    match heap m.asked with
    | none => ({ m with asked := m.asked + 1 }, -1)
    | some page =>
      let mem := if cleared then kmemset m.mem page 0 atmPageSize else m.mem
      mapUserPage heap { m with mem, asked := m.asked + 1 } va page writable noExec

end

/-- A loop over `n` pages from `va` on, up to the first one for which `step` fails. -/
def overPages (step : Space → Nat → Space × Int) : Nat → Nat → Space → Space × Option Nat
  | 0, _, m => (m, none)
  | n + 1, va, m =>
    match step m va with
    | (m, rc) => if rc < 0 then (m, some va) else overPages step n (va + atmPageSize) m

/-! ### One page -/

variable {heap : Nat → Option Nat} {m m' : Space} {pages pages' pages'' : PageMap}
  {va n a k : Nat} {cleared skip writable noExec : Bool} {x : Page}

theorem stackTop_eq : atmUserStackTop = 0x47fff000 := rfl
theorem anonBase_eq : atmUserAnonBase = 0x41000000 := rfl

/-- One of the requests from `m` to `m'` was answered with null. -/
def RanOut (heap : Nat → Option Nat) (m m' : Space) : Prop :=
  ∃ i, m.asked ≤ i ∧ i < m'.asked ∧ heap i = none

/-- The tables determine the pages. -/
theorem Shows.unique {s : UserSpace} (shows_ : Shows s pages) (shows' : Shows s pages') : pages = pages' := by
  funext va
  by_cases proper : userWindow va = true ∧ va % atmPageSize = 0
  · rw [← shows_.entries va proper.1 proper.2, shows'.entries va proper.1 proper.2]
  · have nothing : pages va = none := by
      by_contra some_
      exact proper (shows_.outside va some_)
    have nothing' : pages' va = none := by
      by_contra some_
      exact proper (shows'.outside va some_)
    rw [nothing, nothing']

theorem pagingMapUserPage_rc (s : UserSpace) (va phys : Nat) (writable noExec alloc : Bool) :
    (pagingMapUserPage s va phys writable noExec alloc).2 = 0 ∨
      (pagingMapUserPage s va phys writable noExec alloc).2 = -1 := by
  unfold pagingMapUserPage
  split
  · exact .inr rfl
  · split
    · exact .inr rfl
    · split
      · exact .inr rfl
      · exact .inl rfl

/-- What a call for one page does: nothing to a page that is skipped; else the page is
mapped, or a request was answered with null. -/
inductive Placed (heap : Nat → Option Nat) (cleared skip writable noExec : Bool) (va : Nat) (m : Space)
    (pages : PageMap) : Space × Int → PageMap → Prop where
  | kept (mapped : pages va ≠ none) (skips : skip = true) :
    Placed heap cleared skip writable noExec va m pages (m, 0) pages
  | mapped {m' : Space} {page : Nat} (free : skip = true → pages va = none)
    (granted : heap m.asked = some page)
    (mem : m'.mem = if cleared then kmemset m.mem page 0 atmPageSize else m.mem)
    (asked : m'.asked = m.asked + pageRequests m.tables va) (answered : ¬RanOut heap m m')
    (tables : ∀ slot, (m'.tables.userPt slot).isSome =
      (slot = userPtSlot va || (m.tables.userPt slot).isSome)) :
    Placed heap cleared skip writable noExec va m pages (m', 0)
      (Function.update pages va (some ⟨pageMask page, writable, noExec⟩))
  | refused {m' : Space} (free : skip = true → pages va = none) (asked : m.asked ≤ m'.asked)
    (most : m'.asked ≤ m.asked + pageRequests m.tables va) (ranOut : RanOut heap m m')
    (mem : m'.mem = m.mem ∨ ∃ page, heap m.asked = some page ∧ cleared = true ∧
      m'.mem = kmemset m.mem page 0 atmPageSize) :
    Placed heap cleared skip writable noExec va m pages (m', -1) pages

theorem isSome_setPte {s : UserSpace} {e : Pte} (va slot : Nat) :
    ((s.setPte va e).userPt slot).isSome = (s.userPt slot).isSome := by
  unfold UserSpace.setPte
  generalize userPtSlot va = there
  by_cases here : slot = there
  · subst here
    simp
  · simp [here]

theorem isSome_withTable {s s' : UserSpace} {alloc : Bool} (done : withTable s va alloc = some s') (slot : Nat) :
    (s'.userPt slot).isSome = (slot = userPtSlot va || (s.userPt slot).isSome) := by
  unfold withTable at done
  generalize userPtSlot va = there at done ⊢
  by_cases here : slot = there
  · subst here
    split at done
    · rename_i table was
      obtain rfl := Option.some.inj done
      simp [was]
    · split at done
      · cases done
      · obtain rfl := Option.some.inj done
        simp
  · split at done
    · obtain rfl := Option.some.inj done
      simp [here]
    · split at done
      · cases done
      · obtain rfl := Option.some.inj done
        simp [here]

/-- After a page has been mapped its span has a table. -/
theorem isSome_mapUserPage {s : UserSpace} {phys : Nat} {alloc : Bool}
    (done : (pagingMapUserPage s va phys writable noExec alloc).2 = 0) (slot : Nat) :
    ((pagingMapUserPage s va phys writable noExec alloc).1.userPt slot).isSome =
      (slot = userPtSlot va || (s.userPt slot).isSome) := by
  unfold pagingMapUserPage at done ⊢
  split at done
  · exact absurd done (refused s)
  · rename_i passes
    rw [if_neg passes]
    split at done
    · exact absurd done (refused s)
    · rename_i inside
      rw [if_neg inside]
      split at done
      · exact absurd done (refused s)
      · rename_i s' made
        dsimp only
        rw [← isSome_withTable made]
        split
        · exact isSome_setPte va slot
        · exact isSome_setPte va slot

/-- **One page.** -/
theorem mapPage_spec (heap : Nat → Option Nat) (cleared skip writable noExec : Bool)
    (shows_ : Shows m.tables pages) (inside : userWindow va = true) (aligned : va % atmPageSize = 0) :
    ∃ pages', Shows (mapPage heap cleared skip writable noExec m va).1.tables pages' ∧
      Placed heap cleared skip writable noExec va m pages
        (mapPage heap cleared skip writable noExec m va) pages' := by
  have base : pageBase va = va := by
    unfold pageBase
    exact Nat.div_mul_cancel (Nat.dvd_of_mod_eq_zero aligned)
  unfold mapPage
  split
  · rename_i there
    rw [Bool.and_eq_true] at there
    refine ⟨pages, shows_, .kept (fun nothing => ?_) there.1⟩
    rw [shows_.translate_none (base.symm ▸ nothing)] at there
    cases there.2
  · rename_i absent
    have free : skip = true → pages va = none := by
      intro skips
      by_contra mapped
      obtain ⟨x, there⟩ := Option.ne_none_iff_exists'.mp mapped
      rw [skips, shows_.translate_eq, base, there] at absent
      exact absent rfl
    cases granted : heap m.asked with
    | none =>
      refine ⟨pages, shows_, .refused free (Nat.le_succ _) ?_
        ⟨m.asked, Nat.le_refl _, Nat.lt_succ_self _, granted⟩ (.inl rfl)⟩
      dsimp only
      unfold pageRequests
      split <;> omega
    | some page =>
      have performed := shows_.perform (.map va page writable noExec (heap (m.asked + 1)).isSome)
      have needs : needsTable m.tables va = (m.tables.userPt (userPtSlot va)).isNone := by
        simp [needsTable, shows_.valid, inside, aligned]
      have table : (pagingMapUserPage m.tables va page writable noExec (heap (m.asked + 1)).isSome).2 = 0 ↔ _ :=
        pagingMapUserPage_zero shows_.valid
      rw [and_iff_right inside, and_iff_right aligned] at table
      unfold Op.perform at performed
      unfold mapUserPage
      dsimp only at performed ⊢
      rcases pagingMapUserPage_rc m.tables va page writable noExec (heap (m.asked + 1)).isSome with
        done | failed
      · rw [if_pos done] at performed
        refine ⟨_, performed, ?_⟩
        rw [done]
        refine .mapped free granted rfl ?_ ?_ (isSome_mapUserPage done)
        · dsimp only
          rw [needs]
          unfold pageRequests
          split <;> omega
        · rintro ⟨i, low, high, null⟩
          dsimp only at high
          rw [needs] at high
          rcases Nat.lt_or_ge i (m.asked + 1) with first | second
          · obtain rfl : i = m.asked := by omega
            exact nomatch null.symm.trans granted
          · split at high
            · rename_i missing
              obtain rfl : i = m.asked + 1 := by omega
              rw [Option.isNone_iff_eq_none] at missing
              rcases table.mp done with there | given
              · exact there missing
              · rw [null] at given
                cases given
            · omega
      · rw [failed, if_neg (by decide)] at performed
        refine ⟨pages, performed, ?_⟩
        rw [failed] at table ⊢
        obtain ⟨missing, null⟩ := not_or.mp fun ok => absurd (table.mpr ok) (by decide)
        rw [not_not] at missing
        rw [Option.not_isSome_iff_eq_none] at null
        have asks : needsTable m.tables va = true := needs.trans (Option.isNone_iff_eq_none.mpr missing)
        refine .refused free ?_ ?_ ⟨m.asked + 1, Nat.le_succ _, ?_, null⟩ ?_
        · dsimp only
          rw [if_pos asks]
          omega
        · dsimp only
          unfold pageRequests
          rw [if_pos asks, if_pos (Option.isNone_iff_eq_none.mpr missing)]
        · dsimp only
          rw [if_pos asks]
          omega
        · dsimp only
          cases cleared with
          | false => exact .inl rfl
          | true => exact .inr ⟨page, granted, rfl, rfl⟩

/-! ### Rows of pages -/

/-- **Loop rule.** What holds of the first state and is kept for every page that is placed
holds where the loop stops, which is at the end or at a page for which a request was answered
with null. -/
theorem overPages_rule (heap : Nat → Option Nat) (cleared skip writable noExec : Bool)
    (P : Nat → Space → PageMap → Prop) (aligned : va % atmPageSize = 0)
    (inside : ∀ k < n, userWindow (va + k * atmPageSize) = true) (shows_ : Shows m.tables pages)
    (init : P 0 m pages)
    (step : ∀ k < n, ∀ m pages m' pages', P k m pages →
      Placed heap cleared skip writable noExec (va + k * atmPageSize) m pages (m', 0) pages' →
      P (k + 1) m' pages') :
    ∃ k m' pages', P k m' pages' ∧
      (overPages (mapPage heap cleared skip writable noExec) n va m = (m', none) ∧ k = n ∧
        Shows m'.tables pages' ∨
      ∃ m'', overPages (mapPage heap cleared skip writable noExec) n va m =
          (m'', some (va + k * atmPageSize)) ∧ k < n ∧ Shows m''.tables pages' ∧
        Placed heap cleared skip writable noExec (va + k * atmPageSize) m' pages' (m'', -1) pages') := by
  induction n generalizing P va m pages with
  | zero => exact ⟨0, m, pages, init, .inl ⟨rfl, rfl, shows_⟩⟩
  | succ n ih =>
    have here := inside 0 (Nat.succ_pos n)
    rw [Nat.zero_mul, Nat.add_zero] at here
    obtain ⟨pages₁, shows₁, placed⟩ := mapPage_spec heap cleared skip writable noExec shows_ here aligned
    have first := step 0 (Nat.succ_pos n) m pages
    rw [Nat.zero_mul, Nat.add_zero] at first
    rw [overPages]
    cases done : mapPage heap cleared skip writable noExec m va with
    | mk m₁ rc =>
      rw [done] at shows₁ placed
      dsimp only at shows₁ ⊢
      have succeeded : rc = 0 ∨ rc = -1 ∧ pages₁ = pages := by
        cases placed with
        | kept => exact .inl rfl
        | mapped => exact .inl rfl
        | refused => exact .inr ⟨rfl, rfl⟩
      rcases succeeded with rfl | ⟨rfl, rfl⟩
      · rw [if_neg (by decide)]
        have shift : ∀ k, va + atmPageSize + k * atmPageSize = va + (k + 1) * atmPageSize := by
          intro k
          rw [Nat.succ_mul]
          omega
        have aligned' : (va + atmPageSize) % atmPageSize = 0 := by rw [Nat.add_mod_right, aligned]
        obtain ⟨k, m', pages', holds, rest⟩ := ih (fun k => P (k + 1)) aligned'
          (fun k less => by
            rw [shift]
            exact inside (k + 1) (by omega))
          shows₁ (first m₁ pages₁ init placed)
          (fun k less m pages m' pages' holds placed => by
            rw [shift] at placed
            exact step (k + 1) (by omega) m pages m' pages' holds placed)
        rw [shift] at rest
        refine ⟨k + 1, m', pages', holds, ?_⟩
        rcases rest with ⟨eq, rfl, shown⟩ | ⟨m'', eq, less, shown, refused⟩
        · exact .inl ⟨eq, rfl, shown⟩
        · exact .inr ⟨m'', eq, by omega, shown, refused⟩
      · rw [if_pos (by decide)]
        refine ⟨0, m, pages₁, init, .inr ⟨m₁, ?_, Nat.succ_pos n, shows₁, ?_⟩⟩
        · rw [Nat.zero_mul, Nat.add_zero]
        · rw [Nat.zero_mul, Nat.add_zero]
          exact placed

/-- The first `n` pages from `va` on are mapped: those that were not got frames, the others
are as they were. -/
structure Filled (writable noExec : Bool) (va n : Nat) (pages pages' : PageMap) : Prop where
  kept : ∀ a x, pages a = some x → pages' a = some x
  new : ∀ k < n, pages (va + k * atmPageSize) = none →
    ∃ f, pages' (va + k * atmPageSize) = some ⟨f, writable, noExec⟩
  others : ∀ a, (∀ k < n, a ≠ va + k * atmPageSize) → pages' a = pages a

theorem Filled.nothing (writable noExec : Bool) (va : Nat) (pages : PageMap) :
    Filled writable noExec va 0 pages pages :=
  ⟨fun _ _ there => there, fun _ less => absurd less (Nat.not_lt_zero _), fun _ _ => rfl⟩

/-- One page more. -/
theorem Filled.step (filled : Filled writable noExec va n pages pages')
    (placed : Placed heap cleared skip writable noExec (va + n * atmPageSize) m pages' (m', 0) pages'')
    (free : skip = true ∨ pages (va + n * atmPageSize) = none) :
    Filled writable noExec va (n + 1) pages pages'' := by
  have before : pages' (va + n * atmPageSize) = pages (va + n * atmPageSize) := by
    refine filled.others _ fun k less same => ?_
    unfold atmPageSize at same
    omega
  cases placed with
  | kept mapped skips =>
    refine ⟨filled.kept, fun k less none_ => ?_, fun a other => ?_⟩
    · rcases Nat.lt_succ_iff_lt_or_eq.mp less with earlier | rfl
      · exact filled.new k earlier none_
      · exact absurd (before.trans none_) mapped
    · exact filled.others a fun k less => other k (by omega)
  | @mapped _ page unmapped granted mem asked answered tables =>
    have none_ : pages (va + n * atmPageSize) = none := by
      rcases free with skips | none_
      · exact before ▸ unmapped skips
      · exact none_
    refine ⟨fun a x there => ?_, fun k less none' => ?_, fun a other => ?_⟩
    · have differ : a ≠ va + n * atmPageSize := by
        rintro rfl
        exact nomatch there.symm.trans none_
      rw [update_of_ne differ]
      exact filled.kept a x there
    · rcases Nat.lt_succ_iff_lt_or_eq.mp less with earlier | rfl
      · have differ : va + k * atmPageSize ≠ va + n * atmPageSize := by
          unfold atmPageSize
          omega
        rw [update_of_ne differ]
        exact filled.new k earlier none'
      · exact ⟨_, update_self ..⟩
    · rw [update_of_ne (other n (Nat.lt_succ_self n))]
      exact filled.others a fun k less => other k (by omega)

theorem RanOut.later {m₁ : Space} (ranOut : RanOut heap m₁ m') (le : m.asked ≤ m₁.asked) : RanOut heap m m' := by
  obtain ⟨i, low, high, null⟩ := ranOut
  exact ⟨i, le.trans low, high, null⟩

theorem RanOut.split (m₁ : Space) (ranOut : RanOut heap m m') : RanOut heap m m₁ ∨ RanOut heap m₁ m' := by
  obtain ⟨i, low, high, null⟩ := ranOut
  rcases Nat.lt_or_ge i m₁.asked with first | second
  · exact .inl ⟨i, low, first, null⟩
  · exact .inr ⟨i, second, high, null⟩

theorem RanOut.irrefl : ¬RanOut heap m m := by
  rintro ⟨i, low, high, -⟩
  omega

/-- What a page that is placed does to the requests. -/
theorem Placed.requests (placed : Placed heap cleared skip writable noExec va m pages (m', 0) pages') :
    m.asked ≤ m'.asked ∧ ¬RanOut heap m m' := by
  cases placed with
  | kept => exact ⟨Nat.le_refl _, RanOut.irrefl⟩
  | mapped free granted mem asked answered tables => exact ⟨by omega, answered⟩

/-- **Loops over pages** fill a row of pages up to the one for which the heap has no memory. -/
theorem overPages_spec (heap : Nat → Option Nat) (cleared skip writable noExec : Bool)
    (aligned : va % atmPageSize = 0)
    (inside : ∀ k < n, userWindow (va + k * atmPageSize) = true) (shows_ : Shows m.tables pages)
    (free : skip = true ∨ ∀ k < n, pages (va + k * atmPageSize) = none) :
    ∃ k m' pages', Shows m'.tables pages' ∧ Filled writable noExec va k pages pages' ∧
      m.asked ≤ m'.asked ∧
      (overPages (mapPage heap cleared skip writable noExec) n va m = (m', none) ∧ k = n ∧
        ¬RanOut heap m m' ∨
      overPages (mapPage heap cleared skip writable noExec) n va m = (m', some (va + k * atmPageSize)) ∧
        k < n ∧ RanOut heap m m') := by
  obtain ⟨k, m₁, pages', ⟨filled, later, answered⟩, rest⟩ := overPages_rule heap cleared skip writable noExec
    (fun k m' pages' => Filled writable noExec va k pages pages' ∧ m.asked ≤ m'.asked ∧ ¬RanOut heap m m')
    aligned inside shows_ ⟨.nothing .., Nat.le_refl _, RanOut.irrefl⟩ (by
      rintro k less m₁ pages₁ m₂ pages₂ ⟨filled, later, answered⟩ placed
      obtain ⟨more, answered'⟩ := placed.requests
      refine ⟨filled.step placed (free.imp_right fun none_ => none_ k less), later.trans more, fun ranOut => ?_⟩
      exact (RanOut.split m₁ ranOut).elim answered answered')
  rcases rest with ⟨eq, whole, shown⟩ | ⟨m₂, eq, less, shown, placed⟩
  · exact ⟨k, m₁, pages', shown, filled, later, .inl ⟨eq, whole, answered⟩⟩
  · cases placed with
    | refused free asked most ranOut mem =>
      exact ⟨k, m₂, pages', shown, filled, later.trans asked, .inr ⟨eq, less, ranOut.later later⟩⟩

/-! ### Memory -/

theorem kmemset_zero {mem : Memory} {at_ n x : Nat} (zero : mem x = 0) : kmemset mem at_ 0 n x = 0 := by
  unfold kmemset
  split
  · rfl
  · exact zero

/-- Loops that do not clear pages write no memory. -/
theorem overPages_mem (aligned : va % atmPageSize = 0)
    (inside : ∀ k < n, userWindow (va + k * atmPageSize) = true) (shows_ : Shows m.tables pages) :
    (overPages (mapPage heap false skip writable noExec) n va m).1.mem = m.mem := by
  obtain ⟨k, m₁, pages', same, rest⟩ := overPages_rule heap false skip writable noExec
    (fun _ m' _ => m'.mem = m.mem) aligned inside shows_ rfl (by
      rintro k less m₁ pages₁ m₂ pages₂ same placed
      cases placed with
      | kept => exact same
      | mapped free granted mem asked answered tables => exact mem.trans same)
  rcases rest with ⟨eq, -, -⟩ | ⟨m₂, eq, -, -, placed⟩
  · rw [eq]
    exact same
  · rw [eq]
    cases placed with
    | refused free asked most ranOut mem =>
      rcases mem with mem | ⟨page, granted, cleared, mem⟩
      · exact mem.trans same
      · cases cleared

/-- The page at `va` holds zeros. -/
def Blank (pages : PageMap) (mem : Memory) (va : Nat) : Prop :=
  ∃ x, pages va = some x ∧ ∀ b < atmPageSize, mem (x.frame + b) = 0

/-- Loops that clear pages leave zeros in the new ones. -/
theorem overPages_blank (aligned : va % atmPageSize = 0)
    (inside : ∀ k < n, userWindow (va + k * atmPageSize) = true) (shows_ : Shows m.tables pages)
    (frames : ∀ i page, heap i = some page → pageMask page = page) {m' : Space}
    (done : overPages (mapPage heap true false writable noExec) n va m = (m', none)) :
    ∃ pages', Shows m'.tables pages' ∧ ∀ k < n, Blank pages' m'.mem (va + k * atmPageSize) := by
  obtain ⟨k, m₁, pages', blank, rest⟩ := overPages_rule heap true false writable noExec
    (fun k m' pages' => ∀ j < k, Blank pages' m'.mem (va + j * atmPageSize))
    aligned inside shows_ (fun _ less => absurd less (Nat.not_lt_zero _)) (by
      rintro k less m₁ pages₁ m₂ pages₂ blank placed j earlier
      cases placed with
      | kept mapped skips => cases skips
      | @mapped _ page free granted mem asked answered tables =>
        rw [if_pos rfl] at mem
        rcases Nat.lt_succ_iff_lt_or_eq.mp earlier with before | rfl
        · obtain ⟨x, there, zeros⟩ := blank j before
          have differ : va + j * atmPageSize ≠ va + k * atmPageSize := by
            unfold atmPageSize
            omega
          refine ⟨x, (update_of_ne differ ..).trans there, fun b bound => ?_⟩
          rw [mem]
          exact kmemset_zero (zeros b bound)
        · refine ⟨_, update_self .., fun b bound => ?_⟩
          rw [mem]
          dsimp only
          rw [frames _ _ granted]
          exact if_pos (by omega))
  rcases rest with ⟨eq, whole, shown⟩ | ⟨m₂, eq, -⟩
  · obtain ⟨rfl, -⟩ := Prod.mk.inj (eq.symm.trans done)
    exact ⟨pages', shown, whole ▸ blank⟩
  · cases (Prod.mk.inj (eq.symm.trans done)).2

/-! ### A small heap -/

/-- A heap that gives `count` pages, one after the other. -/
def pagesFrom (start count n : Nat) : Option Nat := if n < count then some (start + n * atmPageSize) else none

theorem pagesFrom_frames {start count : Nat} (aligned : start % atmPageSize = 0)
    (below : start + count * atmPageSize ≤ 2 ^ 52) (i page : Nat) (given : pagesFrom start count i = some page) :
    pageMask page = page := by
  unfold pagesFrom at given
  split at given
  · rename_i less
    obtain rfl := Option.some.inj given
    unfold pageMask atmPageSize at *
    omega
  · cases given

/-- A new space, in a memory of zeros. -/
def newSpace : Space := ⟨pagingCreateUserSpace fun _ _ => 0, fun _ => 0, 0⟩

theorem newSpace_shows : Shows newSpace.tables fun _ => none := Shows.fresh _

end AtmKoala.Paging
