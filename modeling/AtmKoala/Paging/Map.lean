import Mathlib.Tactic.Cases
import AtmKoala.Lib.Run
import AtmKoala.Paging.Model

/-!
A user space as a map from pages to frames.

* `PageMap` is what the window of a space is for: every page has a frame and its
  rights, or nothing. `Op.effect` says what each operation makes of it.
* `Shows s pages`: the tables of `s` hold just `pages`. Every operation keeps the two
  together (`Shows.perform`), so they agree after every run (`shows_run`).
* `pagingUserTranslate` reads the map (`Shows.translate`, `Shows.translate_none`).
* As long as every page is given a frame of its own, no two pages share one
  (`unrelated_run`).
-/

namespace AtmKoala.Paging

open Lib
open Function (update_of_ne update_self)

/-- A mapped page. -/
structure Page where
  frame : Nat
  writable : Bool
  noExec : Bool
deriving DecidableEq

abbrev PageMap : Type := Nat → Option Page

/-- The address of the page that `va` lies in. -/
def pageBase (va : Nat) : Nat := va / atmPageSize * atmPageSize

/-- The calls that change a user space. -/
inductive Op where
  | map (va phys : Nat) (writable noExec alloc : Bool)
  | unmap (va : Nat)
  | release (va : Nat)
  | protect (va : Nat) (writable noExec : Bool)
deriving DecidableEq

namespace Op

def perform (s : UserSpace) : Op → UserSpace × Int
  | map va phys writable noExec alloc => pagingMapUserPage s va phys writable noExec alloc
  | unmap va => pagingUnmapUserPage s va
  | release va => pagingReleaseUserPage s va
  | protect va writable noExec => pagingProtectUserPage s va writable noExec

def va : Op → Nat
  | map va _ _ _ _ | unmap va | release va | protect va _ _ => va

/-- What a call that succeeds does to its page. -/
def page (old : Option Page) : Op → Option Page
  | map _ phys writable noExec _ => some ⟨pageMask phys, writable, noExec⟩
  | unmap _ | release _ => none
  | protect _ writable noExec => old.map fun x => { x with writable, noExec }

def effect (pages : PageMap) (op : Op) : PageMap :=
  Function.update pages op.va (op.page (pages op.va))

end Op

/-- One call on a space, with a record of what the successful ones have mapped. -/
def pageStep (s : UserSpace × PageMap) (op : Op) (t : UserSpace × PageMap) : Prop :=
  t = ((op.perform s.1).1, if (op.perform s.1).2 = 0 then op.effect s.2 else s.2)

/-- A page is given a frame that no other page has. -/
def Owned (s : UserSpace × PageMap) : Op → Prop
  | .map va phys _ _ _ => ∀ i x, s.2 i = some x → i ≠ va → x.frame ≠ pageMask phys
  | _ => True

/-! ### Entries -/

/-- What an entry maps its page to. -/
def Pte.page (e : Pte) : Option Page :=
  if e.present && e.user then some ⟨e.addr, e.writable, e.noExec⟩ else none

/-- The tables of `s` map just `pages`. -/
structure Shows (s : UserSpace) (pages : PageMap) : Prop where
  valid : s.valid = true
  entries : ∀ va, userWindow va = true → va % atmPageSize = 0 →
    (s.entry va).bind Pte.page = pages va
  outside : ∀ va, pages va ≠ none → userWindow va = true ∧ va % atmPageSize = 0
  frames : ∀ va x, pages va = some x → x.frame % atmPageSize = 0

variable {s s' : UserSpace} {pages : PageMap} {va a : Nat} {e : Pte} {x : Page} {op : Op}

theorem window_iff : userWindow va = true ↔ 0x40000000 ≤ va ∧ va < 0x48000000 := by
  rw [userWindow, Bool.and_eq_true, decide_eq_true_iff, decide_eq_true_iff]
  exact Iff.rfl

theorem slot_lt (inside : userWindow va = true) : userPtSlot va < atmUserPtCount := by
  rw [window_iff] at inside
  unfold userPtSlot atmUserPtCount atmUserBase atmUserWindowSize atmPageSize
  omega

theorem pageMask_mod (p : Nat) : pageMask p % atmPageSize = 0 := Nat.mul_mod_left _ _

theorem pageMask_eq (inside : userWindow va = true) : pageMask va = pageBase va := by
  rw [window_iff] at inside
  rw [pageMask, pageBase, Nat.mod_eq_of_lt (by omega)]

theorem pageBase_mod (va : Nat) : pageBase va % atmPageSize = 0 := Nat.mul_mod_left _ _

theorem pageBase_add (va : Nat) : pageBase va + va % atmPageSize = va :=
  Nat.div_add_mod' va atmPageSize

theorem window_pageBase : userWindow (pageBase va) = userWindow va := by
  have split := pageBase_add va
  have mod := pageBase_mod va
  rw [Bool.eq_iff_iff, window_iff, window_iff]
  unfold atmPageSize at split mod
  omega

/-- The entries are those of the pages. -/
theorem entry_pageBase (inside : userWindow va = true) : s.entry (pageBase va) = s.entry va := by
  have split := pageBase_add va
  have mod := pageBase_mod va
  rw [window_iff] at inside
  have slot : userPtSlot (pageBase va) = userPtSlot va := by
    unfold userPtSlot atmUserBase
    unfold atmPageSize at split mod
    omega
  have page : userPtPage (pageBase va) = userPtPage va := by
    unfold userPtPage
    unfold atmPageSize at split mod ⊢
    omega
  rw [UserSpace.entry, UserSpace.entry, slot, page]

/-- Slot and place in the table tell the pages of the window apart. -/
theorem page_ext (inside : userWindow va = true) (inside' : userWindow a = true)
    (aligned : va % atmPageSize = 0) (aligned' : a % atmPageSize = 0)
    (slot : userPtSlot a = userPtSlot va) (page : userPtPage a = userPtPage va) : a = va := by
  rw [window_iff] at inside inside'
  unfold userPtSlot atmUserBase at slot
  unfold userPtPage atmPageSize at page
  unfold atmPageSize at aligned aligned'
  omega

theorem entry_setPte_self : (s.setPte va e).entry va = (s.entry va).map fun _ => e := by
  unfold UserSpace.entry
  split
  · rfl
  · cases here : s.userPt (userPtSlot va) <;> simp [UserSpace.setPte, here]

theorem entry_setPte_ne (inside : userWindow va = true) (inside' : userWindow a = true)
    (aligned : va % atmPageSize = 0) (aligned' : a % atmPageSize = 0) (ne : a ≠ va) :
    (s.setPte va e).entry a = s.entry a := by
  unfold UserSpace.entry
  split
  · rfl
  · by_cases slot : userPtSlot a = userPtSlot va
    · have page : userPtPage a ≠ userPtPage va := fun page =>
        ne (page_ext inside inside' aligned aligned' slot page)
      rw [slot]
      cases here : s.userPt (userPtSlot va) <;> simp [UserSpace.setPte, here, page]
    · simp [UserSpace.setPte, slot]

/-- A new table has no entry that is present. -/
theorem entry_withTable {alloc : Bool} (done : withTable s va alloc = some s') :
    (s'.entry a).bind Pte.page = (s.entry a).bind Pte.page := by
  unfold withTable at done
  split at done
  · obtain rfl := Option.some.inj done
    rfl
  · rename_i free
    split at done
    · cases done
    · obtain rfl := Option.some.inj done
      unfold UserSpace.entry
      split
      · rfl
      · by_cases slot : userPtSlot a = userPtSlot va
        · simp [slot, free, Pte.page, Pte.zero]
        · simp [slot]

theorem withTable_table {alloc : Bool} (inside : userWindow va = true)
    (done : withTable s va alloc = some s') : s'.entry va ≠ none := by
  unfold withTable at done
  unfold UserSpace.entry
  rw [if_neg (Nat.not_le_of_lt (slot_lt inside))]
  split at done
  · rename_i t there
    obtain rfl := Option.some.inj done
    simp [there]
  · split at done
    · cases done
    · obtain rfl := Option.some.inj done
      simp

/-! ### What a call does -/

namespace Shows

theorem setPte (shows_ : Shows s pages) (inside : userWindow va = true)
    (aligned : va % atmPageSize = 0) (there : s.entry va ≠ none)
    (frame : ∀ x, e.page = some x → x.frame % atmPageSize = 0) :
    Shows (s.setPte va e) (Function.update pages va e.page) where
  valid := shows_.valid
  entries a inside' aligned' := by
    by_cases here : a = va
    · subst here
      obtain ⟨old, there⟩ := Option.ne_none_iff_exists'.mp there
      simp [entry_setPte_self, there]
    · rw [entry_setPte_ne inside inside' aligned aligned' here, update_of_ne here]
      exact shows_.entries a inside' aligned'
  outside a some_ := by
    by_cases here : a = va
    · exact here ▸ ⟨inside, aligned⟩
    · exact shows_.outside a (by rwa [update_of_ne here] at some_)
  frames a y there' := by
    by_cases here : a = va
    · rw [here, update_self] at there'
      exact frame y there'
    · rw [update_of_ne here] at there'
      exact shows_.frames a y there'

/-- **The calls.** A successful call has its effect on the page it names; one that fails
leaves the pages as they are. -/
theorem perform (shows_ : Shows s pages) (op : Op) :
    Shows (op.perform s).1 (if (op.perform s).2 = 0 then op.effect pages else pages) := by
  have valid := shows_.valid
  by_cases inside : userWindow op.va = true
  case neg => cases op <;> simp_all [Op.perform, Op.va, pagingMapUserPage, pagingUnmapUserPage,
      pagingReleaseUserPage, pagingProtectUserPage]
  by_cases aligned : op.va % atmPageSize = 0
  case neg => cases op <;> simp_all [Op.perform, Op.va, pagingMapUserPage, pagingUnmapUserPage,
      pagingReleaseUserPage, pagingProtectUserPage]
  have shown := shows_.entries op.va inside aligned
  cases op with
  | map va phys writable noExec alloc =>
    change userWindow va = true at inside
    change va % atmPageSize = 0 at aligned
    simp only [Op.perform, pagingMapUserPage, valid, inside, aligned, Bool.not_true, Bool.false_or,
      ne_eq, not_true_eq_false, decide_false, Bool.false_eq_true, if_false,
      if_neg (Nat.not_le_of_lt (slot_lt inside))]
    cases done : withTable s va alloc with
    | none => exact shows_
    | some s' =>
      have kept : s'.valid = true := by
        unfold withTable at done
        split at done
        · exact Option.some.inj done ▸ valid
        · split at done
          · cases done
          · exact Option.some.inj done ▸ valid
      have shows' : Shows s' pages := ⟨kept, fun a inside aligned =>
        (entry_withTable done).trans (shows_.entries a inside aligned), shows_.outside,
        shows_.frames⟩
      have set := shows'.setPte (e := ⟨pageMask phys, true, writable, true, noExec⟩) inside aligned
        (withTable_table inside done) (by rintro x ⟨rfl⟩; exact pageMask_mod phys)
      dsimp only
      rw [if_pos rfl]
      split
      · exact ⟨set.valid, set.entries, set.outside, set.frames⟩
      · exact set
  | unmap va =>
    change userWindow va = true at inside
    change va % atmPageSize = 0 at aligned
    simp only [Op.perform, pagingUnmapUserPage, valid, inside, aligned, Bool.not_true,
      Bool.false_or, ne_eq, not_true_eq_false, decide_false, Bool.false_eq_true, if_false]
    cases there : s.entry va with
    | none => exact shows_
    | some old => exact shows_.setPte inside aligned (by simp [there]) nofun
  | release va =>
    change userWindow va = true at inside
    change va % atmPageSize = 0 at aligned
    simp only [Op.perform, pagingReleaseUserPage, valid, inside, aligned, Bool.not_true,
      Bool.false_or, ne_eq, not_true_eq_false, decide_false, Bool.false_eq_true, if_false]
    cases there : s.entry va with
    | none => exact shows_
    | some old =>
      dsimp only
      split
      · exact shows_
      · exact shows_.setPte inside aligned (by simp [there]) nofun
  | protect va writable noExec =>
    change userWindow va = true at inside
    change va % atmPageSize = 0 at aligned
    change (s.entry va).bind Pte.page = pages va at shown
    simp only [Op.perform, pagingProtectUserPage, valid, inside, aligned, Bool.not_true,
      Bool.false_or, ne_eq, not_true_eq_false, decide_false, Bool.false_eq_true, if_false]
    cases there : s.entry va with
    | none => exact shows_
    | some old =>
      dsimp only
      split
      · exact shows_
      · rename_i present
        rw [there, Option.bind_some, Pte.page, if_pos (by simpa using present)] at shown
        have frame := shows_.frames va _ shown.symm
        have set := shows_.setPte (e := ⟨old.addr, true, writable, true, noExec⟩) inside aligned
          (by simp [there]) (by rintro x ⟨rfl⟩; exact frame)
        rw [if_pos rfl]
        rw [Op.effect, Op.va, ← shown]
        exact set

theorem fresh (kpd : Fin 4 → Nat → Nat) : Shows (pagingCreateUserSpace kpd) fun _ => none where
  valid := rfl
  entries va _ _ := by
    unfold UserSpace.entry
    split <;> rfl
  outside _ some_ := absurd rfl some_
  frames _ _ there := nomatch there

/-! ### Translation -/

theorem window (shows_ : Shows s pages) (there : pages (pageBase va) = some x) :
    userWindow va = true :=
  window_pageBase ▸ (shows_.outside _ (by simp [there])).1

theorem translate (shows_ : Shows s pages) (there : pages (pageBase va) = some x) :
    ∃ e, pagingUserTranslate s va = some (x.frame + va % atmPageSize, e) ∧
      e.writable = x.writable := by
  have inside := shows_.window there
  have shown := shows_.entries (pageBase va) (window_pageBase.trans inside) (pageBase_mod va)
  rw [entry_pageBase inside, there] at shown
  obtain ⟨e, at_, page⟩ := Option.bind_eq_some_iff.mp shown
  unfold Pte.page at page
  split at page
  · rename_i present
    obtain rfl := Option.some.inj page
    refine ⟨e, ?_, rfl⟩
    simp only [Bool.and_eq_true] at present
    simp [pagingUserTranslate, shows_.valid, inside, at_, present.1, present.2]
  · cases page

theorem translate_none (shows_ : Shows s pages) (nothing : pages (pageBase va) = none) :
    pagingUserTranslate s va = none := by
  unfold pagingUserTranslate
  split
  · rfl
  · rename_i inside
    have inside : userWindow va = true := by
      rw [shows_.valid] at inside
      simpa using inside
    have shown := shows_.entries (pageBase va) (window_pageBase.trans inside) (pageBase_mod va)
    rw [entry_pageBase inside, nothing] at shown
    cases at_ : s.entry va with
    | none => rfl
    | some e =>
      rw [at_, Option.bind_some, Pte.page] at shown
      split at shown
      · cases shown
      · rename_i absent
        simpa using absent

end Shows

/-! ### Runs -/

variable {kpd : Fin 4 → Nat → Nat} {ok : UserSpace × PageMap → Op → Prop} {ops : List Op}
  {t : UserSpace × PageMap}

/-- The tables hold what the successful calls have mapped. -/
theorem shows_run (run : Run pageStep ok (pagingCreateUserSpace kpd, fun _ => none) ops t) :
    Shows t.1 t.2 := by
  refine run.invariant (P := fun t => Shows t.1 t.2) (Shows.fresh kpd) ?_
  rintro s op _ shows_ - rfl
  exact shows_.perform op

/-- No two pages have the same frame. -/
def Unrelated (pages : PageMap) : Prop :=
  ∀ i j x y, pages i = some x → pages j = some y → x.frame = y.frame → i = j

theorem Unrelated.effect {op : Op} (unrelated : Unrelated pages) (own : Owned (s, pages) op) :
    Unrelated (op.effect pages) := by
  -- a frame in the new map is that of the old one at the same page, or the one just given
  have old : ∀ i x, op.effect pages i = some x →
      (∃ y, pages i = some y ∧ y.frame = x.frame) ∨
      i = op.va ∧ ∀ j y, pages j = some y → j ≠ i → y.frame ≠ x.frame := by
    intro i x there
    by_cases here : i = op.va
    · rw [Op.effect, here, update_self] at there
      cases op with
      | map va phys writable noExec alloc =>
        obtain rfl := Option.some.inj there
        exact .inr ⟨here, fun j y at_ ne => own j y at_ fun same => ne (same.trans here.symm)⟩
      | unmap => cases there
      | release => cases there
      | protect va writable noExec =>
        obtain ⟨y, at_, rfl⟩ := Option.map_eq_some_iff.mp there
        exact .inl ⟨y, here ▸ at_, rfl⟩
    · rw [Op.effect, update_of_ne here] at there
      exact .inl ⟨x, there, rfl⟩
  intro i j x y at_ at' same
  by_contra ne
  rcases old i x at_ with ⟨x', was, frame⟩ | ⟨here, fresh⟩
  · rcases old j y at' with ⟨y', was', frame'⟩ | ⟨here', fresh'⟩
    · exact ne (unrelated i j x' y' was was' (by omega))
    · exact fresh' i x' was ne (by omega)
  · rcases old j y at' with ⟨y', was', frame'⟩ | ⟨here', fresh'⟩
    · exact fresh j y' was' (Ne.symm ne) (by omega)
    · exact ne (here.trans here'.symm)

theorem unrelated_run (run : Run pageStep Owned (pagingCreateUserSpace kpd, fun _ => none) ops t) :
    Unrelated t.2 := by
  refine run.invariant (P := fun t => Unrelated t.2) ?_ ?_
  · rintro i j x y ⟨⟩
  · rintro ⟨s, pages⟩ op _ unrelated own rfl
    dsimp only
    split
    · exact unrelated.effect own
    · exact unrelated

end AtmKoala.Paging
