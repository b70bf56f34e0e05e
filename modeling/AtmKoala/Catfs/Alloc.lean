import AtmKoala.Lib.Run
import AtmKoala.Catfs.Slots

/-!
Block allocation: `resolve_block` with `create` set.

`Fill idx p` is one allocation: an unmarked block becomes the contents of the
empty place `p` of inode `idx`, at once in the inode or in the pointer block on
disk, and pointer blocks start out zeroed. `Ensure idx p` is one level of
`resolve_block`, which fills a place unless it is filled already or the disk is
full. `resolveBlock_spec` puts the levels together: the missing places of the
path to a file block are filled from the root down, as far as free blocks last.

`Fill` keeps ownership (`Fill.owned`), leaves every other inode's slots alone
and never changes a block that was in use and is not one of the inode's own
pointer blocks (`Fill.keeps`).
-/

namespace AtmKoala.Catfs

open Lib
open Function (update_of_ne update_self)

/-- One allocation for place `p` of inode `idx`. -/
structure Fill (idx : Fin 256) (w : World) (p : Pos) (w' : World) : Prop where
  performed : ∃ es, w' = w.perform w'.catfs es ∧ ∀ e ∈ es, ∃ b sec, e = Ev.block b sec ∧
    (bmTest w.catfs.bitmap b.val = false ∨
      ∃ q, q.isPtr = true ∧ w.slots (idx, q) ≠ 0 ∧ (w.slots (idx, q)).toNat = b.val)
  only : BlocksOnly idx w.catfs w'.catfs
  live : (w.catfs.inodes idx).type ≠ typeFree
  empty : w.slots (idx, p) = 0
  slots : ∃ nb, bmTest w.catfs.bitmap nb.toNat = false ∧ nb.toNat < 16384 ∧
    w'.catfs.bitmap = bmSet w.catfs.bitmap nb.toNat ∧
    w'.slots = Function.update w.slots (idx, p) nb
  counted : Counted w.catfs → Counted w'.catfs

theorem Owned.fresh_ne {inodes : Fin 256 → Inode} {bm : Bitmap} {block : UInt32 → Sector}
    (h : Owned inodes bm block) {nb : UInt32} (fresh : bmTest bm nb.toNat = false) (k : Key) :
    Catfs.slots inodes block k ≠ nb :=
  h.ledger.ne_of_not_marked (by simp [fresh]) k

theorem Owned.fresh_ne_zero {inodes : Fin 256 → Inode} {bm : Bitmap} {block : UInt32 → Sector}
    (h : Owned inodes bm block) {nb : UInt32} (fresh : bmTest bm nb.toNat = false) : nb ≠ 0 :=
  h.ledger.ne_nil_of_not_marked (by simp [fresh])

namespace Fill

variable {idx : Fin 256} {w w' : World} {p : Pos}

theorem owned (h : Fill idx w p w') (owned : w.Owned) : w'.Owned := by
  obtain ⟨nb, fresh, small, bits, slots⟩ := h.slots
  refine ⟨owned.ledger.fill h.empty (by simp [fresh]) slots fun v => ?_, fun i hi => ?_⟩
  · rw [bits, bmTest_bmSet _ small]
    simp [UInt32.toNat_inj]
  · rw [h.only.type_eq] at hi
    have hne : i ≠ idx := by
      rintro rfl
      exact h.live hi
    rw [h.only.others i hne]
    exact owned.free i hi

/-- A block in use that is no pointer block of the inode keeps its contents. -/
theorem keeps (h : Fill idx w p w') {b : UInt32} (used : bmTest w.catfs.bitmap b.toNat = true)
    (data : ∀ q, q.isPtr = true → w.slots (idx, q) ≠ b) :
    blockOf w'.sector b = blockOf w.sector b := by
  obtain ⟨es, heq, blocks⟩ := h.performed
  rw [heq, World.sector_perform h.only.sameVolume]
  refine blockOf_runEvents_of_ne _ fun e he => ?_
  obtain ⟨a, sec, rfl, unused | ⟨q, hq, -, hqa⟩⟩ := blocks e he
  · intro hlba
    have hab : a.val = b.toNat := by simpa [Ev.lba] using hlba
    rw [hab, used] at unused
    cases unused
  · intro hlba
    have hab : a.val = b.toNat := by simpa [Ev.lba] using hlba
    exact data q hq (UInt32.toNat_inj.mp (hqa.trans hab))

end Fill

/-! ### Growing files -/

/-- Some block was allocated between `w` and `w'`. -/
def Grew (w w' : World) : Prop :=
  ∃ a, bmTest w.catfs.bitmap a = false ∧ bmTest w'.catfs.bitmap a = true

/-- What allocating for inode `idx`, and writing blocks it owns, can do to a
world: filled places stay as they are, empty places of the inode take blocks
that were unmarked, and nothing else is written. Without an allocation only data
blocks are written. -/
structure Grows (idx : Fin 256) (w w' : World) : Prop where
  performed : ∃ es, w' = w.perform w'.catfs es ∧ ∀ e ∈ es, ∃ b sec, e = Ev.block b sec ∧
    (bmTest w.catfs.bitmap b.val = false ∨
      ∃ q, w.slots (idx, q) ≠ 0 ∧ (w.slots (idx, q)).toNat = b.val) ∧
    (Grew w w' ∨ ∃ q, q.isPtr = false ∧ w.slots (idx, q) ≠ 0 ∧ (w.slots (idx, q)).toNat = b.val)
  only : BlocksOnly idx w.catfs w'.catfs
  marks : ∀ {b}, bmTest w.catfs.bitmap b = true → bmTest w'.catfs.bitmap b = true
  places : ∀ k, w'.slots k = w.slots k ∨
    k.1 = idx ∧ w.slots k = 0 ∧ bmTest w.catfs.bitmap (w'.slots k).toNat = false ∧
      bmTest w'.catfs.bitmap (w'.slots k).toNat = true
  owned : w.Owned → w'.Owned
  counted : Counted w.catfs → Counted w'.catfs

namespace Grows

variable {idx : Fin 256} {w v u : World}

theorem refl (idx : Fin 256) (w : World) : Grows idx w w where
  performed := ⟨[], (World.perform_nil w).symm, by simp⟩
  only := BlocksOnly.refl idx w.catfs
  marks := id
  places := fun _ => Or.inl rfl
  owned := id
  counted := id

theorem ready (h : Grows idx w v) (ready : Ready w) : Ready v := by
  obtain ⟨es, heq, -⟩ := h.performed
  rw [heq]
  exact ready.perform h.only.frame es

theorem kept (h : Grows idx w v) {k : Key} (present : w.slots k ≠ 0) : v.slots k = w.slots k := by
  rcases h.places k with same | ⟨-, empty, -⟩
  · exact same
  · exact absurd empty present

theorem others (h : Grows idx w v) {j : Fin 256} (hj : j ≠ idx) (p : Pos) :
    v.slots (j, p) = w.slots (j, p) := by
  rcases h.places (j, p) with same | ⟨eq, -⟩
  · exact same
  · exact absurd eq hj

theorem grew_left (k : Grows idx v u) (grew : Grew w v) : Grew w u := by
  obtain ⟨a, before, after⟩ := grew
  exact ⟨a, before, k.marks after⟩

theorem unmarked_left (h : Grows idx w v) {b : Nat} (unmarked : bmTest v.catfs.bitmap b = false) :
    bmTest w.catfs.bitmap b = false := by
  cases hb : bmTest w.catfs.bitmap b with
  | false => rfl
  | true => rw [h.marks hb] at unmarked; cases unmarked

theorem grew_right (h : Grows idx w v) (grew : Grew v u) : Grew w u := by
  obtain ⟨a, before, after⟩ := grew
  exact ⟨a, h.unmarked_left before, after⟩

theorem trans (h : Grows idx w v) (k : Grows idx v u) : Grows idx w u where
  performed := by
    obtain ⟨es, hes, blocks⟩ := h.performed
    obtain ⟨fs, hfs, blocks'⟩ := k.performed
    refine ⟨es ++ fs, ?_, fun e he => ?_⟩
    · rw [hfs, hes, World.perform_perform h.only.sameVolume]
      rfl
    · rcases List.mem_append.mp he with he | he
      · obtain ⟨b, sec, rfl, target, quiet⟩ := blocks e he
        exact ⟨b, sec, rfl, target, quiet.imp_left k.grew_left⟩
      · obtain ⟨b, sec, rfl, target, quiet⟩ := blocks' e he
        refine ⟨b, sec, rfl, ?_, ?_⟩
        · rcases target with unused | ⟨q, hq, hqb⟩
          · exact Or.inl (h.unmarked_left unused)
          · rcases h.places (idx, q) with same | ⟨-, -, unused, -⟩
            · exact Or.inr ⟨q, same ▸ hq, same ▸ hqb⟩
            · exact Or.inl (hqb ▸ unused)
        · rcases quiet with grew | ⟨q, hq, hne, hqb⟩
          · exact Or.inl (h.grew_right grew)
          · rcases h.places (idx, q) with same | ⟨-, -, unused, marked⟩
            · exact Or.inr ⟨q, hq, same ▸ hne, same ▸ hqb⟩
            · exact Or.inl (k.grew_left ⟨_, unused, marked⟩)
  only := h.only.trans k.only
  marks := fun hb => k.marks (h.marks hb)
  places := by
    intro l
    rcases h.places l with same | ⟨hl, empty, unused, marked⟩
    · rcases k.places l with same' | ⟨hl, empty', unused', marked'⟩
      · exact Or.inl (same'.trans same)
      · exact Or.inr ⟨hl, same ▸ empty', h.unmarked_left unused', marked'⟩
    · rcases k.places l with same' | ⟨-, -, unused', marked'⟩
      · exact Or.inr ⟨hl, empty, same' ▸ unused, same' ▸ k.marks marked⟩
      · exact Or.inr ⟨hl, empty, h.unmarked_left unused', marked'⟩
  owned := fun o => k.owned (h.owned o)
  counted := fun c => k.counted (h.counted c)

/-- A block in use by another inode keeps its contents. -/
theorem keeps (h : Grows idx w v) {b : UInt32} (used : bmTest w.catfs.bitmap b.toNat = true)
    (foreign : ∀ q, w.slots (idx, q) ≠ 0 → w.slots (idx, q) ≠ b) :
    blockOf v.sector b = blockOf w.sector b := by
  obtain ⟨es, heq, blocks⟩ := h.performed
  rw [heq, World.sector_perform h.only.sameVolume]
  refine blockOf_runEvents_of_ne _ fun e he hlba => ?_
  obtain ⟨a, sec, rfl, unused | ⟨q, hne, hqa⟩, -⟩ := blocks e he
  · have hab : a.val = b.toNat := by simpa [Ev.lba] using hlba
    rw [hab, used] at unused
    cases unused
  · have hab : a.val = b.toNat := by simpa [Ev.lba] using hlba
    exact foreign q hne (UInt32.toNat_inj.mp (hqa.trans hab))

/-- The metadata sectors are not touched. -/
theorem sector_eq (h : Grows idx w v) {n : Nat} (hn : n < 100) : v.sector n = w.sector n := by
  obtain ⟨es, heq, blocks⟩ := h.performed
  rw [heq, World.sector_perform h.only.sameVolume]
  refine runEvents_of_forall_ne fun e he => ?_
  obtain ⟨a, sec, rfl, -⟩ := blocks e he
  simp only [Ev.lba, dataLba_eq]
  omega

end Grows

theorem Fill.grows {idx : Fin 256} {w w' : World} {p : Pos} (h : Fill idx w p w') :
    Grows idx w w' where
  performed := by
    obtain ⟨es, heq, blocks⟩ := h.performed
    obtain ⟨nb, clear, small, bits, -⟩ := h.slots
    have grew : Grew w w' := ⟨nb.toNat, clear, by rw [bits, bmTest_bmSet _ small]; simp⟩
    refine ⟨es, heq, fun e he => ?_⟩
    obtain ⟨b, sec, rfl, hb⟩ := blocks e he
    exact ⟨b, sec, rfl, hb.imp_right fun ⟨q, _, hne, hq⟩ => ⟨q, hne, hq⟩, Or.inl grew⟩
  only := h.only
  marks := by
    intro b hb
    obtain ⟨nb, -, small, bits, -⟩ := h.slots
    rw [bits, bmTest_bmSet _ small, hb]
    rfl
  places := by
    intro k
    obtain ⟨nb, clear, small, bits, slots⟩ := h.slots
    by_cases hk : k = (idx, p)
    · subst hk
      refine Or.inr ⟨rfl, h.empty, ?_⟩
      rw [slots, update_self, bits, bmTest_bmSet _ small]
      exact ⟨clear, by simp⟩
    · exact Or.inl (by rw [slots, update_of_ne hk])
  owned := h.owned
  counted := h.counted

/-- A run of allocations, in order. -/
def Fills (idx : Fin 256) : World → List Pos → World → Prop := Run (Fill idx) Anything

namespace Fills

variable {idx : Fin 256} {w v u : World} {ps : List Pos}

theorem single {p : Pos} (h : Fill idx w p v) : Fills idx w [p] v := Run.single trivial h

theorem grows (h : Fills idx w ps v) : Grows idx w v :=
  Run.invariant (P := Grows idx w) h (Grows.refl idx w) fun g _ step => g.trans step.grows

theorem grew (h : Fills idx w ps v) (some : ps ≠ []) : Grew w v := by
  cases h with
  | nil => exact absurd rfl some
  | snoc run _ step =>
    obtain ⟨nb, clear, small, bits, -⟩ := step.slots
    refine Grows.grew_right (grows run) ⟨nb.toNat, clear, ?_⟩
    rw [bits, bmTest_bmSet _ small]
    simp

theorem clearBits_add (h : Fills idx w ps v) :
    clearBits v.catfs.bitmap + ps.length = clearBits w.catfs.bitmap := by
  induction h with
  | nil => simp
  | snoc _ _ step ih =>
    obtain ⟨nb, clear, small, bits, -⟩ := step.slots
    have := clearBits_bmSet small clear
    rw [bits, List.length_append, List.length_singleton]
    omega

/-- Exactly the places filled change. -/
theorem slots_of_notMem (h : Fills idx w ps v) {p : Pos} (hp : p ∉ ps) :
    v.slots (idx, p) = w.slots (idx, p) := by
  induction h with
  | nil => rfl
  | snoc _ _ step ih =>
    obtain ⟨nb, -, -, -, slots⟩ := step.slots
    rw [List.mem_append, List.mem_singleton, not_or] at hp
    rw [slots, update_of_ne (by simp [hp.2]), ih hp.1]

theorem slots_ne_zero_of_mem (h : Fills idx w ps v) (owned : w.Owned) {p : Pos} (hp : p ∈ ps) :
    v.slots (idx, p) ≠ 0 := by
  induction h with
  | nil => simp at hp
  | snoc run _ step ih =>
    obtain ⟨nb, clear, -, -, slots⟩ := step.slots
    rw [List.mem_append, List.mem_singleton] at hp
    rcases hp with old | rfl
    · rw [step.grows.kept (ih old)]
      exact ih old
    · rw [slots, update_self]
      exact ((grows run).owned owned).fresh_ne_zero clear

/-- Allocating does not touch data: a block in use that is no pointer block of
the inode keeps its contents. -/
theorem keeps (h : Fills idx w ps v) {b : UInt32} (used : bmTest w.catfs.bitmap b.toNat = true)
    (data : ∀ q, q.isPtr = true → w.slots (idx, q) ≠ b) :
    blockOf v.sector b = blockOf w.sector b := by
  induction h with
  | nil => rfl
  | snoc run _ step ih =>
    refine (step.keeps ((grows run).marks used) fun q hq same => ?_).trans ih
    rcases (grows run).places (idx, q) with old | ⟨-, -, unused, -⟩
    · exact data q hq (old.symm.trans same)
    · rw [same, used] at unused
      cases unused

end Fills

/-! ### One level of `resolve_block` -/

/-- One level of `resolve_block`: a filled place is returned, an empty one is
filled unless the disk is full. -/
structure Ensure (idx : Fin 256) (p : Pos) (w : World) (r : World × Option UInt32) : Prop where
  present : w.slots (idx, p) ≠ 0 → r = (w, some (w.slots (idx, p)))
  full : w.slots (idx, p) = 0 → clearBits w.catfs.bitmap = 0 → r = (w, none)
  alloc : w.slots (idx, p) = 0 → clearBits w.catfs.bitmap ≠ 0 →
    ∃ w', Fill idx w p w' ∧ r = (w', some (w'.slots (idx, p)))

theorem allocBlock_full {w : World} (full : clearBits w.catfs.bitmap = 0) :
    allocBlock w = (w, none) := by
  unfold allocBlock
  cases hr : bmAlloc w.catfs with
  | mk c r =>
    cases r with
    | none =>
      obtain ⟨rfl, -⟩ := bmAlloc_none hr
      rfl
    | some nb =>
      obtain ⟨small, clear, -⟩ := bmAlloc_some hr
      have := clearBits_eq_zero.mp full nb.toNat small
      rw [clear] at this
      cases this

theorem allocBlock_some {w : World} (room : clearBits w.catfs.bitmap ≠ 0) :
    ∃ c nb, bmAlloc w.catfs = (c, some nb) ∧ allocBlock w = (w.perform c [], some nb) := by
  unfold allocBlock
  cases hr : bmAlloc w.catfs with
  | mk c r =>
    cases r with
    | none => exact absurd (bmAlloc_none hr).2 room
    | some nb => exact ⟨c, nb, rfl, by rw [← World.mapCatfs_eq_perform w fun _ => c]; rfl⟩

section Resolve

variable {w : World} {c : State} {nb : UInt32} {idx : Fin 256}

theorem bmAlloc_only (alloc : bmAlloc w.catfs = (c, some nb)) (idx : Fin 256) :
    BlocksOnly idx w.catfs c := by
  obtain ⟨-, -, -, hc, -⟩ := bmAlloc_some alloc
  rw [hc]
  exact ⟨rfl, rfl, rfl, rfl, rfl, rfl, fun _ _ => rfl, rfl⟩

/-- An allocation that patches the inode to `n'` and writes only the new block
and the inode's own pointer blocks. -/
theorem Fill.of_alloc (owned : w.Owned) (live : (w.catfs.inodes idx).type ≠ typeFree)
    (alloc : bmAlloc w.catfs = (c, some nb)) {p : Pos} (n' : Inode) (es : List Ev)
    (empty : w.slots (idx, p) = 0)
    (blocks : ∀ e ∈ es, ∃ b sec, e = Ev.block b sec ∧ (b.val = nb.toNat ∨
      ∃ q, q.isPtr = true ∧ w.slots (idx, q) ≠ 0 ∧ (w.slots (idx, q)).toNat = b.val))
    (same : n' = { w.catfs.inodes idx with
      blocks := n'.blocks, indirect := n'.indirect, dindirect := n'.dindirect })
    (self : n'.slot (blockOf (runEvents w.sector es)) =
      Function.update ((w.catfs.inodes idx).slot (blockOf w.sector)) p nb) :
    ∃ w', w' = w.perform { c with inodes := Function.update c.inodes idx n' } es ∧
      Fill idx w p w' ∧ w'.slots (idx, p) = nb := by
  obtain ⟨small, clear, -, hc, counted⟩ := bmAlloc_some alloc
  have hinodes : c.inodes = w.catfs.inodes := by rw [hc]
  have only := bmAlloc_only alloc idx
  have volume : SameVolume w.catfs { c with inodes := Function.update c.inodes idx n' } :=
    ⟨only.drive, only.offset⟩
  have others : ∀ j, j ≠ idx → (w.catfs.inodes j).slot (blockOf (runEvents w.sector es)) =
      (w.catfs.inodes j).slot (blockOf w.sector) := by
    intro j hj
    refine slot_congr ⟨rfl, rfl, rfl⟩ fun q _ hne => blockOf_runEvents_of_ne _ fun e he => ?_
    obtain ⟨b, sec, rfl, hb⟩ := blocks e he
    intro hlba
    have hval : b.val = (w.slots (j, q)).toNat := by
      simpa [Ev.lba, World.slots, Catfs.slots] using hlba
    rcases hb with isNew | ⟨r, -, hr, hrb⟩
    · exact owned.fresh_ne clear (j, q) (UInt32.toNat_inj.mp (hval.symm.trans isNew))
    · have := owned.ledger.inj hr (UInt32.toNat_inj.mp (hrb.trans hval))
      exact hj (congrArg Prod.fst this).symm
  have hslots : (w.perform { c with inodes := Function.update c.inodes idx n' } es).slots =
      Function.update w.slots (idx, p) nb := by
    unfold World.slots
    rw [World.sector_perform volume, World.perform_catfs, hinodes]
    exact slots_update others self
  refine ⟨_, rfl, ⟨⟨es, rfl, ?_⟩, ?_, live, empty, ⟨nb, clear, small, ?_, hslots⟩, counted⟩, ?_⟩
  · intro e he
    obtain ⟨b, sec, rfl, hb⟩ := blocks e he
    refine ⟨b, sec, rfl, hb.imp_left ?_⟩
    rintro isNew
    rw [isNew]
    exact clear
  · refine only.trans ⟨rfl, rfl, rfl, rfl, rfl, rfl, fun j hj => ?_, ?_⟩
    · simp [hj]
    · simp only [World.perform_catfs, update_self, hinodes]
      exact same
  · rw [World.perform_catfs, hc]
  · rw [hslots, update_self]

theorem zeroBlock_eq (ready : Ready w) (small : nb.toNat < 16384) :
    zeroBlock w nb = w.perform w.catfs [.block ⟨nb.toNat, small⟩ (Block.zero 512)] := by
  unfold zeroBlock
  rw [ready.writeBlock small]

theorem bmAlloc_inodes (alloc : bmAlloc w.catfs = (c, some nb)) :
    c.inodes = w.catfs.inodes := by
  obtain ⟨-, -, -, hc, -⟩ := bmAlloc_some alloc
  rw [hc]

theorem resolveDirect_ensure (owned : w.Owned)
    (live : (w.catfs.inodes idx).type ≠ typeFree) (k : Fin 16) :
    Ensure idx (.direct k) w (resolveDirect w idx k true) where
  present := by
    intro hne
    have hb : (w.catfs.inodes idx).blocks k ≠ 0 := hne
    simp only [resolveDirect, hb, ne_eq, not_false_eq_true, if_true]
    rfl
  full := by
    intro hz full
    have hb : (w.catfs.inodes idx).blocks k = 0 := hz
    simp [resolveDirect, hb, allocBlock_full full]
  alloc := by
    intro hz room
    have hb : (w.catfs.inodes idx).blocks k = 0 := hz
    obtain ⟨c, nb, alloc, hrun⟩ := allocBlock_some room
    obtain ⟨w', hw', fill, hslot⟩ := Fill.of_alloc owned live alloc
      { w.catfs.inodes idx with
        blocks := Function.update (w.catfs.inodes idx).blocks k nb } [] hz
      (by simp) rfl (slot_fill_direct k)
    refine ⟨w', fill, ?_⟩
    have only := bmAlloc_only alloc idx
    simp only [resolveDirect, hb, ne_eq, not_true_eq_false, if_false, Bool.not_true,
      Bool.false_eq_true, hrun, hslot, World.mapInode, World.mapCatfs_eq_perform]
    rw [World.perform_perform only.sameVolume, hw', World.perform_catfs, bmAlloc_inodes alloc]
    rfl

theorem resolveIndirect_ensure (ready : Ready w) (owned : w.Owned)
    (live : (w.catfs.inodes idx).type ≠ typeFree) :
    Ensure idx .indirect w (resolveIndirect w idx true) where
  present := by
    intro hne
    have hb : (w.catfs.inodes idx).indirect ≠ 0 := hne
    simp only [resolveIndirect, hb, ne_eq, not_false_eq_true, if_true]
    rfl
  full := by
    intro hz full
    have hb : (w.catfs.inodes idx).indirect = 0 := hz
    simp [resolveIndirect, hb, allocBlock_full full]
  alloc := by
    intro hz room
    have hb : (w.catfs.inodes idx).indirect = 0 := hz
    obtain ⟨c, nb, alloc, hrun⟩ := allocBlock_some room
    obtain ⟨small, clear, -⟩ := bmAlloc_some alloc
    have only := bmAlloc_only alloc idx
    obtain ⟨w', hw', fill, hslot⟩ := Fill.of_alloc owned live alloc
      { w.catfs.inodes idx with indirect := nb } [.block ⟨nb.toNat, small⟩ (Block.zero 512)] hz
      (by simp) rfl (by
        rw [runEvents_cons, runEvents_nil, blockOf_apply_block]
        exact slot_fill_indirect hb (owned.fresh_ne_zero clear)
          fun q => owned.fresh_ne clear (idx, q))
    refine ⟨w', fill, ?_⟩
    let c' : State := { c with
      inodes := Function.update c.inodes idx { c.inodes idx with indirect := nb } }
    have frame : Frame w.catfs c' := only.frame.trans ⟨⟨rfl, rfl⟩, rfl, rfl⟩
    have hzero := zeroBlock_eq (ready.perform frame []) small
    rw [World.perform_perform frame.toSameVolume] at hzero
    simp only [resolveIndirect, hb, ne_eq, not_true_eq_false, if_false, Bool.not_true,
      Bool.false_eq_true, hrun, hslot, World.mapInode, World.mapCatfs_eq_perform]
    rw [World.perform_perform only.sameVolume, hw', ← bmAlloc_inodes alloc]
    exact congrArg (·, some nb) hzero

theorem resolveDindirect_ensure (ready : Ready w) (owned : w.Owned)
    (live : (w.catfs.inodes idx).type ≠ typeFree) :
    Ensure idx .dindirect w (resolveDindirect w idx true) where
  present := by
    intro hne
    have hb : (w.catfs.inodes idx).dindirect ≠ 0 := hne
    simp only [resolveDindirect, hb, ne_eq, not_false_eq_true, if_true]
    rfl
  full := by
    intro hz full
    have hb : (w.catfs.inodes idx).dindirect = 0 := hz
    simp [resolveDindirect, hb, allocBlock_full full]
  alloc := by
    intro hz room
    have hb : (w.catfs.inodes idx).dindirect = 0 := hz
    obtain ⟨c, nb, alloc, hrun⟩ := allocBlock_some room
    obtain ⟨small, clear, -⟩ := bmAlloc_some alloc
    have only := bmAlloc_only alloc idx
    obtain ⟨w', hw', fill, hslot⟩ := Fill.of_alloc owned live alloc
      { w.catfs.inodes idx with dindirect := nb } [.block ⟨nb.toNat, small⟩ (Block.zero 512)] hz
      (by simp) rfl (by
        rw [runEvents_cons, runEvents_nil, blockOf_apply_block]
        exact slot_fill_dindirect hb (owned.fresh_ne_zero clear)
          fun q => owned.fresh_ne clear (idx, q))
    refine ⟨w', fill, ?_⟩
    let c' : State := { c with
      inodes := Function.update c.inodes idx { c.inodes idx with dindirect := nb } }
    have frame : Frame w.catfs c' := only.frame.trans ⟨⟨rfl, rfl⟩, rfl, rfl⟩
    have hzero := zeroBlock_eq (ready.perform frame []) small
    rw [World.perform_perform frame.toSameVolume] at hzero
    simp only [resolveDindirect, hb, ne_eq, not_true_eq_false, if_false, Bool.not_true,
      Bool.false_eq_true, hrun, hslot, World.mapInode, World.mapCatfs_eq_perform]
    rw [World.perform_perform only.sameVolume, hw', ← bmAlloc_inodes alloc]
    exact congrArg (·, some nb) hzero

/-! ### Entries of pointer blocks -/

variable {pb : UInt32} {k : Fin 128} {fresh : Bool}

theorem resolvePtr_present (ready : Ready w) (small : pb.toNat < 16384) (create : Bool)
    (present : ptr (blockOf w.sector pb) k ≠ 0) :
    resolvePtr w pb k create fresh = (w, some (ptr (blockOf w.sector pb) k)) := by
  simp [resolvePtr, ready.readBlock small, present]

theorem resolvePtr_full (ready : Ready w) (small : pb.toNat < 16384)
    (empty : ptr (blockOf w.sector pb) k = 0) (full : clearBits w.catfs.bitmap = 0) :
    resolvePtr w pb k true fresh = (w, none) := by
  simp [resolvePtr, ready.readBlock small, empty, allocBlock_full full]

theorem resolvePtr_alloc (ready : Ready w) (small : pb.toNat < 16384)
    (empty : ptr (blockOf w.sector pb) k = 0) (alloc : bmAlloc w.catfs = (c, some nb))
    (hrun : allocBlock w = (w.perform c [], some nb)) (hnb : nb.toNat < 16384) :
    resolvePtr w pb k true fresh =
      (w.perform c (.block ⟨pb.toNat, small⟩ (setPtr (blockOf w.sector pb) k nb) ::
        if fresh then [.block ⟨nb.toNat, hnb⟩ (Block.zero 512)] else []), some nb) := by
  have frame := (bmAlloc_only alloc 0).frame
  have hwrite := (ready.perform frame []).writeBlock small (setPtr (blockOf w.sector pb) k nb)
  rw [World.perform_perform frame.toSameVolume] at hwrite
  simp only [resolvePtr, ready.readBlock small, empty, ne_eq, not_true_eq_false, if_false,
    Bool.not_true, Bool.false_eq_true, hrun, hwrite]
  cases fresh with
  | false => rfl
  | true =>
    have hzero := zeroBlock_eq (ready.perform frame
      [.block ⟨pb.toNat, small⟩ (setPtr (blockOf w.sector pb) k nb)]) hnb
    rw [World.perform_perform frame.toSameVolume] at hzero
    exact congrArg (·, some nb) hzero

/-- The last two levels of `resolve_block`: entry `k` of the pointer block in
place `q` is place `p`. -/
theorem resolvePtr_ensure (ready : Ready w) (owned : w.Owned)
    (live : (w.catfs.inodes idx).type ≠ typeFree) {p q : Pos} (isPtr : q.isPtr = true)
    (parent : w.slots (idx, q) = pb) (present : pb ≠ 0)
    (entry : w.slots (idx, p) = ptr (blockOf w.sector pb) k)
    (self : ∀ {nb : UInt32}, bmTest w.catfs.bitmap nb.toNat = false → w.slots (idx, p) = 0 →
      let linked := Function.update (blockOf w.sector) pb (setPtr (blockOf w.sector pb) k nb)
      (w.catfs.inodes idx).slot
          (if fresh then Function.update linked nb (Block.zero 512) else linked) =
        Function.update ((w.catfs.inodes idx).slot (blockOf w.sector)) p nb) :
    Ensure idx p w (resolvePtr w pb k true fresh) := by
  have small : pb.toNat < 16384 := parent ▸ owned.lt (idx, q)
  refine ⟨fun hne => ?_, fun hz full => ?_, fun hz room => ?_⟩
  · rw [entry] at hne ⊢
    exact resolvePtr_present ready small true hne
  · rw [entry] at hz
    exact resolvePtr_full ready small hz full
  · obtain ⟨c, nb, alloc, hrun⟩ := allocBlock_some room
    obtain ⟨hnb, clear, -⟩ := bmAlloc_some alloc
    obtain ⟨w', hw', fill, hslot⟩ := Fill.of_alloc (p := p) owned live alloc (w.catfs.inodes idx)
      (.block ⟨pb.toNat, small⟩ (setPtr (blockOf w.sector pb) k nb) ::
        if fresh then [.block ⟨nb.toNat, hnb⟩ (Block.zero 512)] else []) hz
      (by
        intro e he
        rcases List.mem_cons.mp he with rfl | he
        · exact ⟨_, _, rfl, Or.inr ⟨q, isPtr, by rw [parent]; exact present, by rw [parent]⟩⟩
        · cases fresh with
          | false => simp at he
          | true =>
            rw [List.mem_singleton.mp he]
            exact ⟨_, _, rfl, Or.inl rfl⟩)
      rfl
      (by
        have := self clear hz
        cases fresh with
        | false => simpa [blockOf_apply_block] using this
        | true => simpa [blockOf_apply_block] using this)
    refine ⟨w', fill, ?_⟩
    rw [entry] at hz
    rw [resolvePtr_alloc ready small hz alloc hrun hnb, hslot, hw']
    have hsame : Function.update c.inodes idx (w.catfs.inodes idx) = c.inodes := by
      rw [bmAlloc_inodes alloc, Function.update_eq_self]
    rw [hsame]

theorem resolvePtr_ind (ready : Ready w) (owned : w.Owned)
    (live : (w.catfs.inodes idx).type ≠ typeFree) (k : Fin 128)
    (present : w.slots (idx, .indirect) ≠ 0) :
    Ensure idx (.ind k) w (resolvePtr w (w.slots (idx, .indirect)) k true false) :=
  resolvePtr_ensure ready owned live rfl rfl present (child_of_ne present k) fun _ _ =>
    slot_fill_ind k present fun q _ hq => owned.alone (l := (idx, q)) present (by simp [hq])

theorem resolvePtr_l1 (ready : Ready w) (owned : w.Owned)
    (live : (w.catfs.inodes idx).type ≠ typeFree) (k : Fin 128)
    (present : w.slots (idx, .dindirect) ≠ 0) :
    Ensure idx (.l1 k) w (resolvePtr w (w.slots (idx, .dindirect)) k true true) :=
  resolvePtr_ensure ready owned live rfl rfl present (child_of_ne present k) fun clear hz =>
    slot_fill_l1 k present (owned.fresh_ne_zero clear) hz
      (fun q => owned.fresh_ne clear (idx, q)) fun q _ hq =>
        owned.alone (l := (idx, q)) present (by simp [hq])

theorem resolvePtr_l2 (ready : Ready w) (owned : w.Owned)
    (live : (w.catfs.inodes idx).type ≠ typeFree) (i k : Fin 128)
    (present : w.slots (idx, .l1 i) ≠ 0) :
    Ensure idx (.l2 i k) w (resolvePtr w (w.slots (idx, .l1 i)) k true false) :=
  resolvePtr_ensure ready owned live rfl rfl present (child_of_ne present k) fun _ _ =>
    slot_fill_l2 i k rfl present fun q _ hq => owned.alone (l := (idx, q)) present (by simp [hq])

end Resolve

/-! ### `resolve_block` -/

/-- The places on the way to a place, from the inode down. -/
def Pos.path : Pos → List Pos
  | .direct i => [.direct i]
  | .indirect => [.indirect]
  | .ind i => [.indirect, .ind i]
  | .dindirect => [.dindirect]
  | .l1 i => [.dindirect, .l1 i]
  | .l2 i j => [.dindirect, .l1 i, .l2 i j]

theorem dindirect_notMem (i j : Fin 128) : Pos.dindirect ∉ [Pos.l1 i, Pos.l2 i j] := by
  simp

theorem l1_notMem (i j : Fin 128) : Pos.l1 i ∉ [Pos.l2 i j] := by
  simp

/-- The place of file block `blk`, for `blk` below `CATFS_MAX_FILE_BLOCKS`. -/
def dataPos (blk : Nat) : Pos :=
  if h : blk < 16 then .direct ⟨blk, h⟩
  else if h : blk - 16 < 128 then .ind ⟨blk - 16, h⟩
  else .l2 ⟨(blk - 144) / 128 % 128, Nat.mod_lt _ (by decide)⟩
    ⟨(blk - 144) % 128, Nat.mod_lt _ (by decide)⟩

@[simp] theorem isPtr_dataPos (blk : Nat) : (dataPos blk).isPtr = false := by
  unfold dataPos
  split
  · rfl
  · split
    · rfl
    · rfl

theorem dataPos_inj {a b : Nat} (ha : a < 16528) (hb : b < 16528) (same : dataPos a = dataPos b) :
    a = b := by
  unfold dataPos at same
  by_cases a16 : a < 16 <;> by_cases b16 : b < 16
  · simpa [a16, b16] using same
  · by_cases b144 : b - 16 < 128 <;> simp [a16, b16, b144] at same
  · by_cases a144 : a - 16 < 128 <;> simp [a16, b16, a144] at same
  · by_cases a144 : a - 16 < 128 <;> by_cases b144 : b - 16 < 128 <;>
      simp [a16, b16, a144, b144] at same <;> omega

/-- The places of `ps` that are still empty. -/
def World.missing (w : World) (idx : Fin 256) (ps : List Pos) : List Pos :=
  ps.filter fun p => w.slots (idx, p) = 0

/-- `r` is the result of filling the missing places of `ps`, in order and as far
as free blocks last, and returning the block in place `last`. -/
def Resolves (idx : Fin 256) (last : Pos) (ps : List Pos) (w : World)
    (r : World × Option UInt32) : Prop :=
  ∃ w', Fills idx w ((w.missing idx ps).take (clearBits w.catfs.bitmap)) w' ∧
    r = (w', if (w.missing idx ps).length ≤ clearBits w.catfs.bitmap
      then some (w'.slots (idx, last)) else none)

theorem Ensure.resolves {idx : Fin 256} {p : Pos} {w : World} {r : World × Option UInt32}
    (h : Ensure idx p w r) : Resolves idx p [p] w r := by
  unfold Resolves World.missing
  by_cases hp : w.slots (idx, p) = 0
  · simp only [hp, List.filter_cons, List.filter_nil, decide_true, if_true, List.length_singleton]
    by_cases room : clearBits w.catfs.bitmap = 0
    · refine ⟨w, ?_, ?_⟩
      · rw [room]
        exact Run.nil w
      · rw [h.full hp room, room]
        simp
    · obtain ⟨w', fill, hr⟩ := h.alloc hp room
      refine ⟨w', ?_, ?_⟩
      · rw [List.take_of_length_le (by simp; omega)]
        exact Fills.single fill
      · rw [hr, if_pos (by omega)]
  · simp only [hp, List.filter_cons, List.filter_nil, decide_false, Bool.false_eq_true, if_false]
    refine ⟨w, ?_, by rw [h.present hp]; simp⟩
    rw [List.take_nil]
    exact Run.nil w

/-- Go on below the block found, if one was found. -/
def andBelow (r : World × Option UInt32) (below : World → UInt32 → World × Option UInt32) :
    World × Option UInt32 :=
  match r with
  | (w, none) => (w, none)
  | (w, some b) => below w b

/-- One more level above: fill place `p`, then go on below it. -/
theorem Ensure.then_resolves {idx : Fin 256} {p last : Pos} {ps : List Pos} {w : World}
    {r : World × Option UInt32} (h : Ensure idx p w r) (owned : w.Owned) (hp : p ∉ ps)
    (below : World → UInt32 → World × Option UInt32)
    (next : ∀ v, Grows idx w v → v.slots (idx, p) ≠ 0 →
      Resolves idx last ps v (below v (v.slots (idx, p)))) :
    Resolves idx last (p :: ps) w (andBelow r below) := by
  by_cases hz : w.slots (idx, p) = 0
  · have need : w.missing idx (p :: ps) = p :: w.missing idx ps := by
      simp [World.missing, hz]
    by_cases room : clearBits w.catfs.bitmap = 0
    · rw [h.full hz room]
      refine ⟨w, ?_, ?_⟩
      · rw [room]
        exact Run.nil w
      · rw [need, room]
        simp [andBelow]
    · obtain ⟨v, fill, hr⟩ := h.alloc hz room
      have one : Fills idx w [p] v := Fills.single fill
      have hv : v.slots (idx, p) ≠ 0 := one.slots_ne_zero_of_mem owned List.mem_cons_self
      obtain ⟨w', fills, hbelow⟩ := next v fill.grows hv
      have same : v.missing idx ps = w.missing idx ps := by
        refine List.filter_congr fun q hq => ?_
        rw [one.slots_of_notMem (by simp; rintro rfl; exact hp hq)]
      have count : clearBits w.catfs.bitmap = clearBits v.catfs.bitmap + 1 := one.clearBits_add.symm
      rw [hr]
      refine ⟨w', ?_, ?_⟩
      · rw [need, count, List.take_succ_cons, ← same]
        exact Run.append one fills
      · simp only [andBelow, hbelow, need, same, List.length_cons, count, Nat.add_le_add_iff_right]
  · have need : w.missing idx (p :: ps) = w.missing idx ps := by
      simp [World.missing, hz]
    rw [h.present hz]
    unfold Resolves
    rw [need]
    exact next w (Grows.refl idx w) hz

/-- **`resolve_block` with `create`.** The missing places on the path to a file
block are filled from the root down while free blocks last; the block is
returned if they last to the end. -/
theorem resolveBlock_resolves {w : World} {idx : Fin 256} (ready : Ready w) (owned : w.Owned)
    (live : (w.catfs.inodes idx).type ≠ typeFree) {blk : Nat} (small : blk < 16528) :
    Resolves idx (dataPos blk) (dataPos blk).path w (resolveBlock w idx blk true) := by
  have alive : ∀ {v}, Grows idx w v → (v.catfs.inodes idx).type ≠ typeFree := by
    intro v g
    rw [g.only.type_eq]
    exact live
  by_cases h16 : blk < 16
  · unfold resolveBlock dataPos
    rw [dif_pos h16, dif_pos h16]
    exact (resolveDirect_ensure owned live ⟨blk, h16⟩).resolves
  · by_cases h144 : blk - 16 < 128
    · unfold resolveBlock dataPos
      have hind : blk - directBlocks < ptrsPerBlock := h144
      rw [dif_neg h16, dif_neg h16, dif_pos h144]
      dsimp only
      rw [if_pos hind]
      exact (resolveIndirect_ensure ready owned live).then_resolves owned (by simp)
        (fun v b => resolvePtr v b (blk - 16) true false) fun v g hv =>
          (resolvePtr_ind (g.ready ready) (g.owned owned) (alive g) ⟨blk - 16, h144⟩ hv).resolves
    · have hind : ¬blk - directBlocks < ptrsPerBlock := h144
      have hl1 : ¬(blk - directBlocks - ptrsPerBlock) / ptrsPerBlock ≥ ptrsPerBlock := by
        have : ¬(blk - 16 - 128) / 128 ≥ 128 := by omega
        exact this
      have hi : (blk - 144) / 128 % 128 = (blk - 16 - 128) / 128 := by omega
      have hj : (blk - 144) % 128 = (blk - 16 - 128) % 128 := by omega
      unfold resolveBlock dataPos
      rw [dif_neg h16, dif_neg h16, dif_neg h144]
      dsimp only
      rw [if_neg hind, if_neg hl1]
      simp only [hi, hj]
      refine (resolveDindirect_ensure ready owned live).then_resolves owned (dindirect_notMem _ _)
        (fun v b => match resolvePtr v b ((blk - 16 - 128) / 128) true true with
          | (v, none) => (v, none)
          | (v, some b) => resolvePtr v b ((blk - 16 - 128) % 128) true false) fun v g hv => ?_
      refine (resolvePtr_l1 (g.ready ready) (g.owned owned) (alive g)
        ⟨(blk - 16 - 128) / 128, by omega⟩ hv).then_resolves (g.owned owned) (l1_notMem _ _)
        (fun v b => resolvePtr v b ((blk - 16 - 128) % 128) true false) fun u g' hu => ?_
      have gg := g.trans g'
      exact (resolvePtr_l2 (gg.ready ready) (gg.owned owned) (alive gg) _
        ⟨(blk - 16 - 128) % 128, by omega⟩ hu).resolves

/-- The block of file block `blk` of an inode, 0 if there is none. -/
def World.fileBlock (w : World) (idx : Fin 256) (blk : Nat) : UInt32 :=
  if blk < 16528 then w.slots (idx, dataPos blk) else 0

/-- The result of looking for a block without creating one. -/
def found (w : World) (b : UInt32) : World × Option UInt32 :=
  (w, if b = 0 then none else some b)

theorem slots_ind {w : World} {idx : Fin 256} (h : w.slots (idx, .indirect) ≠ 0) (k : Fin 128) :
    w.slots (idx, .ind k) = ptr (blockOf w.sector (w.slots (idx, .indirect))) k :=
  child_of_ne h k

theorem slots_l1 {w : World} {idx : Fin 256} (h : w.slots (idx, .dindirect) ≠ 0) (k : Fin 128) :
    w.slots (idx, .l1 k) = ptr (blockOf w.sector (w.slots (idx, .dindirect))) k :=
  child_of_ne h k

theorem slots_l2 {w : World} {idx : Fin 256} {i : Fin 128} (h : w.slots (idx, .l1 i) ≠ 0)
    (k : Fin 128) : w.slots (idx, .l2 i k) = ptr (blockOf w.sector (w.slots (idx, .l1 i))) k :=
  child_of_ne h k

theorem resolvePtr_find {w : World} {idx : Fin 256} {p q : Pos} {k : Fin 128} (ready : Ready w)
    (owned : w.Owned) (entry : w.slots (idx, p) = ptr (blockOf w.sector (w.slots (idx, q))) k)
    (fresh : Bool) :
    resolvePtr w (w.slots (idx, q)) k false fresh = found w (w.slots (idx, p)) := by
  have small : (w.slots (idx, q)).toNat < 16384 := owned.lt (idx, q)
  unfold resolvePtr found
  rw [ready.readBlock small, entry]
  by_cases hz : ptr (blockOf w.sector (w.slots (idx, q))) k = 0
  · simp [hz]
  · simp [hz]

/-- **`resolve_block` without `create`** returns the block mapped, and changes
nothing. -/
theorem resolveBlock_find {w : World} (ready : Ready w) (owned : w.Owned) (idx : Fin 256)
    (blk : Nat) : resolveBlock w idx blk false = found w (w.fileBlock idx blk) := by
  by_cases h16 : blk < 16
  · have small : blk < 16528 := by omega
    have hpos : dataPos blk = .direct ⟨blk, h16⟩ := dif_pos h16
    unfold resolveBlock World.fileBlock
    rw [dif_pos h16, if_pos small, hpos]
    unfold resolveDirect found World.slots Catfs.slots Inode.slot
    by_cases hb : (w.catfs.inodes idx).blocks ⟨blk, h16⟩ = 0
    · simp [hb]
    · simp [hb]
  · by_cases h144 : blk - 16 < 128
    · have small : blk < 16528 := by omega
      have hind : blk - directBlocks < ptrsPerBlock := h144
      have hpos : dataPos blk = .ind ⟨blk - 16, h144⟩ := by
        unfold dataPos
        rw [dif_neg h16, dif_pos h144]
      unfold resolveBlock World.fileBlock
      rw [dif_neg h16, if_pos small, hpos]
      dsimp only
      rw [if_pos hind]
      by_cases hb : w.slots (idx, .indirect) = 0
      · have hfield : (w.catfs.inodes idx).indirect = 0 := hb
        have hslot : w.slots (idx, .ind ⟨blk - 16, h144⟩) = 0 := by
          simp only [World.slots, Catfs.slots, Inode.slot, hfield, child_zero]
        simp only [resolveIndirect, hfield, hslot, found, ne_eq, not_true_eq_false, if_false,
          Bool.not_false, if_true]
      · have hfield : (w.catfs.inodes idx).indirect ≠ 0 := hb
        simp only [resolveIndirect, hfield, ne_eq, not_false_eq_true, if_true]
        exact resolvePtr_find ready owned (slots_ind hb ⟨blk - 16, h144⟩) false
    · have hind : ¬blk - directBlocks < ptrsPerBlock := h144
      unfold resolveBlock
      rw [dif_neg h16]
      dsimp only
      rw [if_neg hind]
      by_cases small : blk < 16528
      · have hl1 : ¬(blk - directBlocks - ptrsPerBlock) / ptrsPerBlock ≥ ptrsPerBlock := by
          have : ¬(blk - 16 - 128) / 128 ≥ 128 := by omega
          exact this
        let i : Fin 128 := ⟨(blk - 16 - 128) / 128, by omega⟩
        let j : Fin 128 := ⟨(blk - 16 - 128) % 128, by omega⟩
        have hpos : dataPos blk = .l2 i j := by
          have hi : (blk - 144) / 128 % 128 = (blk - 16 - 128) / 128 := by omega
          have hj : (blk - 144) % 128 = (blk - 16 - 128) % 128 := by omega
          unfold dataPos
          rw [dif_neg h16, dif_neg h144]
          simp only [hi, hj, i, j]
        rw [if_neg hl1]
        unfold World.fileBlock
        rw [if_pos small, hpos]
        by_cases hb : w.slots (idx, .dindirect) = 0
        · have hfield : (w.catfs.inodes idx).dindirect = 0 := hb
          have hslot : w.slots (idx, .l2 i j) = 0 := by
            simp only [World.slots, Catfs.slots, Inode.slot, hfield, child_zero]
          simp only [resolveDindirect, hfield, hslot, found, ne_eq, not_true_eq_false, if_false,
            Bool.not_false, if_true]
        · have hfield : (w.catfs.inodes idx).dindirect ≠ 0 := hb
          have first : resolvePtr w (w.slots (idx, .dindirect)) i false true =
              found w (w.slots (idx, .l1 i)) :=
            resolvePtr_find ready owned (slots_l1 hb i) true
          simp only [resolveDindirect, hfield, ne_eq, not_false_eq_true, if_true]
          rw [show resolvePtr w (w.catfs.inodes idx).dindirect
              ((blk - directBlocks - ptrsPerBlock) / ptrsPerBlock) false true =
                found w (w.slots (idx, .l1 i)) from first]
          by_cases hb1 : w.slots (idx, .l1 i) = 0
          · have hslot : w.slots (idx, .l2 i j) = 0 := by
              have : child (blockOf w.sector) (w.slots (idx, .l1 i)) j = 0 := by
                rw [hb1, child_zero]
              exact this
            simp only [found, hb1, hslot, if_true]
          · simp only [found, hb1, if_false]
            exact resolvePtr_find ready owned (slots_l2 hb1 j) false
      · have hl1 : (blk - directBlocks - ptrsPerBlock) / ptrsPerBlock ≥ ptrsPerBlock := by
          have : (blk - 16 - 128) / 128 ≥ 128 := by omega
          exact this
        rw [if_pos hl1]
        unfold World.fileBlock found
        rw [if_neg small, if_pos rfl]

end AtmKoala.Catfs
