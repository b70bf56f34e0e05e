import AtmKoala.Catfs.Alloc

/-!
Freeing blocks: `free_all_blocks` and `free_blocks_from`.

`Drops idx D` says what freeing the places in `D` of inode `idx` amounts to:
these places are emptied, their blocks are unmarked, every other place keeps
its block, and the only sectors written are pointer blocks of the inode, whose
entries are kept or zeroed (`Shrinking`). Stages compose (`Drops.trans`), a
ledger stays a ledger (`Drops.owned`), and the two routines of the source are
`freeAllBlocks_drops`, which drops everything, and `freeBlocksFrom_drops`, which
drops what `Kept` does not hold on to.
-/

namespace AtmKoala.Catfs

open Lib
open Function (update_of_ne update_self)

/-- Every write replaces a block by one whose entries are kept or zeroed. -/
def Shrinking : Store → List Ev → Prop
  | _, [] => True
  | σ, e :: es =>
    (∃ b sec, e = Ev.block b sec ∧ ∀ j, j < 128 →
      ptr sec j = ptr (σ (dataLba + b.val)) j ∨ ptr sec j = 0) ∧ Shrinking (e.apply σ) es

theorem Shrinking.append {σ : Store} {es fs : List Ev} (h : Shrinking σ es)
    (k : Shrinking (runEvents σ es) fs) : Shrinking σ (es ++ fs) := by
  induction es generalizing σ with
  | nil => exact k
  | cons e es ih => exact ⟨h.1, ih h.2 k⟩

theorem Shrinking.take {σ : Store} {es : List Ev} (h : Shrinking σ es) (k : Nat) :
    Shrinking σ (es.take k) := by
  induction es generalizing σ k with
  | nil => simpa using h
  | cons e es ih =>
    cases k with
    | zero => trivial
    | succ k => exact ⟨h.1, ih h.2 k⟩

/-- Shrinking writes take entries away and add none. -/
theorem Shrinking.ptr_or {σ : Store} {es : List Ev} (h : Shrinking σ es) (b : UInt32) (j : Fin 128) :
    ptr (blockOf (runEvents σ es) b) j = ptr (blockOf σ b) j ∨
      ptr (blockOf (runEvents σ es) b) j = 0 := by
  induction es generalizing σ with
  | nil => exact Or.inl rfl
  | cons e es ih =>
    obtain ⟨⟨a, sec, rfl, entries⟩, rest⟩ := h
    have first : ptr (blockOf (Ev.apply σ (.block a sec)) b) j = ptr (blockOf σ b) j ∨
        ptr (blockOf (Ev.apply σ (.block a sec)) b) j = 0 := by
      unfold blockOf Ev.apply
      simp only [Ev.lba, Ev.content]
      by_cases here : dataLba + b.toNat = dataLba + a.val
      · rw [here, update_self]
        exact entries j j.isLt
      · rw [update_of_ne here]
        exact Or.inl rfl
    rw [runEvents_cons]
    rcases ih rest with same | gone
    · rw [same]
      exact first
    · exact Or.inr gone

/-- Freeing the places in `D` of inode `idx`. -/
structure Drops (idx : Fin 256) (D : Pos → Prop) (w w' : World) : Prop where
  performed : ∃ es, w' = w.perform w'.catfs es ∧ Shrinking w.sector es ∧
    ∀ e ∈ es, ∃ b sec, e = Ev.block b sec ∧
      ∃ q, q.isPtr = true ∧ w.slots (idx, q) ≠ 0 ∧ (w.slots (idx, q)).toNat = b.val
  only : BlocksOnly idx w.catfs w'.catfs
  bits : ∀ b : UInt32, bmTest w'.catfs.bitmap b.toNat = true ↔
    bmTest w.catfs.bitmap b.toNat = true ∧ ¬(b ≠ 0 ∧ ∃ p, D p ∧ w.slots (idx, p) = b)
  kept : ∀ p, ¬D p → w'.slots (idx, p) = w.slots (idx, p)
  gone : ∀ p, D p → w'.slots (idx, p) = 0
  others : ∀ j, j ≠ idx → ∀ p, w'.slots (j, p) = w.slots (j, p)
  counted : Counted w.catfs → Counted w'.catfs

namespace Drops

variable {idx : Fin 256} {D E : Pos → Prop} {w v u : World}

theorem ready (h : Drops idx D w v) (ready : Ready w) : Ready v := by
  obtain ⟨es, heq, -⟩ := h.performed
  rw [heq]
  exact ready.perform h.only.frame es

theorem slots_or (h : Drops idx D w v) (p : Pos) :
    v.slots (idx, p) = w.slots (idx, p) ∨ v.slots (idx, p) = 0 := by
  by_cases hp : D p
  · exact Or.inr (h.gone p hp)
  · exact Or.inl (h.kept p hp)

/-- Nothing freed, nothing changed. -/
theorem none (idx : Fin 256) (w : World) : Drops idx (fun _ => False) w w where
  performed := ⟨[], (World.perform_nil w).symm, trivial, by simp⟩
  only := BlocksOnly.refl idx w.catfs
  bits := by simp
  kept := fun _ _ => rfl
  gone := by simp
  others := fun _ _ _ => rfl
  counted := id

theorem congr (h : Drops idx D w v) (same : ∀ p, w.slots (idx, p) ≠ 0 → (E p ↔ D p)) :
    Drops idx E w v where
  performed := h.performed
  only := h.only
  bits := by
    intro b
    rw [h.bits b]
    refine and_congr_right fun _ => not_congr (and_congr_right fun hb => ?_)
    constructor
    · rintro ⟨p, hp, hpb⟩
      exact ⟨p, (same p (hpb ▸ hb)).mpr hp, hpb⟩
    · rintro ⟨p, hp, hpb⟩
      exact ⟨p, (same p (hpb ▸ hb)).mp hp, hpb⟩
  kept := by
    intro p hp
    by_cases hz : w.slots (idx, p) = 0
    · rcases h.slots_or p with eq | eq
      · exact eq
      · rw [eq, hz]
    · exact h.kept p fun d => hp ((same p hz).mpr d)
  gone := by
    intro p hp
    by_cases hz : w.slots (idx, p) = 0
    · rcases h.slots_or p with eq | eq
      · rw [eq, hz]
      · exact eq
    · exact h.gone p ((same p hz).mp hp)
  others := h.others
  counted := h.counted

theorem trans (h : Drops idx D w v) (k : Drops idx E v u) :
    Drops idx (fun p => D p ∨ E p) w u where
  performed := by
    obtain ⟨es, hes, shrink, blocks⟩ := h.performed
    obtain ⟨fs, hfs, shrink', blocks'⟩ := k.performed
    refine ⟨es ++ fs, ?_, shrink.append ?_, fun e he => ?_⟩
    · rw [hfs, hes, World.perform_perform h.only.sameVolume]
      rfl
    · rw [hes, World.sector_perform h.only.sameVolume] at shrink'
      exact shrink'
    · rcases List.mem_append.mp he with he | he
      · exact blocks e he
      · obtain ⟨b, sec, rfl, q, hq, hne, hqb⟩ := blocks' e he
        have same : v.slots (idx, q) = w.slots (idx, q) :=
          (h.slots_or q).resolve_right hne
        exact ⟨b, sec, rfl, q, hq, same ▸ hne, same ▸ hqb⟩
  only := h.only.trans k.only
  bits := by
    intro b
    rw [k.bits b, h.bits b]
    constructor
    · rintro ⟨⟨hb, notD⟩, notE⟩
      refine ⟨hb, ?_⟩
      rintro ⟨hne, p, hp, hpb⟩
      by_cases hd : D p
      · exact notD ⟨hne, p, hd, hpb⟩
      · exact notE ⟨hne, p, hp.resolve_left hd, (h.kept p hd).trans hpb⟩
    · rintro ⟨hb, not⟩
      refine ⟨⟨hb, ?_⟩, ?_⟩
      · rintro ⟨hne, p, hp, hpb⟩
        exact not ⟨hne, p, Or.inl hp, hpb⟩
      · rintro ⟨hne, p, hp, hpb⟩
        have same : v.slots (idx, p) = w.slots (idx, p) :=
          (h.slots_or p).resolve_right (hpb ▸ hne)
        exact not ⟨hne, p, Or.inr hp, same ▸ hpb⟩
  kept := fun p hp =>
    (k.kept p fun e => hp (Or.inr e)).trans (h.kept p fun d => hp (Or.inl d))
  gone := by
    rintro p hp
    by_cases he : E p
    · exact k.gone p he
    · rw [k.kept p he]
      exact h.gone p (hp.resolve_right he)
  others := fun j hj p => (k.others j hj p).trans (h.others j hj p)
  counted := fun c => k.counted (h.counted c)

theorem owned (h : Drops idx D w v) (owned : w.Owned) : v.Owned := by
  refine ⟨owned.ledger.drop (D := fun k => k.1 = idx ∧ D k.2) ?_ ?_ fun b => ?_, fun i hi => ?_⟩
  · rintro ⟨j, p⟩ hk
    by_cases hj : j = idx
    · subst hj
      exact h.kept p fun d => hk ⟨rfl, d⟩
    · exact h.others j hj p
  · rintro ⟨j, p⟩ ⟨hj, hp⟩
    obtain rfl : j = idx := hj
    exact h.gone p hp
  · rw [h.bits b]
    refine and_congr_right fun _ => not_congr (and_congr_right fun _ => ?_)
    constructor
    · rintro ⟨p, hp, hpb⟩
      exact ⟨(idx, p), ⟨rfl, hp⟩, hpb⟩
    · rintro ⟨⟨j, p⟩, ⟨hj, hp⟩, hpb⟩
      obtain rfl : j = idx := hj
      exact ⟨p, hp, hpb⟩
  · rw [h.only.type_eq] at hi
    by_cases hne : i = idx
    · -- the places of a free inode are empty, and emptying them changes nothing
      subst hne
      have empty : ∀ p, v.slots (i, p) = 0 := by
        intro p
        have before : w.slots (i, p) = 0 := congrFun (slot_of_zero (owned.free i hi) _) p
        rcases h.slots_or p with same | gone
        · rw [same, before]
        · exact gone
      exact ⟨funext fun k => empty (.direct k), empty .indirect, empty .dindirect⟩
    · rw [h.only.others i hne]
      exact owned.free i hi

/-- A block that is no pointer block of the inode keeps its contents. -/
theorem keeps (h : Drops idx D w v) {b : UInt32}
    (data : ∀ q, q.isPtr = true → w.slots (idx, q) ≠ 0 → w.slots (idx, q) ≠ b) :
    blockOf v.sector b = blockOf w.sector b := by
  obtain ⟨es, heq, -, blocks⟩ := h.performed
  rw [heq, World.sector_perform h.only.sameVolume]
  refine blockOf_runEvents_of_ne _ fun e he hlba => ?_
  obtain ⟨a, sec, rfl, q, hq, hne, hqa⟩ := blocks e he
  have hab : a.val = b.toNat := by simpa [Ev.lba] using hlba
  exact data q hq hne (UInt32.toNat_inj.mp (hqa.trans hab))

theorem sector_eq (h : Drops idx D w v) {n : Nat} (hn : n < 100) : v.sector n = w.sector n := by
  obtain ⟨es, heq, -, blocks⟩ := h.performed
  rw [heq, World.sector_perform h.only.sameVolume]
  refine runEvents_of_forall_ne fun e he => ?_
  obtain ⟨a, sec, rfl, -⟩ := blocks e he
  simp only [Ev.lba, dataLba_eq]
  omega

end Drops

/-- Assembling a stage: the blocks `bs` are freed, the inode is patched to `n'`
and the events `es` go to pointer blocks of the inode. -/
theorem Drops.of_freeList {idx : Fin 256} {D : Pos → Prop} {w : World} (owned : w.Owned)
    (n' : Inode) (bs : List UInt32) (es : List Ev)
    (same : n' = { w.catfs.inodes idx with
      blocks := n'.blocks, indirect := n'.indirect, dindirect := n'.dindirect })
    (freed : ∀ b : UInt32, b ≠ 0 → (b ∈ bs ↔ ∃ p, D p ∧ w.slots (idx, p) = b))
    (shrink : Shrinking w.sector es)
    (blocks : ∀ e ∈ es, ∃ b sec, e = Ev.block b sec ∧
      ∃ q, q.isPtr = true ∧ w.slots (idx, q) ≠ 0 ∧ (w.slots (idx, q)).toNat = b.val)
    (kept : ∀ p, ¬D p → n'.slot (blockOf (runEvents w.sector es)) p = w.slots (idx, p))
    (gone : ∀ p, D p → n'.slot (blockOf (runEvents w.sector es)) p = 0) :
    Drops idx D w (w.perform
      { freeList w.catfs bs with
        inodes := Function.update (freeList w.catfs bs).inodes idx n' } es) := by
  have hfree := freeList_eq w.catfs bs
  have hinodes : (freeList w.catfs bs).inodes = w.catfs.inodes := by rw [hfree]
  have volume : SameVolume w.catfs { freeList w.catfs bs with
      inodes := Function.update (freeList w.catfs bs).inodes idx n' } := by
    constructor
    · show (freeList w.catfs bs).diskDrive = _
      rw [hfree]
    · show (freeList w.catfs bs).partitionOffset = _
      rw [hfree]
  have hself : ∀ p, (w.perform { freeList w.catfs bs with
      inodes := Function.update (freeList w.catfs bs).inodes idx n' } es).slots (idx, p) =
        n'.slot (blockOf (runEvents w.sector es)) p := by
    intro p
    unfold World.slots Catfs.slots
    rw [World.sector_perform volume]
    simp
  refine ⟨⟨es, rfl, shrink, blocks⟩, ?_, fun b => ?_, fun p hp => ?_, fun p hp => ?_,
    fun j hj p => ?_, fun counted => ?_⟩
  · constructor
    · exact volume.drive
    · exact volume.offset
    · show (freeList w.catfs bs).mounted = _
      rw [hfree]
    · show (freeList w.catfs bs).jh = _
      rw [hfree]
    · show (freeList w.catfs bs).nextSeq = _
      rw [hfree]
    · show (freeList w.catfs bs).sb = { w.catfs.sb with freeBlocks := (freeList w.catfs bs).sb.freeBlocks }
      rw [hfree]
    · intro j hj
      simp [hj, hinodes]
    · simp only [World.perform_catfs, update_self]
      exact same
  · simp only [World.perform_catfs]
    rw [bmTest_freeList]
    by_cases hb : b = 0
    · simp [hb]
    · simp [hb, freed b hb]
  · rw [hself, kept p hp]
  · rw [hself, gone p hp]
  · unfold World.slots Catfs.slots
    rw [World.sector_perform volume]
    simp only [World.perform_catfs, update_of_ne hj, hinodes]
    refine congrFun (slot_congr ⟨rfl, rfl, rfl⟩ fun q _ hne =>
      blockOf_runEvents_of_ne _ fun e he hlba => ?_) p
    obtain ⟨a, sec, rfl, r, -, hr, hra⟩ := blocks e he
    have hval : a.val = (w.slots (j, q)).toNat := by
      simpa [Ev.lba, World.slots, Catfs.slots] using hlba
    exact hj (congrArg Prod.fst (owned.ledger.inj hr (UInt32.toNat_inj.mp (hra.trans hval)))).symm
  · exact counted.freeList bs

/-! ### Direct blocks -/

section Stages

variable {w : World} {idx : Fin 256}

theorem freeDirect_eq (w : World) (idx : Fin 256) (k : Fin 16) :
    freeDirect idx w k = w.perform
      { freeList w.catfs [(w.catfs.inodes idx).blocks k] with
        inodes := Function.update (freeList w.catfs [(w.catfs.inodes idx).blocks k]).inodes idx
          { w.catfs.inodes idx with
            blocks := Function.update (w.catfs.inodes idx).blocks k 0 } } [] := by
  unfold freeDirect
  by_cases hb : (w.catfs.inodes idx).blocks k = 0
  · have hsame : Function.update (w.catfs.inodes idx).blocks k 0 = (w.catfs.inodes idx).blocks := by
      rw [← hb, Function.update_eq_self]
    simp only [hb, ne_eq, not_true_eq_false, if_false, freeList_cons, freeList_nil, hsame]
    rw [Function.update_eq_self]
    exact (World.perform_nil w).symm
  · have hinodes : (bmFree w.catfs ((w.catfs.inodes idx).blocks k)).inodes = w.catfs.inodes := by
      rw [bmFree_eq]
    have hvol : SameVolume w.catfs (bmFree w.catfs ((w.catfs.inodes idx).blocks k)) := by
      rw [bmFree_eq]
      exact ⟨rfl, rfl⟩
    simp only [hb, ne_eq, not_false_eq_true, if_true, freeList_cons, freeList_nil, World.mapInode,
      World.mapCatfs_eq_perform]
    rw [World.perform_perform hvol]
    simp only [World.perform_catfs, hinodes, List.append_nil]

theorem freeDirect_drops (idx : Fin 256) (owned : w.Owned) (k : Fin 16) :
    Drops idx (· = .direct k) w (freeDirect idx w k) := by
  rw [freeDirect_eq]
  have hslot : ({ w.catfs.inodes idx with
      blocks := Function.update (w.catfs.inodes idx).blocks k 0 } : Inode).slot (blockOf w.sector) =
        Function.update ((w.catfs.inodes idx).slot (blockOf w.sector)) (.direct k) 0 :=
    slot_fill_direct k
  refine Drops.of_freeList owned _ _ [] rfl (fun b hb => ?_) trivial (by simp) (fun p hp => ?_)
    fun p hp => ?_
  · simp only [List.mem_singleton, exists_eq_left]
    exact eq_comm
  · rw [runEvents_nil, hslot, update_of_ne hp]
    rfl
  · rw [runEvents_nil, hslot, hp, update_self]

/-- The loops over direct blocks. -/
theorem foldl_freeDirect_drops (idx : Fin 256) (owned : w.Owned)
    (ks : List (Fin 16)) :
    Drops idx (fun p => ∃ k ∈ ks, p = .direct k) w (ks.foldl (freeDirect idx) w) := by
  induction ks generalizing w with
  | nil =>
    exact (Drops.none idx w).congr (by simp)
  | cons k ks ih =>
    have first := freeDirect_drops idx owned k
    refine (first.trans (ih (first.owned owned))).congr fun p _ => ?_
    simp only [List.mem_cons, exists_eq_or_imp]

/-! ### `free_all_blocks` -/

theorem freeSectorPtrs_eq (c : State) (sec : Sector) :
    freeSectorPtrs c sec = freeList c ((List.finRange 128).map fun i => ptr sec i.val) := by
  have hrange : (List.finRange 128).map (fun i => ptr sec i.val) = (List.range 128).map (ptr sec) := by
    rw [← List.map_coe_finRange_eq_range, List.map_map]
    rfl
  rw [hrange]
  unfold freeSectorPtrs freeList
  rw [List.foldl_map]
  rfl

theorem perform_freeList_ready (ready : Ready w) (bs : List UInt32) :
    Ready (w.perform (freeList w.catfs bs) []) := by
  refine ready.perform ?_ []
  rw [freeList_eq]
  exact ⟨⟨rfl, rfl⟩, rfl, rfl⟩

theorem freeList_volume (c : State) (bs : List UInt32) : SameVolume c (freeList c bs) := by
  rw [freeList_eq]
  exact ⟨rfl, rfl⟩

/-- The blocks one entry of the double-indirect block stands for. -/
def l1Blocks (block : UInt32 → Sector) (b : UInt32) : List UInt32 :=
  if b = 0 then [] else ((List.finRange 128).map fun j => ptr (block b) j.val) ++ [b]

theorem freeAllL1_eq (ready : Ready w) (l1 : Sector) (i : Nat)
    (small : (ptr l1 i).toNat < 16384) :
    freeAllL1 l1 w i =
      w.perform (freeList w.catfs (l1Blocks (blockOf w.sector) (ptr l1 i))) [] := by
  unfold freeAllL1 l1Blocks
  by_cases hz : ptr l1 i = 0
  · simp only [hz, if_true, freeList_nil]
    exact (World.perform_nil w).symm
  · simp only [hz, if_false, ready.readBlock small, World.mapCatfs_eq_perform, freeSectorPtrs_eq]
    rw [World.perform_perform (freeList_volume _ _), freeList_append]
    simp [hz]

theorem foldl_freeAllL1_eq (ready : Ready w) (l1 : Sector) (is : List (Fin 128))
    (small : ∀ i : Fin 128, (ptr l1 i).toNat < 16384) :
    (is.map Fin.val).foldl (freeAllL1 l1) w =
      w.perform (freeList w.catfs
        (is.flatMap fun i : Fin 128 => l1Blocks (blockOf w.sector) (ptr l1 i.val))) [] := by
  induction is generalizing w with
  | nil => exact (World.perform_nil w).symm
  | cons i is ih =>
    have volume := freeList_volume w.catfs (l1Blocks (blockOf w.sector) (ptr l1 i))
    simp only [List.map_cons, List.foldl_cons, freeAllL1_eq ready l1 i (small i)]
    rw [ih (perform_freeList_ready ready _), World.sector_perform volume,
      World.perform_perform volume]
    simp only [World.perform_catfs, runEvents_nil, List.flatMap_cons, freeList_append,
      List.append_nil]

/-- Freeing a list and a pointer field with it, as the two indirect parts do. -/
theorem freeList_then_free {bs : List UInt32} {b : UInt32} (present : b ≠ 0) (f : Inode → Inode) :
    ((w.perform (freeList w.catfs bs) []).mapCatfs fun c => bmFree c b).mapInode idx f =
      w.perform { freeList w.catfs (bs ++ [b]) with
        inodes := Function.update (freeList w.catfs (bs ++ [b])).inodes idx
          (f (w.catfs.inodes idx)) } [] := by
  have hfree : freeList w.catfs (bs ++ [b]) = bmFree (freeList w.catfs bs) b := by
    rw [freeList_append]
    simp [present]
  have hinodes : (freeList w.catfs (bs ++ [b])).inodes = w.catfs.inodes := by rw [freeList_eq]
  simp only [World.mapInode, World.mapCatfs_eq_perform]
  rw [World.perform_perform (freeList_volume _ _), World.perform_catfs, ← hfree,
    World.perform_perform (freeList_volume _ _), World.perform_catfs, hinodes]
  rfl

theorem freeAllIndirect_drops (idx : Fin 256) (ready : Ready w) (owned : w.Owned) :
    Drops idx (fun p => p = .indirect ∨ ∃ i, p = .ind i) w (freeAllIndirect w idx) := by
  unfold freeAllIndirect
  by_cases hb : (w.catfs.inodes idx).indirect = 0
  · simp only [hb, ne_eq, not_true_eq_false, if_false]
    refine (Drops.none idx w).congr fun p hp => ?_
    simp only [iff_false]
    rintro (rfl | ⟨i, rfl⟩)
    · exact hp hb
    · refine hp ?_
      simp only [World.slots, Catfs.slots, Inode.slot, hb, child_zero]
  · have small : (w.catfs.inodes idx).indirect.toNat < 16384 := owned.lt (idx, .indirect)
    simp only [hb, ne_eq, not_false_eq_true, if_true, ready.readBlock small, freeSectorPtrs_eq,
      World.mapCatfs_eq_perform w]
    rw [freeList_then_free hb]
    refine Drops.of_freeList owned _ _ [] rfl (fun b hne => ?_) trivial (by simp) (fun p hp => ?_)
      fun p hp => ?_
    · simp only [List.mem_append, List.mem_map, List.mem_finRange, true_and, List.mem_singleton]
      constructor
      · rintro (⟨i, hi⟩ | rfl)
        · exact ⟨.ind i, Or.inr ⟨i, rfl⟩, (slots_ind hb i).trans hi⟩
        · exact ⟨.indirect, Or.inl rfl, rfl⟩
      · rintro ⟨p, rfl | ⟨i, rfl⟩, hpb⟩
        · exact Or.inr hpb.symm
        · exact Or.inl ⟨i, (slots_ind hb i).symm.trans hpb⟩
    · cases p with
      | direct i => rfl
      | indirect => exact absurd (Or.inl rfl) hp
      | ind i => exact absurd (Or.inr ⟨i, rfl⟩) hp
      | dindirect => rfl
      | l1 i => rfl
      | l2 i j => rfl
    · rcases hp with rfl | ⟨i, rfl⟩
      · rfl
      · rfl

theorem mem_l1Blocks {block : UInt32 → Sector} {a b : UInt32} :
    b ∈ l1Blocks block a ↔ a ≠ 0 ∧ (b = a ∨ ∃ j : Fin 128, child block a j = b) := by
  unfold l1Blocks child
  by_cases ha : a = 0
  · simp [ha]
  · simp only [ha, if_false, List.mem_append, List.mem_map, List.mem_finRange, true_and,
      List.mem_singleton, ne_eq, not_false_eq_true]
    exact or_comm

theorem freeAllDindirect_drops (idx : Fin 256) (ready : Ready w) (owned : w.Owned) :
    Drops idx (fun p => p = .dindirect ∨ (∃ i, p = .l1 i) ∨ ∃ i j, p = .l2 i j) w
      (freeAllDindirect w idx) := by
  unfold freeAllDindirect
  by_cases hb : (w.catfs.inodes idx).dindirect = 0
  · simp only [hb, ne_eq, not_true_eq_false, if_false]
    refine (Drops.none idx w).congr fun p hp => ?_
    simp only [iff_false]
    rintro (rfl | ⟨i, rfl⟩ | ⟨i, j, rfl⟩)
    · exact hp hb
    · refine hp ?_
      simp only [World.slots, Catfs.slots, Inode.slot, hb, child_zero]
    · refine hp ?_
      simp only [World.slots, Catfs.slots, Inode.slot, hb, child_zero]
  · have small : (w.catfs.inodes idx).dindirect.toNat < 16384 := owned.lt (idx, .dindirect)
    have entry : ∀ i : Fin 128,
        ptr (blockOf w.sector (w.catfs.inodes idx).dindirect) i = w.slots (idx, .l1 i) :=
      fun i => (slots_l1 hb i).symm
    have smalls : ∀ i : Fin 128,
        (ptr (blockOf w.sector (w.catfs.inodes idx).dindirect) i).toNat < 16384 := by
      intro i
      rw [entry i]
      exact owned.lt (idx, .l1 i)
    have hrange : List.range ptrsPerBlock = (List.finRange 128).map Fin.val :=
      (List.map_coe_finRange_eq_range).symm
    simp only [hb, ne_eq, not_false_eq_true, if_true, ready.readBlock small, hrange,
      foldl_freeAllL1_eq ready _ _ smalls]
    rw [freeList_then_free hb]
    refine Drops.of_freeList owned _ _ [] rfl (fun b hne => ?_) trivial (by simp) (fun p hp => ?_)
      fun p hp => ?_
    · simp only [List.mem_append, List.mem_flatMap, List.mem_finRange, true_and,
        List.mem_singleton, mem_l1Blocks, entry]
      constructor
      · rintro (⟨i, -, rfl | ⟨j, hj⟩⟩ | rfl)
        · exact ⟨.l1 i, Or.inr (Or.inl ⟨i, rfl⟩), rfl⟩
        · exact ⟨.l2 i j, Or.inr (Or.inr ⟨i, j, rfl⟩), hj⟩
        · exact ⟨.dindirect, Or.inl rfl, rfl⟩
      · rintro ⟨p, rfl | ⟨i, rfl⟩ | ⟨i, j, rfl⟩, hpb⟩
        · exact Or.inr hpb.symm
        · exact Or.inl ⟨i, hpb ▸ hne, Or.inl hpb.symm⟩
        · refine Or.inl ⟨i, fun hz => hne ?_, Or.inr ⟨j, hpb⟩⟩
          have : child (blockOf w.sector) (w.slots (idx, .l1 i)) j = b := hpb
          rw [hz, child_zero] at this
          exact this.symm
    · cases p with
      | direct i => rfl
      | indirect => rfl
      | ind i => rfl
      | dindirect => exact absurd (Or.inl rfl) hp
      | l1 i => exact absurd (Or.inr (Or.inl ⟨i, rfl⟩)) hp
      | l2 i j => exact absurd (Or.inr (Or.inr ⟨i, j, rfl⟩)) hp
    · rcases hp with rfl | ⟨i, rfl⟩ | ⟨i, j, rfl⟩
      · rfl
      · rfl
      · rfl

/-- **`free_all_blocks`** empties every place of the inode, in memory only. -/
theorem freeAllBlocks_drops (idx : Fin 256) (ready : Ready w) (owned : w.Owned) :
    Drops idx (fun _ => True) w (freeAllBlocks w idx) := by
  unfold freeAllBlocks
  have direct := foldl_freeDirect_drops idx owned (List.finRange 16)
  have owned₁ := direct.owned owned
  have indirect := freeAllIndirect_drops idx (direct.ready ready) owned₁
  have dindirect := freeAllDindirect_drops idx (indirect.ready (direct.ready ready))
    (indirect.owned owned₁)
  refine ((direct.trans indirect).trans dindirect).congr fun p _ => ?_
  cases p <;> simp

end Stages

/-! ### `free_blocks_from` -/

/-- The state of the pointer loop after the first `n` entries. -/
def freePtrsUpTo (c : State) (sec : Sector) (start n : Nat) : State × Sector × Bool :=
  (List.range n).foldl (freePtrStep start) (c, sec, false)

theorem freePtrsUpTo_succ (c : State) (sec : Sector) (start n : Nat) :
    freePtrsUpTo c sec start (n + 1) = freePtrStep start (freePtrsUpTo c sec start n) n := by
  unfold freePtrsUpTo
  rw [List.range_succ, List.foldl_append]
  rfl

theorem freePtrsUpTo_spec (c : State) (sec : Sector) (start : Nat) {n : Nat} (hn : n ≤ 128) :
    (freePtrsUpTo c sec start n).1 =
        freeList c (((List.range n).filter (start ≤ ·)).map (ptr sec)) ∧
      (∀ i, i < 128 → ptr (freePtrsUpTo c sec start n).2.1 i =
        if start ≤ i ∧ i < n then 0 else ptr sec i) ∧
      ((freePtrsUpTo c sec start n).2.2 = true ↔ ∃ i, i < n ∧ i < start ∧ ptr sec i ≠ 0) := by
  induction n with
  | zero => simp [freePtrsUpTo]
  | succ n ih =>
    obtain ⟨ihc, ihs, iha⟩ := ih (by omega)
    have entry : ptr (freePtrsUpTo c sec start n).2.1 n = ptr sec n := by
      rw [ihs n (by omega), if_neg (by omega)]
    have unfolded : freePtrsUpTo c sec start (n + 1) =
        (if start ≤ n ∧ ptr sec n ≠ 0 then
          (bmFree (freePtrsUpTo c sec start n).1 (ptr sec n),
            setPtr (freePtrsUpTo c sec start n).2.1 n 0,
            (freePtrsUpTo c sec start n).2.2 ||
              ptr (setPtr (freePtrsUpTo c sec start n).2.1 n 0) n != 0)
        else ((freePtrsUpTo c sec start n).1, (freePtrsUpTo c sec start n).2.1,
          (freePtrsUpTo c sec start n).2.2 || ptr sec n != 0)) := by
      rw [freePtrsUpTo_succ, ← entry]
      rfl
    rw [List.range_succ, List.filter_append, List.map_append, freeList_append, ← ihc, unfolded]
    by_cases h : start ≤ n ∧ ptr sec n ≠ 0
    · rw [if_pos h]
      refine ⟨?_, fun i hi => ?_, ?_⟩
      · simp [h.1, h.2]
      · by_cases hin : i = n
        · subst hin
          rw [ptr_setPtr_self _ _ hi, if_pos ⟨h.1, by omega⟩]
        · rw [ptr_setPtr_ne _ _ hi (Ne.symm hin), ihs i hi]
          have : (start ≤ i ∧ i < n) ↔ (start ≤ i ∧ i < n + 1) := by omega
          simp only [this]
      · rw [ptr_setPtr_self _ _ (by omega)]
        simp only [bne_self_eq_false, Bool.or_false, iha]
        constructor
        · rintro ⟨i, hi, rest⟩
          exact ⟨i, by omega, rest⟩
        · rintro ⟨i, hi, hs, rest⟩
          exact ⟨i, by omega, hs, rest⟩
    · rw [if_neg h]
      refine ⟨?_, fun i hi => ?_, ?_⟩
      · by_cases hs : start ≤ n
        · have hz : ptr sec n = 0 := by
            by_contra hne
            exact h ⟨hs, hne⟩
          simp [hs, hz]
        · simp [hs]
      · rw [ihs i hi]
        by_cases hin : i = n
        · subst hin
          by_cases hs : start ≤ i
          · have hz : ptr sec i = 0 := by
              by_contra hne
              exact h ⟨hs, hne⟩
            simp [hz]
          · simp [hs]
        · have : (start ≤ i ∧ i < n) ↔ (start ≤ i ∧ i < n + 1) := by omega
          simp only [this]
      · simp only [Bool.or_eq_true, iha, bne_iff_ne, ne_eq]
        constructor
        · rintro (⟨i, hi, rest⟩ | hne)
          · exact ⟨i, by omega, rest⟩
          · refine ⟨n, by omega, ?_, hne⟩
            by_contra hs
            exact h ⟨by omega, hne⟩
        · rintro ⟨i, hi, hs, hne⟩
          by_cases hin : i = n
          · subst hin
            exact Or.inr hne
          · exact Or.inl ⟨i, by omega, hs, hne⟩

theorem freePtrs_eq (c : State) (sec : Sector) (start : Nat) :
    freePtrs c sec start = freePtrsUpTo c sec start 128 := by
  unfold freePtrs freePtrsUpTo
  rw [show ptrsPerBlock = 128 from rfl]

/-- The entries of a pointer sector from `start` on. -/
def freedPtrs (sec : Sector) (start : Nat) : List UInt32 :=
  ((List.range 128).filter (start ≤ ·)).map (ptr sec)

theorem freePtrs_spec (c : State) (sec : Sector) (start : Nat) :
    ∃ sec' any, freePtrs c sec start = (freeList c (freedPtrs sec start), sec', any) ∧
      (∀ i, i < 128 → ptr sec' i = if start ≤ i then 0 else ptr sec i) ∧
      (any = true ↔ ∃ i : Fin 128, i.val < start ∧ ptr sec i ≠ 0) := by
  obtain ⟨hc, hptr, hany⟩ := freePtrsUpTo_spec c sec start (le_refl 128)
  refine ⟨(freePtrsUpTo c sec start 128).2.1, (freePtrsUpTo c sec start 128).2.2, ?_,
    fun i hi => ?_, hany.trans ?_⟩
  · rw [freePtrs_eq]
    unfold freedPtrs
    rw [← hc]
  · rw [hptr i hi]
    simp [hi]
  · constructor
    · rintro ⟨i, hi, rest⟩
      exact ⟨⟨i, hi⟩, rest⟩
    · rintro ⟨i, rest⟩
      exact ⟨i.val, i.isLt, rest⟩

theorem mem_freedPtrs {sec : Sector} {start : Nat} {b : UInt32} :
    b ∈ freedPtrs sec start ↔ ∃ i : Fin 128, start ≤ i.val ∧ ptr sec i = b := by
  unfold freedPtrs
  simp only [List.mem_map, List.mem_filter, List.mem_range, decide_eq_true_eq]
  constructor
  · rintro ⟨i, ⟨hi, hs⟩, hb⟩
    exact ⟨⟨i, hi⟩, hs, hb⟩
  · rintro ⟨i, hs, hb⟩
    exact ⟨i.val, ⟨i.isLt, hs⟩, hb⟩

/-- What `free_blocks_from` holds on to when it frees from file block `first`
on, given the places `s` of the inode: data blocks below `first`, pointer blocks
with a block left below them, and first-level pointer blocks it does not look
into because they lie wholly below `first`. -/
def Kept (s : Pos → UInt32) (first : Nat) : Pos → Prop
  | .direct i => i.val < first
  | .indirect => ∃ i : Fin 128, 16 + i.val < first ∧ s (.ind i) ≠ 0
  | .ind i => 16 + i.val < first
  | .l1 i => 144 + i.val * 128 + 128 ≤ first ∨
      ∃ j : Fin 128, 144 + i.val * 128 + j.val < first ∧ s (.l2 i j) ≠ 0
  | .l2 i j => 144 + i.val * 128 + j.val < first
  | .dindirect => ∃ i : Fin 128, s (.l1 i) ≠ 0 ∧ (144 + i.val * 128 + 128 ≤ first ∨
      ∃ j : Fin 128, 144 + i.val * 128 + j.val < first ∧ s (.l2 i j) ≠ 0)

section From

variable {w : World} {idx : Fin 256}

/-- The places the indirect part of `free_blocks_from` is about. -/
def Pos.inIndirect : Pos → Prop
  | .indirect | .ind _ => True
  | _ => False

/-- The places the double-indirect part of `free_blocks_from` is about. -/
def Pos.inDindirect : Pos → Prop
  | .dindirect | .l1 _ | .l2 _ _ => True
  | _ => False

theorem freeList_inodes_update (c : State) (bs : List UInt32) (idx : Fin 256) :
    ({ freeList c bs with
      inodes := Function.update (freeList c bs).inodes idx (c.inodes idx) } : State) =
        freeList c bs := by
  have hinodes : (freeList c bs).inodes = c.inodes := by rw [freeList_eq]
  rw [hinodes, Function.update_eq_self, ← hinodes]

/-- The indirect part of `free_blocks_from` on a reliable drive. -/
theorem freeIndirectFrom_eq (ready : Ready w) {first : Nat} {ind : UInt32}
    (hind : (w.catfs.inodes idx).indirect = ind) (present : ind ≠ 0) (small : ind.toNat < 16384)
    {bs : List UInt32} {sec' : Sector} {any : Bool}
    (loop : freePtrs w.catfs (blockOf w.sector ind) (first - 16) =
      (freeList w.catfs bs, sec', any)) :
    freeIndirectFrom w idx first =
      (if any then w.perform (freeList w.catfs bs) [.block ⟨ind.toNat, small⟩ sec']
      else w.perform { freeList w.catfs (bs ++ [ind]) with
        inodes := Function.update (freeList w.catfs (bs ++ [ind])).inodes idx
          { w.catfs.inodes idx with indirect := 0 } } [], true) := by
  have hw' : ({ w with catfs := freeList w.catfs bs } : World) =
      w.perform (freeList w.catfs bs) [] :=
    World.mapCatfs_eq_perform w fun _ => freeList w.catfs bs
  have hwrite := (perform_freeList_ready ready bs).writeBlock small sec'
  rw [World.perform_perform (freeList_volume _ _)] at hwrite
  have hdirect : first - directBlocks = first - 16 := rfl
  unfold freeIndirectFrom
  simp only [hind, present, if_false, ready.readBlock small, hdirect, loop, hw']
  cases any with
  | true =>
    simp only [if_true]
    exact hwrite
  | false =>
    simp only [Bool.false_eq_true, if_false]
    rw [freeList_then_free present]

theorem freeIndirectFrom_drops (idx : Fin 256) (ready : Ready w) (owned : w.Owned) (first : Nat) :
    ∃ w', freeIndirectFrom w idx first = (w', true) ∧
      Drops idx (fun p => p.inIndirect ∧ ¬Kept (fun p => w.slots (idx, p)) first p) w w' := by
  by_cases hb : w.slots (idx, .indirect) = 0
  · have hfield : (w.catfs.inodes idx).indirect = 0 := hb
    refine ⟨w, by simp [freeIndirectFrom, hfield], (Drops.none idx w).congr fun p hp => ?_⟩
    simp only [iff_false]
    rintro ⟨hin, -⟩
    cases p with
    | indirect => exact hp hb
    | ind i =>
      refine hp ?_
      simp only [World.slots, Catfs.slots, Inode.slot, hfield, child_zero]
    | direct i => exact hin
    | dindirect => exact hin
    | l1 i => exact hin
    | l2 i j => exact hin
  · have small : (w.slots (idx, .indirect)).toNat < 16384 := owned.lt (idx, .indirect)
    obtain ⟨sec', any, loop, hptr, hany⟩ :=
      freePtrs_spec w.catfs (blockOf w.sector (w.slots (idx, .indirect))) (first - 16)
    have hfield : (w.catfs.inodes idx).indirect = w.slots (idx, .indirect) := rfl
    refine ⟨_, freeIndirectFrom_eq ready hfield hb small loop, ?_⟩
    have entry : ∀ i : Fin 128, w.slots (idx, .ind i) =
        ptr (blockOf w.sector (w.slots (idx, .indirect))) i := slots_ind hb
    have hkept : any = true ↔ Kept (fun p => w.slots (idx, p)) first .indirect := by
      rw [hany]
      simp only [Kept, ← entry]
      constructor
      · rintro ⟨i, hi, hne⟩
        exact ⟨i, by omega, hne⟩
      · rintro ⟨i, hi, hne⟩
        exact ⟨i, by omega, hne⟩
    have hfreed : ∀ b, b ∈ freedPtrs (blockOf w.sector (w.slots (idx, .indirect))) (first - 16) ↔
        ∃ i : Fin 128, ¬16 + i.val < first ∧ w.slots (idx, .ind i) = b := by
      intro b
      rw [mem_freedPtrs]
      simp only [← entry]
      constructor
      · rintro ⟨i, hi, hib⟩
        exact ⟨i, by omega, hib⟩
      · rintro ⟨i, hi, hib⟩
        exact ⟨i, by omega, hib⟩
    cases any with
    | true =>
      -- an entry below `first` remains: the patched sector goes back to disk
      have keep := hkept.mp rfl
      have hchild : ∀ i : Fin 128, (w.catfs.inodes idx).slot
          (Function.update (blockOf w.sector) (w.slots (idx, .indirect)) sec') (.ind i) =
            if first - 16 ≤ i.val then 0 else w.slots (idx, .ind i) := by
        intro i
        have : child (Function.update (blockOf w.sector) (w.slots (idx, .indirect)) sec')
            (w.slots (idx, .indirect)) i = ptr sec' i := by
          rw [child_of_ne hb, update_self]
        rw [entry i, ← hptr i i.isLt]
        exact this
      have hrest : ∀ p, ¬p.inIndirect → (w.catfs.inodes idx).slot
          (Function.update (blockOf w.sector) (w.slots (idx, .indirect)) sec') p =
            w.slots (idx, p) := by
        have hd : (w.catfs.inodes idx).dindirect ≠ w.slots (idx, .indirect) :=
          owned.alone (k := (idx, .indirect)) (l := (idx, .dindirect)) hb (by simp)
        have h1 : ∀ i, child (blockOf w.sector) (w.catfs.inodes idx).dindirect i ≠
            w.slots (idx, .indirect) := fun i =>
          owned.alone (k := (idx, .indirect)) (l := (idx, .l1 i)) hb (by simp)
        intro p hp
        cases p with
        | direct i => rfl
        | indirect => exact absurd trivial hp
        | ind i => exact absurd trivial hp
        | dindirect => rfl
        | l1 i => simp only [Inode.slot, child_away hd]; rfl
        | l2 i j => simp only [Inode.slot, child_away hd, child_away (h1 i)]; rfl
      simp only [if_true]
      rw [← freeList_inodes_update w.catfs _ idx]
      refine Drops.of_freeList owned _ _ _ rfl (fun b hne => ?_) ⟨⟨_, _, rfl, fun j hj => ?_⟩,
        trivial⟩ (fun e he => ?_) (fun p hp => ?_) fun p hp => ?_
      · rw [hfreed b]
        constructor
        · rintro ⟨i, hi, hib⟩
          exact ⟨.ind i, ⟨trivial, hi⟩, hib⟩
        · rintro ⟨p, ⟨hin, hp⟩, hpb⟩
          cases p with
          | indirect => exact absurd keep hp
          | ind i => exact ⟨i, hp, hpb⟩
          | direct i => exact hin.elim
          | dindirect => exact hin.elim
          | l1 i => exact hin.elim
          | l2 i j => exact hin.elim
      · rw [hptr j hj]
        by_cases hs : first - 16 ≤ j
        · exact Or.inr (if_pos hs)
        · exact Or.inl (if_neg hs)
      · rw [List.mem_singleton.mp he]
        exact ⟨_, _, rfl, .indirect, rfl, hb, rfl⟩
      · rw [runEvents_cons, runEvents_nil, blockOf_apply_block]
        cases p with
        | ind i =>
          rw [hchild, if_neg]
          intro hs
          exact hp ⟨trivial, by simp only [Kept]; omega⟩
        | indirect => rfl
        | direct i => exact hrest _ id
        | dindirect => exact hrest _ id
        | l1 i => exact hrest _ id
        | l2 i j => exact hrest _ id
      · rw [runEvents_cons, runEvents_nil, blockOf_apply_block]
        obtain ⟨hin, hnot⟩ := hp
        cases p with
        | ind i =>
          rw [hchild, if_pos]
          simp only [Kept] at hnot
          omega
        | indirect => exact absurd keep hnot
        | direct i => exact hin.elim
        | dindirect => exact hin.elim
        | l1 i => exact hin.elim
        | l2 i j => exact hin.elim
    | false =>
      -- nothing below `first` remains: the pointer block goes too
      have noKeep : ¬Kept (fun p => w.slots (idx, p)) first .indirect := by
        rw [← hkept]
        simp
      simp only [Bool.false_eq_true, if_false]
      refine Drops.of_freeList owned _ _ _ rfl (fun b hne => ?_) trivial (by simp)
        (fun p hp => ?_) fun p hp => ?_
      · rw [List.mem_append, hfreed b, List.mem_singleton]
        constructor
        · rintro (⟨i, hi, hib⟩ | rfl)
          · exact ⟨.ind i, ⟨trivial, hi⟩, hib⟩
          · exact ⟨.indirect, ⟨trivial, noKeep⟩, rfl⟩
        · rintro ⟨p, ⟨hin, hp⟩, hpb⟩
          cases p with
          | indirect => exact Or.inr hpb.symm
          | ind i => exact Or.inl ⟨i, hp, hpb⟩
          | direct i => exact hin.elim
          | dindirect => exact hin.elim
          | l1 i => exact hin.elim
          | l2 i j => exact hin.elim
      · cases p with
        | ind i =>
          have hlt : 16 + i.val < first := by
            by_contra hn
            exact hp ⟨trivial, hn⟩
          have hz : w.slots (idx, .ind i) = 0 := by
            by_contra hne
            exact noKeep ⟨i, hlt, hne⟩
          rw [hz]
          rfl
        | indirect => exact absurd ⟨trivial, noKeep⟩ hp
        | direct i => rfl
        | dindirect => rfl
        | l1 i => rfl
        | l2 i j => rfl
      · obtain ⟨hin, hnot⟩ := hp
        cases p with
        | ind i => rfl
        | indirect => rfl
        | direct i => exact hin.elim
        | dindirect => exact hin.elim
        | l1 i => exact hin.elim
        | l2 i j => exact hin.elim

/-! The double-indirect part: the loop over the first-level entries. -/

/-- Whether entry `i` of the double-indirect block, standing for block `b`,
outlives freeing from `first` on. -/
def L1Kept (first : Nat) (block : UInt32 → Sector) (i : Fin 128) (b : UInt32) : Prop :=
  144 + i.val * 128 + 128 ≤ first ∨
    ∃ j : Fin 128, 144 + i.val * 128 + j.val < first ∧ ptr (block b) j ≠ 0

/-- What the loop over the entries `is` of the first-level sector `l1` does: the
blocks `bs` are freed, the events `es` are issued, and the sector becomes `l1'`. -/
structure L1Freed (first : Nat) (is : List (Fin 128)) (w : World) (l1 : Sector) (any : Bool)
    (bs : List UInt32) (es : List Ev) (l1' : Sector) (any' : Bool) : Prop where
  dropped : ∀ i ∈ is, ¬L1Kept first (blockOf w.sector) i (ptr l1 i) → ptr l1' i = 0
  entries : ∀ i : Fin 128, (i ∈ is → ptr l1 i ≠ 0 → L1Kept first (blockOf w.sector) i (ptr l1 i)) →
    ptr l1' i = ptr l1 i
  any : any' = true ↔ any = true ∨
    ∃ i ∈ is, ptr l1 i ≠ 0 ∧ L1Kept first (blockOf w.sector) i (ptr l1 i)
  freed : ∀ b : UInt32, b ≠ 0 → (b ∈ bs ↔ ∃ i ∈ is, ptr l1 i ≠ 0 ∧
    (b = ptr l1 i ∧ ¬L1Kept first (blockOf w.sector) i (ptr l1 i) ∨
      ∃ j : Fin 128, ¬144 + i.val * 128 + j.val < first ∧
        ptr (blockOf w.sector (ptr l1 i)) j = b))
  shrink : Shrinking w.sector es
  targets : ∀ e ∈ es, ∃ b sec, e = Ev.block b sec ∧
    ∃ i ∈ is, ptr l1 i ≠ 0 ∧ (ptr l1 i).toNat = b.val
  inside : ∀ i ∈ is, ptr l1 i ≠ 0 → L1Kept first (blockOf w.sector) i (ptr l1 i) →
    ∀ j : Fin 128, ptr (blockOf (runEvents w.sector es) (ptr l1 i)) j =
      if 144 + i.val * 128 + j.val < first then ptr (blockOf w.sector (ptr l1 i)) j else 0

theorem L1Freed.outside {first : Nat} {is : List (Fin 128)} {l1 l1' : Sector} {any any' : Bool}
    {bs : List UInt32} {es : List Ev} (h : L1Freed first is w l1 any bs es l1' any') {b : UInt32}
    (away : ∀ i ∈ is, ptr l1 i ≠ 0 → ptr l1 i ≠ b) :
    blockOf (runEvents w.sector es) b = blockOf w.sector b := by
  refine blockOf_runEvents_of_ne _ fun e he hlba => ?_
  obtain ⟨a, sec, rfl, i, hi, hne, hia⟩ := h.targets e he
  have hab : a.val = b.toNat := by simpa [Ev.lba] using hlba
  exact away i hi hne (UInt32.toNat_inj.mp (hia.trans hab))

/-- One iteration of the loop. -/
theorem freeL1Entry_spec (ready : Ready w) (first : Nat) (i : Fin 128) (l1 : Sector) (any : Bool)
    (small : (ptr l1 i).toNat < 16384) :
    ∃ bs es l1' any', L1Freed first [i] w l1 any bs es l1' any' ∧
      freeL1Entry first i w l1 any = ((w.perform (freeList w.catfs bs) es, l1', any'), true) := by
  by_cases hz : ptr l1 i = 0
  · refine ⟨[], [], l1, any, ⟨?_, fun _ _ => rfl, ?_, ?_, trivial, by simp, ?_⟩, ?_⟩
    · simp [hz]
    · simp [hz]
    · simp [hz]
    · simp [hz]
    · unfold freeL1Entry
      rw [if_pos hz, freeList_nil, World.perform_nil]
  · have hbase : directBlocks + ptrsPerBlock + i.val * ptrsPerBlock = 144 + i.val * 128 := rfl
    by_cases hskip : first ≥ 144 + i.val * 128 + 128
    · -- wholly below `first`
      have keep : ∀ block b, L1Kept first block i b := fun _ _ => Or.inl hskip
      refine ⟨[], [], l1, true, ⟨?_, fun _ _ => rfl, ?_, fun b hb => ?_, trivial, by simp, ?_⟩, ?_⟩
      · simp [keep]
      · simp [keep, hz]
      · simp only [List.not_mem_nil, false_iff, List.mem_singleton, exists_eq_left, not_and,
          not_or, not_exists]
        exact fun _ => ⟨fun _ => not_not.mpr (keep _ _), fun j hj => absurd (by omega) hj⟩
      · intro i' hi' _ _ j
        rw [List.mem_singleton.mp hi', if_pos (by omega), runEvents_nil]
      · unfold freeL1Entry
        simp only [hbase]
        rw [if_neg hz, if_pos (show first ≥ 144 + i.val * 128 + ptrsPerBlock from hskip),
          freeList_nil, World.perform_nil]
    · obtain ⟨sec', anyL2, loop, hptr, hany⟩ :=
        freePtrs_spec w.catfs (blockOf w.sector (ptr l1 i)) (first - (144 + i.val * 128))
      let bs := freedPtrs (blockOf w.sector (ptr l1 i)) (first - (144 + i.val * 128))
      have hkept : anyL2 = true ↔ L1Kept first (blockOf w.sector) i (ptr l1 i) := by
        rw [hany]
        constructor
        · rintro ⟨j, hj, hne⟩
          exact Or.inr ⟨j, by omega, hne⟩
        · rintro (h | ⟨j, hj, hne⟩)
          · exact absurd h hskip
          · exact ⟨j, by omega, hne⟩
      have hfreed : ∀ b, b ∈ bs ↔ ∃ j : Fin 128, ¬144 + i.val * 128 + j.val < first ∧
          ptr (blockOf w.sector (ptr l1 i)) j = b := by
        intro b
        rw [mem_freedPtrs]
        constructor
        · rintro ⟨j, hj, hjb⟩
          exact ⟨j, by omega, hjb⟩
        · rintro ⟨j, hj, hjb⟩
          exact ⟨j, by omega, hjb⟩
      have hw' : ({ w with catfs := freeList w.catfs bs } : World) =
          w.perform (freeList w.catfs bs) [] :=
        World.mapCatfs_eq_perform w fun _ => freeList w.catfs bs
      have hstep : freeL1Entry first i w l1 any =
          if anyL2 then ((w.perform (freeList w.catfs bs)
            [.block ⟨(ptr l1 i).toNat, small⟩ sec'], l1, true), true)
          else ((w.perform (freeList w.catfs (bs ++ [ptr l1 i])) [], setPtr l1 i 0, any), true) := by
        have hwrite := (perform_freeList_ready ready bs).writeBlock small sec'
        rw [World.perform_perform (freeList_volume _ _)] at hwrite
        unfold freeL1Entry
        simp only [hbase]
        rw [if_neg hz, if_neg (show ¬first ≥ 144 + i.val * 128 + ptrsPerBlock from hskip)]
        simp only [ready.readBlock small, loop]
        cases anyL2 with
        | true =>
          simp only [if_true]
          rw [hw']
          exact congrArg (fun r => ((r.1, l1, true), r.2)) hwrite
        | false =>
          simp only [Bool.false_eq_true, if_false]
          rw [hw', World.mapCatfs_eq_perform, World.perform_perform (freeList_volume _ _),
            freeList_append]
          simp [hz]
      cases anyL2 with
      | true =>
        have keep := hkept.mp rfl
        refine ⟨bs, [.block ⟨(ptr l1 i).toNat, small⟩ sec'], l1, true,
          ⟨?_, fun _ _ => rfl, ?_, fun b hb => ?_, ⟨⟨_, _, rfl, fun j hj => ?_⟩, trivial⟩,
            fun e he => ?_, ?_⟩, hstep⟩
        · intro i' hi' hn
          rw [List.mem_singleton.mp hi'] at hn
          exact absurd keep hn
        · simp [keep, hz]
        · rw [hfreed b]
          simp only [List.mem_singleton, exists_eq_left, hz, ne_eq, not_false_eq_true, true_and,
            keep, not_true_eq_false, and_false, false_or]
        · rw [hptr j hj]
          by_cases hs : first - (144 + i.val * 128) ≤ j
          · exact Or.inr (if_pos hs)
          · exact Or.inl (if_neg hs)
        · rw [List.mem_singleton.mp he]
          exact ⟨_, _, rfl, i, List.mem_singleton_self i, hz, rfl⟩
        · intro i' hi' _ _ j
          rw [List.mem_singleton.mp hi', runEvents_cons, runEvents_nil, blockOf_apply_block,
            update_self, hptr j j.isLt]
          by_cases hs : 144 + i.val * 128 + j.val < first
          · rw [if_neg (by omega), if_pos hs]
          · rw [if_pos (by omega), if_neg hs]
      | false =>
        have noKeep : ¬L1Kept first (blockOf w.sector) i (ptr l1 i) := by
          rw [← hkept]
          simp
        refine ⟨bs ++ [ptr l1 i], [], setPtr l1 i 0, any, ⟨?_, fun i' hi' => ?_, ?_,
          fun b hb => ?_, trivial, by simp, ?_⟩, hstep⟩
        · intro i' hi' _
          rw [List.mem_singleton.mp hi', ptr_setPtr_self _ _ i.isLt]
        · by_cases hii : i' = i
          · subst hii
            exact absurd (hi' (List.mem_singleton_self i') hz) noKeep
          · exact ptr_setPtr_ne _ _ i'.isLt fun h => hii (Fin.ext h.symm)
        · simp [noKeep]
        · rw [List.mem_append, hfreed b, List.mem_singleton]
          simp only [List.mem_singleton, exists_eq_left, hz, ne_eq, not_false_eq_true, true_and,
            noKeep, and_true]
          exact or_comm
        · intro i' hi' _ hk
          rw [List.mem_singleton.mp hi'] at hk
          exact absurd hk noKeep

/-- The loop, entry by entry. -/
theorem L1Freed.cons {first : Nat} {i : Fin 128} {is : List (Fin 128)} {l1 l1' l1'' : Sector}
    {any any' any'' : Bool} {bs cs : List UInt32} {es fs : List Ev}
    (head : L1Freed first [i] w l1 any bs es l1' any')
    (tail : L1Freed first is (w.perform (freeList w.catfs bs) es) l1' any' cs fs l1'' any'')
    (new : i ∉ is) (distinct : ∀ j ∈ is, ptr l1 i ≠ 0 → ptr l1 i ≠ ptr l1 j) :
    L1Freed first (i :: is) w l1 any (bs ++ cs) (es ++ fs) l1'' any'' := by
  have volume := freeList_volume w.catfs bs
  have hsector := World.sector_perform volume es
  -- the entries still to come are as they were
  have same : ∀ j ∈ is, ptr l1' j = ptr l1 j := by
    intro j hj
    refine head.entries j fun hmem => ?_
    rw [List.mem_singleton.mp hmem] at hj
    exact absurd hj new
  have sameBlock : ∀ j ∈ is, ptr l1 j ≠ 0 →
      blockOf (runEvents w.sector es) (ptr l1 j) = blockOf w.sector (ptr l1 j) := by
    intro j hj _
    refine head.outside fun i' hi' hne => ?_
    rw [List.mem_singleton.mp hi'] at hne ⊢
    exact distinct j hj hne
  have sameKept : ∀ j ∈ is, ptr l1 j ≠ 0 →
      (L1Kept first (blockOf (runEvents w.sector es)) j (ptr l1 j) ↔
        L1Kept first (blockOf w.sector) j (ptr l1 j)) := by
    intro j hj hne
    unfold L1Kept
    rw [sameBlock j hj hne]
  have hi : i ∈ [i] := List.mem_singleton_self i
  obtain ⟨dropped, entries, hany, freed, shrink, targets, inside⟩ := tail
  rw [hsector] at dropped entries hany freed shrink inside
  refine ⟨fun j hj hn => ?_, fun j hj => ?_, ?_, fun b hb => ?_, head.shrink.append shrink,
    fun e he => ?_, fun j hj hne hk => ?_⟩
  · rcases List.mem_cons.mp hj with rfl | hj
    · rw [entries j fun h => absurd h new]
      exact head.dropped j hi hn
    · by_cases hz : ptr l1 j = 0
      · rw [entries j fun _ hne => absurd (by rw [same j hj, hz]) hne, same j hj, hz]
      · refine dropped j hj ?_
        rw [same j hj, sameKept j hj hz]
        exact hn
  · by_cases hji : j = i
    · subst hji
      rw [entries j fun h => absurd h new]
      exact head.entries j fun _ hne => hj List.mem_cons_self hne
    · by_cases hmem : j ∈ is
      · rw [entries j fun _ hne => ?_, same j hmem]
        rw [same j hmem] at hne ⊢
        rw [sameKept j hmem hne]
        exact hj (List.mem_cons_of_mem i hmem) hne
      · rw [entries j fun h => absurd h hmem]
        exact head.entries j fun h => absurd (List.mem_singleton.mp h) hji
  · rw [hany, head.any, or_assoc]
    refine or_congr_right ?_
    simp only [List.mem_cons, exists_eq_or_imp, List.not_mem_nil, or_false, exists_eq_left]
    refine or_congr_right ?_
    constructor
    · rintro ⟨j, hj, hne, hk⟩
      rw [same j hj] at hne hk
      exact ⟨j, hj, hne, (sameKept j hj hne).mp hk⟩
    · rintro ⟨j, hj, hne, hk⟩
      refine ⟨j, hj, ?_⟩
      rw [same j hj]
      exact ⟨hne, (sameKept j hj hne).mpr hk⟩
  · rw [List.mem_append, head.freed b hb, freed b hb]
    simp only [List.mem_cons, exists_eq_or_imp, List.not_mem_nil, or_false, exists_eq_left]
    refine or_congr_right ?_
    constructor
    · rintro ⟨j, hj, hne, rest⟩
      rw [same j hj] at hne rest
      rw [sameKept j hj hne, sameBlock j hj hne] at rest
      exact ⟨j, hj, hne, rest⟩
    · rintro ⟨j, hj, hne, rest⟩
      refine ⟨j, hj, ?_⟩
      rw [same j hj, sameKept j hj hne, sameBlock j hj hne]
      exact ⟨hne, rest⟩
  · rcases List.mem_append.mp he with he | he
    · obtain ⟨b, sec, rfl, j, hj, rest⟩ := head.targets e he
      exact ⟨b, sec, rfl, j, List.mem_cons.mpr (Or.inl (List.mem_singleton.mp hj)), rest⟩
    · obtain ⟨b, sec, rfl, j, hj, rest⟩ := targets e he
      rw [same j hj] at rest
      exact ⟨b, sec, rfl, j, List.mem_cons_of_mem i hj, rest⟩
  · rw [runEvents_append]
    intro k
    rcases List.mem_cons.mp hj with rfl | hj
    · have away : blockOf (runEvents (runEvents w.sector es) fs) (ptr l1 j) =
          blockOf (runEvents w.sector es) (ptr l1 j) := by
        refine blockOf_runEvents_of_ne _ fun e he hlba => ?_
        obtain ⟨a, sec, rfl, m, hm, hmne, hma⟩ := targets e he
        rw [same m hm] at hmne hma
        have hab : a.val = (ptr l1 j).toNat := by simpa [Ev.lba] using hlba
        exact distinct m hm hne (UInt32.toNat_inj.mp (hab.symm.trans hma.symm))
      rw [away]
      exact head.inside j hi hne hk k
    · have := inside j hj
      rw [same j hj, sameKept j hj hne, sameBlock j hj hne] at this
      exact this hne hk k

theorem freeL1From_spec (ready : Ready w) (first : Nat) {is : List (Fin 128)} (nodup : is.Nodup)
    (l1 : Sector) (any : Bool) (small : ∀ i ∈ is, (ptr l1 i).toNat < 16384)
    (distinct : ∀ i ∈ is, ∀ j ∈ is, ptr l1 i ≠ 0 → ptr l1 i = ptr l1 j → i = j) :
    ∃ bs es l1' any', L1Freed first is w l1 any bs es l1' any' ∧
      freeL1From first (is.map Fin.val) w l1 any =
        ((w.perform (freeList w.catfs bs) es, l1', any'), true) := by
  induction is generalizing w l1 any with
  | nil =>
    refine ⟨[], [], l1, any, ⟨by simp, by simp, by simp, by simp, trivial, by simp, by simp⟩, ?_⟩
    rw [List.map_nil, freeL1From, freeList_nil, World.perform_nil]
  | cons i is ih =>
    obtain ⟨new, nodup'⟩ := List.nodup_cons.mp nodup
    obtain ⟨bs, es, l1', any', head, hentry⟩ :=
      freeL1Entry_spec ready first i l1 any (small i List.mem_cons_self)
    have same : ∀ j ∈ is, ptr l1' j = ptr l1 j := by
      intro j hj
      refine head.entries j fun hmem => ?_
      rw [List.mem_singleton.mp hmem] at hj
      exact absurd hj new
    have frame : Frame w.catfs (freeList w.catfs bs) := by
      rw [freeList_eq]
      exact ⟨⟨rfl, rfl⟩, rfl, rfl⟩
    obtain ⟨cs, fs, l1'', any'', tail, hrest⟩ := ih (ready.perform frame es) nodup' l1' any'
      (fun j hj => by rw [same j hj]; exact small j (List.mem_cons_of_mem i hj))
      (fun j hj k hk => by
        rw [same j hj, same k hk]
        exact distinct j (List.mem_cons_of_mem i hj) k (List.mem_cons_of_mem i hk))
    refine ⟨bs ++ cs, es ++ fs, l1'', any'', head.cons tail new fun j hj hne heq => ?_, ?_⟩
    · have := distinct i List.mem_cons_self j (List.mem_cons_of_mem i hj) hne heq
      exact new (this ▸ hj)
    · rw [List.map_cons, freeL1From, hentry]
      simp only
      rw [hrest, World.perform_perform (freeList_volume _ _), World.perform_catfs, freeList_append]

/-- The double-indirect part of `free_blocks_from` on a reliable drive. -/
theorem freeDindirectFrom_eq (ready : Ready w) {first : Nat} {dind : UInt32}
    (hdind : (w.catfs.inodes idx).dindirect = dind) (present : dind ≠ 0)
    (small : dind.toNat < 16384) {bs : List UInt32} {es : List Ev} {l1' : Sector} {any : Bool}
    (loop : freeL1From first ((List.finRange 128).map Fin.val) w (blockOf w.sector dind) false =
      ((w.perform (freeList w.catfs bs) es, l1', any), true)) :
    freeDindirectFrom w idx first =
      (if any then w.perform (freeList w.catfs bs) (es ++ [.block ⟨dind.toNat, small⟩ l1'])
      else w.perform { freeList w.catfs (bs ++ [dind]) with
        inodes := Function.update (freeList w.catfs (bs ++ [dind])).inodes idx
          { w.catfs.inodes idx with dindirect := 0 } } es, true) := by
  have frame : Frame w.catfs (freeList w.catfs bs) := by
    rw [freeList_eq]
    exact ⟨⟨rfl, rfl⟩, rfl, rfl⟩
  have hwrite := (ready.perform frame es).writeBlock small l1'
  rw [World.perform_perform frame.toSameVolume] at hwrite
  have hrange : List.range ptrsPerBlock = (List.finRange 128).map Fin.val :=
    (List.map_coe_finRange_eq_range).symm
  unfold freeDindirectFrom
  simp only [hdind, present, if_false, ready.readBlock small, hrange, loop]
  cases any with
  | true =>
    simp only [if_true]
    exact hwrite
  | false =>
    have hfree : freeList w.catfs (bs ++ [dind]) = bmFree (freeList w.catfs bs) dind := by
      rw [freeList_append]
      simp [present]
    have hinodes : (freeList w.catfs (bs ++ [dind])).inodes = w.catfs.inodes := by
      rw [freeList_eq]
    simp only [Bool.false_eq_true, if_false, World.mapInode, World.mapCatfs_eq_perform]
    rw [World.perform_perform frame.toSameVolume, World.perform_catfs, ← hfree,
      World.perform_perform (freeList_volume _ _), World.perform_catfs, hinodes, List.append_nil,
      List.append_nil]

theorem freeDindirectFrom_drops (idx : Fin 256) (ready : Ready w) (owned : w.Owned) (first : Nat) :
    ∃ w', freeDindirectFrom w idx first = (w', true) ∧
      Drops idx (fun p => p.inDindirect ∧ ¬Kept (fun p => w.slots (idx, p)) first p) w w' := by
  by_cases hb : w.slots (idx, .dindirect) = 0
  · have hfield : (w.catfs.inodes idx).dindirect = 0 := hb
    refine ⟨w, by simp [freeDindirectFrom, hfield], (Drops.none idx w).congr fun p hp => ?_⟩
    simp only [iff_false]
    rintro ⟨hin, -⟩
    cases p with
    | direct i => exact hin
    | indirect => exact hin
    | ind i => exact hin
    | dindirect => exact hp hb
    | l1 i =>
      refine hp ?_
      simp only [World.slots, Catfs.slots, Inode.slot, hfield, child_zero]
    | l2 i j =>
      refine hp ?_
      simp only [World.slots, Catfs.slots, Inode.slot, hfield, child_zero]
  · have small : (w.slots (idx, .dindirect)).toNat < 16384 := owned.lt (idx, .dindirect)
    have entry : ∀ i : Fin 128, ptr (blockOf w.sector (w.slots (idx, .dindirect))) i =
        w.slots (idx, .l1 i) := fun i => (slots_l1 hb i).symm
    have entry2 : ∀ i j : Fin 128, w.slots (idx, .l1 i) ≠ 0 →
        ptr (blockOf w.sector (w.slots (idx, .l1 i))) j = w.slots (idx, .l2 i j) :=
      fun i j hi => (slots_l2 hi j).symm
    obtain ⟨bs, es, l1', any, freed, loop⟩ := freeL1From_spec ready first
      (List.nodup_finRange 128) (blockOf w.sector (w.slots (idx, .dindirect))) false
      (fun i _ => by rw [entry i]; exact owned.lt (idx, .l1 i))
      (fun i _ j _ hne heq => by
        rw [entry] at hne
        rw [entry, entry] at heq
        have := owned.ledger.inj (k := (idx, .l1 i)) (l := (idx, .l1 j)) hne heq
        simpa using this)
    have hfield : (w.catfs.inodes idx).dindirect = w.slots (idx, .dindirect) := rfl
    refine ⟨_, freeDindirectFrom_eq ready hfield hb small loop, ?_⟩
    obtain ⟨dropped, entries, hany, hfreed, shrink, targets, inside⟩ := freed
    simp only [List.mem_finRange, forall_const, entry] at dropped entries inside
    simp only [List.mem_finRange, true_and, entry] at hany hfreed targets
    -- the two ways of saying that an entry is kept
    have kept_iff : ∀ i : Fin 128, w.slots (idx, .l1 i) ≠ 0 →
        (L1Kept first (blockOf w.sector) i (w.slots (idx, .l1 i)) ↔
          Kept (fun p => w.slots (idx, p)) first (.l1 i)) := by
      intro i hi
      simp only [L1Kept, Kept, entry2 i _ hi]
    have hkept : any = true ↔ Kept (fun p => w.slots (idx, p)) first .dindirect := by
      rw [hany]
      simp only [Bool.false_eq_true, false_or]
      constructor
      · rintro ⟨i, hi, hk⟩
        exact ⟨i, hi, (kept_iff i hi).mp hk⟩
      · rintro ⟨i, hi, hk⟩
        exact ⟨i, hi, (kept_iff i hi).mpr hk⟩
    -- the entries of the patched first-level sector
    have hl1 : ∀ i : Fin 128, Kept (fun p => w.slots (idx, p)) first (.l1 i) →
        ptr l1' i = w.slots (idx, .l1 i) := by
      intro i hk
      exact entries i fun hi => (kept_iff i hi).mpr hk
    have hl1' : ∀ i : Fin 128, ¬Kept (fun p => w.slots (idx, p)) first (.l1 i) →
        ptr l1' i = 0 := by
      intro i hk
      by_cases hi : w.slots (idx, .l1 i) = 0
      · rw [entries i fun h => absurd hi h, hi]
      · exact dropped i fun h => hk ((kept_iff i hi).mp h)
    have hmem : ∀ b : UInt32, b ≠ 0 → (b ∈ bs ↔ ∃ p, (p.inDindirect ∧ p ≠ .dindirect ∧
        ¬Kept (fun p => w.slots (idx, p)) first p) ∧ w.slots (idx, p) = b) := by
      intro b hne
      rw [hfreed b hne]
      constructor
      · rintro ⟨i, hi, ⟨rfl, hk⟩ | ⟨j, hj, hjb⟩⟩
        · exact ⟨.l1 i, ⟨trivial, by simp, fun h => hk ((kept_iff i hi).mpr h)⟩, rfl⟩
        · rw [entry2 i j hi] at hjb
          exact ⟨.l2 i j, ⟨trivial, by simp, hj⟩, hjb⟩
      · rintro ⟨p, ⟨hin, hnd, hp⟩, hpb⟩
        cases p with
        | direct i => exact hin.elim
        | indirect => exact hin.elim
        | ind i => exact hin.elim
        | dindirect => exact absurd rfl hnd
        | l1 i =>
          have hi : w.slots (idx, .l1 i) ≠ 0 := hpb ▸ hne
          exact ⟨i, hi, Or.inl ⟨hpb.symm, fun h => hp ((kept_iff i hi).mp h)⟩⟩
        | l2 i j =>
          have hi : w.slots (idx, .l1 i) ≠ 0 := by
            intro hz
            have : child (blockOf w.sector) (w.slots (idx, .l1 i)) j = b := hpb
            rw [hz, child_zero] at this
            exact hne this.symm
          exact ⟨i, hi, Or.inr ⟨j, hp, (entry2 i j hi).trans hpb⟩⟩
    have htargets : ∀ e ∈ es, ∃ b sec, e = Ev.block b sec ∧
        ∃ q, q.isPtr = true ∧ w.slots (idx, q) ≠ 0 ∧ (w.slots (idx, q)).toNat = b.val := by
      intro e he
      obtain ⟨b, sec, rfl, i, hne, hib⟩ := targets e he
      exact ⟨b, sec, rfl, .l1 i, rfl, hne, hib⟩
    -- the loop writes second-level blocks only
    have away : ∀ p, (∀ i, p ≠ .l1 i) → w.slots (idx, p) ≠ 0 →
        blockOf (runEvents w.sector es) (w.slots (idx, p)) = blockOf w.sector (w.slots (idx, p)) := by
      intro p hp hne
      refine blockOf_runEvents_of_ne _ fun e he hlba => ?_
      obtain ⟨a, sec, rfl, i, hi, hia⟩ := targets e he
      have hab : a.val = (w.slots (idx, p)).toNat := by simpa [Ev.lba] using hlba
      have := owned.ledger.inj (k := (idx, .l1 i)) (l := (idx, p)) hi
        (UInt32.toNat_inj.mp (hia.trans hab))
      exact hp i (congrArg Prod.snd this).symm
    have hindirect : ∀ i : Fin 128, child (blockOf (runEvents w.sector es))
        (w.catfs.inodes idx).indirect i = w.slots (idx, .ind i) := by
      intro i
      exact child_congr (fun hne => away .indirect (by simp) hne) i
    -- second-level entries after the loop, for a first-level entry that stays
    have hl2 : ∀ i j : Fin 128, Kept (fun p => w.slots (idx, p)) first (.l1 i) →
        child (blockOf (runEvents w.sector es)) (w.slots (idx, .l1 i)) j =
          if 144 + i.val * 128 + j.val < first then w.slots (idx, .l2 i j) else 0 := by
      intro i j hk
      by_cases hi : w.slots (idx, .l1 i) = 0
      · have hz : w.slots (idx, .l2 i j) = 0 := by
          have : child (blockOf w.sector) (w.slots (idx, .l1 i)) j = w.slots (idx, .l2 i j) := rfl
          rw [hi, child_zero] at this
          exact this.symm
        rw [hi, child_zero, hz]
        simp
      · rw [child_of_ne hi, inside i hi ((kept_iff i hi).mpr hk) j, entry2 i j hi]
    -- nothing below `first` hangs off a first-level entry that goes
    have hgone : ∀ i j : Fin 128, ¬Kept (fun p => w.slots (idx, p)) first (.l1 i) →
        144 + i.val * 128 + j.val < first → w.slots (idx, .l2 i j) = 0 := by
      intro i j hk hlt
      by_contra hne
      exact hk (Or.inr ⟨j, hlt, hne⟩)
    cases any with
    | true =>
      have keep := hkept.mp rfl
      have hblock : ∀ b, b ≠ w.slots (idx, .dindirect) →
          blockOf (runEvents w.sector (es ++ [.block ⟨(w.slots (idx, .dindirect)).toNat, small⟩ l1'])) b =
            blockOf (runEvents w.sector es) b := by
        intro b hne
        rw [runEvents_append, runEvents_cons, runEvents_nil, blockOf_apply_block,
          update_of_ne hne]
      have hdblock :
          blockOf (runEvents w.sector (es ++ [.block ⟨(w.slots (idx, .dindirect)).toNat, small⟩ l1']))
            (w.slots (idx, .dindirect)) = l1' := by
        rw [runEvents_append, runEvents_cons, runEvents_nil, blockOf_apply_block,
          update_self]
      have hfirst : ∀ i : Fin 128, child
          (blockOf (runEvents w.sector (es ++ [.block ⟨(w.slots (idx, .dindirect)).toNat, small⟩ l1'])))
            (w.catfs.inodes idx).dindirect i = ptr l1' i := by
        intro i
        have : child (blockOf (runEvents w.sector
            (es ++ [.block ⟨(w.slots (idx, .dindirect)).toNat, small⟩ l1'])))
              (w.slots (idx, .dindirect)) i = ptr l1' i := by
          rw [child_of_ne hb, hdblock]
        exact this
      have hsecond : ∀ i j : Fin 128, Kept (fun p => w.slots (idx, p)) first (.l1 i) → child
          (blockOf (runEvents w.sector (es ++ [.block ⟨(w.slots (idx, .dindirect)).toNat, small⟩ l1'])))
            (w.slots (idx, .l1 i)) j =
              if 144 + i.val * 128 + j.val < first then w.slots (idx, .l2 i j) else 0 := by
        intro i j hk
        rw [← hl2 i j hk]
        refine child_congr (fun hne => hblock _ ?_) j
        exact owned.alone (k := (idx, .dindirect)) (l := (idx, .l1 i)) hb (by simp)
      simp only [if_true]
      rw [← freeList_inodes_update w.catfs bs idx]
      refine Drops.of_freeList owned _ _ _ rfl (fun b hne => ?_) (shrink.append ⟨⟨_, _, rfl,
        fun j hj => ?_⟩, trivial⟩) (fun e he => ?_) (fun p hp => ?_) fun p hp => ?_
      · rw [hmem b hne]
        constructor
        · rintro ⟨p, ⟨hin, -, hp⟩, hpb⟩
          exact ⟨p, ⟨hin, hp⟩, hpb⟩
        · rintro ⟨p, ⟨hin, hp⟩, hpb⟩
          refine ⟨p, ⟨hin, ?_, hp⟩, hpb⟩
          rintro rfl
          exact hp keep
      · have hsec : runEvents w.sector es (dataLba + (w.slots (idx, .dindirect)).toNat) =
            blockOf w.sector (w.slots (idx, .dindirect)) := away .dindirect (by simp) hb
        rw [hsec]
        have hj' := entry ⟨j, hj⟩
        simp only at hj'
        rw [hj']
        by_cases hk : Kept (fun p => w.slots (idx, p)) first (.l1 ⟨j, hj⟩)
        · exact Or.inl (hl1 ⟨j, hj⟩ hk)
        · exact Or.inr (hl1' ⟨j, hj⟩ hk)
      · rcases List.mem_append.mp he with he | he
        · exact htargets e he
        · rw [List.mem_singleton.mp he]
          exact ⟨_, _, rfl, .dindirect, rfl, hb, rfl⟩
      · cases p with
        | direct i => rfl
        | indirect => rfl
        | ind i =>
          refine (child_congr (fun hne => hblock _ ?_) i).trans (hindirect i)
          exact owned.alone (k := (idx, .dindirect)) (l := (idx, .indirect)) hb (by simp)
        | dindirect => rfl
        | l1 i =>
          have hk : Kept (fun p => w.slots (idx, p)) first (.l1 i) := by
            by_contra hn
            exact hp ⟨trivial, hn⟩
          simp only [Inode.slot, hfirst, hl1 i hk]
        | l2 i j =>
          have hlt : 144 + i.val * 128 + j.val < first := by
            by_contra hn
            exact hp ⟨trivial, hn⟩
          simp only [Inode.slot, hfirst]
          by_cases hk : Kept (fun p => w.slots (idx, p)) first (.l1 i)
          · rw [hl1 i hk, hsecond i j hk, if_pos hlt]
          · rw [hl1' i hk, child_zero, hgone i j hk hlt]
      · obtain ⟨hin, hnot⟩ := hp
        cases p with
        | direct i => exact hin.elim
        | indirect => exact hin.elim
        | ind i => exact hin.elim
        | dindirect => exact absurd keep hnot
        | l1 i => simp only [Inode.slot, hfirst, hl1' i hnot]
        | l2 i j =>
          simp only [Inode.slot, hfirst]
          by_cases hk : Kept (fun p => w.slots (idx, p)) first (.l1 i)
          · have hge : ¬144 + i.val * 128 + j.val < first := hnot
            rw [hl1 i hk, hsecond i j hk, if_neg hge]
          · rw [hl1' i hk, child_zero]
    | false =>
      have noKeep : ¬Kept (fun p => w.slots (idx, p)) first .dindirect := by
        rw [← hkept]
        simp
      have none : ∀ i : Fin 128, ¬(w.slots (idx, .l1 i) ≠ 0 ∧
          Kept (fun p => w.slots (idx, p)) first (.l1 i)) := by
        rintro i ⟨hi, hk⟩
        exact noKeep ⟨i, hi, hk⟩
      simp only [Bool.false_eq_true, if_false]
      refine Drops.of_freeList owned _ _ _ rfl (fun b hne => ?_) shrink htargets
        (fun p hp => ?_) fun p hp => ?_
      · rw [List.mem_append, hmem b hne, List.mem_singleton]
        constructor
        · rintro (⟨p, ⟨hin, -, hp⟩, hpb⟩ | rfl)
          · exact ⟨p, ⟨hin, hp⟩, hpb⟩
          · exact ⟨.dindirect, ⟨trivial, noKeep⟩, rfl⟩
        · rintro ⟨p, ⟨hin, hp⟩, hpb⟩
          by_cases hd : p = .dindirect
          · subst hd
            exact Or.inr hpb.symm
          · exact Or.inl ⟨p, ⟨hin, hd, hp⟩, hpb⟩
      · cases p with
        | direct i => rfl
        | indirect => rfl
        | ind i => exact hindirect i
        | dindirect => exact absurd ⟨trivial, noKeep⟩ hp
        | l1 i =>
          have hk : Kept (fun p => w.slots (idx, p)) first (.l1 i) := by
            by_contra hn
            exact hp ⟨trivial, hn⟩
          have hz : w.slots (idx, .l1 i) = 0 := by
            by_contra hi
            exact none i ⟨hi, hk⟩
          rw [hz]
          rfl
        | l2 i j =>
          have hlt : 144 + i.val * 128 + j.val < first := by
            by_contra hn
            exact hp ⟨trivial, hn⟩
          have hz : w.slots (idx, .l2 i j) = 0 := by
            by_cases hk : Kept (fun p => w.slots (idx, p)) first (.l1 i)
            · have hi : w.slots (idx, .l1 i) = 0 := by
                by_contra hi
                exact none i ⟨hi, hk⟩
              have : child (blockOf w.sector) (w.slots (idx, .l1 i)) j = w.slots (idx, .l2 i j) := rfl
              rw [hi, child_zero] at this
              exact this.symm
            · exact hgone i j hk hlt
          rw [hz]
          rfl
      · obtain ⟨hin, hnot⟩ := hp
        cases p with
        | direct i => exact hin.elim
        | indirect => exact hin.elim
        | ind i => exact hin.elim
        | dindirect => rfl
        | l1 i => rfl
        | l2 i j => rfl

/-- **`free_blocks_from`** drops what `Kept` does not hold on to. -/
theorem freeBlocksFrom_drops (idx : Fin 256) (ready : Ready w) (owned : w.Owned) (first : Nat) :
    ∃ w', freeBlocksFrom w idx first = (w', true) ∧
      Drops idx (fun p => ¬Kept (fun p => w.slots (idx, p)) first p) w w' := by
  have direct := foldl_freeDirect_drops idx owned
    ((List.finRange 16).filter (first ≤ ·.val))
  unfold freeBlocksFrom
  generalize ((List.finRange 16).filter (first ≤ ·.val)).foldl (freeDirect idx) w = w₁ at direct ⊢
  have owned₁ : w₁.Owned := direct.owned owned
  obtain ⟨w₂, hind, indirect⟩ := freeIndirectFrom_drops idx (direct.ready ready) owned₁ first
  have owned₂ := indirect.owned owned₁
  obtain ⟨w₃, hdind, dindirect⟩ := freeDindirectFrom_drops idx
    (indirect.ready (direct.ready ready)) owned₂ first
  -- each part decides on places the parts before it left alone
  have same₁ : ∀ p, (∀ i, p ≠ .direct i) → w₁.slots (idx, p) = w.slots (idx, p) := by
    intro p hp
    refine direct.kept p ?_
    rintro ⟨k, -, rfl⟩
    exact hp k rfl
  have same₂ : ∀ p, p.inDindirect → w₂.slots (idx, p) = w.slots (idx, p) := by
    intro p hp
    rw [indirect.kept p, same₁ p]
    · rintro i rfl
      exact hp
    · rintro ⟨hin, -⟩
      cases p <;> simp [Pos.inIndirect, Pos.inDindirect] at hin hp
  refine ⟨w₃, ?_, ((direct.trans indirect).trans dindirect).congr fun p hne => ?_⟩
  · simp only [hind]
    exact hdind
  · cases p with
    | direct i => simp [Kept, Pos.inIndirect, Pos.inDindirect]
    | indirect =>
      have h1 := fun i => same₁ (.ind i) (by simp)
      simp [Kept, Pos.inIndirect, Pos.inDindirect, h1]
    | ind i => simp [Kept, Pos.inIndirect, Pos.inDindirect]
    | dindirect =>
      have h1 := fun i => same₂ (.l1 i) trivial
      have h2 := fun i j => same₂ (.l2 i j) trivial
      simp [Kept, Pos.inIndirect, Pos.inDindirect, h1, h2]
    | l1 i =>
      have h2 := fun j => same₂ (.l2 i j) trivial
      simp [Kept, Pos.inIndirect, Pos.inDindirect, h2]
    | l2 i j => simp [Kept, Pos.inIndirect, Pos.inDindirect]

end From

end AtmKoala.Catfs
