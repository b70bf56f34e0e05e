import AtmKoala.Lib.Ledger
import AtmKoala.Catfs.Events

/-!
Where block numbers are stored.

A file's block numbers sit in its inode (direct, indirect and double-indirect
slots), in its indirect block, in its double-indirect block and in the
second-level blocks. `Pos` names these places, `Inode.slot` reads one of them,
and `slots` reads them all over an inode table and the contents of the blocks.
The same functions read the mounted state (`World.slots`) and a disk image.

* `slots_congr`: the slots depend on the inodes' block fields and on the blocks
  that are pointer blocks, on nothing else.
* `slots_fill_direct` … `slots_fill_l2`: what filling one place does.
* `Owned`: the slots and the bitmap form a ledger, and free inodes hold nothing.
-/

namespace AtmKoala.Catfs

open Lib
open Function (update_of_ne update_self)

/-- A place of an inode that can hold a block number. -/
inductive Pos where
  | direct (i : Fin 16)
  | indirect
  | ind (i : Fin 128)
  | dindirect
  | l1 (i : Fin 128)
  | l2 (i j : Fin 128)
deriving DecidableEq

/-- Whether the block in this place is a pointer block. -/
def Pos.isPtr : Pos → Bool
  | indirect | dindirect | l1 _ => true
  | direct _ | ind _ | l2 _ _ => false

/-- Entry `i` of pointer block `b`, if there is one. -/
def child (block : UInt32 → Sector) (b : UInt32) (i : Fin 128) : UInt32 :=
  if b = 0 then 0 else ptr (block b) i

/-- The block number stored in a place of an inode. -/
def Inode.slot (n : Inode) (block : UInt32 → Sector) : Pos → UInt32
  | .direct i => n.blocks i
  | .indirect => n.indirect
  | .ind i => child block n.indirect i
  | .dindirect => n.dindirect
  | .l1 i => child block n.dindirect i
  | .l2 i j => child block (child block n.dindirect i) j

/-- All places of all inodes. -/
abbrev Key : Type := Fin 256 × Pos

def slots (inodes : Fin 256 → Inode) (block : UInt32 → Sector) : Key → UInt32 := fun k =>
  (inodes k.1).slot block k.2

/-- Two inodes with the same block fields. -/
structure SameBlocks (n n' : Inode) : Prop where
  blocks : n'.blocks = n.blocks
  indirect : n'.indirect = n.indirect
  dindirect : n'.dindirect = n.dindirect

theorem SameBlocks.trans {a b c : Inode} (h : SameBlocks a b) (k : SameBlocks b c) :
    SameBlocks a c :=
  ⟨k.blocks.trans h.blocks, k.indirect.trans h.indirect, k.dindirect.trans h.dindirect⟩

@[simp] theorem child_zero (block : UInt32 → Sector) (i : Fin 128) : child block 0 i = 0 := rfl

theorem child_of_ne {block : UInt32 → Sector} {b : UInt32} (hb : b ≠ 0) (i : Fin 128) :
    child block b i = ptr (block b) i := if_neg hb

theorem child_congr {block block' : UInt32 → Sector} {b : UInt32}
    (agree : b ≠ 0 → block' b = block b) (i : Fin 128) : child block' b i = child block b i := by
  unfold child
  by_cases hb : b = 0
  · simp [hb]
  · simp [hb, agree hb]

theorem slot_congr {n n' : Inode} {block block' : UInt32 → Sector} (same : SameBlocks n n')
    (agree : ∀ p, p.isPtr = true → n.slot block p ≠ 0 →
      block' (n.slot block p) = block (n.slot block p)) : n'.slot block' = n.slot block := by
  have first : ∀ i, n'.slot block' (.l1 i) = n.slot block (.l1 i) := by
    intro i
    simp only [Inode.slot, same.dindirect]
    exact child_congr (agree .dindirect rfl) i
  funext p
  cases p with
  | direct i => simp only [Inode.slot, same.blocks]
  | indirect => exact same.indirect
  | dindirect => exact same.dindirect
  | ind i =>
    simp only [Inode.slot, same.indirect]
    exact child_congr (agree .indirect rfl) i
  | l1 i => exact first i
  | l2 i j =>
    have step := child_congr (agree (.l1 i) rfl) j
    simp only [Inode.slot] at first step ⊢
    rw [first, step]

/-- The slots see the block fields and the pointer blocks only. -/
theorem slots_congr {inodes inodes' : Fin 256 → Inode} {block block' : UInt32 → Sector}
    (same : ∀ i, SameBlocks (inodes i) (inodes' i))
    (agree : ∀ k : Key, k.2.isPtr = true → slots inodes block k ≠ 0 →
      block' (slots inodes block k) = block (slots inodes block k)) :
    slots inodes' block' = slots inodes block := by
  funext ⟨i, p⟩
  exact congrFun (slot_congr (same i) fun q hq hne => agree (i, q) hq hne) p

/-- If pointer blocks only lose entries, places only lose their block numbers. -/
theorem slots_shrunk {inodes inodes' : Fin 256 → Inode} {block block' : UInt32 → Sector}
    (same : ∀ i, SameBlocks (inodes i) (inodes' i))
    (shrunk : ∀ k : Key, k.2.isPtr = true → slots inodes block k ≠ 0 → ∀ j : Fin 128,
      ptr (block' (slots inodes block k)) j = ptr (block (slots inodes block k)) j ∨
      ptr (block' (slots inodes block k)) j = 0) (k : Key) :
    slots inodes' block' k = slots inodes block k ∨ slots inodes' block' k = 0 := by
  have one : ∀ {b : UInt32} (k : Key), k.2.isPtr = true → slots inodes block k = b →
      ∀ j, child block' b j = child block b j ∨ child block' b j = 0 := by
    rintro b k hk rfl j
    by_cases hb : slots inodes block k = 0
    · rw [hb]
      exact Or.inl rfl
    · rw [child_of_ne hb, child_of_ne hb]
      exact shrunk k hk hb j
  obtain ⟨i, p⟩ := k
  simp only [slots]
  cases p with
  | direct a => exact Or.inl (congrFun (same i).blocks a)
  | indirect => exact Or.inl (same i).indirect
  | dindirect => exact Or.inl (same i).dindirect
  | ind a =>
    simp only [Inode.slot, (same i).indirect]
    exact one (i, .indirect) rfl rfl a
  | l1 a =>
    simp only [Inode.slot, (same i).dindirect]
    exact one (i, .dindirect) rfl rfl a
  | l2 a b =>
    simp only [Inode.slot, (same i).dindirect]
    rcases one (b := (inodes i).dindirect) (i, .dindirect) rfl rfl a with kept | gone
    · rw [kept]
      exact one (i, .l1 a) rfl rfl b
    · rw [gone]
      exact Or.inr rfl

/-! ### Filling one place of one inode -/

section Fill

variable {n : Inode} {block : UInt32 → Sector} {nb : UInt32}

theorem slot_fill_direct (k : Fin 16) :
    ({ n with blocks := Function.update n.blocks k nb } : Inode).slot block =
      Function.update (n.slot block) (.direct k) nb := by
  funext p
  cases p with
  | direct i =>
    by_cases hik : i = k
    · subst hik
      simp [Inode.slot]
    · simp [Inode.slot, hik]
  | indirect => rfl
  | ind i => rfl
  | dindirect => rfl
  | l1 i => rfl
  | l2 i j => rfl

theorem child_fresh (hb : nb ≠ 0) (i : Fin 128) :
    child (Function.update block nb (Block.zero 512)) nb i = 0 := by
  simp [child, hb]

theorem child_away {b : UInt32} (away : b ≠ nb) (sec : Sector) (i : Fin 128) :
    child (Function.update block nb sec) b i = child block b i :=
  child_congr (fun _ => update_of_ne away _ _) i

theorem slot_fill_indirect (empty : n.indirect = 0) (hnb : nb ≠ 0)
    (away : ∀ p, n.slot block p ≠ nb) :
    ({ n with indirect := nb } : Inode).slot (Function.update block nb (Block.zero 512)) =
      Function.update (n.slot block) .indirect nb := by
  have hd : n.dindirect ≠ nb := away .dindirect
  have h1 : ∀ i, child block n.dindirect i ≠ nb := fun i => away (.l1 i)
  funext p
  cases p with
  | direct i => rfl
  | indirect => simp [Inode.slot]
  | ind i => simp [Inode.slot, child_fresh hnb, empty]
  | dindirect => rfl
  | l1 i => simp [Inode.slot, child_away hd]
  | l2 i j => simp [Inode.slot, child_away hd, child_away (h1 i)]

theorem slot_fill_dindirect (empty : n.dindirect = 0) (hnb : nb ≠ 0)
    (away : ∀ p, n.slot block p ≠ nb) :
    ({ n with dindirect := nb } : Inode).slot (Function.update block nb (Block.zero 512)) =
      Function.update (n.slot block) .dindirect nb := by
  have hi : n.indirect ≠ nb := away .indirect
  funext p
  cases p with
  | direct i => rfl
  | indirect => rfl
  | ind i => simp [Inode.slot, child_away hi]
  | dindirect => simp [Inode.slot]
  | l1 i => simp [Inode.slot, child_fresh hnb, empty]
  | l2 i j => simp [Inode.slot, child_fresh hnb, empty]

/-- Entering a number into pointer block `b` fills one child of `b`. -/
theorem child_setPtr {b : UInt32} (hb : b ≠ 0) (k i : Fin 128) :
    child (Function.update block b (setPtr (block b) k nb)) b i =
      if i = k then nb else child block b i := by
  rw [child_of_ne hb, child_of_ne hb, update_self]
  by_cases hik : i = k
  · subst hik
    rw [if_pos rfl, ptr_setPtr_self _ _ i.isLt]
  · rw [if_neg hik, ptr_setPtr_ne _ _ i.isLt fun h => hik (Fin.ext h.symm)]

theorem slot_fill_ind (k : Fin 128) (present : n.indirect ≠ 0)
    (alone : ∀ p, p.isPtr = true → p ≠ .indirect → n.slot block p ≠ n.indirect) :
    n.slot (Function.update block n.indirect (setPtr (block n.indirect) k nb)) =
      Function.update (n.slot block) (.ind k) nb := by
  have hd : n.dindirect ≠ n.indirect := alone .dindirect rfl (by simp)
  have h1 : ∀ i, child block n.dindirect i ≠ n.indirect := fun i => alone (.l1 i) rfl (by simp)
  funext p
  cases p with
  | direct i => rfl
  | indirect => rfl
  | ind i =>
    simp only [Inode.slot, child_setPtr present]
    by_cases hik : i = k
    · simp [hik]
    · simp [hik, Inode.slot]
  | dindirect => rfl
  | l1 i => simp [Inode.slot, child_away hd]
  | l2 i j => simp [Inode.slot, child_away hd, child_away (h1 i)]

theorem slot_fill_l1 (k : Fin 128) (present : n.dindirect ≠ 0) (hnb : nb ≠ 0)
    (empty : n.slot block (.l1 k) = 0) (away : ∀ p, n.slot block p ≠ nb)
    (alone : ∀ p, p.isPtr = true → p ≠ .dindirect → n.slot block p ≠ n.dindirect) :
    n.slot (Function.update (Function.update block n.dindirect (setPtr (block n.dindirect) k nb))
        nb (Block.zero 512)) =
      Function.update (n.slot block) (.l1 k) nb := by
  let block₁ := Function.update block n.dindirect (setPtr (block n.dindirect) k nb)
  have h0 : ∀ i, child (Function.update block₁ nb (Block.zero 512)) n.dindirect i =
      if i = k then nb else child block n.dindirect i := by
    intro i
    have hd : n.dindirect ≠ nb := away .dindirect
    rw [child_away hd, child_setPtr present]
  have h1 : ∀ i, child (Function.update block₁ nb (Block.zero 512)) n.indirect i =
      child block n.indirect i := by
    intro i
    have hi : n.indirect ≠ nb := away .indirect
    have hid : n.indirect ≠ n.dindirect := alone .indirect rfl (by simp)
    rw [child_away hi, child_away hid]
  funext p
  cases p with
  | direct i => rfl
  | indirect => rfl
  | ind i => simp [Inode.slot, h1, block₁]
  | dindirect => rfl
  | l1 i =>
    simp only [Inode.slot, h0, block₁]
    by_cases hik : i = k
    · simp [hik]
    · simp [hik, Inode.slot]
  | l2 i j =>
    simp only [Inode.slot, h0, block₁]
    by_cases hik : i = k
    · subst hik
      simp only [Inode.slot] at empty
      simp [child_fresh hnb, Inode.slot, empty]
    · have hi : child block n.dindirect i ≠ nb := away (.l1 i)
      have hid : child block n.dindirect i ≠ n.dindirect := alone (.l1 i) rfl (by simp)
      simp [hik, Inode.slot, child_away hi, child_away hid]

theorem slot_fill_l2 (i k : Fin 128) {b : UInt32} (entry : n.slot block (.l1 i) = b)
    (present : b ≠ 0) (alone : ∀ p, p.isPtr = true → p ≠ .l1 i → n.slot block p ≠ b) :
    n.slot (Function.update block b (setPtr (block b) k nb)) =
      Function.update (n.slot block) (.l2 i k) nb := by
  have hi : n.indirect ≠ b := alone .indirect rfl (by simp)
  have hd : n.dindirect ≠ b := alone .dindirect rfl (by simp)
  have hentry : child block n.dindirect i = b := entry
  funext p
  cases p with
  | direct i => rfl
  | indirect => rfl
  | ind j => simp [Inode.slot, child_away hi]
  | dindirect => rfl
  | l1 j => simp [Inode.slot, child_away hd]
  | l2 a j =>
    by_cases ha : a = i
    · subst ha
      simp only [Inode.slot, child_away hd, hentry, child_setPtr present]
      by_cases hjk : j = k
      · simp [hjk]
      · simp [hjk, Inode.slot, hentry]
    · have hne : child block n.dindirect a ≠ b := alone (.l1 a) rfl (by simp [ha])
      simp [ha, Inode.slot, child_away hd, child_away hne]

end Fill

/-! ### Changes of one inode's blocks -/

/-- `c'` is `c` up to the bitmap, the free count and the block fields of inode
`idx`: what allocating and freeing blocks of one file can change. -/
structure BlocksOnly (idx : Fin 256) (c c' : State) : Prop where
  drive : c'.diskDrive = c.diskDrive
  offset : c'.partitionOffset = c.partitionOffset
  mounted : c'.mounted = c.mounted
  jh : c'.jh = c.jh
  nextSeq : c'.nextSeq = c.nextSeq
  sb : c'.sb = { c.sb with freeBlocks := c'.sb.freeBlocks }
  others : ∀ j, j ≠ idx → c'.inodes j = c.inodes j
  self : c'.inodes idx = { c.inodes idx with
    blocks := (c'.inodes idx).blocks
    indirect := (c'.inodes idx).indirect
    dindirect := (c'.inodes idx).dindirect }

namespace BlocksOnly

variable {idx : Fin 256} {a b c : State}

theorem refl (idx : Fin 256) (c : State) : BlocksOnly idx c c :=
  ⟨rfl, rfl, rfl, rfl, rfl, rfl, fun _ _ => rfl, rfl⟩

theorem trans (h : BlocksOnly idx a b) (k : BlocksOnly idx b c) : BlocksOnly idx a c where
  drive := k.drive.trans h.drive
  offset := k.offset.trans h.offset
  mounted := k.mounted.trans h.mounted
  jh := k.jh.trans h.jh
  nextSeq := k.nextSeq.trans h.nextSeq
  sb := by rw [k.sb, h.sb]
  others := fun j hj => (k.others j hj).trans (h.others j hj)
  self := by rw [k.self, h.self]

theorem sameVolume (h : BlocksOnly idx a b) : SameVolume a b := ⟨h.drive, h.offset⟩

theorem frame (h : BlocksOnly idx a b) : Frame a b where
  drive := h.drive
  offset := h.offset
  mounted := h.mounted
  sb := by rw [h.sb]

theorem type_eq (h : BlocksOnly idx a b) (j : Fin 256) : (b.inodes j).type = (a.inodes j).type := by
  by_cases hj : j = idx
  · subst hj
    rw [h.self]
  · rw [h.others j hj]

theorem size_eq (h : BlocksOnly idx a b) (j : Fin 256) : (b.inodes j).size = (a.inodes j).size := by
  by_cases hj : j = idx
  · subst hj
    rw [h.self]
  · rw [h.others j hj]

end BlocksOnly

/-! ### Ownership -/

/-- **Block ownership.** The block numbers stored anywhere and the bitmap form a
ledger with block 0 reserved, and free inodes hold no block. -/
structure Owned (inodes : Fin 256 → Inode) (bm : Bitmap) (block : UInt32 → Sector) : Prop where
  ledger : Ledger 0 (slots inodes block) fun b => bmTest bm b.toNat = true
  free : ∀ i, (inodes i).type = typeFree → SameBlocks Inode.zero (inodes i)

namespace Owned

variable {inodes : Fin 256 → Inode} {bm : Bitmap} {block : UInt32 → Sector}

theorem lt (h : Owned inodes bm block) (k : Key) : (slots inodes block k).toNat < 16384 :=
  bmTest_lt (h.ledger.marked_of k)

/-- A block number is stored in one place only. -/
theorem alone (h : Owned inodes bm block) {k l : Key} (present : Catfs.slots inodes block k ≠ 0)
    (ne : l ≠ k) : Catfs.slots inodes block l ≠ Catfs.slots inodes block k := by
  intro same
  exact ne (h.ledger.inj present same.symm).symm

end Owned

theorem slots_update {inodes : Fin 256 → Inode} {block block' : UInt32 → Sector} {idx : Fin 256}
    {n' : Inode} {p : Pos} {v : UInt32}
    (others : ∀ j, j ≠ idx → (inodes j).slot block' = (inodes j).slot block)
    (self : n'.slot block' = Function.update ((inodes idx).slot block) p v) :
    Catfs.slots (Function.update inodes idx n') block' =
      Function.update (Catfs.slots inodes block) (idx, p) v := by
  funext ⟨j, q⟩
  unfold Catfs.slots
  by_cases hj : j = idx
  · subst hj
    rw [update_self, self]
    by_cases hq : q = p
    · subst hq
      simp
    · rw [update_of_ne hq, update_of_ne (by simp [hq])]
  · rw [update_of_ne hj, others j hj, update_of_ne (by simp [hj])]

theorem slot_of_zero {n : Inode} (zero : SameBlocks Inode.zero n) (block : UInt32 → Sector) :
    n.slot block = fun _ => 0 := by
  have hd : n.dindirect = 0 := zero.dindirect
  have hi : n.indirect = 0 := zero.indirect
  funext p
  cases p <;> simp [Inode.slot, zero.blocks, hd, hi, Inode.zero]

/-- The slots of the mounted file system. -/
def World.slots (w : World) : Key → UInt32 := Catfs.slots w.catfs.inodes (blockOf w.sector)

def World.Owned (w : World) : Prop :=
  Catfs.Owned w.catfs.inodes w.catfs.bitmap (blockOf w.sector)

theorem blockOf_apply_block (σ : Store) {b : UInt32} (hb : b.toNat < 16384) (sec : Sector) :
    blockOf (Ev.apply σ (.block ⟨b.toNat, hb⟩ sec)) = Function.update (blockOf σ) b sec := by
  funext a
  unfold blockOf Ev.apply
  simp only [Ev.lba, Ev.content]
  by_cases hab : a = b
  · subst hab
    simp
  · have hne : dataLba + a.toNat ≠ dataLba + b.toNat := by
      intro h
      exact hab (UInt32.toNat_inj.mp (by omega))
    rw [update_of_ne hne, update_of_ne hab]

/-- Metadata writes leave the data area alone. -/
theorem blockOf_apply_of_lt (σ : Store) {e : Ev} (he : e.lba < 100) :
    blockOf (e.apply σ) = blockOf σ := by
  funext a
  unfold blockOf Ev.apply
  exact update_of_ne (by simp; omega) _ _

theorem blockOf_runEvents_of_lt (σ : Store) {es : List Ev} (h : ∀ e ∈ es, e.lba < 100) :
    blockOf (runEvents σ es) = blockOf σ := by
  induction es generalizing σ with
  | nil => rfl
  | cons e es ih =>
    rw [runEvents_cons, ih _ fun f hf => h f (List.mem_cons_of_mem _ hf)]
    exact blockOf_apply_of_lt σ (h e List.mem_cons_self)

/-- A block no event writes keeps its contents. -/
theorem blockOf_runEvents_of_ne (σ : Store) {es : List Ev} {b : UInt32}
    (h : ∀ e ∈ es, e.lba ≠ 100 + b.toNat) : blockOf (runEvents σ es) b = blockOf σ b :=
  runEvents_of_forall_ne h

end AtmKoala.Catfs
