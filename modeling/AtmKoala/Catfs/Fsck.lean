import AtmKoala.Catfs.Crash

/-!
`catfs_fsck_at`: its two passes, and what it says of a sound volume.

* The bitmap pass compares every bit with the block numbers stored in the live
  inodes themselves (`Names`); it does not look into pointer blocks
  (`fsckBitmap_eq_zero`, `bmTest_fsckBitmap`).
* The orphan pass looks for live inodes without a directory above them
  (`fsckOrphans_eq_zero`).
* `run_fsck`: fsck of a synced volume finds nothing exactly if no live file has
  blocks behind a pointer block and every live inode has a directory above it.
-/

namespace AtmKoala.Catfs

open Lib

/-! ### The bitmap pass -/

section BitmapPass

variable {repair : Bool} {seen : Bitmap} {acc : Nat × Bitmap} {b c : Nat} {bs : List Nat}

theorem fsckBlock_same (same : bmTest acc.2 b = bmTest seen b) :
    fsckBlock repair seen acc b = acc := by
  unfold fsckBlock
  rw [same]
  cases bmTest seen b with
  | true => rfl
  | false => rfl

theorem fsckBlock_differ (differ : bmTest acc.2 b ≠ bmTest seen b) :
    (fsckBlock repair seen acc b).1 = acc.1 + 1 := by
  unfold fsckBlock
  cases marked : bmTest acc.2 b <;> cases actual : bmTest seen b
  · exact absurd (marked.trans actual.symm) differ
  · rfl
  · rfl
  · exact absurd (marked.trans actual.symm) differ

theorem bmTest_fsckBlock (hb : b < 16384) (c : Nat) :
    bmTest (fsckBlock true seen acc b).2 c = if c = b then bmTest seen b else bmTest acc.2 c := by
  by_cases same : bmTest acc.2 b = bmTest seen b
  · rw [fsckBlock_same same]
    split
    · rename_i here
      rw [here, same]
    · rfl
  · unfold fsckBlock
    cases marked : bmTest acc.2 b <;> cases actual : bmTest seen b
    · exact absurd (marked.trans actual.symm) same
    · by_cases here : c = b <;> simp [bmTest_bmSet _ hb, here]
    · by_cases here : c = b <;> simp [bmTest_bmClr, here]
    · exact absurd (marked.trans actual.symm) same

/-- Nothing is counted exactly if nothing differs, and then nothing is changed. -/
theorem foldl_fsckBlock_eq_zero :
    (bs.foldl (fsckBlock repair seen) acc).1 = 0 ↔
      acc.1 = 0 ∧ ∀ b ∈ bs, bmTest acc.2 b = bmTest seen b := by
  induction bs generalizing acc with
  | nil => simp
  | cons b bs ih =>
    rw [List.foldl_cons, ih, List.forall_mem_cons]
    by_cases same : bmTest acc.2 b = bmTest seen b
    · rw [fsckBlock_same same]
      exact and_congr_right fun _ => (and_iff_right same).symm
    · rw [fsckBlock_differ same]
      exact iff_of_false (fun h => Nat.succ_ne_zero _ h.1) fun h => same h.2.1

theorem foldl_fsckBlock_same (same : ∀ b ∈ bs, bmTest acc.2 b = bmTest seen b) :
    bs.foldl (fsckBlock repair seen) acc = acc := by
  induction bs with
  | nil => rfl
  | cons b bs ih =>
    obtain ⟨first, rest⟩ := List.forall_mem_cons.mp same
    rw [List.foldl_cons, fsckBlock_same first, ih rest]

theorem bmTest_foldl_fsckBlock (low : ∀ b ∈ bs, b < 16384) (c : Nat) :
    bmTest (bs.foldl (fsckBlock true seen) acc).2 c =
      if c ∈ bs then bmTest seen c else bmTest acc.2 c := by
  induction bs generalizing acc with
  | nil => simp
  | cons b bs ih =>
    obtain ⟨first, rest⟩ := List.forall_mem_cons.mp low
    rw [List.foldl_cons, ih rest, bmTest_fsckBlock first]
    by_cases later : c ∈ bs
    · rw [if_pos later, if_pos (List.mem_cons_of_mem _ later)]
    · rw [if_neg later]
      by_cases here : c = b
      · subst here
        rw [if_pos rfl, if_pos List.mem_cons_self]
      · rw [if_neg here, if_neg (by simp [here, later])]

theorem mem_fsckRange : b ∈ List.range' 1 (blocksMax - 1) ↔ b ≠ 0 ∧ b < 16384 := by
  rw [List.mem_range'_1]
  show 1 ≤ b ∧ b < 1 + (16384 - 1) ↔ _
  omega

theorem fsckBitmap_eq_zero {bm : Bitmap} :
    (fsckBitmap repair seen bm).1 = 0 ↔
      ∀ b, b ≠ 0 → b < 16384 → bmTest bm b = bmTest seen b := by
  unfold fsckBitmap
  rw [foldl_fsckBlock_eq_zero, and_iff_right rfl]
  exact ⟨fun h b nonzero small => h b (mem_fsckRange.mpr ⟨nonzero, small⟩),
    fun h b mem => h b (mem_fsckRange.mp mem).1 (mem_fsckRange.mp mem).2⟩

/-- Nothing found, nothing changed. -/
theorem fsckBitmap_same {bm : Bitmap} (same : ∀ b, b ≠ 0 → b < 16384 → bmTest bm b = bmTest seen b) :
    fsckBitmap repair seen bm = (0, bm) :=
  foldl_fsckBlock_same fun b mem => same b (mem_fsckRange.mp mem).1 (mem_fsckRange.mp mem).2

/-- After a repair the bitmap is what was seen, apart from block 0. -/
theorem bmTest_fsckBitmap (seen bm : Bitmap) (c : Nat) :
    bmTest (fsckBitmap true seen bm).2 c =
      if c ≠ 0 ∧ c < 16384 then bmTest seen c else bmTest bm c := by
  unfold fsckBitmap
  rw [bmTest_foldl_fsckBlock fun b mem => (mem_fsckRange.mp mem).2, if_congr mem_fsckRange rfl rfl]

end BitmapPass

/-! ### What is seen -/

/-- The inode itself stores the block number `b`. -/
def Names (n : Inode) (b : Nat) : Prop :=
  b ≠ 0 ∧ ((∃ d, (n.blocks d).toNat = b) ∨ n.indirect.toNat = b ∨ n.dindirect.toNat = b)

/-- All block numbers the inode stores are below `CATFS_BLOCKS_MAX`. -/
structure InRange (n : Inode) : Prop where
  blocks : ∀ d, (n.blocks d).toNat < 16384
  indirect : n.indirect.toNat < 16384
  dindirect : n.dindirect.toNat < 16384

theorem bmTest_fsckMark {seen : Bitmap} {v : UInt32} (small : v.toNat < 16384) (b : Nat) :
    bmTest (fsckMark seen v) b = true ↔ bmTest seen b = true ∨ b ≠ 0 ∧ v.toNat = b := by
  unfold fsckMark
  by_cases zero : v = 0
  · rw [if_neg (not_not.mpr zero)]
    refine (or_iff_left ?_).symm
    rintro ⟨nonzero, same⟩
    rw [zero] at same
    exact nonzero same.symm
  · rw [if_pos zero, bmTest_bmSet _ small, Bool.or_eq_true, decide_eq_true_eq]
    refine or_congr_right ⟨?_, fun h => h.2.symm⟩
    rintro rfl
    exact ⟨fun h => zero (UInt32.toNat_inj.mp h), rfl⟩

theorem bmTest_fsckMarkInode {seen : Bitmap} {n : Inode} (range : n.type ≠ typeFree → InRange n)
    (b : Nat) : bmTest (fsckMarkInode seen n) b = true ↔
      bmTest seen b = true ∨ n.type ≠ typeFree ∧ Names n b := by
  have direct : ∀ (ds : List (Fin 16)) (seen : Bitmap), (∀ d, (n.blocks d).toNat < 16384) →
      (bmTest (ds.foldl (fun seen d => fsckMark seen (n.blocks d)) seen) b = true ↔
        bmTest seen b = true ∨ b ≠ 0 ∧ ∃ d ∈ ds, (n.blocks d).toNat = b) := by
    intro ds
    induction ds with
    | nil => simp
    | cons d ds ih =>
      intro seen small
      rw [List.foldl_cons, ih _ small, bmTest_fsckMark (small d), List.exists_mem_cons_iff]
      tauto
  unfold fsckMarkInode
  by_cases free : n.type = typeFree
  · rw [if_pos free]
    exact (or_iff_left fun h => h.1 free).symm
  · have small := range free
    rw [if_neg free, bmTest_fsckMark small.dindirect, bmTest_fsckMark small.indirect,
      direct _ _ small.blocks]
    unfold Names
    simp only [List.mem_finRange, true_and]
    tauto

/-- What fsck sees are the block numbers in the live inodes. -/
theorem bmTest_fsckSeen {inodes : Fin 256 → Inode}
    (range : ∀ i, (inodes i).type ≠ typeFree → InRange (inodes i)) (b : Nat) :
    bmTest (fsckSeen inodes) b = true ↔
      ∃ i, (inodes i).type ≠ typeFree ∧ Names (inodes i) b := by
  have all : ∀ (is : List (Fin 256)) (seen : Bitmap),
      bmTest (is.foldl (fun seen i => fsckMarkInode seen (inodes i)) seen) b = true ↔
        bmTest seen b = true ∨ ∃ i ∈ is, (inodes i).type ≠ typeFree ∧ Names (inodes i) b := by
    intro is
    induction is with
    | nil => simp
    | cons i is ih =>
      intro seen
      rw [List.foldl_cons, ih, bmTest_fsckMarkInode (range i), List.exists_mem_cons_iff, or_assoc]
  unfold fsckSeen
  rw [all, bmTest_zero]
  simp

/-! ### The orphan pass -/

/-- Inode `i` has a directory above it. -/
def HasDirectory (inodes : Fin 256 → Inode) (i : Fin 256) : Prop :=
  ∃ p, inodeIdx (inodes i).parent.toInt = some p ∧ (inodes p).type = typeDir

theorem orphaned_iff {c : State} {i : Fin 256} :
    orphaned c i = true ↔ ¬HasDirectory c.inodes i := by
  unfold orphaned HasDirectory inodeIdx
  dsimp only
  split
  · rename_i out
    refine iff_of_true rfl ?_
    rintro ⟨p, some_, -⟩
    rw [dif_neg (by simp only [inodeMax] at out; omega)] at some_
    cases some_
  · rename_i inside
    rw [dif_pos (by simp only [inodeMax] at inside; omega)]
    simp [bne_iff_ne]

/-- Nothing is counted exactly if every live inode of the list has a directory above
it, and then nothing is changed. -/
theorem foldl_fsckOrphan_eq_zero {repair : Bool} {acc : Nat × State} {is : List (Fin 256)} :
    (is.foldl (fsckOrphan repair) acc).1 = 0 ↔ acc.1 = 0 ∧
      ∀ i ∈ is, (acc.2.inodes i).type ≠ typeFree → HasDirectory acc.2.inodes i := by
  induction is generalizing acc with
  | nil => simp
  | cons i is ih =>
    rw [List.foldl_cons, ih, List.forall_mem_cons]
    by_cases free : (acc.2.inodes i).type = typeFree
    · have same : fsckOrphan repair acc i = acc := if_pos free
      rw [same]
      exact and_congr_right fun _ => (and_iff_right fun live => absurd free live).symm
    · by_cases lost : orphaned acc.2 i = true
      · have counted : (fsckOrphan repair acc i).1 = acc.1 + 1 := by
          unfold fsckOrphan
          rw [if_neg free, if_pos lost]
        rw [counted]
        exact iff_of_false (fun h => Nat.succ_ne_zero _ h.1)
          fun h => orphaned_iff.mp lost (h.2.1 free)
      · have same : fsckOrphan repair acc i = acc := by
          unfold fsckOrphan
          rw [if_neg free, if_neg lost]
        rw [same]
        exact and_congr_right fun _ =>
          (and_iff_right fun _ => not_not.mp fun h => lost (orphaned_iff.mpr h)).symm

theorem foldl_fsckOrphan_same {repair : Bool} {acc : Nat × State} {is : List (Fin 256)}
    (parented : ∀ i ∈ is, (acc.2.inodes i).type ≠ typeFree → HasDirectory acc.2.inodes i) :
    is.foldl (fsckOrphan repair) acc = acc := by
  induction is with
  | nil => rfl
  | cons i is ih =>
    obtain ⟨first, rest⟩ := List.forall_mem_cons.mp parented
    have same : fsckOrphan repair acc i = acc := by
      unfold fsckOrphan
      split
      · rfl
      · rename_i live
        rw [if_neg fun lost => orphaned_iff.mp lost (first live)]
    rw [List.foldl_cons, same, ih rest]

/-- Every live inode but the root has a directory above it. -/
def Parented (c : State) : Prop :=
  ∀ i, i ≠ 0 → (c.inodes i).type ≠ typeFree → HasDirectory c.inodes i

theorem fsckOrphans_eq_zero {repair : Bool} {c : State} :
    (fsckOrphans repair c).1 = 0 ↔ Parented c := by
  unfold fsckOrphans Parented
  rw [foldl_fsckOrphan_eq_zero, and_iff_right rfl]
  simp

theorem fsckOrphans_same {repair : Bool} {c : State} (parented : Parented c) :
    fsckOrphans repair c = (0, c) :=
  foldl_fsckOrphan_same fun i mem => parented i (by simpa using mem)

/-- The pass keeps the volume and its layout. -/
theorem fsckOrphans_frame (repair : Bool) (c : State) : Frame c (fsckOrphans repair c).2 := by
  have one : ∀ (acc : Nat × State) (i : Fin 256), Frame acc.2 (fsckOrphan repair acc i).2 := by
    intro acc i
    unfold fsckOrphan
    split
    · exact Frame.refl _
    split
    · cases repair
      · exact Frame.refl _
      · exact ⟨⟨rfl, rfl⟩, rfl, rfl⟩
    · exact Frame.refl _
  have all : ∀ (is : List (Fin 256)) (acc : Nat × State),
      Frame acc.2 (is.foldl (fsckOrphan repair) acc).2 := by
    intro is
    induction is with
    | nil => exact fun acc => Frame.refl _
    | cons i is ih => exact fun acc => (one acc i).trans (ih _)
  exact all _ (0, c)

/-! ### The mounted image -/

/-- The bitmap marks the block numbers stored in the live inodes, and nothing else. -/
def Agrees (c : State) : Prop :=
  ∀ b, b ≠ 0 → b < 16384 → bmTest c.bitmap b = bmTest (fsckSeen c.inodes) b

/-- Nothing to find, nothing to do. -/
theorem fsckMounted_same {u : World} {repair seenOk : Bool} (agrees : seenOk = true → Agrees u.catfs)
    (parented : Parented u.catfs) (torn : journalCheckTorn u = 0) :
    fsckMounted u repair seenOk = (u, 0) := by
  have bits : (if seenOk then fsckBitmap repair (fsckSeen u.catfs.inodes) u.catfs.bitmap
      else (0, u.catfs.bitmap)) = (0, u.catfs.bitmap) := by
    split
    · rename_i ok
      exact fsckBitmap_same (agrees ok)
    · rfl
  have kept : u.mapCatfs (fun c => { c with bitmap := u.catfs.bitmap }) = u := rfl
  unfold fsckMounted
  rw [bits]
  dsimp only
  rw [kept, fsckOrphans_same parented]
  dsimp only
  rw [torn]
  simp

/-- Nothing reported, nothing there. -/
theorem fsckMounted_eq_zero {u : World} {repair seenOk : Bool}
    (none_ : (fsckMounted u repair seenOk).2 = 0) :
    (seenOk = true → Agrees u.catfs) ∧ Parented u.catfs := by
  unfold fsckMounted at none_
  generalize bits : (if seenOk then fsckBitmap repair (fsckSeen u.catfs.inodes) u.catfs.bitmap
      else (0, u.catfs.bitmap)) = pass at none_
  obtain ⟨n₁, bm⟩ := pass
  dsimp only at none_
  generalize orphans : fsckOrphans repair (u.mapCatfs fun c => { c with bitmap := bm }).catfs = pass at none_
  obtain ⟨n₂, c⟩ := pass
  dsimp only at none_
  generalize journalCheckTorn _ = torn at none_
  have sum : n₁ + n₂ + torn = 0 := by
    by_contra some_
    generalize (if (repair && torn != 0) = true then _ else _) = w at none_
    by_cases synced : (repair && n₁ + n₂ + torn != 0) = true
    · rw [if_pos synced] at none_
      generalize catfsSync w = result at none_
      obtain ⟨w', r⟩ := result
      dsimp only at none_
      split at none_
      · exact Nat.succ_ne_zero _ none_
      · exact some_ none_
    · rw [if_neg synced] at none_
      exact some_ none_
  refine ⟨fun ok => ?_, ?_⟩
  · have none₁ : (fsckBitmap repair (fsckSeen u.catfs.inodes) u.catfs.bitmap).1 = 0 := by
      rw [if_pos ok] at bits
      rw [bits]
      exact (Nat.add_eq_zero_iff.mp (Nat.add_eq_zero_iff.mp sum).1).1
    exact fsckBitmap_eq_zero.mp none₁
  · have none₂ : (fsckOrphans repair (u.mapCatfs fun c => { c with bitmap := bm }).catfs).1 = 0 := by
      rw [orphans]
      exact (Nat.add_eq_zero_iff.mp (Nat.add_eq_zero_iff.mp sum).1).2
    have parented := fsckOrphans_eq_zero.mp none₂
    exact fun i nonzero live => parented i nonzero live

/-! ### fsck of a volume in use -/

/-- Whether the place is in the inode itself. -/
def Pos.inInode : Pos → Bool
  | .direct _ | .indirect | .dindirect => true
  | .ind _ | .l1 _ | .l2 _ _ => false

/-- No live file has blocks behind a pointer block. -/
def Shallow (w : World) : Prop :=
  ∀ i p, (w.catfs.inodes i).type ≠ typeFree → w.slots (i, p) ≠ 0 → p.inInode = true

theorem names_iff {n : Inode} (block : UInt32 → Sector) {b : Nat} :
    Names n b ↔ b ≠ 0 ∧ ∃ p : Pos, p.inInode = true ∧ (n.slot block p).toNat = b := by
  unfold Names
  refine and_congr_right fun _ => ⟨?_, ?_⟩
  · rintro (⟨d, same⟩ | same | same)
    · exact ⟨.direct d, rfl, same⟩
    · exact ⟨.indirect, rfl, same⟩
    · exact ⟨.dindirect, rfl, same⟩
  · rintro ⟨p, inside, same⟩
    cases p with
    | direct d => exact .inl ⟨d, same⟩
    | indirect => exact .inr (.inl same)
    | dindirect => exact .inr (.inr same)
    | ind _ => cases inside
    | l1 _ => cases inside
    | l2 _ _ => cases inside

theorem Owned.inRange {w : World} (owned : w.Owned) (i : Fin 256) : InRange (w.catfs.inodes i) where
  blocks d := owned.lt (i, .direct d)
  indirect := owned.lt (i, .indirect)
  dindirect := owned.lt (i, .dindirect)

/-- A block is marked exactly if it is stored somewhere. -/
theorem Owned.marked_iff {w : World} (owned : w.Owned) {b : Nat} (nonzero : b ≠ 0) :
    bmTest w.catfs.bitmap b = true ↔ ∃ k, (w.slots k).toNat = b := by
  constructor
  · intro marked
    have small := bmTest_lt marked
    have back : (UInt32.ofNat b).toNat = b := by
      rw [UInt32.toNat_ofNat']
      omega
    rw [← back] at marked
    obtain ⟨k, same⟩ := owned.ledger.owned marked fun zero => by
      rw [zero] at back
      exact nonzero back.symm
    exact ⟨k, by rw [← back, ← same]; rfl⟩
  · rintro ⟨k, rfl⟩
    exact owned.ledger.marked_of k

theorem Owned.live {w : World} (owned : w.Owned) {i : Fin 256} {p : Pos}
    (present : w.slots (i, p) ≠ 0) : (w.catfs.inodes i).type ≠ typeFree := by
  intro isFree
  refine present ?_
  exact congrFun (slot_of_zero (owned.free i isFree) _) p

/-- On a volume in use the bitmap pass finds nothing exactly if no file has blocks
behind a pointer block. -/
theorem Owned.agrees_iff {w : World} (owned : w.Owned) : Agrees w.catfs ↔ Shallow w := by
  have seen := fun b => bmTest_fsckSeen (fun i _ => Owned.inRange owned i) b
  constructor
  · intro agrees i p live present
    have nonzero : (w.slots (i, p)).toNat ≠ 0 := fun zero => present (UInt32.toNat_inj.mp zero)
    have named : bmTest (fsckSeen w.catfs.inodes) (w.slots (i, p)).toNat = true := by
      rw [← agrees _ nonzero (owned.lt (i, p))]
      exact owned.ledger.marked_of (i, p)
    obtain ⟨j, -, names⟩ := (seen _).mp named
    obtain ⟨-, q, inside, same⟩ := (names_iff (blockOf w.sector)).mp names
    -- the block is stored only once
    have key := owned.ledger.inj present (UInt32.toNat_inj.mp same.symm : w.slots (i, p) = w.slots (j, q))
    rw [(Prod.mk.inj key).2]
    exact inside
  · intro shallow b nonzero small
    rw [Bool.eq_iff_iff, Owned.marked_iff owned nonzero, seen]
    constructor
    · rintro ⟨⟨i, p⟩, same⟩
      have present : w.slots (i, p) ≠ 0 := by
        intro zero
        rw [zero] at same
        exact nonzero same.symm
      have live := Owned.live owned present
      exact ⟨i, live, (names_iff (blockOf w.sector)).mpr ⟨nonzero, p, shallow i p live present, same⟩⟩
    · rintro ⟨i, -, names⟩
      obtain ⟨-, p, -, same⟩ := (names_iff (blockOf w.sector)).mp names
      exact ⟨(i, p), same⟩

theorem hasDirectory_congr {inodes inodes' : Fin 256 → Inode}
    (same : ∀ i, (inodes' i).timeless = (inodes i).timeless) (i : Fin 256) :
    HasDirectory inodes' i ↔ HasDirectory inodes i := by
  unfold HasDirectory
  rw [field_of_timeless (same i) Inode.parent fun _ => rfl]
  exact exists_congr fun p => and_congr_right fun _ => by rw [type_of_timeless (same p)]

theorem SameFiles.parented {w v : World} (same : SameFiles w v) :
    Parented v.catfs ↔ Parented w.catfs := by
  unfold Parented
  refine forall_congr' fun i => imp_congr_right fun _ => imp_congr ?_ (hasDirectory_congr same.inodes i)
  rw [type_of_timeless (same.inodes i)]

theorem SameFiles.shallow {w v : World} (same : SameFiles w v) (slots : v.slots = w.slots) :
    Shallow v ↔ Shallow w := by
  unfold Shallow
  rw [slots]
  refine forall_congr' fun i => forall_congr' fun p => imp_congr ?_ Iff.rfl
  rw [type_of_timeless (same.inodes i)]

/-- fsck of `v` that ended in `v'` with `r` problems found nothing and wrote the
superblock only, which is what the mount does. -/
structure FsckQuiet (v v' : World) (r : Int) : Prop where
  problems : r = 0
  writes : ∃ sec, v'.issued = v.issued ++ [(v.at_ sbLba, sec)]
  sectors : ∀ n, n ≠ sbLba → v'.sector n = v.sector n
  kept : ∀ i p, (v.catfs.inodes i).type ≠ typeFree → v.slots (i, p) ≠ 0 →
    bmTest (imgBitmap v'.sector) (v.slots (i, p)).toNat = true

/-- fsck of an image that can be mounted. -/
theorem catfsFsckAt_eq {w u : World} {drive : Int} {off : UInt32} (repair seenOk : Bool)
    (mount : catfsMountAt w drive off = (u, 0)) :
    catfsFsckAt w drive off repair seenOk =
      ({ (fsckMounted u repair seenOk).1 with catfs := w.catfs },
        ((fsckMounted u repair seenOk).2 : Int)) := by
  unfold catfsFsckAt
  rw [mount]
  dsimp only
  rw [if_neg (by decide)]

theorem Settled.fsck_iff {v v' : World} {r : Int} {seenOk : Bool} (settled : Settled v)
    (synced : Synced v)
    (fsck : catfsFsckAt v v.catfs.diskDrive v.catfs.partitionOffset true seenOk = (v', r)) :
    FsckQuiet v v' r ↔ (seenOk = true → Shallow v) ∧ Parented v.catfs := by
  obtain ⟨u, mount, -, slots, sound, -, same⟩ := synced.mount settled.sound v.catfs
  obtain ⟨u', mount', torn⟩ := settled.mount_not_torn v.catfs
  obtain rfl : u = u' := (Prod.mk.inj (mount.symm.trans mount')).1
  have event := @catfsMountAt_eq v _ v.catfs.partitionOffset settled.sound.ready.reliable v.sector rfl
    settled.mountable.magic settled.mountable.tableStart settled.mountable.bitmapStart
  have condition : ((seenOk = true → Shallow v) ∧ Parented v.catfs) ↔
      (seenOk = true → Agrees u.catfs) ∧ Parented u.catfs := by
    rw [Owned.agrees_iff sound.owned, same.shallow slots, same.parented]
  obtain ⟨state, count⟩ := Prod.mk.inj ((catfsFsckAt_eq true seenOk mount).symm.trans fsck)
  rw [condition]
  constructor
  · intro quiet
    have zero : ((fsckMounted u true seenOk).2 : Int) = 0 := count.trans quiet.problems
    exact fsckMounted_eq_zero (Int.ofNat_eq_zero.mp zero)
  · rintro ⟨agrees, parented⟩
    rw [fsckMounted_same agrees parented torn] at state count
    have wrote : v' = v.perform v.catfs [.super { imgSuper v.sector with cleanUnmount := 0 }] := by
      rw [← state, (Prod.mk.inj (mount.symm.trans event)).1]
      rfl
    have volume : SameVolume v.catfs v.catfs := ⟨rfl, rfl⟩
    have sectors : ∀ n, n ≠ sbLba → v'.sector n = v.sector n := by
      intro n other
      rw [wrote, World.sector_perform volume]
      refine runEvents_of_forall_ne fun e he => ?_
      rw [List.mem_singleton.mp he]
      exact fun h => other h.symm
    refine ⟨count.symm, ⟨_, by rw [wrote]; rfl⟩, sectors, fun i p _ present => ?_⟩
    rw [imgBitmap_congr fun n low _ => sectors n (by simp only [sbLba]; omega), synced.bitmap]
    exact settled.sound.owned.ledger.held present

/-- `catfs_sync` on a volume in use. -/
theorem Settled.sync {w : World} (settled : Settled w) :
    Settled (catfsSync w).1 ∧ Synced (catfsSync w).1 ∧ (catfsSync w).1.slots = w.slots := by
  have step : Step w .sync (catfsSync w).1 := ⟨_, rfl⟩
  refine ⟨settled.step step, ?_, ?_⟩
  · rw [catfsSync_eq settled.sound.ready]
    exact synced_sync w
  · rw [catfsSync_eq settled.sound.ready]
    exact (owned_sync settled.sound.owned).2

theorem Settled.fsck_synced_iff {w v' : World} {r : Int} {seenOk : Bool} (settled : Settled w)
    (fsck : catfsFsckAt (catfsSync w).1 w.catfs.diskDrive w.catfs.partitionOffset true seenOk =
      (v', r)) :
    FsckQuiet (catfsSync w).1 v' r ↔ (seenOk = true → Shallow w) ∧ Parented w.catfs := by
  obtain ⟨settled', synced, slots⟩ := settled.sync
  have state : (catfsSync w).1.catfs = w.catfs.synced := by
    rw [catfsSync_eq settled.sound.ready]
    rfl
  have here : catfsFsckAt (catfsSync w).1 (catfsSync w).1.catfs.diskDrive
      (catfsSync w).1.catfs.partitionOffset true seenOk = (v', r) := by
    rw [state]
    exact fsck
  rw [settled'.fsck_iff synced here]
  unfold Shallow
  rw [slots, state]
  rfl

/-- A fresh volume with one byte in the seventeenth block of `"/a"`. -/
def largeWorld : World := (catfsWrite createdWorld 1 8192 (fun _ => 0x41) 1 0).1

end AtmKoala.Catfs
