import AtmKoala.Catfs.Steps

/-!
The volume as `catfs_mount_at` decodes it.

`imgSuper`, `imgHeader`, `imgInodes` and `imgBitmap` read the metadata regions
of a volume. The lemmas of the first part say what every kind of write does to
each of them. Most regions are disjoint, with one exception that comes from the
layout constants: the journal ring has 204 slots but its eight sectors hold 200
records, so slots 200 to 203 lie in the first inode-table sector, over the first
80 bytes of inode 0 (`imgInodes_record`).

`catfsMountAt_eq` is `catfs_mount_at`: the mounted state is the image, and the
only write is the superblock with its clean flag cleared.
-/

namespace AtmKoala.Catfs

open Lib
open Function (update_of_ne update_self)

/-! ### Metadata of a volume -/

def imgSuper (σ : Store) : Super := Super.decode (σ sbLba).byteAt

def imgHeader (σ : Store) : JournalHdr := JournalHdr.decode (σ journalHdrLba).byteAt

def imgInodes (σ : Store) (i : Fin 256) : Inode :=
  inodeIn (σ (inodeTableLba + i.val / inodesPerSector)) (i.val % inodesPerSector)

def imgBitmap (σ : Store) : Bitmap := fun k => (σ (bitmapLba + k.val / 512)).byteAt (k.val % 512)

section Apply

variable {σ : Store}

theorem apply_of_ne {e : Ev} {n : Nat} (h : e.lba ≠ n) : e.apply σ n = σ n :=
  update_of_ne (Ne.symm h) _ _

theorem imgSuper_super (sb : Super) : imgSuper (Ev.apply σ (.super sb)) = sb := by
  refine Super.decode_encode fun k hk => ?_
  simp only [Ev.apply, Ev.lba, Ev.content, update_self]
  rw [Block.byteAt_blit _ _ _ _ _ hk, if_pos (by omega), Nat.sub_zero]

theorem imgHeader_header (jh : JournalHdr) : imgHeader (Ev.apply σ (.header jh)) = jh := by
  refine JournalHdr.decode_encode fun k hk => ?_
  simp only [Ev.apply, Ev.lba, Ev.content, update_self]
  rw [Block.byteAt_blit _ _ _ _ _ hk, if_pos (by omega), Nat.sub_zero]

theorem imgInodes_inode (i j : Fin 256) (n : Inode) :
    imgInodes (Ev.apply σ (.inode i n)) j = if j = i then n else imgInodes σ j := by
  unfold imgInodes
  simp only [Ev.apply, Ev.lba, Ev.content, inodeTableLba_eq, inodesPerSector_eq]
  by_cases hsec : j.val / 3 = i.val / 3
  · rw [hsec, update_self]
    by_cases hji : j = i
    · rw [if_pos hji, hji, inodeIn_putInode_self _ _ (by omega)]
    · have : i.val ≠ j.val := fun h => hji (Fin.ext h.symm)
      rw [if_neg hji, inodeIn_putInode_ne _ _ (by omega) (by omega)]
  · have hji : j ≠ i := fun h => hsec (by rw [h])
    rw [if_neg hji, update_of_ne (by omega)]

theorem imgInodes_table (s : Fin 86) (inodes : Fin 256 → Inode) (j : Fin 256) :
    imgInodes (Ev.apply σ (.table s inodes)) j =
      if j.val / 3 = s.val then inodes j else imgInodes σ j := by
  unfold imgInodes
  simp only [Ev.apply, Ev.lba, Ev.content, inodeTableLba_eq, inodesPerSector_eq]
  by_cases hsec : j.val / 3 = s.val
  · rw [if_pos hsec, hsec, update_self]
    refine Inode.decode_encode fun k hk => ?_
    have inside : j.val % 3 < inodesInSector s.val := by
      have hcount : inodesInSector s.val = if (s.val + 1) * 3 > 256 then 256 - s.val * 3 else 3 :=
        rfl
      rw [hcount]
      split <;> omega
    have hindex : s.val * 3 + (j.val % 3 * 151 + k) / 151 = j.val := by omega
    have hbyte : (j.val % 3 * 151 + k) % 151 = k := by omega
    have hpos : j.val % 3 * 151 + k < inodesInSector s.val * 151 := by omega
    simp only [inodeSectorOf, inodeSize, inodesPerSector_eq]
    rw [Block.byteAt_blit _ _ _ _ _ (by omega), if_pos (by omega), Nat.sub_zero, hbyte]
    simp only [hindex, j.isLt, dif_pos]
  · rw [if_neg hsec, update_of_ne (by omega)]

theorem imgBitmap_bitmap (s : Fin 4) (bm : Bitmap) (k : Fin 2048) :
    imgBitmap (Ev.apply σ (.bitmap s bm)) k =
      if k.val / 512 = s.val then bm k else imgBitmap σ k := by
  unfold imgBitmap
  simp only [Ev.apply, Ev.lba, Ev.content, bitmapLba_eq]
  by_cases hsec : k.val / 512 = s.val
  · have hindex : s.val * 512 + k.val % 512 = k.val := by omega
    have hsize : min (2048 - s.val * 512) 512 = 512 := by omega
    rw [if_pos hsec, hsec, update_self]
    simp only [bitmapSectorOf, bitmapBytes_eq, hsize]
    rw [Block.byteAt_blit _ _ _ _ _ (by omega), if_pos (by omega), Nat.sub_zero]
    simp only [hindex, k.isLt, dif_pos]
  · rw [if_neg hsec, update_of_ne (by omega)]

/-- A record in one of the last four slots of the ring lands on inode 0. -/
theorem imgInodes_record (slot : Fin 204) (r : JournalRec) (j : Fin 256)
    (apart : slot.val < 200 ∨ j ≠ 0) :
    imgInodes (Ev.apply σ (.record slot r)) j = imgInodes σ j := by
  unfold imgInodes
  by_cases low : slot.val < 200
  · rw [apply_of_ne]
    simp only [Ev.lba, recsPerSector_eq, inodeTableLba_eq, inodesPerSector_eq]
    show 2 + _ ≠ _
    omega
  · have hj : j ≠ 0 := apart.resolve_left low
    have hj' : j.val ≠ 0 := fun h => hj (Fin.ext h)
    refine Inode.decode_congr fun k hk => ?_
    simp only [Ev.apply, Ev.lba, Ev.content, recsPerSector_eq, inodeTableLba_eq,
      inodesPerSector_eq, inodeSize, recSize]
    by_cases hsec : j.val / 3 = 0
    · have hlba : 10 + j.val / 3 = journalLogLba + slot.val / 25 := by
        show _ = 2 + _
        omega
      rw [hlba, update_self, Block.byteAt_blit _ _ _ _ _ (by omega), if_neg (by omega)]
    · rw [update_of_ne]
      show _ ≠ 2 + _
      omega

/-- Slot 200 starts where inode 0 starts. -/
theorem imgInodes_record_root {slot : Fin 204} (first : slot.val = 200) (r : JournalRec) :
    (imgInodes (Ev.apply σ (.record slot r)) 0).name 0 = r.type := by
  have here : (Ev.record slot r).lba = 10 := by
    simp only [Ev.lba, recsPerSector_eq, first]
    rfl
  have content : Ev.apply σ (.record slot r) 10 = (Ev.record slot r).content σ := by
    unfold Ev.apply
    rw [← here, update_self]
  show (Ev.apply σ (.record slot r) 10).byteAt 0 = r.type
  rw [content]
  simp only [Ev.content, recsPerSector_eq, recSize, first]
  rw [Block.byteAt_blit _ _ _ _ _ (by omega), if_pos (by omega)]
  rfl

/-- A record in one of the last four slots leaves the block fields of inode 0
alone, except that slot 203 puts the top byte of the sequence number into the low
byte of its first block number. -/
theorem imgInodes_record_blocks (slot : Fin 204) (r : JournalRec) (j : Fin 256)
    (tame : slot.val ≠ 203 ∨ r.seq.toNat < 16777216 ∧ (imgInodes σ 0).blocks 0 = 0) :
    SameBlocks (imgInodes σ j) (imgInodes (Ev.apply σ (.record slot r)) j) := by
  by_cases apart : slot.val < 200 ∨ j ≠ 0
  · rw [imgInodes_record slot r j apart]
    exact ⟨rfl, rfl, rfl⟩
  · obtain ⟨high, rfl⟩ : 200 ≤ slot.val ∧ j = 0 := by
      rw [not_or, not_not] at apart
      exact ⟨by omega, apart.2⟩
    have bytes : ∀ k, 79 ≤ k → k < 151 →
        (Ev.apply σ (.record slot r) 10).byteAt k = (σ 10).byteAt k := by
      intro k lo hi
      have here : (Ev.record slot r).lba = 10 := by
        simp only [Ev.lba, recsPerSector_eq]
        show 2 + _ = 10
        omega
      have content : Ev.apply σ (.record slot r) 10 =
          (σ 10).blit (slot.val % 25 * 20) r.encode 20 := by
        unfold Ev.apply
        rw [← here, update_self]
        rfl
      rw [content, Block.byteAt_blit _ _ _ _ _ (by omega)]
      by_cases covered : slot.val % 25 * 20 ≤ k ∧ k < slot.val % 25 * 20 + 20
      · obtain ⟨small, zero⟩ := tame.resolve_left (by omega)
        obtain rfl : k = 79 := by omega
        have old : (σ 10).byteAt 79 = 0 := by
          have word : u32At (σ 10).byteAt 79 = 0 := by
            have : (imgInodes σ 0).blocks 0 = u32At (fun k => (σ 10).byteAt (0 * 151 + k)) 79 := rfl
            rw [this] at zero
            simpa using zero
          have := u32Byte_u32At (σ 10).byteAt 79 0 (by decide)
          rw [word] at this
          exact this.symm
        have new : r.encode 19 = 0 := by
          show u32Byte r.seq 3 = 0
          unfold u32Byte
          rw [Nat.div_eq_of_lt (by omega)]
          rfl
        rw [if_pos covered, old, show 79 - slot.val % 25 * 20 = 19 by omega, new]
      · rw [if_neg covered]
    have word : ∀ off, 79 ≤ off → off + 4 ≤ 151 →
        u32At (fun k => (Ev.apply σ (.record slot r) 10).byteAt (0 * 151 + k)) off =
          u32At (fun k => (σ 10).byteAt (0 * 151 + k)) off := by
      intro off lo hi
      refine u32At_congr fun k hk => ?_
      rw [Nat.zero_mul, Nat.zero_add]
      exact bytes _ (by omega) (by omega)
    refine ⟨?_, word 143 (by decide) (by decide), word 147 (by decide) (by decide)⟩
    funext m
    exact word (79 + 4 * m.val) (by omega) (by omega)

end Apply

section Congr

variable {σ τ : Store}

/-- Each region is read from its own sectors. -/
theorem imgSuper_congr (h : τ 0 = σ 0) : imgSuper τ = imgSuper σ := by
  unfold imgSuper
  rw [show τ sbLba = σ sbLba from h]

theorem imgHeader_congr (h : τ 1 = σ 1) : imgHeader τ = imgHeader σ := by
  unfold imgHeader
  rw [show τ journalHdrLba = σ journalHdrLba from h]

theorem imgInodes_congr (h : ∀ n, 10 ≤ n → n < 96 → τ n = σ n) : imgInodes τ = imgInodes σ := by
  funext j
  unfold imgInodes
  rw [inodeTableLba_eq, inodesPerSector_eq, h _ (by omega) (by omega)]

theorem imgBitmap_congr (h : ∀ n, 96 ≤ n → n < 100 → τ n = σ n) : imgBitmap τ = imgBitmap σ := by
  funext k
  unfold imgBitmap
  rw [bitmapLba_eq, h _ (by omega) (by omega)]

theorem imgInodes_runEvents {es : List Ev} (h : ∀ e ∈ es, e.lba < 10 ∨ 96 ≤ e.lba) :
    imgInodes (runEvents σ es) = imgInodes σ :=
  imgInodes_congr fun n _ _ => runEvents_of_forall_ne fun e he => by have := h e he; omega

theorem imgBitmap_runEvents {es : List Ev} (h : ∀ e ∈ es, e.lba < 96 ∨ 100 ≤ e.lba) :
    imgBitmap (runEvents σ es) = imgBitmap σ :=
  imgBitmap_congr fun n _ _ => runEvents_of_forall_ne fun e he => by have := h e he; omega

theorem imgSuper_runEvents {es : List Ev} (h : ∀ e ∈ es, e.lba ≠ 0) :
    imgSuper (runEvents σ es) = imgSuper σ :=
  imgSuper_congr (runEvents_of_forall_ne h)

theorem imgHeader_runEvents {es : List Ev} (h : ∀ e ∈ es, e.lba ≠ 1) :
    imgHeader (runEvents σ es) = imgHeader σ :=
  imgHeader_congr (runEvents_of_forall_ne h)

end Congr

section Whole

variable {σ : Store}

/-- Writing all bitmap sectors writes the bitmap. -/
theorem imgBitmap_bitmapEvents (bm : Bitmap) :
    imgBitmap (runEvents σ (bitmapEvents bm)) = bm := by
  have some : ∀ (ss : List (Fin 4)) (σ : Store) (k : Fin 2048),
      imgBitmap (runEvents σ (ss.map fun s => .bitmap s bm)) k =
        if ∃ s ∈ ss, k.val / 512 = s.val then bm k else imgBitmap σ k := by
    intro ss
    induction ss with
    | nil => simp
    | cons s ss ih =>
      intro σ k
      rw [List.map_cons, runEvents_cons, ih, imgBitmap_bitmap]
      by_cases here : k.val / 512 = s.val
      · simp [here]
      · simp [here]
  funext k
  unfold bitmapEvents
  rw [some, if_pos ⟨⟨k.val / 512, by omega⟩, List.mem_finRange _, rfl⟩]

/-- Writing all inode sectors writes the inode table. -/
theorem imgInodes_tableEvents (inodes : Fin 256 → Inode) :
    imgInodes (runEvents σ (tableEvents inodes)) = inodes := by
  have some : ∀ (ss : List (Fin 86)) (σ : Store) (j : Fin 256),
      imgInodes (runEvents σ (ss.map fun s => .table s inodes)) j =
        if ∃ s ∈ ss, j.val / 3 = s.val then inodes j else imgInodes σ j := by
    intro ss
    induction ss with
    | nil => simp
    | cons s ss ih =>
      intro σ j
      rw [List.map_cons, runEvents_cons, ih, imgInodes_table]
      by_cases here : j.val / 3 = s.val
      · simp [here]
      · simp [here]
  funext j
  unfold tableEvents
  rw [some, if_pos ⟨⟨j.val / 3, by omega⟩, List.mem_finRange _, rfl⟩]

end Whole

/-! ### Mounting -/

/-- The state `catfs_mount_at` builds from a volume. -/
def mountState (drive : Int) (off : UInt32) (σ : Store) : State where
  diskDrive := drive
  partitionOffset := off
  sb := { imgSuper σ with cleanUnmount := 0 }
  jh := imgHeader σ
  inodes := imgInodes σ
  bitmap := imgBitmap σ
  mounted := true
  nextSeq := (imgHeader σ).committedSeq

/-- The world whose global state points at a volume. -/
def World.onVolume (w : World) (drive : Int) (off : UInt32) : World :=
  w.mapCatfs fun c => { c with diskDrive := drive, partitionOffset := off }

theorem forEach_append {α : Type} (f : World → α → World × Bool) {w v : World} {as : List α}
    (first : forEach f w as = (v, true)) (a : α) : forEach f w (as ++ [a]) = f v a := by
  induction as generalizing w with
  | nil =>
    obtain rfl : w = v := by simpa [forEach] using first
    rcases hf : f w a with ⟨u, _ | _⟩ <;> simp [forEach, hf]
  | cons b as ih =>
    rcases hf : f w b with ⟨u, _ | _⟩
    · simp [forEach, hf] at first
    · simp only [List.cons_append, forEach, hf] at first ⊢
      exact ih first

section Loading

variable {w : World} (reliable : Reliable w.drives w.catfs.diskDrive)

include reliable

theorem dskRead_eq {n : Nat} (hn : n < 16484) :
    dskRead w (UInt32.ofNat n) = some (w.sector n) := by
  rw [w.sector_of_lt hn]
  exact reliable.read _ _

theorem loadInodeSector_eq (table : w.catfs.sb.inodeTableLba = UInt32.ofNat inodeTableLba)
    {n : Nat} (hn : n < 86) :
    loadInodeSector w n =
      (w.mapCatfs fun c => { c with
        inodes := fun i => if i.val / 3 = n then imgInodes w.sector i else c.inodes i }, true) := by
  have lba : w.catfs.sb.inodeTableLba + UInt32.ofNat n = UInt32.ofNat (10 + n) := by
    rw [table, UInt32.ofNat_add]
    rfl
  have count : inodesInSector n = if (n + 1) * 3 > 256 then 256 - n * 3 else 3 := rfl
  have pick : (fun i : Fin 256 => if n * inodesPerSector ≤ i.val ∧
        i.val < n * inodesPerSector + inodesInSector n
      then inodeIn (w.sector (10 + n)) (i.val - n * inodesPerSector) else w.catfs.inodes i) =
      fun i => if i.val / 3 = n then imgInodes w.sector i else w.catfs.inodes i := by
    funext i
    rw [inodesPerSector_eq, count]
    by_cases here : i.val / 3 = n
    · have hmod : i.val - n * 3 = i.val % 3 := by omega
      rw [if_pos here, if_pos (by split <;> omega), hmod, ← here]
      rfl
    · rw [if_neg here, if_neg (by split <;> omega)]
  unfold loadInodeSector
  rw [lba, dskRead_eq reliable (by omega)]
  simp only [World.mapCatfs, pick]

theorem loadBitmapSector_eq (start : w.catfs.sb.bitmapLba = UInt32.ofNat bitmapLba)
    {n : Nat} (hn : n < 4) :
    loadBitmapSector w n =
      (w.mapCatfs fun c => { c with
        bitmap := fun k => if k.val / 512 = n then imgBitmap w.sector k else c.bitmap k }, true) := by
  have lba : w.catfs.sb.bitmapLba + UInt32.ofNat n = UInt32.ofNat (96 + n) := by
    rw [start, UInt32.ofNat_add]
    rfl
  have pick : (fun k : Fin 2048 => if n * 512 ≤ k.val ∧
        k.val < n * 512 + min (bitmapBytes - n * 512) 512
      then (w.sector (96 + n)).byteAt (k.val - n * 512) else w.catfs.bitmap k) =
      fun k => if k.val / 512 = n then imgBitmap w.sector k else w.catfs.bitmap k := by
    funext k
    rw [bitmapBytes_eq]
    by_cases here : k.val / 512 = n
    · have hmod : k.val - n * 512 = k.val % 512 := by omega
      rw [if_pos here, if_pos (by omega), hmod, ← here]
      rfl
    · rw [if_neg here, if_neg (by omega)]
  unfold loadBitmapSector
  rw [lba, dskRead_eq reliable (by omega)]
  simp only [World.mapCatfs, pick]

/-- The inode loop of `catfs_mount_at` after `n` sectors. -/
theorem loadInodes_eq (table : w.catfs.sb.inodeTableLba = UInt32.ofNat inodeTableLba) {n : Nat}
    (hn : n ≤ 86) :
    forEach loadInodeSector w (List.range n) =
      (w.mapCatfs fun c => { c with
        inodes := fun i => if i.val / 3 < n then imgInodes w.sector i else c.inodes i }, true) := by
  induction n with
  | zero => simp [forEach, World.mapCatfs]
  | succ n ih =>
    let v : World := w.mapCatfs fun c => { c with
      inodes := fun i => if i.val / 3 < n then imgInodes w.sector i else c.inodes i }
    have step := loadInodeSector_eq (w := v) reliable table (n := n) (by omega)
    rw [List.range_succ, forEach_append _ (ih (by omega)), step]
    have both : ∀ i : Fin 256, (if i.val / 3 = n then imgInodes w.sector i
        else if i.val / 3 < n then imgInodes w.sector i else w.catfs.inodes i) =
        if i.val / 3 < n + 1 then imgInodes w.sector i else w.catfs.inodes i := by
      intro i
      by_cases here : i.val / 3 = n
      · rw [if_pos here, if_pos (by omega)]
      · rw [if_neg here]
        by_cases before : i.val / 3 < n
        · rw [if_pos before, if_pos (by omega)]
        · rw [if_neg before, if_neg (by omega)]
    have agree := funext both
    simp only [v, World.mapCatfs] at agree ⊢
    exact Prod.ext (by rw [← agree]; rfl) rfl

/-- The bitmap loop after `n` sectors. -/
theorem loadBitmap_eq (start : w.catfs.sb.bitmapLba = UInt32.ofNat bitmapLba) {n : Nat}
    (hn : n ≤ 4) :
    forEach loadBitmapSector w (List.range n) =
      (w.mapCatfs fun c => { c with
        bitmap := fun k => if k.val / 512 < n then imgBitmap w.sector k else c.bitmap k }, true) := by
  induction n with
  | zero => simp [forEach, World.mapCatfs]
  | succ n ih =>
    let v : World := w.mapCatfs fun c => { c with
      bitmap := fun k => if k.val / 512 < n then imgBitmap w.sector k else c.bitmap k }
    have step := loadBitmapSector_eq (w := v) reliable start (n := n) (by omega)
    rw [List.range_succ, forEach_append _ (ih (by omega)), step]
    have both : ∀ k : Fin 2048, (if k.val / 512 = n then imgBitmap w.sector k
        else if k.val / 512 < n then imgBitmap w.sector k else w.catfs.bitmap k) =
        if k.val / 512 < n + 1 then imgBitmap w.sector k else w.catfs.bitmap k := by
      intro k
      by_cases here : k.val / 512 = n
      · rw [if_pos here, if_pos (by omega)]
      · rw [if_neg here]
        by_cases before : k.val / 512 < n
        · rw [if_pos before, if_pos (by omega)]
        · rw [if_neg before, if_neg (by omega)]
    have agree := funext both
    simp only [v, World.mapCatfs] at agree ⊢
    exact Prod.ext (by rw [← agree]; rfl) rfl

/-- The tail of `catfs_mount_at`. -/
theorem mountFinish_eq :
    mountFinish w = w.perform
      { w.catfs with
        nextSeq := w.catfs.jh.committedSeq
        sb := { w.catfs.sb with cleanUnmount := 0 }
        mounted := true }
      [.super { w.catfs.sb with cleanUnmount := 0 }] := by
  let c : State := { w.catfs with
    nextSeq := w.catfs.jh.committedSeq
    sb := { w.catfs.sb with cleanUnmount := 0 } }
  have same : SameVolume w.catfs c := ⟨rfl, rfl⟩
  have write : syncSuperblock (w.perform c []) = (w.perform c [.super c.sb], true) := by
    have accepted : diskWritable (w.perform c []).drives (w.perform c []).catfs.diskDrive
        ((w.perform c []).catfs.partitionOffset + UInt32.ofNat sbLba) = true := reliable.write _
    unfold syncSuperblock dskWrite
    rw [if_pos accepted]
    have put := World.put_eq_perform (w.perform c []) (.super c.sb)
    rw [World.perform_perform same] at put
    exact Prod.ext put rfl
  have before : ((w.mapCatfs fun c => { c with nextSeq := c.jh.committedSeq }).mapSb
      fun sb => { sb with cleanUnmount := 0 }) = w.perform c [] :=
    w.mapCatfs_eq_perform fun _ => c
  unfold mountFinish
  simp only [before, write]
  rw [World.mapCatfs_eq_perform, World.perform_perform same]
  rfl

end Loading

/-- **`catfs_mount_at`** on a volume with a CatFS superblock. -/
theorem catfsMountAt_eq {w : World} {drive : Int} {off : UInt32}
    (reliable : Reliable w.drives drive) {σ : Store} (hσ : (w.onVolume drive off).sector = σ)
    (magic : (imgSuper σ).magic = magicV2)
    (table : (imgSuper σ).inodeTableLba = UInt32.ofNat inodeTableLba)
    (bitmap : (imgSuper σ).bitmapLba = UInt32.ofNat bitmapLba) :
    catfsMountAt w drive off =
      ((w.onVolume drive off).perform (mountState drive off σ)
        [.super { imgSuper σ with cleanUnmount := 0 }], 0) := by
  have there : ¬(drive < 0 ∨ !(w.drives drive).present) := by
    rintro (neg | absent)
    · exact absurd reliable.lo (by omega)
    · simp [reliable.present] at absent
  let w₀ := w.onVolume drive off
  let w₁ := w₀.mapSb fun _ => imgSuper σ
  let w₂ := w₁.mapJh fun _ => imgHeader σ
  let w₃ := w₂.mapCatfs fun c => { c with inodes := imgInodes σ }
  let w₄ := w₃.mapCatfs fun c => { c with bitmap := imgBitmap σ }
  have readSuper : dskRead w₀ (UInt32.ofNat sbLba) = some (σ sbLba) := by
    rw [dskRead_eq (w := w₀) reliable (by decide), hσ]
  have readHeader : dskRead w₁ (UInt32.ofNat journalHdrLba) = some (σ journalHdrLba) := by
    rw [dskRead_eq (w := w₁) reliable (by decide), ← hσ]
    rfl
  have inodes : forEach loadInodeSector w₂ (List.range inodeSectors) = (w₃, true) := by
    rw [inodeSectors_eq, loadInodes_eq (w := w₂) reliable table (le_refl 86)]
    have all : (fun i : Fin 256 => if i.val / 3 < 86 then imgInodes w₂.sector i
        else w₂.catfs.inodes i) = imgInodes σ := by
      funext i
      rw [if_pos (by omega), ← hσ]
      rfl
    exact Prod.ext (by simp only [World.mapCatfs, all, w₃]) rfl
  have bits : forEach loadBitmapSector w₃ (List.range bitmapSectors) = (w₄, true) := by
    rw [bitmapSectors_eq, loadBitmap_eq (w := w₃) reliable bitmap (le_refl 4)]
    have all : (fun k : Fin 2048 => if k.val / 512 < 4 then imgBitmap w₃.sector k
        else w₃.catfs.bitmap k) = imgBitmap σ := by
      funext k
      rw [if_pos (by omega), ← hσ]
      rfl
    exact Prod.ext (by simp only [World.mapCatfs, all, w₄]) rfl
  have finish := mountFinish_eq (w := w₄) reliable
  have loaded : w₄ = w₀.perform w₄.catfs [] := by
    simp [World.perform, physTrace, w₄, w₃, w₂, w₁, World.mapCatfs, World.mapSb, World.mapJh]
  have result : catfsMountAt w drive off = (mountFinish w₄, 0) := by
    have hmagic : w₁.catfs.sb.magic = magicV2 := magic
    have hw₁ : w₀.mapSb (fun _ => Super.decode (σ sbLba).byteAt) = w₁ := rfl
    have hw₂ : w₁.mapJh (fun _ => JournalHdr.decode (σ journalHdrLba).byteAt) = w₂ := rfl
    unfold catfsMountAt
    rw [if_neg there]
    dsimp only
    rw [show w.mapCatfs (fun c => { c with diskDrive := drive, partitionOffset := off }) = w₀
      from rfl, readSuper]
    dsimp only
    rw [hw₁, if_neg (not_not.mpr hmagic), readHeader]
    dsimp only
    rw [hw₂, inodes]
    dsimp only
    rw [bits]
  have same : SameVolume w₀.catfs w₄.catfs := ⟨rfl, rfl⟩
  rw [result, finish, loaded, World.perform_perform same]
  rfl

/-- The same, without the trace: the state is the image, and of the volume only
the superblock changed. -/
theorem catfsMountAt_state {w : World} {drive : Int} {off : UInt32}
    (reliable : Reliable w.drives drive) {σ : Store} (hσ : (w.onVolume drive off).sector = σ)
    (magic : (imgSuper σ).magic = magicV2)
    (table : (imgSuper σ).inodeTableLba = UInt32.ofNat inodeTableLba)
    (bitmap : (imgSuper σ).bitmapLba = UInt32.ofNat bitmapLba) :
    ∃ v, catfsMountAt w drive off = (v, 0) ∧ v.catfs = mountState drive off σ ∧
      v.drives = w.drives ∧ imgSuper v.sector = { imgSuper σ with cleanUnmount := 0 } ∧
      ∀ n, n ≠ 0 → v.sector n = σ n := by
  have same : SameVolume (w.onVolume drive off).catfs (mountState drive off σ) := ⟨rfl, rfl⟩
  refine ⟨_, catfsMountAt_eq reliable hσ magic table bitmap, rfl, rfl, ?_, fun n hn => ?_⟩
  · rw [World.sector_perform same]
    exact imgSuper_super _
  · rw [World.sector_perform same, hσ]
    refine runEvents_of_forall_ne fun e he => ?_
    rw [List.mem_singleton.mp he]
    exact fun h => hn h.symm

/-- A superblock that `catfs_mount_at` accepts and that describes the layout. -/
structure Mountable (sb : Super) : Prop where
  magic : sb.magic = magicV2
  dataStart : sb.dataStartLba = UInt32.ofNat dataLba
  bitmapStart : sb.bitmapLba = UInt32.ofNat bitmapLba
  tableStart : sb.inodeTableLba = UInt32.ofNat inodeTableLba

theorem Ready.mountable {w : World} (h : Ready w) : Mountable w.catfs.sb :=
  ⟨h.magic, h.dataStart, h.bitmapStart, h.tableStart⟩

end AtmKoala.Catfs
