import AtmKoala.Catfs.Free
import Mathlib.Data.Finset.Card

/-!
The data loops: the loop of `catfs_write` and that of `catfs_read`.

`World.byte` is byte `k` of a file as the block map and the disk give it.
`Wrote idx w lo n data w'` says that the write loop, on its way from `w` to
`w'`, has put `data` into bytes `lo … lo + n - 1` of file `idx` and changed no
other byte of it; it composes along adjacent ranges. `writeLoop_spec` is the
loop: what it has written when it stops, and why it stops.
-/

namespace AtmKoala.Catfs

open Lib

/-- Byte `k` of a file. -/
def World.byte (w : World) (idx : Fin 256) (k : Nat) : UInt8 :=
  (blockOf w.sector (w.fileBlock idx (k / 512))).byteAt (k % 512)

theorem World.fileBlock_of_lt (w : World) (idx : Fin 256) {blk : Nat} (h : blk < 16528) :
    w.fileBlock idx blk = w.slots (idx, dataPos blk) := if_pos h

theorem World.lt_of_fileBlock {w : World} {idx : Fin 256} {blk : Nat}
    (h : w.fileBlock idx blk ≠ 0) : blk < 16528 := by
  by_contra hn
  exact h (if_neg hn)

theorem Grows.fileBlock {idx : Fin 256} {w v : World} (g : Grows idx w v) {blk : Nat}
    (h : w.fileBlock idx blk ≠ 0) : v.fileBlock idx blk = w.fileBlock idx blk := by
  have small := World.lt_of_fileBlock h
  rw [World.fileBlock_of_lt _ _ small] at h ⊢
  rw [World.fileBlock_of_lt _ _ small, g.kept h]

/-- Filling places changes no byte of a mapped block. -/
theorem Fills.byte {idx : Fin 256} {w v : World} {ps : List Pos} (h : Fills idx w ps v)
    (owned : w.Owned) {k : Nat} (mapped : w.fileBlock idx (k / 512) ≠ 0) :
    v.byte idx k = w.byte idx k := by
  have small := World.lt_of_fileBlock mapped
  unfold World.byte
  rw [h.grows.fileBlock mapped, World.fileBlock_of_lt _ _ small, h.keeps]
  · exact owned.ledger.marked_of (idx, dataPos (k / 512))
  · intro q hq
    rw [World.fileBlock_of_lt _ _ small] at mapped
    refine owned.alone (k := (idx, dataPos (k / 512))) (l := (idx, q)) mapped ?_
    intro same
    obtain rfl : q = dataPos (k / 512) := (Prod.ext_iff.mp same).2
    rw [isPtr_dataPos] at hq
    cases hq

section Data

variable {w : World} {idx : Fin 256}

/-- Overwriting a data block leaves every slot as it is. -/
theorem slots_write_data (owned : w.Owned) {p : Pos} (data : p.isPtr = false) {b : UInt32}
    (held : w.slots (idx, p) = b) (present : b ≠ 0) (small : b.toNat < 16384) (sec : Sector) :
    (w.perform w.catfs [.block ⟨b.toNat, small⟩ sec]).slots = w.slots := by
  unfold World.slots at held ⊢
  rw [World.sector_perform ⟨rfl, rfl⟩, runEvents_cons, runEvents_nil, blockOf_apply_block]
  refine slots_congr (fun _ => ⟨rfl, rfl, rfl⟩) fun k hk hne => Function.update_of_ne ?_ _ _
  rw [← held] at present ⊢
  refine owned.alone present ?_
  rintro rfl
  rw [data] at hk
  cases hk

theorem grows_write_data (owned : w.Owned) {p : Pos} (data : p.isPtr = false) {b : UInt32}
    (held : w.slots (idx, p) = b) (present : b ≠ 0) (small : b.toNat < 16384) (sec : Sector) :
    Grows idx w (w.perform w.catfs [.block ⟨b.toNat, small⟩ sec]) where
  performed := by
    refine ⟨_, rfl, fun e he => ?_⟩
    rw [List.mem_singleton.mp he]
    exact ⟨_, _, rfl, Or.inr ⟨p, held ▸ present, by rw [held]⟩,
      Or.inr ⟨p, data, held ▸ present, by rw [held]⟩⟩
  only := BlocksOnly.refl idx w.catfs
  marks := id
  places := fun k => Or.inl (congrFun (slots_write_data owned data held present small sec) k)
  owned := by
    intro _
    refine ⟨owned.ledger.congr (slots_write_data owned data held present small sec)
      fun _ => Iff.rfl, ?_⟩
    exact owned.free
  counted := id

end Data

/-! ### Places still to be filled -/

/-- The places of `S` that inode `idx` has no block for. -/
def World.unfilled (w : World) (idx : Fin 256) (S : Finset Pos) : Finset Pos :=
  S.filter fun p => w.slots (idx, p) = 0

theorem Fill.card_unfilled {idx : Fin 256} {w v : World} {p : Pos} (h : Fill idx w p v)
    (owned : w.Owned) {S : Finset Pos} (hp : p ∈ S) :
    (v.unfilled idx S).card + 1 = (w.unfilled idx S).card := by
  obtain ⟨nb, clear, -, -, slots⟩ := h.slots
  have hnb := owned.fresh_ne_zero clear
  have erased : v.unfilled idx S = (w.unfilled idx S).erase p := by
    ext q
    simp only [World.unfilled, Finset.mem_filter, Finset.mem_erase, slots]
    by_cases hq : q = p
    · subst hq
      simp [hnb]
    · rw [Function.update_of_ne (by simp [hq])]
      simp [hq]
  have mem : p ∈ w.unfilled idx S := Finset.mem_filter.mpr ⟨hp, h.empty⟩
  rw [erased, Finset.card_erase_add_one mem]

theorem Fills.card_unfilled {idx : Fin 256} {w v : World} {ps : List Pos} (h : Fills idx w ps v)
    (owned : w.Owned) {S : Finset Pos} (sub : ∀ p ∈ ps, p ∈ S) :
    (v.unfilled idx S).card + ps.length = (w.unfilled idx S).card := by
  induction h with
  | nil => rfl
  | snoc run _ step ih =>
    have before := ih fun p hp => sub p (List.mem_append_left _ hp)
    have here := step.card_unfilled ((Fills.grows run).owned owned)
      (sub _ (List.mem_append_right _ List.mem_cons_self))
    rw [List.length_append, List.length_singleton]
    omega

theorem length_missing_le {w : World} {idx : Fin 256} {p : Pos} {S : Finset Pos}
    (sub : ∀ q ∈ p.path, q ∈ S) :
    (w.missing idx p.path).length ≤ (w.unfilled idx S).card := by
  have nodup : p.path.Nodup := by
    cases p <;> simp [Pos.path]
  unfold World.missing
  rw [← List.toFinset_card_of_nodup (nodup.filter _)]
  refine Finset.card_le_card fun q hq => ?_
  rw [List.mem_toFinset, List.mem_filter] at hq
  exact Finset.mem_filter.mpr ⟨sub q hq.1, by simpa using hq.2⟩

/-- The places above a filled place are filled. -/
theorem missing_ne_nil {w : World} {idx : Fin 256} {blk : Nat}
    (empty : w.slots (idx, dataPos blk) = 0) : w.missing idx (dataPos blk).path ≠ [] := by
  refine List.ne_nil_of_mem (a := dataPos blk) (List.mem_filter.mpr ⟨?_, by simp [empty]⟩)
  cases dataPos blk <;> simp [Pos.path]

theorem missing_eq_nil {w : World} {idx : Fin 256} {p : Pos} (present : w.slots (idx, p) ≠ 0) :
    w.missing idx p.path = [] := by
  have child_ne : ∀ {block : UInt32 → Sector} {b : UInt32} {i : Fin 128}, child block b i ≠ 0 →
      b ≠ 0 := by
    rintro block b i hc rfl
    exact hc rfl
  unfold World.missing
  rw [List.filter_eq_nil_iff]
  intro q hq
  rw [decide_eq_true_iff]
  cases p with
  | direct i => rw [List.mem_singleton.mp hq]; exact present
  | indirect => rw [List.mem_singleton.mp hq]; exact present
  | dindirect => rw [List.mem_singleton.mp hq]; exact present
  | ind i =>
    simp only [Pos.path, List.mem_cons, List.not_mem_nil, or_false] at hq
    rcases hq with rfl | rfl
    · exact child_ne present
    · exact present
  | l1 i =>
    simp only [Pos.path, List.mem_cons, List.not_mem_nil, or_false] at hq
    rcases hq with rfl | rfl
    · exact child_ne present
    · exact present
  | l2 i j =>
    simp only [Pos.path, List.mem_cons, List.not_mem_nil, or_false] at hq
    rcases hq with rfl | rfl | rfl
    · exact child_ne (child_ne present)
    · exact child_ne present
    · exact present

/-! ### Ranges written -/

/-- Bytes `lo … lo + n - 1` of the file hold `data`, the other bytes of mapped
blocks are as before, and nothing but growth of file `idx` happened. -/
structure Wrote (idx : Fin 256) (w : World) (lo n : Nat) (data : Nat → UInt8) (w' : World) :
    Prop where
  grows : Grows idx w w'
  mapped : ∀ k, lo ≤ k → k < lo + n → w'.fileBlock idx (k / 512) ≠ 0
  bytes : ∀ k, lo ≤ k → k < lo + n → w'.byte idx k = data (k - lo)
  kept : ∀ k, w.fileBlock idx (k / 512) ≠ 0 → ¬(lo ≤ k ∧ k < lo + n) →
    w'.byte idx k = w.byte idx k

namespace Wrote

variable {idx : Fin 256} {w v u : World} {lo n m : Nat} {data : Nat → UInt8}

theorem of_fills {ps : List Pos} (h : Fills idx w ps v) (owned : w.Owned) (lo : Nat)
    (data : Nat → UInt8) : Wrote idx w lo 0 data v where
  grows := h.grows
  mapped := by intros; omega
  bytes := by intros; omega
  kept := fun _ mapped _ => h.byte owned mapped

theorem trans (h : Wrote idx w lo n data v)
    (k : Wrote idx v (lo + n) m (fun i => data (n + i)) u) : Wrote idx w lo (n + m) data u where
  grows := h.grows.trans k.grows
  mapped := by
    intro i hlo hhi
    by_cases hi : i < lo + n
    · have := h.mapped i hlo hi
      rw [k.grows.fileBlock this]
      exact this
    · exact k.mapped i (by omega) (by omega)
  bytes := by
    intro i hlo hhi
    by_cases hi : i < lo + n
    · rw [k.kept i (h.mapped i hlo hi) (by omega)]
      exact h.bytes i hlo hi
    · rw [k.bytes i (by omega) (by omega)]
      congr 1
      omega
  kept := by
    intro i mapped out
    have mapped' : v.fileBlock idx (i / 512) ≠ 0 := by
      rw [h.grows.fileBlock mapped]
      exact mapped
    rw [k.kept i mapped' (by omega), h.kept i mapped (by omega)]

end Wrote

/-! ### One iteration of the write loop -/

section Iteration

variable {w : World} {idx : Fin 256} {blk : Nat}

theorem path_ne_nil (p : Pos) : p ∈ p.path := by
  cases p <;> simp [Pos.path]

/-- Resolving a block for writing, when there is room. -/
theorem resolveBlock_room (ready : Ready w) (owned : w.Owned)
    (live : (w.catfs.inodes idx).type ≠ typeFree) (small : blk < 16528)
    (room : (w.missing idx (dataPos blk).path).length ≤ clearBits w.catfs.bitmap) :
    ∃ v, resolveBlock w idx blk true = (v, some (v.slots (idx, dataPos blk))) ∧
      Fills idx w (w.missing idx (dataPos blk).path) v ∧ v.slots (idx, dataPos blk) ≠ 0 := by
  obtain ⟨v, fills, hr⟩ := resolveBlock_resolves ready owned live small
  rw [List.take_of_length_le room] at fills
  rw [if_pos room] at hr
  refine ⟨v, hr, fills, ?_⟩
  by_cases hz : w.slots (idx, dataPos blk) = 0
  · refine fills.slots_ne_zero_of_mem owned ?_
    exact List.mem_filter.mpr ⟨path_ne_nil _, by simp [hz]⟩
  · rw [fills.grows.kept hz]
    exact hz

/-- Resolving a block for writing, when there is no room. -/
theorem resolveBlock_noRoom (ready : Ready w) (owned : w.Owned)
    (live : (w.catfs.inodes idx).type ≠ typeFree) (small : blk < 16528)
    (full : clearBits w.catfs.bitmap < (w.missing idx (dataPos blk).path).length) :
    ∃ v, resolveBlock w idx blk true = (v, none) ∧
      Fills idx w ((w.missing idx (dataPos blk).path).take (clearBits w.catfs.bitmap)) v := by
  obtain ⟨v, fills, hr⟩ := resolveBlock_resolves ready owned live small
  rw [if_neg (by omega)] at hr
  exact ⟨v, hr, fills⟩

/-- Writing `chunk` bytes into the block just resolved. -/
theorem wrote_block {v : World} {ps : List Pos} (owned : w.Owned) (small : blk < 16528)
    (fills : Fills idx w ps v) (present : v.slots (idx, dataPos blk) ≠ 0)
    (hb : (v.slots (idx, dataPos blk)).toNat < 16384) {blkOff chunk : Nat}
    (fits : blkOff + chunk ≤ 512) {src : Nat → UInt8} {sec : Sector}
    (patched : ∀ k, k < 512 → sec.byteAt k = if blkOff ≤ k ∧ k < blkOff + chunk
      then src (k - blkOff) else (blockOf v.sector (v.slots (idx, dataPos blk))).byteAt k) :
    Wrote idx w (blk * 512 + blkOff) chunk src
      (v.perform v.catfs [.block ⟨(v.slots (idx, dataPos blk)).toNat, hb⟩ sec]) := by
  have owned' := fills.grows.owned owned
  have hslots := slots_write_data owned' (isPtr_dataPos blk) rfl present hb sec
  have grows := grows_write_data owned' (isPtr_dataPos blk) rfl present hb sec
  have hblock : ∀ b, blockOf (v.perform v.catfs
      [.block ⟨(v.slots (idx, dataPos blk)).toNat, hb⟩ sec]).sector b =
        if b = v.slots (idx, dataPos blk) then sec else blockOf v.sector b := by
    intro b
    rw [World.sector_perform ⟨rfl, rfl⟩, runEvents_cons, runEvents_nil, blockOf_apply_block]
    by_cases h : b = v.slots (idx, dataPos blk)
    · rw [if_pos h, h, Function.update_self]
    · rw [if_neg h, Function.update_of_ne h]
  have hfile : ∀ j, (v.perform v.catfs
      [.block ⟨(v.slots (idx, dataPos blk)).toNat, hb⟩ sec]).fileBlock idx j = v.fileBlock idx j := by
    intro j
    unfold World.fileBlock
    rw [hslots]
  have hhere : v.fileBlock idx blk = v.slots (idx, dataPos blk) := v.fileBlock_of_lt idx small
  have inBlock : ∀ k, blk * 512 + blkOff ≤ k → k < blk * 512 + blkOff + chunk →
      k / 512 = blk ∧ k % 512 = k - blk * 512 := by
    intro k hlo hhi
    omega
  refine ⟨fills.grows.trans grows, fun k hlo hhi => ?_, fun k hlo hhi => ?_,
    fun k mapped out => ?_⟩
  · rw [(inBlock k hlo hhi).1, hfile, hhere]
    exact present
  · obtain ⟨hdiv, hmod⟩ := inBlock k hlo hhi
    unfold World.byte
    rw [hdiv, hfile, hhere, hblock, if_pos rfl, patched _ (by omega), if_pos (by omega), hmod]
    congr 1
    omega
  · rw [← fills.byte owned mapped]
    have mapped' : v.fileBlock idx (k / 512) ≠ 0 := by
      rw [fills.grows.fileBlock mapped]
      exact mapped
    unfold World.byte
    rw [hfile, hblock]
    by_cases hk : k / 512 = blk
    · rw [hk, hhere, if_pos rfl, patched _ (by omega), if_neg (by omega)]
    · -- a different file block is a different block
      have hlt := World.lt_of_fileBlock mapped'
      rw [v.fileBlock_of_lt idx hlt] at mapped' ⊢
      rw [if_neg]
      refine owned'.alone (k := (idx, dataPos blk)) (l := (idx, dataPos (k / 512))) present ?_
      intro same
      exact hk (dataPos_inj hlt small (Prod.ext_iff.mp same).2)

end Iteration

/-! ### The write loop -/

section Loop

variable {idx : Fin 256} {offset : UInt32} {buf : Nat → UInt8} {len : UInt32}

/-- The bytes one iteration moves. -/
def chunkOf (offset len written : UInt32) : Nat :=
  min (len - written).toNat (512 - (offset + written).toNat % 512)

theorem writeLoop_done {w : World} {written : UInt32} (h : ¬written < len) (fuel : Nat) :
    writeLoop idx offset buf len (fuel + 1) w written = (w, written) := by
  rw [writeLoop, if_pos h]

theorem writeLoop_tooLong {w : World} {written : UInt32}
    (h : 16528 ≤ (offset + written).toNat / 512) (fuel : Nat) :
    writeLoop idx offset buf len (fuel + 1) w written = (w, written) := by
  have hmax : (offset + written).toNat / blockSize ≥ maxFileBlocks := h
  rw [writeLoop]
  by_cases hlt : ¬written < len
  · rw [if_pos hlt]
  · rw [if_neg hlt]
    simp only [hmax, if_true]

theorem writeLoop_noRoom (buf : Nat → UInt8) {w : World} (ready : Ready w) (owned : w.Owned)
    (live : (w.catfs.inodes idx).type ≠ typeFree) {written : UInt32} (more : written < len)
    (small : (offset + written).toNat / 512 < 16528)
    (full : clearBits w.catfs.bitmap <
      (w.missing idx (dataPos ((offset + written).toNat / 512)).path).length) (fuel : Nat) :
    ∃ v, writeLoop idx offset buf len (fuel + 1) w written = (v, written) ∧
      Fills idx w ((w.missing idx (dataPos ((offset + written).toNat / 512)).path).take
        (clearBits w.catfs.bitmap)) v := by
  obtain ⟨v, hr, fills⟩ := resolveBlock_noRoom ready owned live small full
  have hmax : ¬(offset + written).toNat / blockSize ≥ maxFileBlocks := by
    have : ¬(offset + written).toNat / 512 ≥ 16528 := by omega
    exact this
  have hr' : resolveBlock w idx ((offset + written).toNat / blockSize) true = (v, none) := hr
  refine ⟨v, ?_, fills⟩
  rw [writeLoop, if_neg (not_not.mpr more)]
  simp only [hmax, if_false, hr']

theorem writeLoop_room (buf : Nat → UInt8) {w : World} (ready : Ready w) (owned : w.Owned)
    (live : (w.catfs.inodes idx).type ≠ typeFree) {written : UInt32} (more : written < len)
    (small : (offset + written).toNat / 512 < 16528)
    (room : (w.missing idx (dataPos ((offset + written).toNat / 512)).path).length ≤
      clearBits w.catfs.bitmap) (fuel : Nat) :
    ∃ v ps u, Fills idx w ps v ∧ u.slots = v.slots ∧ u.catfs = v.catfs ∧
      ps = w.missing idx (dataPos ((offset + written).toNat / 512)).path ∧
      Wrote idx w (offset + written).toNat (chunkOf offset len written)
        (fun k => buf (written.toNat + k)) u ∧
      writeLoop idx offset buf len (fuel + 1) w written =
        writeLoop idx offset buf len fuel u
          (written + UInt32.ofNat (chunkOf offset len written)) := by
  obtain ⟨v, hr, fills, present⟩ := resolveBlock_room ready owned live small room
  have ready' := fills.grows.ready ready
  have owned' := fills.grows.owned owned
  have hb : (v.slots (idx, dataPos ((offset + written).toNat / 512))).toNat < 16384 :=
    owned'.lt (idx, dataPos ((offset + written).toNat / 512))
  have hmax : ¬(offset + written).toNat / blockSize ≥ maxFileBlocks := by
    have : ¬(offset + written).toNat / 512 ≥ 16528 := by omega
    exact this
  have hr' : resolveBlock w idx ((offset + written).toNat / blockSize) true =
      (v, some (v.slots (idx, dataPos ((offset + written).toNat / 512)))) := hr
  let old : Sector := blockOf v.sector (v.slots (idx, dataPos ((offset + written).toNat / 512)))
  let base : Sector :=
    if (offset + written).toNat % blockSize ≠ 0 ∨ (len - written).toNat < blockSize then old
    else Block.zero 512
  let sec : Sector := base.blit ((offset + written).toNat % blockSize)
    (fun k => buf (written.toNat + k)) (chunkOf offset len written)
  have patched : ∀ k, k < 512 → sec.byteAt k =
      if (offset + written).toNat % 512 ≤ k ∧
        k < (offset + written).toNat % 512 + chunkOf offset len written
      then buf (written.toNat + (k - (offset + written).toNat % 512)) else old.byteAt k := by
    intro k hk
    show (base.blit _ _ _).byteAt k = _
    rw [Block.byteAt_blit _ _ _ _ _ hk]
    show (if (offset + written).toNat % 512 ≤ k ∧
        k < (offset + written).toNat % 512 + chunkOf offset len written then _ else _) = _
    by_cases hin : (offset + written).toNat % 512 ≤ k ∧
        k < (offset + written).toNat % 512 + chunkOf offset len written
    · rw [if_pos hin, if_pos hin]
      rfl
    · rw [if_neg hin, if_neg hin]
      -- a block that is not read first is overwritten whole
      have partly : (offset + written).toNat % 512 ≠ 0 ∨ (len - written).toNat < 512 := by
        by_contra hn
        unfold chunkOf at hin
        omega
      have hbase : base = old := if_pos partly
      rw [hbase]
  have fits : (offset + written).toNat % 512 + chunkOf offset len written ≤ 512 := by
    unfold chunkOf
    omega
  have wrote : Wrote idx w ((offset + written).toNat / 512 * 512 + (offset + written).toNat % 512)
      (chunkOf offset len written) (fun k => buf (written.toNat + k)) _ :=
    wrote_block owned small fills present hb fits patched
  refine ⟨v, _, _, fills, slots_write_data owned' (isPtr_dataPos _) rfl present hb sec, rfl, rfl,
    ?_, ?_⟩
  · have hlo : (offset + written).toNat / 512 * 512 + (offset + written).toNat % 512 =
        (offset + written).toNat := by omega
    rw [hlo] at wrote
    exact wrote
  · rw [writeLoop, if_neg (not_not.mpr more)]
    simp only [hmax, if_false, hr', ready'.readBlock hb, Option.getD_some]
    have hwrite := ready'.writeBlock hb sec
    rw [show (if (offset + written).toNat % blockSize ≠ 0 ∨ (len - written).toNat < blockSize then
        blockOf v.sector (v.slots (idx, dataPos ((offset + written).toNat / 512)))
        else Block.zero 512).blit ((offset + written).toNat % blockSize)
          (fun k => buf (written.toNat + k))
          (min (len - written).toNat (blockSize - (offset + written).toNat % blockSize)) = sec
        from rfl]
    rw [hwrite]
    rfl

/-- What the write loop has done when it stops after `n'` bytes, having started
after `n`. -/
structure LoopSpec (idx : Fin 256) (offset : UInt32) (buf : Nat → UInt8) (len : UInt32)
    (w : World) (n : UInt32) (w' : World) (n' : UInt32) : Prop where
  le : n.toNat ≤ n'.toNat
  le_len : n'.toNat ≤ len.toNat
  bound : n' = n ∨ offset.toNat + n'.toNat ≤ 8462336
  wrote : Wrote idx w (offset.toNat + n.toNat) (n'.toNat - n.toNat)
    (fun k => buf (n.toNat + k)) w'
  -- it moves a byte exactly if the first block can be had
  started : n' ≠ n ↔ n < len ∧ (offset + n).toNat / 512 < 16528 ∧
    (w.missing idx (dataPos ((offset + n).toNat / 512)).path).length ≤ clearBits w.catfs.bitmap
  -- and if it moves none, it may still have taken some of the blocks it needed
  idle : n' = n → w' = w ∨ n < len ∧ (offset + n).toNat / 512 < 16528 ∧
    clearBits w.catfs.bitmap ≠ 0 ∧ clearBits w.catfs.bitmap <
      (w.missing idx (dataPos ((offset + n).toNat / 512)).path).length
  -- with room for all that is missing it goes to the end
  complete : ∀ S : Finset Pos, (∀ blk, (offset.toNat + n.toNat) / 512 ≤ blk →
      blk * 512 < offset.toNat + len.toNat → ∀ p ∈ (dataPos blk).path, p ∈ S) →
    (w.unfilled idx S).card ≤ clearBits w.catfs.bitmap →
    offset.toNat + len.toNat ≤ 8462336 → n' = len
  -- and if nothing is missing it allocates nothing
  quiet : (∀ blk, (offset.toNat + n.toNat) / 512 ≤ blk → blk * 512 < offset.toNat + len.toNat →
    blk < 16528 → w.fileBlock idx blk ≠ 0) → w'.catfs.bitmap = w.catfs.bitmap
  -- while one missing block and one free block make it allocate
  took : n < len → clearBits w.catfs.bitmap ≠ 0 → ∀ blk, (offset.toNat + n.toNat) / 512 ≤ blk →
    blk * 512 < offset.toNat + len.toNat → blk < 16528 → w.fileBlock idx blk = 0 → Grew w w'

theorem writeLoop_spec {w : World} (ready : Ready w) (owned : w.Owned)
    (live : (w.catfs.inodes idx).type ≠ typeFree) (fuel : Nat) (n : UInt32)
    (enough : len.toNat ≤ n.toNat + fuel) (le : n.toNat ≤ len.toNat)
    (nowrap : offset.toNat + n.toNat < 4294967296) :
    ∃ w' n', writeLoop idx offset buf len fuel w n = (w', n') ∧
      LoopSpec idx offset buf len w n w' n' := by
  have stay : ∀ {m : Nat}, Wrote idx w m (n.toNat - n.toNat) (fun k => buf (n.toNat + k)) w := by
    intro m
    rw [Nat.sub_self]
    exact Wrote.of_fills (Run.nil w) owned m _
  have hsum : (offset + n).toNat = offset.toNat + n.toNat := by
    rw [UInt32.toNat_add]
    omega
  have stops : ∀ {m : UInt32} {P : Prop}, ¬P → (m ≠ m ↔ P) :=
    fun hP => iff_of_false (fun h => h rfl) hP
  induction fuel generalizing w n with
  | zero =>
    have done : ¬n < len := fun h => by have := UInt32.lt_iff_toNat_lt.mp h; omega
    refine ⟨w, n, rfl, ⟨le_refl _, le, Or.inl rfl, stay, stops fun h => done h.1,
      fun _ => Or.inl rfl, fun _ _ _ _ => UInt32.toNat_inj.mp (by omega), fun _ => rfl,
      fun more => absurd more done⟩⟩
  | succ fuel ih =>
    by_cases more : n < len
    · have moreNat : n.toNat < len.toNat := UInt32.lt_iff_toNat_lt.mp more
      by_cases small : (offset + n).toNat / 512 < 16528
      · by_cases room : (w.missing idx (dataPos ((offset + n).toNat / 512)).path).length ≤
            clearBits w.catfs.bitmap
        · -- the block is there: one chunk, then the rest of the loop
          obtain ⟨v, ps, u, fills, hslots, hcatfs, hps, wrote, hloop⟩ :=
            writeLoop_room buf ready owned live more small room fuel
          have hsub : (len - n).toNat = len.toNat - n.toNat :=
            UInt32.toNat_sub_of_le _ _ (UInt32.le_iff_toNat_le.mpr le)
          have hchunk : chunkOf offset len n ≤ len.toNat - n.toNat ∧
              0 < chunkOf offset len n ∧
              offset.toNat + n.toNat + chunkOf offset len n ≤ 8462336 := by
            unfold chunkOf
            rw [hsub]
            omega
          obtain ⟨hc1, hc2, hc3⟩ := hchunk
          have hnext : (n + UInt32.ofNat (chunkOf offset len n)).toNat =
              n.toNat + chunkOf offset len n := by
            have := len.toNat_lt
            rw [UInt32.toNat_add, UInt32.toNat_ofNat']
            omega
          have ready' := wrote.grows.ready ready
          have owned' := wrote.grows.owned owned
          have live' : (u.catfs.inodes idx).type ≠ typeFree := by
            rw [wrote.grows.only.type_eq]
            exact live
          obtain ⟨w', n', hrest, spec⟩ := ih ready' owned' live'
            (n + UInt32.ofNat (chunkOf offset len n)) (by omega) (by omega) (by omega)
            (by
              intro m
              rw [Nat.sub_self]
              exact Wrote.of_fills (Run.nil u) owned' m _)
            (by
              rw [UInt32.toNat_add]
              omega)
          have hle := spec.le
          have moved : n' ≠ n := by
            rintro rfl
            omega
          refine ⟨w', n', hloop.trans hrest, ⟨by omega, spec.le_len, Or.inr ?_, ?_,
            iff_of_true moved ⟨more, small, room⟩, fun h => absurd h moved, fun S covers card total => ?_,
            fun present => ?_, fun _ free blk lo hi hsmall empty => ?_⟩⟩
          · rcases spec.bound with rfl | hb
            · omega
            · exact hb
          · rw [hsum] at wrote
            have rest := spec.wrote
            rw [hnext] at rest
            have split : n'.toNat - n.toNat =
                chunkOf offset len n + (n'.toNat - (n.toNat + chunkOf offset len n)) := by omega
            rw [split]
            refine wrote.trans ?_
            have hlo : offset.toNat + (n.toNat + chunkOf offset len n) =
                offset.toNat + n.toNat + chunkOf offset len n := by omega
            have hfun : (fun k => buf (n.toNat + chunkOf offset len n + k)) =
                fun k => buf (n.toNat + (chunkOf offset len n + k)) := by
              funext k
              rw [Nat.add_assoc]
            rw [hlo, hfun] at rest
            exact rest
          · refine spec.complete S (fun blk hlo hhi => ?_) ?_ total
            · exact covers blk (by omega) hhi
            · have sub : ∀ p ∈ ps, p ∈ S := by
                intro p hp
                rw [hps] at hp
                refine covers ((offset + n).toNat / 512) (by omega) (by omega) p ?_
                exact (List.mem_filter.mp hp).1
              have h1 := fills.card_unfilled owned sub
              have h2 := fills.clearBits_add
              have hu : u.unfilled idx S = v.unfilled idx S := by
                unfold World.unfilled
                rw [hslots]
              rw [hu, hcatfs]
              omega
          · have here := present ((offset + n).toNat / 512) (by omega) (by omega) small
            rw [World.fileBlock_of_lt _ _ small] at here
            rw [hps, missing_eq_nil here] at fills
            obtain rfl := Run.eq_of_nil fills
            rw [spec.quiet, hcatfs]
            intro blk hlo hhi hsmall
            have before := present blk (by omega) hhi hsmall
            rw [wrote.grows.fileBlock before]
            exact before
          · by_cases here : w.slots (idx, dataPos ((offset + n).toNat / 512)) = 0
            · -- the first block is missing: it is allocated now
              have grew : Grew w v := fills.grew (hps ▸ missing_ne_nil here)
              obtain ⟨a, before, after⟩ := spec.wrote.grows.grew_left (w := w) (by
                obtain ⟨a, before, after⟩ := grew
                exact ⟨a, before, by rw [hcatfs]; exact after⟩)
              exact ⟨a, before, after⟩
            · rw [hps, missing_eq_nil here] at fills
              obtain rfl := Run.eq_of_nil fills
              have later : (offset + n).toNat / 512 ≠ blk := by
                rintro rfl
                rw [World.fileBlock_of_lt _ _ hsmall] at empty
                exact here empty
              have still : u.fileBlock idx blk = 0 := by
                unfold World.fileBlock at empty ⊢
                rw [hslots]
                exact empty
              refine wrote.grows.grew_right (spec.took ?_ (by rw [hcatfs]; exact free) blk ?_ hi
                hsmall still)
              · refine UInt32.lt_iff_toNat_lt.mpr ?_
                rw [hnext]
                unfold chunkOf
                rw [hsub]
                omega
              · rw [hnext]
                unfold chunkOf
                rw [hsub]
                omega
        · -- no room: the loop ends here, with what it could allocate
          obtain ⟨v, hloop, fills⟩ := writeLoop_noRoom buf ready owned live more small
            (Nat.lt_of_not_le room) fuel
          refine ⟨v, n, hloop, ⟨le_refl _, le, Or.inl rfl, ?_, stops fun h => room h.2.2,
            fun _ => ?_, fun S covers card total => ?_, fun present => ?_,
            fun _ free _ _ _ _ _ => ?_⟩⟩
          · rw [Nat.sub_self]
            exact Wrote.of_fills fills owned _ _
          · by_cases hz : clearBits w.catfs.bitmap = 0
            · rw [hz, List.take_zero] at fills
              exact Or.inl (Run.eq_of_nil fills)
            · exact Or.inr ⟨more, small, hz, Nat.lt_of_not_le room⟩
          · refine absurd ((length_missing_le fun q hq => ?_).trans card) room
            exact covers ((offset + n).toNat / 512) (by omega) (by omega) q hq
          · have here := present ((offset + n).toNat / 512) (by omega) (by omega) small
            rw [World.fileBlock_of_lt _ _ small] at here
            rw [missing_eq_nil here] at room
            exact absurd (Nat.zero_le _) room
          · refine fills.grew fun nil => ?_
            rcases List.take_eq_nil_iff.mp nil with none | none
            · exact free none
            · rw [none] at room
              exact room (Nat.zero_le _)
      · refine ⟨w, n, writeLoop_tooLong (Nat.le_of_not_lt small) fuel, ⟨le_refl _, le, Or.inl rfl,
          stay, stops fun h => small h.2.1, fun _ => Or.inl rfl, fun S covers card total => ?_,
          fun _ => rfl, fun _ _ blk lo _ hsmall _ => ?_⟩⟩
        · omega
        · omega
    · have : ¬n.toNat < len.toNat := fun h => more (UInt32.lt_iff_toNat_lt.mpr h)
      refine ⟨w, n, writeLoop_done more fuel, ⟨le_refl _, le, Or.inl rfl, stay,
        stops fun h => more h.1, fun _ => Or.inl rfl, fun _ _ _ _ => UInt32.toNat_inj.mp (by omega),
        fun _ => rfl, fun h => absurd h more⟩⟩

end Loop

/-! ### The read loop -/

section Read

variable {idx : Fin 256} {offset len : UInt32}

/-- Two volumes with the same block map and the same contents read the same. -/
theorem readLoop_congr {w v : World} (ready : Ready w) (owned : w.Owned) (ready' : Ready v)
    (owned' : v.Owned) (same : v.slots = w.slots)
    (blocks : ∀ b, blockOf v.sector b = blockOf w.sector b) (fuel : Nat) (done : UInt32)
    (acc : List UInt8) :
    readLoop v idx offset len fuel done acc = readLoop w idx offset len fuel done acc := by
  have hfile : ∀ blk, v.fileBlock idx blk = w.fileBlock idx blk := by
    intro blk
    unfold World.fileBlock
    rw [same]
  induction fuel generalizing done acc with
  | zero => rfl
  | succ fuel ih =>
    rw [readLoop, readLoop]
    by_cases hlt : ¬done < len
    · rw [if_pos hlt, if_pos hlt]
    · rw [if_neg hlt, if_neg hlt]
      simp only [resolveBlock_find ready owned, resolveBlock_find ready' owned', found, hfile]
      by_cases hz : w.fileBlock idx ((offset + done).toNat / blockSize) = 0
      · simp only [hz, if_true]
      · have small : (w.fileBlock idx ((offset + done).toNat / blockSize)).toNat < 16384 := by
          have hlt := World.lt_of_fileBlock hz
          rw [World.fileBlock_of_lt _ _ hlt]
          exact owned.lt (idx, dataPos ((offset + done).toNat / blockSize))
        simp only [hz, if_false, ready.readBlock small, ready'.readBlock small, blocks]
        exact ih _ _

/-- One iteration over an allocated block appends bytes of the file. -/
theorem readLoop_mapped {w : World} (ready : Ready w) (owned : w.Owned) {done : UInt32}
    (more : done < len) (nowrap : offset.toNat + done.toNat < 4294967296)
    (here : w.fileBlock idx ((offset.toNat + done.toNat) / 512) ≠ 0) (fuel : Nat)
    (acc : List UInt8) :
    ∃ chunk, 0 < chunk ∧ (done + UInt32.ofNat chunk).toNat = done.toNat + chunk ∧
      done.toNat + chunk ≤ len.toNat ∧
      readLoop w idx offset len (fuel + 1) done acc =
        readLoop w idx offset len fuel (done + UInt32.ofNat chunk)
          (acc ++ (List.range chunk).map fun k =>
            w.byte idx (offset.toNat + done.toNat + k)) := by
  have moreNat : done.toNat < len.toNat := UInt32.lt_iff_toNat_lt.mp more
  have hsum : (offset + done).toNat = offset.toNat + done.toNat := by
    rw [UInt32.toNat_add]
    omega
  have small : (w.fileBlock idx ((offset.toNat + done.toNat) / 512)).toNat < 16384 := by
    rw [World.fileBlock_of_lt _ _ (World.lt_of_fileBlock here)]
    exact owned.lt (idx, dataPos ((offset.toNat + done.toNat) / 512))
  have hsub : (len - done).toNat = len.toNat - done.toNat :=
    UInt32.toNat_sub_of_le _ _ (UInt32.le_iff_toNat_le.mpr (by omega))
  have hfind : resolveBlock w idx ((offset + done).toNat / blockSize) false =
      found w (w.fileBlock idx ((offset.toNat + done.toNat) / 512)) := by
    rw [resolveBlock_find ready owned, hsum]
    rfl
  have hmod : (offset + done).toNat % blockSize = (offset.toNat + done.toNat) % 512 := by
    rw [hsum]
    rfl
  rw [readLoop, if_neg (not_not.mpr more)]
  simp only [hfind, found, here, if_false, ready.readBlock small, hmod, hsub]
  generalize hchunk : min (len.toNat - done.toNat)
    (blockSize - (offset.toNat + done.toNat) % 512) = chunk
  have hbs : blockSize = 512 := rfl
  rw [hbs] at hchunk
  refine ⟨chunk, by omega, ?_, by omega, ?_⟩
  · have := len.toNat_lt
    rw [UInt32.toNat_add, UInt32.toNat_ofNat']
    omega
  · congr 2
    refine List.map_congr_left fun k hk => ?_
    have hk' := List.mem_range.mp hk
    have hdiv : (offset.toNat + done.toNat + k) / 512 = (offset.toNat + done.toNat) / 512 := by
      omega
    have hmod' : (offset.toNat + done.toNat + k) % 512 =
        (offset.toNat + done.toNat) % 512 + k := by omega
    unfold World.byte
    rw [hdiv, hmod']

theorem readLoop_spec {w : World} (ready : Ready w) (owned : w.Owned) (fuel : Nat) (done : UInt32)
    (acc : List UInt8) (enough : len.toNat ≤ done.toNat + fuel) (le : done.toNat ≤ len.toNat)
    (nowrap : offset.toNat + len.toNat < 4294967296)
    (mapped : ∀ k, offset.toNat ≤ k → k < offset.toNat + len.toNat →
      w.fileBlock idx (k / 512) ≠ 0) :
    readLoop w idx offset len fuel done acc = acc ++
      (List.range (len.toNat - done.toNat)).map fun k =>
        w.byte idx (offset.toNat + done.toNat + k) := by
  induction fuel generalizing done acc with
  | zero =>
    have : len.toNat - done.toNat = 0 := by omega
    simp [readLoop, this]
  | succ fuel ih =>
    by_cases hlt : done < len
    · have hltNat : done.toNat < len.toNat := UInt32.lt_iff_toNat_lt.mp hlt
      obtain ⟨chunk, pos, next, inside, iteration⟩ := readLoop_mapped ready owned hlt (by omega)
        (mapped (offset.toNat + done.toNat) (by omega) (by omega)) fuel acc
      rw [iteration, ih (done + UInt32.ofNat chunk) _ (by omega) (by omega), next,
        List.append_assoc]
      congr 1
      -- the chunk and the rest make up the range
      have hsplit : len.toNat - done.toNat = chunk + (len.toNat - (done.toNat + chunk)) := by omega
      rw [hsplit, List.range_add, List.map_append, List.map_map]
      congr 1
      refine List.map_congr_left fun k _ => ?_
      simp only [Function.comp_apply]
      congr 1
      omega
    · have : len.toNat - done.toNat = 0 := by
        have : ¬done.toNat < len.toNat := fun h => hlt (UInt32.lt_iff_toNat_lt.mpr h)
        omega
      rw [readLoop, if_pos hlt, this]
      simp

/-- The loop only appends. -/
theorem readLoop_appends (w : World) (fuel : Nat) (done : UInt32) (acc : List UInt8) :
    acc <+: readLoop w idx offset len fuel done acc := by
  induction fuel generalizing done acc with
  | zero => exact List.prefix_refl acc
  | succ fuel ih =>
    rw [readLoop]
    split
    · exact List.prefix_refl acc
    · dsimp only
      split
      · exact List.prefix_refl acc
      · split
        · exact List.prefix_refl acc
        · exact (List.prefix_append acc _).trans (ih _ _)

/-- What the loop reports of the first `m` bytes asked for, if they lie in
allocated blocks, whatever happens behind them. -/
theorem readLoop_reports {w : World} (ready : Ready w) (owned : w.Owned) {m : Nat}
    (within : m ≤ len.toNat) (nowrap : offset.toNat + m ≤ 4294967296)
    (mapped : ∀ k, k < m → w.fileBlock idx ((offset.toNat + k) / 512) ≠ 0) (fuel : Nat)
    (done : UInt32) (acc : List UInt8) (enough : len.toNat ≤ done.toNat + fuel)
    (count : acc.length = done.toNat)
    (good : ∀ k, k < acc.length → acc[k]? = some (w.byte idx (offset.toNat + k))) :
    ∀ k, k < m →
      (readLoop w idx offset len fuel done acc)[k]? = some (w.byte idx (offset.toNat + k)) := by
  have reached : ∀ {fuel : Nat} {done : UInt32} {acc : List UInt8}, m ≤ acc.length →
      (∀ k, k < acc.length → acc[k]? = some (w.byte idx (offset.toNat + k))) → ∀ k, k < m →
      (readLoop w idx offset len fuel done acc)[k]? = some (w.byte idx (offset.toNat + k)) := by
    intro fuel done acc all good k hk
    obtain ⟨rest, appended⟩ : acc <+: readLoop w idx offset len fuel done acc :=
      readLoop_appends w fuel done acc
    rw [← appended, List.getElem?_append_left (by omega)]
    exact good k (by omega)
  induction fuel generalizing done acc with
  | zero => exact reached (by omega) good
  | succ fuel ih =>
    by_cases all : m ≤ acc.length
    · exact reached all good
    · have more : done < len := UInt32.lt_iff_toNat_lt.mpr (by omega)
      obtain ⟨chunk, pos, next, inside, iteration⟩ := readLoop_mapped ready owned more (by omega)
        (mapped done.toNat (by omega)) fuel acc
      rw [iteration]
      refine ih _ _ (by omega) (by simp [count, next]) fun k hk => ?_
      rw [List.length_append, List.length_map, List.length_range] at hk
      rw [List.getElem?_append]
      split
      · exact good k ‹_›
      · rw [List.getElem?_map, List.getElem?_range (by omega), Option.map_some]
        congr 2
        omega

/-- The loop returns no more than it was asked for. -/
theorem length_readLoop_le (w : World) (fuel : Nat) (done : UInt32) (acc : List UInt8)
    (count : acc.length = done.toNat) (le : done.toNat ≤ len.toNat) :
    (readLoop w idx offset len fuel done acc).length ≤ len.toNat := by
  induction fuel generalizing done acc with
  | zero => exact count.trans_le le
  | succ fuel ih =>
    rw [readLoop]
    by_cases more : done < len
    · rw [if_neg (not_not.mpr more)]
      dsimp only
      split
      · exact count.trans_le le
      · split
        · exact count.trans_le le
        · have hsub : (len - done).toNat = len.toNat - done.toNat :=
            UInt32.toNat_sub_of_le _ _ (UInt32.le_iff_toNat_le.mpr le)
          have top := len.toNat_lt
          generalize hchunk : min (len - done).toNat
            (blockSize - (offset + done).toNat % blockSize) = chunk
          have next : (done + UInt32.ofNat chunk).toNat = done.toNat + chunk := by
            rw [UInt32.toNat_add, UInt32.toNat_ofNat']
            omega
          refine ih _ _ ?_ (by omega)
          rw [List.length_append, List.length_map, List.length_range, count, next]
    · rw [if_pos more]
      exact count.trans_le le

end Read

end AtmKoala.Catfs
